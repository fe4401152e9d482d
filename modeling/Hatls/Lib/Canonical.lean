import Hatls.Lib.Json
import Hatls.Lib.PrefixCode

/-!
# Canonical texts determine values

`json.dumps` with sorted keys writes two dictionaries alike that differ in the order of their
items, and tells all other values apart.  Texts, numbers, lists and dictionaries are read off
the front of what is written, so the canonical bytes of a value determine it up to that order.

## Main definitions

* `Json.normal` — a value with its dictionaries in the order of their keys.
* `Json.canonical_eq_iff` — equal canonical bytes are equal normal values.
-/

namespace Json

/-! ## Texts -/

/-- The number four hexadecimal digits spell. -/
def read16 (a b c d : Char) : ℕ :=
  4096 * (Bytes.hexValue a).getD 0 + 256 * (Bytes.hexValue b).getD 0 +
    16 * (Bytes.hexValue c).getD 0 + (Bytes.hexValue d).getD 0

/-- The character a letter after a backslash stands for. -/
def letter (e : Char) : Char :=
  if e = 'n' then '\n' else if e = 'r' then '\r' else if e = 't' then '\t'
  else if e = 'f' then Char.ofNat 12 else if e = 'b' then Char.ofNat 8 else e

/-- The second half of a surrogate pair. -/
def unescapeLow (high : ℕ) : List Char → Option (Char × List Char)
  | _ :: _ :: a :: b :: c :: d :: rest =>
    some (Char.ofNat (65536 + (high - 55296) * 1024 + (read16 a b c d - 56320)), rest)
  | _ => none

/-- The character four digits after `\u` begin. -/
def unescape16 : List Char → Option (Char × List Char)
  | a :: b :: c :: d :: rest =>
    if 55296 ≤ read16 a b c d ∧ read16 a b c d < 56320 then unescapeLow (read16 a b c d) rest
    else some (Char.ofNat (read16 a b c d), rest)
  | _ => none

/-- The character after a backslash. -/
def unescapeTail : List Char → Option (Char × List Char)
  | [] => none
  | e :: rest => if e = 'u' then unescape16 rest else some (letter e, rest)

/-- The first character of a quoted text, and the rest of it. -/
def unescape : List Char → Option (Char × List Char)
  | [] => none
  | c :: rest => if c ≠ '\\' then some (c, rest) else unescapeTail rest

theorem toList_escape16 (n : ℕ) : (escape16 n).toList =
    ['\\', 'u', Bytes.hexDigit (n / 4096 % 16), Bytes.hexDigit (n / 256 % 16),
      Bytes.hexDigit (n / 16 % 16), Bytes.hexDigit (n % 16)] := String.toList_ofList

theorem read16_hexDigit {n : ℕ} (h : n < 65536) :
    read16 (Bytes.hexDigit (n / 4096 % 16)) (Bytes.hexDigit (n / 256 % 16))
      (Bytes.hexDigit (n / 16 % 16)) (Bytes.hexDigit (n % 16)) = n := by
  rw [read16, Bytes.hexValue_hexDigit _ (Nat.mod_lt _ (by omega)),
    Bytes.hexValue_hexDigit _ (Nat.mod_lt _ (by omega)),
    Bytes.hexValue_hexDigit _ (Nat.mod_lt _ (by omega)),
    Bytes.hexValue_hexDigit _ (Nat.mod_lt _ (by omega))]
  simp only [Option.getD_some]
  omega

/-- No character is a surrogate. -/
theorem toNat_not_surrogate (c : Char) :
    c.toNat < 55296 ∨ (57343 < c.toNat ∧ c.toNat < 1114112) := by
  have hvalid : c.val.toNat.isValidChar := c.valid
  exact hvalid

/-- The word of a character. -/
def escaped (c : Char) : List Char := (escapeChar c).toList

/-- The letters that stand for a character after a backslash. -/
def escapeLetters : List Char := ['"', '\\', 'n', 'r', 't', 'f', 'b']

/-- **How a character is written**: by a letter, by itself, by its number, or by two. -/
theorem escaped_cases (c : Char) :
    (∃ e ∈ escapeLetters, escaped c = ['\\', e] ∧ letter e = c) ∨
      (c ≠ '\\' ∧ 32 ≤ c.toNat ∧ c.toNat ≤ 126 ∧ escaped c = [c]) ∨
      (c.toNat < 65536 ∧ escaped c = (escape16 c.toNat).toList) ∨
      (65536 ≤ c.toNat ∧ escaped c = (escape16 (55296 + (c.toNat - 65536) / 1024)).toList ++
        (escape16 (56320 + (c.toNat - 65536) % 1024)).toList) := by
  simp only [escaped, escapeChar]
  by_cases hquote : c = '"'
  · exact .inl ⟨'"', by decide, by rw [if_pos hquote]; rfl, hquote.symm⟩
  by_cases hback : c = '\\'
  · exact .inl ⟨'\\', by decide, by rw [if_neg hquote, if_pos hback]; rfl, hback.symm⟩
  by_cases hn : c = '\n'
  · subst hn
    exact .inl ⟨'n', by decide, rfl, rfl⟩
  by_cases hr : c = '\r'
  · subst hr
    exact .inl ⟨'r', by decide, rfl, rfl⟩
  by_cases ht : c = '\t'
  · subst ht
    exact .inl ⟨'t', by decide, rfl, rfl⟩
  by_cases hf : c.toNat = 12
  · rw [← Char.ofNat_toNat c, hf]
    exact .inl ⟨'f', by decide, rfl, rfl⟩
  by_cases hb : c.toNat = 8
  · rw [← Char.ofNat_toNat c, hb]
    exact .inl ⟨'b', by decide, rfl, rfl⟩
  rw [if_neg hquote, if_neg hback, if_neg hn, if_neg hr, if_neg ht, if_neg hf, if_neg hb]
  by_cases hprint : 32 ≤ c.toNat ∧ c.toNat ≤ 126
  · rw [if_pos hprint]
    exact .inr (.inl ⟨hback, hprint.1, hprint.2, String.toList_singleton c⟩)
  rw [if_neg hprint]
  by_cases hbmp : c.toNat < 65536
  · rw [if_pos hbmp]
    exact .inr (.inr (.inl ⟨hbmp, rfl⟩))
  · rw [if_neg hbmp, String.toList_append]
    exact .inr (.inr (.inr ⟨by omega, rfl⟩))

/-- A number that is not the first half of a pair. -/
theorem unescape_escape16 {n : ℕ} (hn : n < 65536) (hhigh : ¬ (55296 ≤ n ∧ n < 56320)) (s : List Char) :
    unescape ((escape16 n).toList ++ s) = some (Char.ofNat n, s) := by
  rw [toList_escape16]
  simp only [List.cons_append, List.nil_append, unescape, unescapeTail, unescape16, ne_eq,
    not_true_eq_false, if_false, if_true, read16_hexDigit hn, hhigh]

/-- A pair. -/
theorem unescape_pair {n m : ℕ} (hn : 55296 ≤ n ∧ n < 56320) (hm : m < 65536) (s : List Char) :
    unescape ((escape16 n).toList ++ ((escape16 m).toList ++ s)) =
      some (Char.ofNat (65536 + (n - 55296) * 1024 + (m - 56320)), s) := by
  rw [toList_escape16, toList_escape16]
  simp only [List.cons_append, List.nil_append, unescape, unescapeTail, unescape16, unescapeLow, ne_eq,
    not_true_eq_false, if_false, if_true, read16_hexDigit (show n < 65536 by omega),
    read16_hexDigit hm, hn, and_self]

/-- **Reading back an escaped character.** -/
theorem unescape_escaped (c : Char) (s : List Char) : unescape (escaped c ++ s) = some (c, s) := by
  have hsur := toNat_not_surrogate c
  rcases escaped_cases c with ⟨e, he, hword, hc⟩ | ⟨hback, _, _, hword⟩ | ⟨hbmp, hword⟩ | ⟨hbig, hword⟩
  · have hletter : ∀ e ∈ escapeLetters, e ≠ 'u' := by simp [escapeLetters]
    rw [hword, ← hc]
    exact if_neg (hletter e he)
  · rw [hword]
    exact if_pos hback
  · rw [hword, unescape_escape16 hbmp (by omega), Char.ofNat_toNat]
  · have hsum : 65536 + (55296 + (c.toNat - 65536) / 1024 - 55296) * 1024 +
        (56320 + (c.toNat - 65536) % 1024 - 56320) = c.toNat := by
      omega
    rw [hword, List.append_assoc, unescape_pair (by omega) (by omega), hsum, Char.ofNat_toNat]

theorem readsOff_escaped (c : Char) : ReadsOff (fun _ => True) escaped id c :=
  .of_decode unescape_escaped c

/-- A quotation mark within a text is escaped. -/
theorem neverOpens_escaped : NeverOpens '"' escaped := by
  intro c s t heq
  have hdec := unescape_escaped c s
  have hquote : unescape ('"' :: t) = some ('"', t) := rfl
  rw [heq, hquote] at hdec
  obtain rfl := (Prod.mk.inj (Option.some.inj hdec)).1
  cases heq

theorem toList_quote (s : String) : (quote s).toList = '"' :: (s.toList.flatMap escaped ++ ['"']) := by
  simp only [quote, String.toList_append, String.toList_join, List.flatMap_map]
  rfl

/-- **A quoted text is read off.** -/
theorem readsOff_quote (s : String) : ReadsOff (fun _ => True) (fun s => (quote s).toList) id s := by
  intro s' t t' _ _ heq
  simp only [toList_quote, List.cons_append, List.append_assoc, List.nil_append] at heq
  have hchars : ∀ c ∈ s.toList, ReadsOff (fun _ => True) escaped id c :=
    fun c _ => readsOff_escaped c
  obtain ⟨hlist, ht⟩ := ReadsOff.flatMap neverOpens_escaped (fun _ _ => trivial) hchars s'.toList t t'
    (List.cons.inj heq).2
  rw [List.map_id, List.map_id] at hlist
  exact ⟨String.toList_inj.mp hlist, ht⟩

/-! ## Numbers -/

/-- What may follow a number: no digit. -/
def Ends (s : List Char) : Prop := ∀ c t, s = c :: t → c.isDigit = false

theorem takeWhile_digits (n : ℕ) {s : List Char} (hs : Ends s) :
    (Nat.toDigits 10 n ++ s).takeWhile Char.isDigit = Nat.toDigits 10 n := by
  have hdigits : ∀ c ∈ Nat.toDigits 10 n, c.isDigit = true := by
    intro c hc
    exact Nat.isDigit_of_mem_toDigits (by omega) (by omega) hc
  rw [List.takeWhile_append_of_pos hdigits]
  cases s with
  | nil => simp
  | cons c t =>
      rw [List.takeWhile_cons, hs c t rfl]
      simp

theorem readsOff_digits (n : ℕ) : ReadsOff Ends (Nat.toDigits 10) id n := by
  intro m s t hs ht heq
  have htake := congrArg (List.takeWhile Char.isDigit) heq
  rw [takeWhile_digits n hs, takeWhile_digits m ht] at htake
  have hnm : n = m := by
    calc n = Nat.ofDigitChars 10 (Nat.toDigits 10 n) 0 := Nat.ofDigitChars_ten_toDigits.symm
      _ = Nat.ofDigitChars 10 (Nat.toDigits 10 m) 0 := by rw [htake]
      _ = m := Nat.ofDigitChars_ten_toDigits
  subst hnm
  exact ⟨rfl, List.append_cancel_left heq⟩

theorem exists_toDigits_eq (n : ℕ) : ∃ c cs, Nat.toDigits 10 n = c :: cs ∧ c.isDigit = true := by
  cases h : Nat.toDigits 10 n with
  | nil => exact absurd h Nat.toDigits_ne_nil
  | cons c cs =>
      have hc : c ∈ Nat.toDigits 10 n := by simp [h]
      exact ⟨c, cs, rfl, Nat.isDigit_of_mem_toDigits (by omega) (by omega) hc⟩

theorem toList_ofNat (n : ℕ) : (toString (Int.ofNat n)).toList = Nat.toDigits 10 n := Nat.toList_repr

theorem toList_negSucc (n : ℕ) :
    (toString (Int.negSucc n)).toList = '-' :: Nat.toDigits 10 (n + 1) := by
  have h : toString (Int.negSucc n) = "-" ++ Nat.repr (n + 1) := rfl
  rw [h, String.toList_append, Nat.toList_repr]
  rfl

theorem readsOff_int (i : ℤ) : ReadsOff Ends (fun i : ℤ => (toString i).toList) id i := by
  intro j s t hs ht heq
  cases i with
  | ofNat n =>
      cases j with
      | ofNat m =>
          simp only [toList_ofNat] at heq
          obtain ⟨hnm, hst⟩ := readsOff_digits n m s t hs ht heq
          exact ⟨congrArg Int.ofNat hnm, hst⟩
      | negSucc m =>
          obtain ⟨c, cs, hcs, hc⟩ := exists_toDigits_eq n
          simp only [toList_ofNat, toList_negSucc, hcs, List.cons_append] at heq
          rw [(List.cons.inj heq).1] at hc
          cases hc
  | negSucc n =>
      cases j with
      | ofNat m =>
          obtain ⟨c, cs, hcs, hc⟩ := exists_toDigits_eq m
          simp only [toList_ofNat, toList_negSucc, hcs, List.cons_append] at heq
          rw [← (List.cons.inj heq).1] at hc
          cases hc
      | negSucc m =>
          simp only [toList_negSucc, List.cons_append] at heq
          obtain ⟨hnm, hst⟩ := readsOff_digits (n + 1) (m + 1) s t hs ht (List.cons.inj heq).2
          exact ⟨congrArg Int.negSucc (Nat.succ.inj hnm), hst⟩

/-! ## Values -/

/-- Items in the order of their keys. -/
def sorted {A : Type} (fields : List (String × A)) : List (String × A) :=
  fields.insertionSort fun a b => a.1 ≤ b.1

mutual

/-- A value with the items of every dictionary in the order of their keys. -/
def normal : Json → Json
  | arr xs => arr (normalList xs)
  | obj fields => obj (sorted (normalFields fields))
  | j => j

def normalList : List Json → List Json
  | [] => []
  | x :: xs => normal x :: normalList xs

def normalFields : List (String × Json) → List (String × Json)
  | [] => []
  | (k, x) :: xs => (k, normal x) :: normalFields xs

end

theorem normalList_eq (xs : List Json) : normalList xs = xs.map normal := by
  induction xs with
  | nil => rfl
  | cons x xs ih => rw [normalList, ih, List.map_cons]

theorem normalFields_eq (fields : List (String × Json)) :
    normalFields fields = fields.map fun kv => (kv.1, normal kv.2) := by
  induction fields with
  | nil => rfl
  | cons kv fields ih => rw [normalFields, ih, List.map_cons]

theorem dumpsList_eq (xs : List Json) : dumpsList xs = xs.map dumps := by
  induction xs with
  | nil => rfl
  | cons x xs ih => rw [dumpsList, ih, List.map_cons]

theorem dumpsFields_eq (fields : List (String × Json)) :
    dumpsFields fields = fields.map fun kv => (kv.1, dumps kv.2) := by
  induction fields with
  | nil => rfl
  | cons kv fields ih => rw [dumpsFields, ih, List.map_cons]

/-- The order is that of the keys, so it does not matter what they hold. -/
theorem sorted_map {A B : Type} (f : A → B) (fields : List (String × A)) :
    sorted (fields.map fun kv => (kv.1, f kv.2)) = (sorted fields).map fun kv => (kv.1, f kv.2) :=
  (List.map_insertionSort (fun a b : String × A => a.1 ≤ b.1) (fun a b : String × B => a.1 ≤ b.1)
    (fun kv => (kv.1, f kv.2)) fields fun _ _ _ _ => Iff.rfl).symm

theorem sorted_sorted {A : Type} (fields : List (String × A)) : sorted (sorted fields) = sorted fields := by
  have htotal : Std.Total fun a b : String × A => a.1 ≤ b.1 := ⟨fun a b => String.le_total a.1 b.1⟩
  have htrans : IsTrans (String × A) fun a b => a.1 ≤ b.1 := ⟨fun _ _ _ => String.le_trans⟩
  exact (List.pairwise_insertionSort _ fields).insertionSort_eq

theorem mem_sorted {A : Type} {fields : List (String × A)} {kv : String × A} :
    kv ∈ sorted fields ↔ kv ∈ fields := List.mem_insertionSort _

/-- What is written for a value. -/
def written (j : Json) : List Char := j.dumps.toList

/-- What is written for an item. -/
def writtenItem (kv : String × Json) : List Char := (quote kv.1).toList ++ ':' :: written kv.2

theorem written_arr (xs : List Json) :
    written (arr xs) = '[' :: ([','].intercalate (xs.map written) ++ [']']) := by
  simp only [written, dumps, dumpsList_eq, String.toList_append, String.toList_intercalate,
    List.map_map]
  rfl

theorem written_obj (fields : List (String × Json)) :
    written (obj fields) = '\x7b' :: ([','].intercalate ((sorted fields).map writtenItem) ++ ['\x7d']) := by
  have hsort : ((dumpsFields fields).insertionSort fun a b => a.1 ≤ b.1) =
      (sorted fields).map fun kv => (kv.1, dumps kv.2) := by
    rw [dumpsFields_eq]
    exact sorted_map dumps fields
  have hitems : (sorted fields).map (String.toList ∘ (fun kv : String × String =>
      quote kv.1 ++ ":" ++ kv.2) ∘ fun kv : String × Json => (kv.1, kv.2.dumps)) =
      (sorted fields).map writtenItem := by
    apply List.map_congr_left
    intro kv _
    simp [writtenItem, written]
  simp only [written, dumps, hsort, String.toList_append, String.toList_intercalate, List.map_map]
  rw [hitems]
  rfl

/-! ### Reading values off -/

/-- The character a value begins with; a number begins with a digit or a sign. -/
def lead : Json → Char
  | null => 'n'
  | bool true => 't'
  | bool false => 'f'
  | int _ => '0'
  | str _ => '"'
  | arr _ => '['
  | obj _ => '\x7b'

/-- A digit or a sign begins a number. -/
def leadOf (c : Char) : Char := if c.isDigit = true ∨ c = '-' then '0' else c

theorem exists_written (j : Json) : ∃ c cs, written j = c :: cs ∧ leadOf c = lead j := by
  cases j with
  | null => exact ⟨'n', _, rfl, by decide⟩
  | bool b =>
      cases b with
      | true => exact ⟨'t', _, rfl, by decide⟩
      | false => exact ⟨'f', _, rfl, by decide⟩
  | int i =>
      cases i with
      | ofNat n =>
          obtain ⟨c, cs, hcs, hc⟩ := exists_toDigits_eq n
          exact ⟨c, cs, (toList_ofNat n).trans hcs, if_pos (.inl hc)⟩
      | negSucc n => exact ⟨'-', _, toList_negSucc n, rfl⟩
  | str s => exact ⟨'"', _, toList_quote s, rfl⟩
  | arr xs => exact ⟨'[', _, written_arr xs, rfl⟩
  | obj fields => exact ⟨'\x7b', _, written_obj fields, rfl⟩

/-- What two values write begins alike only if they are of one kind. -/
theorem lead_eq {x y : Json} {s t : List Char} (h : written x ++ s = written y ++ t) :
    lead x = lead y := by
  obtain ⟨c, cs, hcs, hc⟩ := exists_written x
  obtain ⟨d, ds, hds, hd⟩ := exists_written y
  rw [hcs, hds, List.cons_append, List.cons_append] at h
  rw [← hc, ← hd, (List.cons.inj h).1]

theorem neverOpens_written : NeverOpens ']' written := by
  intro j s t heq
  obtain ⟨c, cs, hcs, hc⟩ := exists_written j
  rw [hcs, List.cons_append] at heq
  have hmark : leadOf ']' = ']' := by decide
  rw [(List.cons.inj heq).1, hmark] at hc
  cases j with
  | bool b => cases b <;> cases hc
  | _ => cases hc

theorem neverOpens_writtenItem : NeverOpens '\x7d' writtenItem := by
  intro kv s t heq
  rw [writtenItem, toList_quote] at heq
  exact absurd (List.cons.inj heq).1 (by decide)

theorem ends_cons {c : Char} (hc : c.isDigit = false) (s : List Char) : Ends (c :: s) := by
  intro d t heq
  rw [← (List.cons.inj heq).1]
  exact hc

/-- An item whose value is read off is read off. -/
theorem readsOff_writtenItem {kv : String × Json} (h : ReadsOff Ends written normal kv.2) :
    ReadsOff Ends writtenItem (fun kv => (kv.1, normal kv.2)) kv := by
  intro kv' s t hs ht heq
  simp only [writtenItem, List.append_assoc] at heq
  obtain ⟨hkey, heq⟩ := readsOff_quote kv.1 kv'.1 _ _ trivial trivial heq
  obtain ⟨hvalue, hst⟩ := h kv'.2 s t hs ht (List.cons.inj heq).2
  exact ⟨Prod.ext hkey hvalue, hst⟩

/-- **A value is read off what is written for it**, up to the order in its dictionaries. -/
theorem readsOff_written (x : Json) : ReadsOff Ends written normal x := by
  intro y s t hs ht heq
  have hlead := lead_eq heq
  match x with
  | null =>
      cases y with
      | null => exact ⟨rfl, List.append_cancel_left heq⟩
      | bool b => cases b <;> cases hlead
      | _ => cases hlead
  | bool b =>
      cases y with
      | bool b' =>
          have hb : b = b' := by cases b <;> cases b' <;> first | rfl | cases hlead
          subst hb
          exact ⟨rfl, List.append_cancel_left heq⟩
      | _ => cases b <;> cases hlead
  | int i =>
      cases y with
      | int j =>
          obtain ⟨hij, hst⟩ := readsOff_int i j s t hs ht heq
          exact ⟨congrArg int hij, hst⟩
      | bool b => cases b <;> cases hlead
      | _ => cases hlead
  | str a =>
      cases y with
      | str b =>
          obtain ⟨hab, hst⟩ := readsOff_quote a b s t trivial trivial heq
          exact ⟨congrArg str hab, hst⟩
      | bool b => cases b <;> cases hlead
      | _ => cases hlead
  | arr xs =>
      cases y with
      | arr ys =>
          have hmem : ∀ a ∈ xs, ReadsOff Ends written normal a := fun a ha => readsOff_written a
          rw [written_arr, written_arr] at heq
          simp only [List.cons_append, List.append_assoc, List.nil_append] at heq
          obtain ⟨hvals, hst⟩ := ReadsOff.intercalate (by decide) neverOpens_written
            (ends_cons (by decide)) (ends_cons (by decide)) hmem ys s t (List.cons.inj heq).2
          exact ⟨by rw [normal, normal, normalList_eq, normalList_eq, hvals], hst⟩
      | bool b => cases b <;> cases hlead
      | _ => cases hlead
  | obj fields =>
      cases y with
      | obj fields' =>
          have hmem : ∀ kv ∈ sorted fields,
              ReadsOff Ends writtenItem (fun kv => (kv.1, normal kv.2)) kv := by
            intro kv hkv
            have hin : kv ∈ fields := mem_sorted.mp hkv
            exact readsOff_writtenItem (readsOff_written kv.2)
          rw [written_obj, written_obj] at heq
          simp only [List.cons_append, List.append_assoc, List.nil_append] at heq
          obtain ⟨hvals, hst⟩ := ReadsOff.intercalate (by decide) neverOpens_writtenItem
            (ends_cons (by decide)) (ends_cons (by decide)) hmem (sorted fields') s t
            (List.cons.inj heq).2
          exact ⟨by rw [normal, normal, normalFields_eq, normalFields_eq, sorted_map, sorted_map, hvals],
            hst⟩
      | bool b => cases b <;> cases hlead
      | _ => cases hlead
termination_by sizeOf x
decreasing_by
  · have hlt := List.sizeOf_lt_of_mem ha
    simp only [arr.sizeOf_spec]
    omega
  · have hlt := List.sizeOf_lt_of_mem hin
    obtain ⟨k, v⟩ := kv
    simp only [obj.sizeOf_spec, Prod.mk.sizeOf_spec] at hlt ⊢
    omega

/-- The order of the items does not show. -/
theorem dumps_normal (x : Json) : (normal x).dumps = x.dumps := by
  match x with
  | null => rfl
  | bool b => rfl
  | int i => rfl
  | str s => rfl
  | arr xs =>
      have hmem : xs.map (dumps ∘ normal) = xs.map dumps :=
        List.map_congr_left fun a ha => dumps_normal a
      rw [normal, normalList_eq, dumps, dumps, dumpsList_eq, dumpsList_eq, List.map_map, hmem]
  | obj fields =>
      have hmem : fields.map (fun kv => (kv.1, (normal kv.2).dumps)) =
          fields.map fun kv => (kv.1, kv.2.dumps) :=
        List.map_congr_left fun kv hin => by rw [dumps_normal kv.2]
      have hfields : (dumpsFields (sorted (normalFields fields))).insertionSort
          (fun a b => a.1 ≤ b.1) = (dumpsFields fields).insertionSort fun a b => a.1 ≤ b.1 := by
        rw [dumpsFields_eq, dumpsFields_eq, normalFields_eq, ← sorted_map, List.map_map, ← hmem]
        exact sorted_sorted _
      rw [normal, dumps, dumps, hfields]
termination_by sizeOf x
decreasing_by
  · have hlt := List.sizeOf_lt_of_mem ha
    simp only [arr.sizeOf_spec]
    omega
  · have hlt := List.sizeOf_lt_of_mem hin
    obtain ⟨k, v⟩ := kv
    simp only [obj.sizeOf_spec, Prod.mk.sizeOf_spec] at hlt ⊢
    omega

/-! ## Bytes -/

/-- A character of seven bits. -/
def Ascii (c : Char) : Prop := c.toNat < 128

instance : DecidablePred Ascii := fun c => inferInstanceAs (Decidable (c.toNat < 128))

theorem ascii_of_all {cs : List Char} (h : cs.all (fun c => decide (Ascii c)) = true) :
    ∀ c ∈ cs, Ascii c := by
  intro c hc
  exact of_decide_eq_true (List.all_eq_true.mp h c hc)

theorem ascii_hexDigit (n : ℕ) : Ascii (Bytes.hexDigit (n % 16)) := by
  have h : ∀ n < 16, Ascii (Bytes.hexDigit n) := by decide
  exact h _ (Nat.mod_lt _ (by omega))

theorem ascii_escape16 (n : ℕ) : ∀ c ∈ (escape16 n).toList, Ascii c := by
  rw [toList_escape16]
  simp only [List.forall_mem_cons, ascii_hexDigit, true_and]
  exact ⟨by decide, by decide, fun c hc => nomatch hc⟩

theorem ascii_escaped (c : Char) : ∀ d ∈ escaped c, Ascii d := by
  intro d hd
  rcases escaped_cases c with ⟨e, he, hword, hc⟩ | ⟨_, _, hprint, hword⟩ | ⟨_, hword⟩ | ⟨_, hword⟩
  · have hletter : ∀ e ∈ escapeLetters, Ascii e := ascii_of_all rfl
    rw [hword, List.mem_cons, List.mem_singleton] at hd
    rcases hd with rfl | rfl
    · decide
    · exact hletter d he
  · rw [hword, List.mem_singleton] at hd
    rw [hd, Ascii]
    omega
  · rw [hword] at hd
    exact ascii_escape16 _ d hd
  · rw [hword, List.mem_append] at hd
    exact hd.elim (ascii_escape16 _ d) (ascii_escape16 _ d)

theorem ascii_quote (s : String) : ∀ c ∈ (quote s).toList, Ascii c := by
  intro c hc
  rw [toList_quote, List.mem_cons, List.mem_append, List.mem_flatMap, List.mem_singleton] at hc
  rcases hc with rfl | ⟨d, -, hd⟩ | rfl
  · decide
  · exact ascii_escaped d c hd
  · decide

theorem ascii_digits (n : ℕ) : ∀ c ∈ Nat.toDigits 10 n, Ascii c := by
  intro c hc
  have hdigit := Nat.isDigit_of_mem_toDigits (by omega) (by omega) hc
  have h9 : ('9' : Char).toNat = 57 := rfl
  have hle := (Char.isDigit_iff_toNat.mp hdigit).2
  rw [Ascii]
  omega

theorem ascii_int (i : ℤ) : ∀ c ∈ (toString i).toList, Ascii c := by
  cases i with
  | ofNat n =>
      rw [toList_ofNat]
      exact ascii_digits n
  | negSucc n =>
      rw [toList_negSucc, List.forall_mem_cons]
      exact ⟨by decide, ascii_digits _⟩

/-- Separated words of such characters. -/
theorem ascii_intercalate {A : Type} {enc : A → List Char} {as : List A}
    (h : ∀ a ∈ as, ∀ c ∈ enc a, Ascii c) : ∀ c ∈ [','].intercalate (as.map enc), Ascii c := by
  intro c hc
  cases as with
  | nil => cases hc
  | cons a as =>
      rw [ReadsOff.intercalate_cons, List.mem_append, List.mem_flatMap] at hc
      rcases hc with hc | ⟨b, hb, hc⟩
      · exact h a List.mem_cons_self c hc
      · rcases List.mem_cons.mp hc with rfl | hc
        · decide
        · exact h b (List.mem_cons_of_mem a hb) c hc

/-- **What is written is ASCII.** -/
theorem ascii_written (x : Json) : ∀ c ∈ written x, Ascii c := by
  match x with
  | null => exact ascii_of_all rfl
  | bool true => exact ascii_of_all rfl
  | bool false => exact ascii_of_all rfl
  | int i => exact ascii_int i
  | str s => exact ascii_quote s
  | arr xs =>
      have hmem : ∀ a ∈ xs, ∀ c ∈ written a, Ascii c := fun a ha => ascii_written a
      intro c hc
      rw [written_arr, List.mem_cons, List.mem_append, List.mem_singleton] at hc
      rcases hc with rfl | hc | rfl
      · decide
      · exact ascii_intercalate hmem c hc
      · decide
  | obj fields =>
      have hmem : ∀ kv ∈ sorted fields, ∀ c ∈ writtenItem kv, Ascii c := by
        intro kv hkv c hc
        have hin : kv ∈ fields := mem_sorted.mp hkv
        rw [writtenItem, List.mem_append, List.mem_cons] at hc
        rcases hc with hc | rfl | hc
        · exact ascii_quote kv.1 c hc
        · decide
        · exact ascii_written kv.2 c hc
      intro c hc
      rw [written_obj, List.mem_cons, List.mem_append, List.mem_singleton] at hc
      rcases hc with rfl | hc | rfl
      · decide
      · exact ascii_intercalate hmem c hc
      · decide
termination_by sizeOf x
decreasing_by
  · have hlt := List.sizeOf_lt_of_mem ha
    simp only [arr.sizeOf_spec]
    omega
  · have hlt := List.sizeOf_lt_of_mem hin
    obtain ⟨k, v⟩ := kv
    simp only [obj.sizeOf_spec, Prod.mk.sizeOf_spec] at hlt ⊢
    omega

/-- The bytes of such characters determine them. -/
theorem ascii_byte_inj {c d : Char} (hc : Ascii c) (hd : Ascii d)
    (h : UInt8.ofNat c.toNat = UInt8.ofNat d.toNat) : c = d := by
  have hc' : c.toNat < 128 := hc
  have hd' : d.toNat < 128 := hd
  have hnat := congrArg UInt8.toNat h
  rw [UInt8.toNat_ofNat_of_lt' (show c.toNat < 256 by omega),
    UInt8.toNat_ofNat_of_lt' (show d.toNat < 256 by omega)] at hnat
  rw [← Char.ofNat_toNat c, hnat, Char.ofNat_toNat]

theorem ascii_bytes_inj {cs ds : List Char} (hcs : ∀ c ∈ cs, Ascii c) (hds : ∀ d ∈ ds, Ascii d)
    (h : cs.map (fun c => UInt8.ofNat c.toNat) = ds.map fun c => UInt8.ofNat c.toNat) : cs = ds := by
  induction cs generalizing ds with
  | nil => exact (List.map_eq_nil_iff.mp h.symm).symm
  | cons c cs ih =>
      cases ds with
      | nil => cases h
      | cons d ds =>
          rw [List.forall_mem_cons] at hcs hds
          obtain ⟨hhead, htail⟩ := List.cons.inj h
          rw [ascii_byte_inj hcs.1 hds.1 hhead, ih hcs.2 hds.2 htail]

/-- **The canonical bytes determine a value**, up to the order of the items in its
dictionaries. -/
theorem canonical_eq_iff {x y : Json} : canonical x = canonical y ↔ normal x = normal y := by
  constructor
  · intro h
    have hwritten : written x = written y :=
      ascii_bytes_inj (ascii_written x) (ascii_written y) h
    have hends : Ends [] := fun c t heq => nomatch heq
    exact (readsOff_written x y [] [] hends hends (by rw [hwritten])).1
  · intro h
    rw [canonical, canonical, ← dumps_normal x, ← dumps_normal y, h]

/-! ## What equal bytes say about the items -/

section Items

variable {fields fields' : List (String × Json)} {key : String}

/-- Where keys occur once, what is found under a key is the item with it. -/
theorem lookup_eq_some_iff {v : Json} (hnodup : (fields.map Prod.fst).Nodup) :
    lookup fields key = some v ↔ (key, v) ∈ fields := by
  induction fields with
  | nil => simp [lookup]
  | cons kv fields ih =>
      obtain ⟨k, x⟩ := kv
      rw [List.map_cons, List.nodup_cons] at hnodup
      obtain ⟨hk, hnodup⟩ := hnodup
      by_cases heq : k = key
      · subst heq
        have hnot : (k, v) ∉ fields := fun hmem => hk (List.mem_map.mpr ⟨_, hmem, rfl⟩)
        simp [lookup, hnot, eq_comm]
      · have hrest : lookup ((k, x) :: fields) key = lookup fields key := by simp [lookup, heq]
        rw [hrest, ih hnodup, List.mem_cons]
        simp [Ne.symm heq]

theorem lookup_perm (hperm : fields.Perm fields') (hnodup : (fields.map Prod.fst).Nodup) :
    lookup fields key = lookup fields' key := by
  ext v
  rw [lookup_eq_some_iff hnodup, lookup_eq_some_iff ((hperm.map Prod.fst).nodup_iff.mp hnodup)]
  exact hperm.mem_iff

theorem lookup_normalFields (fields : List (String × Json)) (key : String) :
    lookup (normalFields fields) key = (lookup fields key).map normal := by
  rw [normalFields_eq, lookup, lookup, List.find?_map, Option.map_map, Option.map_map]
  rfl

theorem map_fst_normalFields (fields : List (String × Json)) :
    (normalFields fields).map Prod.fst = fields.map Prod.fst := by
  rw [normalFields_eq, List.map_map]
  rfl

theorem sorted_perm {A : Type} (fields : List (String × A)) : (sorted fields).Perm fields :=
  List.perm_insertionSort _ fields

/-- **Equal dictionaries hold equal values under every key.** -/
theorem lookup_of_normal_eq (h : normal (obj fields) = normal (obj fields'))
    (hnodup : (fields.map Prod.fst).Nodup) (key : String) :
    (lookup fields key).map normal = (lookup fields' key).map normal := by
  rw [normal, normal] at h
  have hperm : (normalFields fields).Perm (normalFields fields') :=
    (sorted_perm _).symm.trans (obj.inj h ▸ sorted_perm _)
  rw [← lookup_normalFields, ← lookup_normalFields]
  exact lookup_perm hperm (by rwa [map_fst_normalFields])

end Items

theorem normal_eq_int {x : Json} {i : ℤ} (h : normal x = int i) : x = int i := by
  cases x with
  | arr xs => rw [normal] at h; cases h
  | obj fields => rw [normal] at h; cases h
  | _ => exact h

theorem normal_arr_inj {xs ys : List Json} (h : normal (arr xs) = normal (arr ys)) :
    xs.map normal = ys.map normal := by
  rw [normal, normal, normalList_eq, normalList_eq] at h
  exact arr.inj h

end Json
