import Hatls.Lib.Canonical

/-!
# JSON texts, written and read

`json.dump` with sorted keys and `json.load`.  The writer puts a blank after every comma and
every colon; the reader takes blanks anywhere between the parts of a value, either case of a
hexadecimal digit, and the last of several items with one key.  What is written for a value is
read back as that value with its dictionaries in the order of their keys, which is the value as
far as Python's `==` can tell.

Two things that a Python program can read are not represented, and are errors here: numbers
with a fraction or an exponent, or that are not finite, and texts with half a surrogate pair.

## Main definitions

* `Json.dump`, `Json.load`.
* `Json.KeysOnce` — a value whose dictionaries are dictionaries.
* `Json.load_dump` — the round trip.
-/

namespace Json

/-! ## The writer -/

mutual

/-- What `json.dump(j, fh, sort_keys=True)` writes. -/
def dump : Json → String
  | null => "null"
  | bool true => "true"
  | bool false => "false"
  | int i => toString i
  | str s => quote s
  | arr xs => "[" ++ ", ".intercalate (dumpList xs) ++ "]"
  | obj fields =>
    "\x7b" ++ ", ".intercalate (((dumpFields fields).insertionSort fun a b => a.1 ≤ b.1).map
      fun kv => quote kv.1 ++ ": " ++ kv.2) ++ "\x7d"

def dumpList : List Json → List String
  | [] => []
  | x :: xs => dump x :: dumpList xs

def dumpFields : List (String × Json) → List (String × String)
  | [] => []
  | (k, x) :: xs => (k, dump x) :: dumpFields xs

end

theorem dumpList_eq (xs : List Json) : dumpList xs = xs.map dump := by
  induction xs with
  | nil => rfl
  | cons x xs ih => rw [dumpList, ih, List.map_cons]

theorem dumpFields_eq (fields : List (String × Json)) :
    dumpFields fields = fields.map fun kv => (kv.1, dump kv.2) := by
  induction fields with
  | nil => rfl
  | cons kv fields ih => rw [dumpFields, ih, List.map_cons]

/-! ## The reader -/

def isBlank (c : Char) : Bool := c = ' ' || c = '\t' || c = '\n' || c = '\r'

def skipBlank (s : List Char) : List Char := s.dropWhile isBlank

/-- The number four hexadecimal digits spell, and what follows them. -/
def scanHex : List Char → Option (ℕ × List Char)
  | a :: b :: c :: d :: rest =>
    match Bytes.hexValue a, Bytes.hexValue b, Bytes.hexValue c, Bytes.hexValue d with
    | some a, some b, some c, some d => some (4096 * a + 256 * b + 16 * c + d, rest)
    | _, _, _, _ => none
  | _ => none

/-- The character whose escape follows `\u`. -/
def scanUnicode (s : List Char) : Option (Char × List Char) :=
  match scanHex s with
  | none => none
  | some (n, rest) =>
    if n < 55296 ∨ 57343 < n then some (Char.ofNat n, rest)
    else if 56319 < n then none
    else
      match rest with
      | '\\' :: 'u' :: rest =>
        match scanHex rest with
        | none => none
        | some (m, rest) =>
          if 56320 ≤ m ∧ m ≤ 57343 then
            some (Char.ofNat (65536 + (n - 55296) * 1024 + (m - 56320)), rest)
          else none
      | _ => none

/-- The character whose escape follows a backslash. -/
def scanEscape : List Char → Option (Char × List Char)
  | [] => none
  | e :: rest =>
    if e = 'u' then scanUnicode rest
    else if e ∈ ['"', '\\', '/', 'b', 'f', 'n', 'r', 't'] then some (letter e, rest)
    else none

/-- One character of a text; control characters have to be escaped. -/
def scanChar : List Char → Option (Char × List Char)
  | [] => none
  | c :: rest =>
    if c = '\\' then scanEscape rest else if 32 ≤ c.toNat then some (c, rest) else none

/-- A text after its opening quotation mark, of at most `n` characters with the closing one. -/
def scanText : ℕ → List Char → Option (List Char × List Char)
  | 0, _ => none
  | n + 1, s =>
    if s.head? = some '"' then some ([], s.tail)
    else
      match scanChar s with
      | none => none
      | some (c, rest) => (scanText n rest).map fun found => (c :: found.1, found.2)

/-- Whether a fraction or an exponent follows. -/
def isFraction : List Char → Bool
  | e :: c :: rest =>
    (e = '.' && c.isDigit) ||
      ((e = 'e' || e = 'E') &&
        (c.isDigit || ((c = '+' || c = '-') && rest.head?.any Char.isDigit)))
  | _ => false

/-- A number without a sign: no digit follows a zero in the first place. -/
def scanNatural (s : List Char) : Option (ℕ × List Char) :=
  let digits := if s.head? = some '0' then ['0'] else s.takeWhile Char.isDigit
  let rest := s.drop digits.length
  if digits = [] ∨ isFraction rest = true then none else some (Nat.ofDigitChars 10 digits 0, rest)

def scanNumber (s : List Char) : Option (ℤ × List Char) :=
  if s.head? = some '-' then (scanNatural s.tail).map fun found => (-(found.1 : ℤ), found.2)
  else (scanNatural s).map fun found => ((found.1 : ℤ), found.2)

/-- One of the three words. -/
def scanWord : List Char → Option (Json × List Char)
  | 'n' :: 'u' :: 'l' :: 'l' :: rest => some (null, rest)
  | 't' :: 'r' :: 'u' :: 'e' :: rest => some (bool true, rest)
  | 'f' :: 'a' :: 'l' :: 's' :: 'e' :: rest => some (bool false, rest)
  | _ => none

/-- At most `n` parts with commas between them, up to a closing mark. -/
def scanParts {A : Type} (scan : List Char → Option (A × List Char)) (stop : Char) :
    ℕ → List Char → Option (List A × List Char)
  | 0, _ => none
  | n + 1, s =>
    match scan s with
    | none => none
    | some (a, rest) =>
      match skipBlank rest with
      | [] => none
      | c :: rest =>
        if c = stop then some ([a], rest)
        else if c = ',' then
          (scanParts scan stop n (skipBlank rest)).map fun found => (a :: found.1, found.2)
        else none

/-- An item of a dictionary. -/
def scanItem (scan : List Char → Option (Json × List Char)) (s : List Char) :
    Option ((String × Json) × List Char) :=
  if s.head? = some '"' then
    match scanText s.length s.tail with
    | none => none
    | some (key, rest) =>
      match skipBlank rest with
      | ':' :: rest => (scan (skipBlank rest)).map fun found => ((String.ofList key, found.1), found.2)
      | _ => none
  else none

/-- `d[key] = v`. -/
def setItem (fields : List (String × Json)) (kv : String × Json) : List (String × Json) :=
  if fields.any (·.1 = kv.1) then fields.map fun old => if old.1 = kv.1 then kv else old
  else fields ++ [kv]

/-- `dict(pairs)`. -/
def ofPairs (pairs : List (String × Json)) : List (String × Json) := pairs.foldl setItem []

/-- A value, nested at most `n` deep. -/
def scanValue : ℕ → List Char → Option (Json × List Char)
  | 0, _ => none
  | _ + 1, [] => none
  | n + 1, c :: s =>
    if c = '"' then (scanText (s.length + 1) s).map fun found => (str (String.ofList found.1), found.2)
    else if c = '[' then
      let s := skipBlank s
      if s.head? = some ']' then some (arr [], s.tail)
      else (scanParts (scanValue n) ']' s.length s).map fun found => (arr found.1, found.2)
    else if c = '\x7b' then
      let s := skipBlank s
      if s.head? = some '\x7d' then some (obj [], s.tail)
      else (scanParts (scanItem (scanValue n)) '\x7d' s.length s).map fun found =>
        (obj (ofPairs found.1), found.2)
    else
      match scanWord (c :: s) with
      | some found => some found
      | none => (scanNumber (c :: s)).map fun found => (int found.1, found.2)

/-- `json.load(fh)` on a file with the given text. -/
def load (text : String) : Except Exn Json :=
  match scanValue text.toList.length (skipBlank text.toList) with
  | none => .error .valueError
  | some (j, rest) => if skipBlank rest = [] then .ok j else .error .valueError

/-! ## Reading texts back -/

theorem scanHex_hexDigit {n : ℕ} (h : n < 65536) (rest : List Char) :
    scanHex (Bytes.hexDigit (n / 4096 % 16) :: Bytes.hexDigit (n / 256 % 16) ::
      Bytes.hexDigit (n / 16 % 16) :: Bytes.hexDigit (n % 16) :: rest) = some (n, rest) := by
  have hsum : 4096 * (n / 4096 % 16) + 256 * (n / 256 % 16) + 16 * (n / 16 % 16) + n % 16 = n := by
    omega
  simp only [scanHex, Bytes.hexValue_hexDigit _ (Nat.mod_lt _ (show 0 < 16 by omega)), hsum]

/-- Four digits that are not half of a pair. -/
theorem scanUnicode_escape {n : ℕ} (h : n < 55296 ∨ 57343 < n) (hn : n < 65536) (rest : List Char) :
    scanUnicode (Bytes.hexDigit (n / 4096 % 16) :: Bytes.hexDigit (n / 256 % 16) ::
      Bytes.hexDigit (n / 16 % 16) :: Bytes.hexDigit (n % 16) :: rest) = some (Char.ofNat n, rest) := by
  simp only [scanUnicode, scanHex_hexDigit hn, if_pos h]

/-- A pair. -/
theorem scanUnicode_pair {n m : ℕ} (hlow : 55296 ≤ n) (hhigh : n ≤ 56319) (hm : 56320 ≤ m)
    (hm' : m ≤ 57343) (rest : List Char) :
    scanUnicode (Bytes.hexDigit (n / 4096 % 16) :: Bytes.hexDigit (n / 256 % 16) ::
      Bytes.hexDigit (n / 16 % 16) :: Bytes.hexDigit (n % 16) :: ((escape16 m).toList ++ rest)) =
        some (Char.ofNat (65536 + (n - 55296) * 1024 + (m - 56320)), rest) := by
  have hpair : ¬ (n < 55296 ∨ 57343 < n) := by omega
  have hfirst : ¬ 56319 < n := by omega
  rw [toList_escape16]
  simp only [scanUnicode, scanHex_hexDigit (show n < 65536 by omega), if_neg hpair, if_neg hfirst,
    List.cons_append, List.nil_append, scanHex_hexDigit (show m < 65536 by omega),
    if_pos (And.intro hm hm')]

/-- **Reading back an escaped character.** -/
theorem scanChar_escaped (c : Char) (s : List Char) : scanChar (escaped c ++ s) = some (c, s) := by
  have hsur := toNat_not_surrogate c
  have hescape : ∀ n rest, scanChar ((escape16 n).toList ++ rest) =
      scanUnicode (Bytes.hexDigit (n / 4096 % 16) :: Bytes.hexDigit (n / 256 % 16) ::
        Bytes.hexDigit (n / 16 % 16) :: Bytes.hexDigit (n % 16) :: rest) := by
    intro n rest
    rw [toList_escape16]
    rfl
  rcases escaped_cases c with ⟨e, he, hword, hc⟩ | ⟨hback, hprint, _, hword⟩ | ⟨hbmp, hword⟩ |
    ⟨hbig, hword⟩
  · have hletter : ∀ e ∈ escapeLetters, e ≠ 'u' ∧ e ∈ ['"', '\\', '/', 'b', 'f', 'n', 'r', 't'] := by
      simp [escapeLetters]
    have hscan : scanChar ('\\' :: e :: s) = scanEscape (e :: s) := rfl
    rw [hword, List.cons_append, List.cons_append, List.nil_append, hscan, scanEscape,
      if_neg (hletter e he).1, if_pos (hletter e he).2, hc]
  · rw [hword, List.singleton_append, scanChar, if_neg hback, if_pos hprint]
  · rw [hword, hescape, scanUnicode_escape (by omega) hbmp, Char.ofNat_toNat]
  · have hsum : 65536 + (55296 + (c.toNat - 65536) / 1024 - 55296) * 1024 +
        (56320 + (c.toNat - 65536) % 1024 - 56320) = c.toNat := by
      omega
    rw [hword, List.append_assoc, hescape,
      scanUnicode_pair (by omega) (by omega) (by omega) (by omega), hsum, Char.ofNat_toNat]

/-- What an escaped character begins with. -/
theorem exists_escaped (c : Char) : ∃ d ds, escaped c = d :: ds ∧ d ≠ '"' := by
  cases h : escaped c with
  | nil =>
      have hread := scanChar_escaped c []
      rw [h] at hread
      cases hread
  | cons d ds =>
      refine ⟨d, ds, rfl, ?_⟩
      intro hd
      exact neverOpens_escaped c [] ds (by rw [h, hd, List.append_nil])

/-- **A text is read back**, with what follows it. -/
theorem scanText_escaped (cs s : List Char) {n : ℕ} (hn : (cs.flatMap escaped).length < n) :
    scanText n (cs.flatMap escaped ++ '"' :: s) = some (cs, s) := by
  induction cs generalizing n with
  | nil =>
      obtain ⟨n, rfl⟩ := Nat.exists_eq_succ_of_ne_zero (Nat.ne_zero_of_lt hn)
      rfl
  | cons c cs ih =>
      obtain ⟨n, rfl⟩ := Nat.exists_eq_succ_of_ne_zero (Nat.ne_zero_of_lt hn)
      obtain ⟨d, ds, hc, hd⟩ := exists_escaped c
      have hread := scanChar_escaped c (cs.flatMap escaped ++ '"' :: s)
      rw [List.flatMap_cons, hc, List.length_append, List.length_cons] at hn
      rw [hc, List.cons_append] at hread
      rw [List.flatMap_cons, hc, List.append_assoc, List.cons_append, scanText, List.head?_cons,
        if_neg (by simpa using hd), hread]
      simp only [ih (show (cs.flatMap escaped).length < n by omega), Option.map_some]

/-! ## Reading numbers back -/

theorem head_toDigits (n : ℕ) : (Nat.toDigits 10 n).head? = some '0' → n = 0 := by
  induction n using Nat.strong_induction_on with
  | _ n ih =>
      intro h
      by_cases hsmall : n < 10
      · rw [Nat.toDigits_of_lt_base hsmall, List.head?_cons] at h
        have hdigit : ∀ m < 10, m.digitChar = '0' → m = 0 := by decide
        exact hdigit n hsmall (Option.some.inj h)
      · rw [Nat.toDigits_of_base_le (by omega) (by omega),
          List.head?_append_of_ne_nil _ Nat.toDigits_ne_nil] at h
        have hzero := ih (n / 10) (by omega) h
        omega

/-- What may follow a value within a text. -/
def Stops (s : List Char) : Prop := ∀ c t, s = c :: t → c = ',' ∨ c = ']' ∨ c = '\x7d'

theorem Stops.ends {s : List Char} (h : Stops s) : Ends s := by
  intro c t heq
  rcases h c t heq with rfl | rfl | rfl
  · decide
  · decide
  · decide

theorem Stops.not_fraction {s : List Char} (h : Stops s) : isFraction s = false := by
  cases s with
  | nil => rfl
  | cons c s =>
      cases s with
      | nil => rfl
      | cons d s =>
          rcases h c _ rfl with rfl | rfl | rfl
          · rfl
          · rfl
          · rfl

theorem scanNatural_toDigits (n : ℕ) {s : List Char} (hs : Stops s) :
    scanNatural (Nat.toDigits 10 n ++ s) = some (n, s) := by
  have hdigits : (if (Nat.toDigits 10 n ++ s).head? = some '0' then ['0']
      else (Nat.toDigits 10 n ++ s).takeWhile Char.isDigit) = Nat.toDigits 10 n := by
    rw [takeWhile_digits n hs.ends, List.head?_append_of_ne_nil _ Nat.toDigits_ne_nil]
    split_ifs with hzero
    · rw [head_toDigits n hzero, Nat.toDigits_zero]
    · rfl
  simp only [scanNatural, hdigits, List.drop_left, hs.not_fraction, Nat.toDigits_ne_nil,
    Bool.false_eq_true, or_self, if_false, Nat.ofDigitChars_ten_toDigits]

theorem scanNumber_int (i : ℤ) {s : List Char} (hs : Stops s) :
    scanNumber ((toString i).toList ++ s) = some (i, s) := by
  cases i with
  | ofNat n =>
      obtain ⟨c, cs, hcs, hc⟩ := exists_toDigits_eq n
      have hsign : (Nat.toDigits 10 n ++ s).head? ≠ some '-' := by
        intro h
        rw [hcs, List.cons_append, List.head?_cons] at h
        rw [Option.some.inj h] at hc
        cases hc
      rw [toList_ofNat, scanNumber, if_neg hsign, scanNatural_toDigits n hs]
      rfl
  | negSucc n =>
      rw [toList_negSucc, List.cons_append, scanNumber, List.head?_cons, if_pos rfl, List.tail_cons,
        scanNatural_toDigits (n + 1) hs]
      rfl

/-! ## What is written for values -/

/-- The characters that are written for a value. -/
def spelled (j : Json) : List Char := j.dump.toList

/-- Those of an item. -/
def spelledItem (kv : String × Json) : List Char := (quote kv.1).toList ++ ':' :: ' ' :: spelled kv.2

/-- Words with a comma and a blank between them. -/
def spread {A : Type} (enc : A → List Char) : List A → List Char
  | [] => []
  | a :: as => enc a ++ as.flatMap fun a => ',' :: ' ' :: enc a

theorem toList_intercalate_spread {A : Type} (word : A → String) (as : List A) :
    (", ".intercalate (as.map word)).toList = spread (fun a => (word a).toList) as := by
  rw [String.toList_intercalate, List.map_map]
  induction as with
  | nil => rfl
  | cons a as ih =>
      cases as with
      | nil => simp [spread]
      | cons b as =>
          rw [List.map_cons, List.map_cons, List.intercalate_cons_cons, ← List.map_cons, ih]
          simp [spread]

theorem spelled_arr (xs : List Json) : spelled (arr xs) = '[' :: (spread spelled xs ++ [']']) := by
  rw [spelled, dump, dumpList_eq, String.toList_append, String.toList_append,
    toList_intercalate_spread]
  rfl

theorem spelled_obj (fields : List (String × Json)) :
    spelled (obj fields) = '\x7b' :: (spread spelledItem (sorted fields) ++ ['\x7d']) := by
  have hsort : ((dumpFields fields).insertionSort fun a b => a.1 ≤ b.1) =
      (sorted fields).map fun kv => (kv.1, dump kv.2) := by
    rw [dumpFields_eq]
    exact sorted_map dump fields
  have hitem : (fun kv : String × Json => (quote kv.1 ++ ": " ++ dump kv.2).toList) = spelledItem := by
    funext kv
    simp [spelledItem, spelled]
  rw [spelled, dump, hsort, List.map_map, String.toList_append, String.toList_append,
    toList_intercalate_spread]
  rw [← hitem]
  rfl

/-- A value begins with no blank and no closing mark. -/
def Opens (c : Char) : Prop := isBlank c = false ∧ c ≠ ']' ∧ c ≠ '\x7d'

theorem exists_int (i : ℤ) :
    ∃ c cs, (toString i).toList = c :: cs ∧ (c.isDigit = true ∨ c = '-') := by
  cases i with
  | ofNat n =>
      obtain ⟨c, cs, hcs, hc⟩ := exists_toDigits_eq n
      exact ⟨c, cs, (toList_ofNat n).trans hcs, .inl hc⟩
  | negSucc n => exact ⟨'-', _, toList_negSucc n, .inr rfl⟩

/-- A number begins with nothing but a digit or a sign. -/
theorem ne_of_digit {c d : Char} (hc : c.isDigit = true ∨ c = '-') (hd : d.isDigit = false)
    (hsign : d ≠ '-') : c ≠ d := by
  intro heq
  rw [heq, hd] at hc
  simp [hsign] at hc

theorem opens_int {c : Char} (hc : c.isDigit = true ∨ c = '-') : Opens c := by
  refine ⟨?_, ne_of_digit hc rfl (by decide), ne_of_digit hc rfl (by decide)⟩
  have hspace : c ≠ ' ' := ne_of_digit hc rfl (by decide)
  have htab : c ≠ '\t' := ne_of_digit hc rfl (by decide)
  have hline : c ≠ '\n' := ne_of_digit hc rfl (by decide)
  have hreturn : c ≠ '\r' := ne_of_digit hc rfl (by decide)
  simp [isBlank, hspace, htab, hline, hreturn]

theorem exists_spelled (j : Json) : ∃ c cs, spelled j = c :: cs ∧ Opens c := by
  cases j with
  | null => exact ⟨'n', _, rfl, rfl, by decide, by decide⟩
  | bool b =>
      cases b with
      | true => exact ⟨'t', _, rfl, rfl, by decide, by decide⟩
      | false => exact ⟨'f', _, rfl, rfl, by decide, by decide⟩
  | int i =>
      obtain ⟨c, cs, hcs, hc⟩ := exists_int i
      exact ⟨c, cs, hcs, opens_int hc⟩
  | str s => exact ⟨'"', _, toList_quote s, rfl, by decide, by decide⟩
  | arr xs => exact ⟨'[', _, spelled_arr xs, rfl, by decide, by decide⟩
  | obj fields => exact ⟨'\x7b', _, spelled_obj fields, rfl, by decide, by decide⟩

theorem skipBlank_of_not {c : Char} (h : isBlank c = false) (s : List Char) :
    skipBlank (c :: s) = c :: s := by
  rw [skipBlank, List.dropWhile_cons, h]
  rfl

/-- No blank stands before a word that begins like a value. -/
theorem skipBlank_of_opens {A : Type} {enc : A → List Char}
    (h : ∀ a, ∃ c cs, enc a = c :: cs ∧ Opens c) (a : A) (s : List Char) :
    skipBlank (enc a ++ s) = enc a ++ s := by
  obtain ⟨c, cs, hcs, hc⟩ := h a
  rw [hcs, List.cons_append, skipBlank_of_not hc.1]

theorem skipBlank_spelled (j : Json) (s : List Char) : skipBlank (spelled j ++ s) = spelled j ++ s :=
  skipBlank_of_opens exists_spelled j s

/-! ## Reading parts back -/

section Parts

variable {A : Type} {scan : List Char → Option (A × List Char)} {stop : Char}

/-- **Parts with commas between them are read back**, where each of them is. -/
theorem scanParts_spread {B : Type} {enc : B → List Char} {val : B → A}
    (hstop : stop = ']' ∨ stop = '\x7d')
    (hopen : ∀ b s, skipBlank (enc b ++ s) = enc b ++ s) (b : B) (bs : List B)
    (hscan : ∀ a ∈ b :: bs, ∀ s, Stops s → scan (enc a ++ s) = some (val a, s)) (s : List Char)
    {n : ℕ} (hn : bs.length < n) :
    scanParts scan stop n (spread enc (b :: bs) ++ stop :: s) = some ((b :: bs).map val, s) := by
  have hstops : ∀ t, Stops (stop :: t) := by
    intro t c t' heq
    rw [← (List.cons.inj heq).1]
    exact .inr hstop
  have hblank : isBlank stop = false := by
    rcases hstop with rfl | rfl
    · rfl
    · rfl
  have hcomma : stop ≠ ',' := by
    rcases hstop with rfl | rfl
    · decide
    · decide
  induction bs generalizing b n with
  | nil =>
      obtain ⟨n, rfl⟩ := Nat.exists_eq_succ_of_ne_zero (Nat.ne_zero_of_lt hn)
      have hfirst := hscan b List.mem_cons_self (stop :: s) (hstops s)
      rw [spread, List.flatMap_nil, List.append_nil, scanParts, hfirst]
      simp only [skipBlank_of_not hblank, if_true]
      rfl
  | cons b' bs ih =>
      obtain ⟨n, rfl⟩ := Nat.exists_eq_succ_of_ne_zero (Nat.ne_zero_of_lt hn)
      have hsplit : spread enc (b :: b' :: bs) ++ stop :: s =
          enc b ++ (',' :: ' ' :: (spread enc (b' :: bs) ++ stop :: s)) := by
        simp [spread]
      have hmore : Stops (',' :: ' ' :: (spread enc (b' :: bs) ++ stop :: s)) := by
        intro c t heq
        exact .inl (List.cons.inj heq).1.symm
      have hskip : skipBlank (' ' :: (spread enc (b' :: bs) ++ stop :: s)) =
          spread enc (b' :: bs) ++ stop :: s := by
        rw [spread, List.append_assoc]
        exact hopen b' _
      have hfirst := hscan b List.mem_cons_self _ hmore
      have hrest := ih b' (fun a ha => hscan a (List.mem_cons_of_mem b ha))
        (Nat.lt_of_succ_lt_succ hn)
      rw [hsplit, scanParts, hfirst]
      simp only [skipBlank_of_not (show isBlank ',' = false from rfl), if_neg (Ne.symm hcomma), if_true,
        hskip, hrest, Option.map_some, List.map_cons]

end Parts

theorem length_mem_spread {A : Type} (enc : A → List Char) {a : A} {as : List A} (h : a ∈ as) :
    (enc a).length ≤ (spread enc as).length := by
  obtain ⟨before, after, rfl⟩ := List.append_of_mem h
  cases before with
  | nil =>
      rw [List.nil_append, spread, List.length_append]
      omega
  | cons b before =>
      rw [List.cons_append, spread, List.flatMap_append, List.flatMap_cons, List.length_append,
        List.length_append, List.length_append, List.length_cons, List.length_cons]
      omega

/-- Every part takes a place of its own. -/
theorem length_le_spread {A : Type} (enc : A → List Char) (b : A) (bs : List A) :
    bs.length ≤ (spread enc (b :: bs)).length := by
  have hparts : bs.length ≤ (bs.flatMap fun a => ',' :: ' ' :: enc a).length := by
    induction bs with
    | nil => exact Nat.le_refl 0
    | cons a bs ih =>
        rw [List.flatMap_cons, List.length_append, List.length_cons, List.length_cons]
        omega
  rw [spread, List.length_append]
  omega

/-! ## Dictionaries -/

mutual

/-- No key occurs twice in a dictionary. -/
def KeysOnce : Json → Prop
  | arr xs => KeysOnceList xs
  | obj fields => (fields.map Prod.fst).Nodup ∧ KeysOnceFields fields
  | _ => True

def KeysOnceList : List Json → Prop
  | [] => True
  | x :: xs => KeysOnce x ∧ KeysOnceList xs

def KeysOnceFields : List (String × Json) → Prop
  | [] => True
  | (_, x) :: xs => KeysOnce x ∧ KeysOnceFields xs

end

theorem KeysOnceList.of_mem {xs : List Json} (h : KeysOnceList xs) : ∀ x ∈ xs, KeysOnce x := by
  induction xs with
  | nil => exact fun x hx => nomatch hx
  | cons y ys ih => exact List.forall_mem_cons.mpr ⟨h.1, ih h.2⟩

theorem KeysOnceList.of_forall {xs : List Json} (h : ∀ x ∈ xs, KeysOnce x) : KeysOnceList xs := by
  induction xs with
  | nil => trivial
  | cons x xs ih =>
      obtain ⟨hx, hxs⟩ := List.forall_mem_cons.mp h
      exact ⟨hx, ih hxs⟩

theorem KeysOnceFields.of_mem {fields : List (String × Json)} (h : KeysOnceFields fields) :
    ∀ kv ∈ fields, KeysOnce kv.2 := by
  induction fields with
  | nil => exact fun x hx => nomatch hx
  | cons kv fields ih => exact List.forall_mem_cons.mpr ⟨h.1, ih h.2⟩

theorem ofPairs_concat (pairs : List (String × Json)) (kv : String × Json) :
    ofPairs (pairs ++ [kv]) = setItem (ofPairs pairs) kv := by
  rw [ofPairs, List.foldl_concat, ofPairs]

/-- Pairs without a repeated key are the items. -/
theorem ofPairs_of_nodup {pairs : List (String × Json)} (h : (pairs.map Prod.fst).Nodup) :
    ofPairs pairs = pairs := by
  induction pairs using List.reverseRecOn with
  | nil => rfl
  | append_singleton pairs kv ih =>
      rw [List.map_append, List.nodup_append] at h
      have hnew : pairs.any (fun old => old.1 = kv.1) = false := by
        rw [List.any_eq_false]
        intro old hold heq
        exact h.2.2 old.1 (List.mem_map_of_mem hold) kv.1 (by simp) (of_decide_eq_true heq)
      rw [ofPairs_concat, ih h.1, setItem, hnew]
      rfl

/-- Where every item is equal to what is found under its key, all of them are. -/
theorem pyEqFields_of_forall {fields found : List (String × Json)}
    (h : ∀ kv ∈ fields, ∃ y, lookup found kv.1 = some y ∧ pyEq kv.2 y = true) :
    pyEqFields fields found = true := by
  induction fields with
  | nil => rfl
  | cons kv fields ih =>
      obtain ⟨hfirst, hrest⟩ := List.forall_mem_cons.mp h
      obtain ⟨y, hy, heq⟩ := hfirst
      rw [pyEqFields, hy, ih hrest, Bool.and_true]
      exact heq

/-! ## Reading values back -/

theorem scanText_quote (a : String) (s : List Char) {n : ℕ} (hn : (quote a).toList.length ≤ n) :
    ∃ rest, (quote a).toList ++ s = '"' :: rest ∧ scanText n rest = some (a.toList, s) := by
  refine ⟨a.toList.flatMap escaped ++ '"' :: s, ?_, ?_⟩
  · rw [toList_quote]
    simp
  · apply scanText_escaped
    rw [toList_quote, List.length_cons, List.length_append] at hn
    omega

/-- An item is read back, where its value is. -/
theorem scanItem_quote {scan : List Char → Option (Json × List Char)} {key : String} {word : List Char}
    {v : Json} (hskip : ∀ s, skipBlank (word ++ s) = word ++ s) {s : List Char}
    (hscan : scan (word ++ s) = some (v, s)) :
    scanItem scan ((quote key).toList ++ ':' :: ' ' :: word ++ s) = some ((key, v), s) := by
  obtain ⟨rest, hrest, hkey⟩ := scanText_quote key (':' :: ' ' :: (word ++ s))
    (n := ((quote key).toList ++ ':' :: ' ' :: word ++ s).length) (by simp)
  have hsplit : (quote key).toList ++ ':' :: ' ' :: word ++ s = '"' :: rest := by
    rw [← hrest]
    simp
  have hword : skipBlank (' ' :: (word ++ s)) = word ++ s := hskip s
  rw [hsplit] at hkey ⊢
  rw [scanItem, List.head?_cons, if_pos rfl, List.tail_cons, hkey]
  simp only [skipBlank_of_not (show isBlank ':' = false from rfl), hword, hscan, Option.map_some,
    String.ofList_toList]

theorem scanItem_spelled {scan : List Char → Option (Json × List Char)} {kv : String × Json}
    (hscan : ∀ s, Stops s → scan (spelled kv.2 ++ s) = some (normal kv.2, s)) {s : List Char}
    (hs : Stops s) : scanItem scan (spelledItem kv ++ s) = some ((kv.1, normal kv.2), s) :=
  scanItem_quote (skipBlank_spelled kv.2) (hscan s hs)

theorem scanWord_of_digit {c : Char} (hc : c.isDigit = true ∨ c = '-') (s : List Char) :
    scanWord (c :: s) = none := by
  have hnull : c ≠ 'n' := ne_of_digit hc rfl (by decide)
  have htrue : c ≠ 't' := ne_of_digit hc rfl (by decide)
  have hfalse : c ≠ 'f' := ne_of_digit hc rfl (by decide)
  simp [scanWord, hnull, htrue, hfalse]

theorem scanValue_int (i : ℤ) (n : ℕ) {s : List Char} (hs : Stops s) :
    scanValue (n + 1) (spelled (int i) ++ s) = some (int i, s) := by
  obtain ⟨c, cs, hcs, hc⟩ := exists_int i
  have hread := scanNumber_int i hs
  have hword := scanWord_of_digit hc (cs ++ s)
  have hquote : c ≠ '"' := ne_of_digit hc rfl (by decide)
  have hlist : c ≠ '[' := ne_of_digit hc rfl (by decide)
  have hdict : c ≠ '\x7b' := ne_of_digit hc rfl (by decide)
  have hspelled : spelled (int i) = c :: cs := hcs
  rw [hcs, List.cons_append] at hread
  rw [hspelled, List.cons_append]
  simp only [scanValue, if_neg hquote, if_neg hlist, if_neg hdict, hword, hread, Option.map_some]

theorem scanValue_str (a : String) (n : ℕ) (s : List Char) :
    scanValue (n + 1) (spelled (str a) ++ s) = some (str a, s) := by
  have hspelled : spelled (str a) ++ s = (quote a).toList ++ s := rfl
  obtain ⟨rest, hrest, htext⟩ := scanText_quote a s (n := (spelled (str a) ++ s).length) (by
    rw [hspelled, List.length_append]
    omega)
  rw [hspelled, hrest, List.length_cons] at htext
  rw [hspelled, hrest]
  simp only [scanValue, if_true, htext, Option.map_some, String.ofList_toList]

/-- The first part begins what is written for several. -/
theorem exists_spread {A : Type} {enc : A → List Char} {P : Char → Prop} {b : A}
    (h : ∃ c cs, enc b = c :: cs ∧ P c) (bs : List A) (s : List Char) :
    ∃ c cs, spread enc (b :: bs) ++ s = c :: cs ∧ P c := by
  obtain ⟨c, cs, hcs, hc⟩ := h
  exact ⟨c, _, by rw [spread, hcs, List.cons_append, List.cons_append], hc⟩

theorem exists_spelledItem (kv : String × Json) : ∃ c cs, spelledItem kv = c :: cs ∧ Opens c := by
  refine ⟨'"', kv.1.toList.flatMap escaped ++ '"' :: ':' :: ' ' :: spelled kv.2, ?_, ?_, ?_, ?_⟩
  · rw [spelledItem, toList_quote]
    simp
  · rfl
  · decide
  · decide

/-- A value is shorter than what is written for the list it stands in. -/
theorem length_lt_arr {x : Json} {xs : List Json} (h : x ∈ xs) :
    (spelled x).length < (spelled (arr xs)).length := by
  have hword := length_mem_spread spelled h
  rw [spelled_arr, List.length_cons, List.length_append]
  omega

theorem length_lt_obj {kv : String × Json} {fields : List (String × Json)} (h : kv ∈ fields) :
    (spelled kv.2).length < (spelled (obj fields)).length := by
  have hword := length_mem_spread spelledItem (mem_sorted.mpr h)
  rw [spelledItem, List.length_append, List.length_cons, List.length_cons] at hword
  rw [spelled_obj, List.length_cons, List.length_append]
  omega

/-- Words with a comma and a blank between them are read back as a list, where each of them is. -/
theorem scanValue_list {A : Type} {enc : A → List Char} {val : A → Json}
    (hopen : ∀ a, ∃ c cs, enc a = c :: cs ∧ Opens c) {as : List A} {n : ℕ}
    (hparts : ∀ a ∈ as, ∀ s, Stops s → scanValue n (enc a ++ s) = some (val a, s)) (s : List Char) :
    scanValue (n + 1) ('[' :: (spread enc as ++ ']' :: s)) = some (arr (as.map val), s) := by
  cases as with
  | nil => rfl
  | cons a as =>
      obtain ⟨c, cs, hcs, hc⟩ := exists_spread (hopen a) as (']' :: s)
      have hskip : skipBlank (spread enc (a :: as) ++ ']' :: s) = spread enc (a :: as) ++ ']' :: s := by
        rw [hcs, skipBlank_of_not hc.1]
      have hhead : (spread enc (a :: as) ++ ']' :: s).head? ≠ some ']' := by
        rw [hcs, List.head?_cons]
        simpa using hc.2.1
      have hlength : as.length < (spread enc (a :: as) ++ ']' :: s).length := by
        have hle := length_le_spread enc a as
        rw [List.length_append, List.length_cons]
        omega
      have hread := scanParts_spread (.inl rfl) (skipBlank_of_opens hopen) a as hparts s hlength
      simp only [scanValue, hskip, if_neg hhead, hread, Option.map_some]
      rfl

/-- And they are read back as a dictionary, where each of them is an item. -/
theorem scanValue_dict {A : Type} {enc : A → List Char} {val : A → String × Json}
    (hopen : ∀ a, ∃ c cs, enc a = c :: cs ∧ Opens c) {as : List A} {n : ℕ}
    (hkeys : ((as.map val).map Prod.fst).Nodup)
    (hparts : ∀ a ∈ as, ∀ s, Stops s → scanItem (scanValue n) (enc a ++ s) = some (val a, s))
    (s : List Char) :
    scanValue (n + 1) ('\x7b' :: (spread enc as ++ '\x7d' :: s)) = some (obj (as.map val), s) := by
  cases as with
  | nil => rfl
  | cons a as =>
      obtain ⟨c, cs, hcs, hc⟩ := exists_spread (hopen a) as ('\x7d' :: s)
      have hskip : skipBlank (spread enc (a :: as) ++ '\x7d' :: s) =
          spread enc (a :: as) ++ '\x7d' :: s := by
        rw [hcs, skipBlank_of_not hc.1]
      have hhead : (spread enc (a :: as) ++ '\x7d' :: s).head? ≠ some '\x7d' := by
        rw [hcs, List.head?_cons]
        simpa using hc.2.2
      have hlength : as.length < (spread enc (a :: as) ++ '\x7d' :: s).length := by
        have hle := length_le_spread enc a as
        rw [List.length_append, List.length_cons]
        omega
      have hread := scanParts_spread (.inr rfl) (skipBlank_of_opens hopen) a as hparts s hlength
      simp only [scanValue, hskip, if_neg hhead, hread, Option.map_some, ofPairs_of_nodup hkeys]
      rfl

/-- The parts of a list. -/
theorem scanValue_arr {xs : List Json} {n : ℕ}
    (hparts : ∀ x ∈ xs, ∀ s, Stops s → scanValue n (spelled x ++ s) = some (normal x, s))
    (s : List Char) : scanValue (n + 1) (spelled (arr xs) ++ s) = some (normal (arr xs), s) := by
  rw [spelled_arr, normal, normalList_eq, List.cons_append, List.append_assoc, List.singleton_append]
  exact scanValue_list exists_spelled hparts s

/-- The items of a dictionary. -/
theorem scanValue_obj {fields : List (String × Json)} {n : ℕ} (hkeys : (fields.map Prod.fst).Nodup)
    (hparts : ∀ kv ∈ fields, ∀ s, Stops s → scanValue n (spelled kv.2 ++ s) = some (normal kv.2, s))
    (s : List Char) :
    scanValue (n + 1) (spelled (obj fields) ++ s) = some (normal (obj fields), s) := by
  have hitems : ∀ kv ∈ sorted fields, ∀ s, Stops s →
      scanItem (scanValue n) (spelledItem kv ++ s) = some ((kv.1, normal kv.2), s) := by
    intro kv hkv s hs
    exact scanItem_spelled (hparts kv (mem_sorted.mp hkv)) hs
  have hpairs : (((sorted fields).map fun kv => (kv.1, normal kv.2)).map Prod.fst).Nodup := by
    rw [List.map_map]
    exact (((List.perm_insertionSort _ fields).map Prod.fst).nodup_iff).mpr hkeys
  rw [spelled_obj, normal, normalFields_eq, sorted_map, List.cons_append, List.append_assoc,
    List.singleton_append]
  exact scanValue_dict exists_spelledItem hpairs hitems s

/-- **A value is read back**, its dictionaries in the order of their keys. -/
theorem scanValue_spelled (x : Json) (hx : KeysOnce x) (n : ℕ) (hn : (spelled x).length ≤ n)
    (s : List Char) (hs : Stops s) : scanValue n (spelled x ++ s) = some (normal x, s) := by
  induction n generalizing x s with
  | zero =>
      obtain ⟨c, cs, hcs, _⟩ := exists_spelled x
      rw [hcs, List.length_cons] at hn
      omega
  | succ n ih =>
      cases x with
      | null => rfl
      | bool b =>
          cases b with
          | true => rfl
          | false => rfl
      | int i => exact scanValue_int i n hs
      | str a => exact scanValue_str a n s
      | arr xs =>
          apply scanValue_arr
          intro y hy
          have hlt := length_lt_arr hy
          exact ih y (KeysOnceList.of_mem hx y hy) (by omega)
      | obj fields =>
          apply scanValue_obj hx.1
          intro kv hkv
          have hlt := length_lt_obj hkv
          exact ih kv.2 (KeysOnceFields.of_mem hx.2 kv hkv) (by omega)

/-- **The round trip**: what is dumped is loaded, its dictionaries in the order of their keys. -/
theorem load_dump {j : Json} (hj : KeysOnce j) : load j.dump = .ok (normal j) := by
  have hskip := skipBlank_spelled j []
  have hread := scanValue_spelled j hj _ (Nat.le_refl _) [] (fun c t h => nomatch h)
  rw [List.append_nil] at hskip hread
  rw [load]
  simp only [show j.dump.toList = spelled j from rfl, hskip, hread]
  rfl

example : load "\x7b\"a\": [1, -2 , \"\\u00E9\"],\n \"b\":true\x7d" =
    .ok (obj [("a", arr [int 1, int (-2), str "é"]), ("b", bool true)]) := rfl

end Json
