import Hatls.Lib.JsonText

/-!
# JSON texts as bytes on a connection

`json.dumps` and `json.loads` with nothing said about the order of the items: they are written in
the order a dictionary has them, and read back in it.  What is written is printable ASCII, so it is
the same in every encoding and there is no line break within it.

Texts in another encoding than ASCII, which `json.loads` would detect and decode, are not represented
and are errors here.

## Main definitions

* `Json.dumpInOrder`, `Json.loads` — the writer, and the reader of bytes.
* `Json.load_dumpInOrder`, `Json.load_line` — the round trips, without and with a line break.
* `Json.printable_dumpInOrder` — what is written.
-/

/-- The bytes of a text of ASCII characters. -/
def Bytes.ofAscii (text : String) : Bytes := text.toList.map fun c => UInt8.ofNat c.toNat

/-- The text such bytes are of. -/
def Bytes.toAscii (b : Bytes) : Option String :=
  if b.all (· < 128) then some (String.ofList (b.map fun x => Char.ofNat x.toNat)) else none

theorem Bytes.toAscii_ofAscii {text : String} (h : ∀ c ∈ text.toList, Json.Ascii c) :
    Bytes.toAscii (Bytes.ofAscii text) = some text := by
  have hvalue : ∀ c ∈ text.toList, (UInt8.ofNat c.toNat).toNat = c.toNat := by
    intro c hc
    have hlt : c.toNat < 128 := h c hc
    rw [UInt8.toNat_ofNat']
    omega
  have hall : (Bytes.ofAscii text).all (· < 128) = true := by
    rw [List.all_eq_true]
    intro x hx
    obtain ⟨c, hc, rfl⟩ := List.mem_map.mp hx
    have hlt : c.toNat < 128 := h c hc
    rw [decide_eq_true_iff, UInt8.lt_iff_toNat_lt, hvalue c hc]
    exact hlt
  have hback : (Bytes.ofAscii text).map (fun x => Char.ofNat x.toNat) = text.toList := by
    rw [Bytes.ofAscii, List.map_map]
    conv_rhs => rw [← List.map_id text.toList]
    apply List.map_congr_left
    intro c hc
    rw [Function.comp_apply, hvalue c hc, Char.ofNat_toNat, id]
  rw [Bytes.toAscii, if_pos hall, hback, String.ofList_toList]

namespace Json

/-! ## The writer and the reader -/

mutual

/-- `json.dumps(j)`. -/
def dumpInOrder : Json → String
  | null => "null"
  | bool true => "true"
  | bool false => "false"
  | int i => toString i
  | str s => quote s
  | arr xs => "[" ++ ", ".intercalate (dumpInOrderList xs) ++ "]"
  | obj fields => "\x7b" ++ ", ".intercalate (dumpInOrderFields fields) ++ "\x7d"

def dumpInOrderList : List Json → List String
  | [] => []
  | x :: xs => dumpInOrder x :: dumpInOrderList xs

def dumpInOrderFields : List (String × Json) → List String
  | [] => []
  | (k, x) :: xs => (quote k ++ ": " ++ dumpInOrder x) :: dumpInOrderFields xs

end

/-- `json.loads(b)`. -/
def loads (b : Bytes) : Except Exn Json :=
  match b.toAscii with
  | none => .error .valueError
  | some text => load text

/-- The characters that are written for a value. -/
def said (j : Json) : List Char := j.dumpInOrder.toList

/-- Those of an item. -/
def saidItem (kv : String × Json) : List Char := (quote kv.1).toList ++ ':' :: ' ' :: said kv.2

theorem said_arr (xs : List Json) : said (arr xs) = '[' :: (spread said xs ++ [']']) := by
  have hlist : dumpInOrderList xs = xs.map dumpInOrder := by
    induction xs with
    | nil => rfl
    | cons x xs ih => rw [dumpInOrderList, ih, List.map_cons]
  rw [said, dumpInOrder, hlist, String.toList_append, String.toList_append, toList_intercalate_spread]
  rfl

theorem said_obj (fields : List (String × Json)) :
    said (obj fields) = '\x7b' :: (spread saidItem fields ++ ['\x7d']) := by
  have hfields : dumpInOrderFields fields =
      fields.map fun kv => quote kv.1 ++ ": " ++ dumpInOrder kv.2 := by
    induction fields with
    | nil => rfl
    | cons kv fields ih => rw [dumpInOrderFields, ih, List.map_cons]
  have hitem : (fun kv : String × Json => (quote kv.1 ++ ": " ++ dumpInOrder kv.2).toList) =
      saidItem := by
    funext kv
    simp [saidItem, said]
  rw [said, dumpInOrder, hfields, String.toList_append, String.toList_append,
    toList_intercalate_spread]
  rw [← hitem]
  rfl

/-- A text of hexadecimal digits stands for itself. -/
theorem length_said_hex (b : Bytes) : (said (str (Bytes.hex b))).length = 2 * b.length + 2 := by
  have hdigit : ∀ n < 16, (escaped (Bytes.hexDigit n)).length = 1 := by decide
  have hchars : ((Bytes.hexChars b).flatMap escaped).length = 2 * b.length := by
    induction b with
    | nil => rfl
    | cons x b ih =>
        have hx := x.toNat_lt
        have hcons : Bytes.hexChars (x :: b) =
            Bytes.hexDigit (x.toNat / 16) :: Bytes.hexDigit (x.toNat % 16) :: Bytes.hexChars b := rfl
        rw [hcons, List.flatMap_cons, List.flatMap_cons, List.length_append, List.length_append, ih,
          hdigit _ (by omega), hdigit _ (by omega), List.length_cons]
        omega
  have hlist : said (str (Bytes.hex b)) = (quote (Bytes.hex b)).toList := rfl
  rw [hlist, toList_quote, Bytes.hex, String.toList_ofList, List.length_cons, List.length_append,
    hchars]
  rfl

/-! ## The round trip -/

theorem exists_said (j : Json) : ∃ c cs, said j = c :: cs ∧ Opens c := by
  cases j with
  | arr xs => exact ⟨'[', _, said_arr xs, rfl, by decide, by decide⟩
  | obj fields => exact ⟨'\x7b', _, said_obj fields, rfl, by decide, by decide⟩
  | null => exact exists_spelled null
  | bool b =>
      cases b with
      | true => exact exists_spelled (bool true)
      | false => exact exists_spelled (bool false)
  | int i => exact exists_spelled (int i)
  | str s => exact exists_spelled (str s)

theorem exists_saidItem (kv : String × Json) : ∃ c cs, saidItem kv = c :: cs ∧ Opens c := by
  refine ⟨'"', kv.1.toList.flatMap escaped ++ '"' :: ':' :: ' ' :: said kv.2, ?_, rfl, by decide,
    by decide⟩
  rw [saidItem, toList_quote]
  simp

theorem length_said_arr {x : Json} {xs : List Json} (h : x ∈ xs) :
    (said x).length < (said (arr xs)).length := by
  have hword := length_mem_spread said h
  rw [said_arr, List.length_cons, List.length_append]
  omega

theorem length_said_obj {kv : String × Json} {fields : List (String × Json)} (h : kv ∈ fields) :
    (said kv.2).length < (said (obj fields)).length := by
  have hword := length_mem_spread saidItem h
  rw [saidItem, List.length_append, List.length_cons, List.length_cons] at hword
  rw [said_obj, List.length_cons, List.length_append]
  omega

/-- **A value is read back as it was**, with what follows it. -/
theorem scanValue_said (x : Json) (hx : KeysOnce x) (n : ℕ) (hn : (said x).length ≤ n)
    (s : List Char) (hs : Stops s) : scanValue n (said x ++ s) = some (x, s) := by
  induction n generalizing x s with
  | zero =>
      obtain ⟨c, cs, hcs, -⟩ := exists_said x
      rw [hcs, List.length_cons] at hn
      omega
  | succ n ih =>
      cases x with
      | null => rfl
      | bool b => cases b <;> rfl
      | int i => exact scanValue_int i n hs
      | str a => exact scanValue_str a n s
      | arr xs =>
          have hparts : ∀ y ∈ xs, ∀ s, Stops s → scanValue n (said y ++ s) = some (id y, s) := by
            intro y hy s hs
            have hlt := length_said_arr hy
            exact ih y (KeysOnceList.of_mem hx y hy) (by omega) s hs
          have hread := scanValue_list exists_said hparts s
          rw [List.map_id] at hread
          rw [said_arr, List.cons_append, List.append_assoc, List.singleton_append]
          exact hread
      | obj fields =>
          have hparts : ∀ kv ∈ fields, ∀ s, Stops s →
              scanItem (scanValue n) (saidItem kv ++ s) = some (id kv, s) := by
            intro kv hkv s hs
            have hlt := length_said_obj hkv
            exact scanItem_quote (skipBlank_of_opens exists_said kv.2)
              (ih kv.2 (KeysOnceFields.of_mem hx.2 kv hkv) (by omega) s hs)
          have hread := scanValue_dict exists_saidItem (by simpa using hx.1) hparts s
          rw [List.map_id] at hread
          rw [said_obj, List.cons_append, List.append_assoc, List.singleton_append]
          exact hread

/-- What is written is read back. -/
theorem load_dumpInOrder {j : Json} (hj : KeysOnce j) : load j.dumpInOrder = .ok j := by
  have hskip := skipBlank_of_opens exists_said j []
  have hread := scanValue_said j hj _ (Nat.le_refl _) [] (fun c t h => nomatch h)
  rw [List.append_nil] at hskip hread
  rw [load]
  simp only [show j.dumpInOrder.toList = said j from rfl, hskip, hread]
  rfl

/-- So is a dictionary with a line break after it. -/
theorem load_line {fields : List (String × Json)} (h : KeysOnce (obj fields)) :
    load ((obj fields).dumpInOrder ++ "\n") = .ok (obj fields) := by
  have hlist : ((obj fields).dumpInOrder ++ "\n").toList = said (obj fields) ++ ['\n'] := by
    rw [String.toList_append]
    rfl
  have hskip := skipBlank_of_opens exists_said (obj fields) ['\n']
  have hlength : (said (obj fields) ++ ['\n']).length = (said (obj fields)).length + 1 := by
    rw [List.length_append, List.length_singleton]
  have hparts : ∀ kv ∈ fields, ∀ s, Stops s →
      scanItem (scanValue (said (obj fields)).length) (saidItem kv ++ s) = some (id kv, s) := by
    intro kv hkv s hs
    have hlt := length_said_obj hkv
    exact scanItem_quote (skipBlank_of_opens exists_said kv.2)
      (scanValue_said kv.2 (KeysOnceFields.of_mem h.2 kv hkv) _ (by omega) s hs)
  have hread := scanValue_dict exists_saidItem (by simpa using h.1) hparts ['\n']
  rw [List.map_id] at hread
  have hvalue : scanValue (said (obj fields) ++ ['\n']).length (said (obj fields) ++ ['\n']) =
      some (obj fields, ['\n']) := by
    rw [hlength]
    nth_rewrite 2 [said_obj]
    rw [List.cons_append, List.append_assoc, List.singleton_append]
    exact hread
  rw [load, hlist]
  simp only [hskip, hvalue]
  rfl

/-! ## What is written -/

/-- A character that can be seen, or a blank. -/
def Printable (c : Char) : Prop := 32 ≤ c.toNat ∧ c.toNat ≤ 126

instance : DecidablePred Printable := fun c =>
  inferInstanceAs (Decidable (32 ≤ c.toNat ∧ c.toNat ≤ 126))

theorem Printable.ascii {c : Char} (h : Printable c) : Ascii c := by
  have hle := h.2
  rw [Ascii]
  omega

theorem printable_of_all {cs : List Char} (h : cs.all (fun c => decide (Printable c)) = true) :
    ∀ c ∈ cs, Printable c := by
  intro c hc
  exact of_decide_eq_true (List.all_eq_true.mp h c hc)

theorem printable_escape16 (n : ℕ) : ∀ c ∈ (escape16 n).toList, Printable c := by
  have hdigit : ∀ m, Printable (Bytes.hexDigit (m % 16)) := by
    have hsmall : ∀ m < 16, Printable (Bytes.hexDigit m) := by decide
    intro m
    exact hsmall _ (Nat.mod_lt _ (by omega))
  rw [toList_escape16]
  simp only [List.forall_mem_cons, hdigit, true_and]
  exact ⟨by decide, by decide, by simp⟩

theorem printable_escaped (c : Char) : ∀ d ∈ escaped c, Printable d := by
  intro d hd
  rcases escaped_cases c with ⟨e, he, hword, -⟩ | ⟨-, hlow, hhigh, hword⟩ | ⟨-, hword⟩ | ⟨-, hword⟩
  · have hletter : ∀ e ∈ escapeLetters, Printable e := printable_of_all rfl
    rw [hword, List.mem_cons, List.mem_singleton] at hd
    rcases hd with rfl | rfl
    · decide
    · exact hletter d he
  · rw [hword, List.mem_singleton] at hd
    rw [hd]
    exact ⟨hlow, hhigh⟩
  · rw [hword] at hd
    exact printable_escape16 _ d hd
  · rw [hword, List.mem_append] at hd
    exact hd.elim (printable_escape16 _ d) (printable_escape16 _ d)

theorem printable_quote (s : String) : ∀ c ∈ (quote s).toList, Printable c := by
  intro c hc
  rw [toList_quote, List.mem_cons, List.mem_append, List.mem_flatMap, List.mem_singleton] at hc
  rcases hc with rfl | ⟨d, -, hd⟩ | rfl
  · decide
  · exact printable_escaped d c hd
  · decide

theorem printable_int (i : ℤ) : ∀ c ∈ (toString i).toList, Printable c := by
  have hdigits : ∀ n, ∀ c ∈ Nat.toDigits 10 n, Printable c := by
    intro n c hc
    have hdigit := Char.isDigit_iff_toNat.mp (Nat.isDigit_of_mem_toDigits (by omega) (by omega) hc)
    have h0 : ('0' : Char).toNat = 48 := rfl
    have h9 : ('9' : Char).toNat = 57 := rfl
    rw [Printable]
    omega
  cases i with
  | ofNat n =>
      rw [toList_ofNat]
      exact hdigits n
  | negSucc n =>
      rw [toList_negSucc, List.forall_mem_cons]
      exact ⟨by decide, hdigits _⟩

theorem printable_spread {A : Type} {enc : A → List Char} {as : List A}
    (h : ∀ a ∈ as, ∀ c ∈ enc a, Printable c) : ∀ c ∈ spread enc as, Printable c := by
  intro c hc
  cases as with
  | nil => cases hc
  | cons a as =>
      rw [spread, List.mem_append, List.mem_flatMap] at hc
      rcases hc with hc | ⟨b, hb, hc⟩
      · exact h a List.mem_cons_self c hc
      · rcases List.mem_cons.mp hc with rfl | hc
        · decide
        · rcases List.mem_cons.mp hc with rfl | hc
          · decide
          · exact h b (List.mem_cons_of_mem a hb) c hc

/-- **What is written is printable.** -/
theorem printable_dumpInOrder (x : Json) : ∀ c ∈ x.dumpInOrder.toList, Printable c := by
  match x with
  | null => exact printable_of_all rfl
  | bool true => exact printable_of_all rfl
  | bool false => exact printable_of_all rfl
  | int i => exact printable_int i
  | str s => exact printable_quote s
  | arr xs =>
      have hmem : ∀ a ∈ xs, ∀ c ∈ said a, Printable c := fun a ha => printable_dumpInOrder a
      intro c hc
      rw [show (arr xs).dumpInOrder.toList = said (arr xs) from rfl, said_arr, List.mem_cons,
        List.mem_append, List.mem_singleton] at hc
      rcases hc with rfl | hc | rfl
      · decide
      · exact printable_spread hmem c hc
      · decide
  | obj fields =>
      have hmem : ∀ kv ∈ fields, ∀ c ∈ saidItem kv, Printable c := by
        intro kv hkv c hc
        rw [saidItem, List.mem_append, List.mem_cons, List.mem_cons] at hc
        rcases hc with hc | rfl | rfl | hc
        · exact printable_quote kv.1 c hc
        · decide
        · decide
        · exact printable_dumpInOrder kv.2 c hc
      intro c hc
      rw [show (obj fields).dumpInOrder.toList = said (obj fields) from rfl, said_obj, List.mem_cons,
        List.mem_append, List.mem_singleton] at hc
      rcases hc with rfl | hc | rfl
      · decide
      · exact printable_spread hmem c hc
      · decide
termination_by sizeOf x
decreasing_by
  · have hlt := List.sizeOf_lt_of_mem ha
    simp only [arr.sizeOf_spec]
    omega
  · have hlt := List.sizeOf_lt_of_mem hkv
    obtain ⟨k, v⟩ := kv
    simp only [obj.sizeOf_spec, Prod.mk.sizeOf_spec] at hlt ⊢
    omega

/-- There is no line break within it. -/
theorem newline_notMem_dumpInOrder (x : Json) : (10 : UInt8) ∉ Bytes.ofAscii x.dumpInOrder := by
  intro h
  obtain ⟨c, hc, hten⟩ := List.mem_map.mp h
  obtain ⟨hlow, hhigh⟩ := printable_dumpInOrder x c hc
  have hvalue := congrArg UInt8.toNat hten
  rw [UInt8.toNat_ofNat'] at hvalue
  have h10 : (10 : UInt8).toNat = 10 := rfl
  omega

/-- The bytes of what is written are read back. -/
theorem loads_dumpInOrder {j : Json} (hj : KeysOnce j) :
    loads (Bytes.ofAscii j.dumpInOrder) = .ok j := by
  rw [loads, Bytes.toAscii_ofAscii fun c hc => (printable_dumpInOrder j c hc).ascii]
  exact load_dumpInOrder hj

/-- So are those of a line. -/
theorem loads_line {fields : List (String × Json)} (h : KeysOnce (obj fields)) :
    loads (Bytes.ofAscii ((obj fields).dumpInOrder ++ "\n")) = .ok (obj fields) := by
  have hascii : ∀ c ∈ ((obj fields).dumpInOrder ++ "\n").toList, Ascii c := by
    intro c hc
    rw [String.toList_append, List.mem_append] at hc
    rcases hc with hc | hc
    · exact (printable_dumpInOrder _ c hc).ascii
    · rw [show "\n".toList = ['\n'] from rfl, List.mem_singleton] at hc
      rw [hc]
      decide
  rw [loads, Bytes.toAscii_ofAscii hascii]
  exact load_line h

end Json
