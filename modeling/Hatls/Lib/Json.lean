import Mathlib.Data.List.Sort
import Hatls.Lib.Bytes

/-!
# JSON values as a Python program sees them

A decoded message is a tree of dictionaries, lists, texts, integers, booleans and
`None`.  The operations here are the ones Python code applies to such a tree when
it does not check its shape first: subscripting raises, truth is defined for every
value, `==` identifies `True` with `1`, and `int` reads numbers out of texts.

A dictionary is the list of its items in insertion order; a key occurs once.
Numbers with a fractional part are not represented.

## Main definitions

* `Exn` — the exceptions these operations raise.
* `Json`, `Json.item`, `Json.truthy`, `Json.pyEq`, `Json.le`, `Json.toInt`.
* `Json.dumps`, `Json.canonical` — sorted keys and no blanks, as bytes.
-/

/-- A Python exception, by its class. -/
inductive Exn
  | keyError
  | typeError
  | valueError
  | attributeError
  | overflowError
  | indexError
  | osError
  | invalidSignature
  deriving DecidableEq, Repr

namespace Exn

variable {A B : Type}

@[simp] theorem ok_bind (a : A) (f : A → Except Exn B) : (Except.ok a >>= f) = f a := rfl

@[simp] theorem error_bind (x : Exn) (f : A → Except Exn B) :
    ((Except.error x : Except Exn A) >>= f) = .error x := rfl

@[simp] theorem pure_eq_ok (a : A) : (pure a : Except Exn A) = .ok a := rfl

/-- A computation that returns has returned from each of its parts. -/
theorem bind_eq_ok {x : Except Exn A} {f : A → Except Exn B} {b : B} (h : x >>= f = .ok b) :
    ∃ a, x = .ok a ∧ f a = .ok b := by
  cases x with
  | error e => simp at h
  | ok a => exact ⟨a, rfl, h⟩

end Exn

/-- A JSON value. -/
inductive Json
  | null
  | bool (b : Bool)
  | int (i : ℤ)
  | str (s : String)
  | arr (xs : List Json)
  | obj (fields : List (String × Json))
  deriving Repr, Inhabited

namespace Json

/-! ## Subscripts -/

/-- The value a field list holds under a key. -/
def lookup (fields : List (String × Json)) (key : String) : Option Json :=
  (fields.find? (·.1 = key)).map (·.2)

/-- `j[key]`. -/
def item (j : Json) (key : String) : Except Exn Json :=
  match j with
  | obj fields => match lookup fields key with
    | some v => .ok v
    | none => .error .keyError
  | _ => .error .typeError

/-- `d.get(key)` on the fields of a dictionary: `None` where the key is missing. -/
def getD (fields : List (String × Json)) (key : String) (default : Json) : Json :=
  (lookup fields key).getD default

/-- `bytes.fromhex(j)`. -/
def fromHex (j : Json) : Except Exn Bytes :=
  match j with
  | str s => match Bytes.fromHex s with
    | some b => .ok b
    | none => .error .valueError
  | _ => .error .typeError

/-- The values a `for` loop over `j` visits: a text yields its characters and a
dictionary its keys. -/
def iter (j : Json) : Except Exn (List Json) :=
  match j with
  | arr xs => .ok xs
  | str s => .ok (s.toList.map fun c => str (String.singleton c))
  | obj fields => .ok (fields.map fun kv => str kv.1)
  | _ => .error .typeError

/-! ## Truth, equality, numbers -/

/-- `j is None`. -/
def isNull : Json → Bool
  | null => true
  | _ => false

/-- `bool(j)`. -/
def truthy : Json → Bool
  | null => false
  | bool b => b
  | int i => i ≠ 0
  | str s => s ≠ ""
  | arr xs => !xs.isEmpty
  | obj fields => !fields.isEmpty

/-- The number a value is equal to under `==`, when there is one. -/
def asInt? : Json → Option ℤ
  | bool b => some (if b then 1 else 0)
  | int i => some i
  | _ => none

/-- `j == n` for an integer `n`. -/
def eqInt (j : Json) (n : ℤ) : Bool := j.asInt? = some n

/-- `j == s` for a text `s`. -/
def eqStr (j : Json) (s : String) : Bool :=
  match j with
  | str t => t = s
  | _ => false

mutual

/-- `a == b`. -/
def pyEq : Json → Json → Bool
  | null, null => true
  | bool a, b => b.eqInt (if a then 1 else 0)
  | int a, b => b.eqInt a
  | str a, b => b.eqStr a
  | arr xs, arr ys => pyEqList xs ys
  | obj xs, obj ys => xs.length = ys.length && pyEqFields xs ys
  | _, _ => false

def pyEqList : List Json → List Json → Bool
  | [], [] => true
  | x :: xs, y :: ys => pyEq x y && pyEqList xs ys
  | _, _ => false

/-- Every item on the left is an item on the right: dictionaries of one length are
compared without regard to order. -/
def pyEqFields : List (String × Json) → List (String × Json) → Bool
  | [], _ => true
  | (k, x) :: xs, ys =>
    (match lookup ys k with
      | some y => pyEq x y
      | none => false) && pyEqFields xs ys

end

mutual

/-- `a <= b`: numbers by value, texts and lists from left to right. -/
def le : Json → Json → Except Exn Bool
  | str s, str t => .ok (s ≤ t)
  | arr xs, arr ys => leList xs ys
  | a, b => match a.asInt?, b.asInt? with
    | some i, some j => .ok (i ≤ j)
    | _, _ => .error .typeError

def leList : List Json → List Json → Except Exn Bool
  | [], _ => .ok true
  | _ :: _, [] => .ok false
  | x :: xs, y :: ys => if pyEq x y then leList xs ys else le x y

end

@[simp] theorem le_int (i j : ℤ) : le (int i) (int j) = .ok (decide (i ≤ j)) := by
  simp [le, asInt?]

@[simp] theorem pyEq_int (i j : ℤ) : pyEq (int i) (int j) = decide (j = i) := by
  simp [pyEq, eqInt, asInt?]

@[simp] theorem pyEq_str (s t : String) : pyEq (str s) (str t) = decide (t = s) := by
  simp [pyEq, eqStr]

/-- `j in xs`. -/
def pyMem (j : Json) (xs : List Json) : Bool := xs.any (pyEq · j)

/-- Decimal digits, with single underscores between them. -/
def digitsToNat : List Char → ℕ → Option ℕ
  | [], acc => some acc
  | [c], acc => if c.isDigit then some (10 * acc + (c.toNat - 48)) else none
  | c :: d :: rest, acc =>
    if c.isDigit then
      if d = '_' then
        match rest with
        | [] => none
        | e :: rest => digitsToNat (e :: rest) (10 * acc + (c.toNat - 48))
      else digitsToNat (d :: rest) (10 * acc + (c.toNat - 48))
    else none

/-- The zero of each script of Unicode but the Latin one; the other nine digits follow it. -/
def zeros : List ℕ := [
  0x660, 0x6f0, 0x7c0, 0x966, 0x9e6, 0xa66, 0xae6, 0xb66, 0xbe6, 0xc66, 0xce6, 0xd66, 0xde6,
  0xe50, 0xed0, 0xf20, 0x1040, 0x1090, 0x17e0, 0x1810, 0x1946, 0x19d0, 0x1a80, 0x1a90, 0x1b50,
  0x1bb0, 0x1c40, 0x1c50, 0xa620, 0xa8d0, 0xa900, 0xa9d0, 0xa9f0, 0xaa50, 0xabf0, 0xff10,
  0x104a0, 0x10d30, 0x11066, 0x110f0, 0x11136, 0x111d0, 0x112f0, 0x11450, 0x114d0, 0x11650,
  0x116c0, 0x11730, 0x118e0, 0x11950, 0x11c50, 0x11d50, 0x11da0, 0x11f50, 0x16a60, 0x16ac0,
  0x16b50, 0x1d7ce, 0x1d7d8, 0x1d7e2, 0x1d7ec, 0x1d7f6, 0x1e140, 0x1e2f0, 0x1e4f0, 0x1e950,
  0x1fbf0]

/-- The blanks of Unicode that are not in ASCII. -/
def wideBlanks : List ℕ := [
  0x85, 0xa0, 0x1680, 0x2000, 0x2001, 0x2002, 0x2003, 0x2004, 0x2005, 0x2006, 0x2007, 0x2008, 0x2009,
  0x200a, 0x2028, 0x2029, 0x202f, 0x205f, 0x3000]

/-- A character of a number: a digit of any script is that digit, and a blank is a blank. -/
def numeral (c : Char) : Char :=
  if c.toNat < 127 then c
  else if c.toNat ∈ wideBlanks then ' '
  else
    match zeros.find? fun z => z ≤ c.toNat ∧ c.toNat < z + 10 with
    | some z => Char.ofNat (48 + (c.toNat - z))
    | none => '?'

/-- `int(s)` on a text: blanks around it, one sign, decimal digits. -/
def textToInt (s : String) : Option ℤ :=
  let cs := (((s.toList.map numeral).dropWhile Bytes.isSpace).reverse.dropWhile Bytes.isSpace).reverse
  match cs with
  | '-' :: c :: cs => (digitsToNat (c :: cs) 0).map fun n => -(n : ℤ)
  | '+' :: c :: cs => (digitsToNat (c :: cs) 0).map fun n => (n : ℤ)
  | c :: cs => (digitsToNat (c :: cs) 0).map fun n => (n : ℤ)
  | [] => none

/-- `int(j)`. -/
def toInt (j : Json) : Except Exn ℤ :=
  match j with
  | bool b => .ok (if b then 1 else 0)
  | int i => .ok i
  | str s => match textToInt s with
    | some i => .ok i
    | none => .error .valueError
  | _ => .error .typeError

/-! ## Canonical text -/

/-- `\u` and four hexadecimal digits. -/
def escape16 (n : ℕ) : String :=
  String.ofList ['\\', 'u', Bytes.hexDigit (n / 4096 % 16), Bytes.hexDigit (n / 256 % 16),
    Bytes.hexDigit (n / 16 % 16), Bytes.hexDigit (n % 16)]

/-- One character of a quoted text: printable ASCII stands for itself, and a
character beyond the first plane is written as a surrogate pair. -/
def escapeChar (c : Char) : String :=
  if c = '"' then "\\\"" else if c = '\\' then "\\\\"
  else if c = '\n' then "\\n" else if c = '\r' then "\\r" else if c = '\t' then "\\t"
  else if c.toNat = 12 then "\\f" else if c.toNat = 8 then "\\b"
  else if 32 ≤ c.toNat ∧ c.toNat ≤ 126 then String.singleton c
  else if c.toNat < 65536 then escape16 c.toNat
  else escape16 (55296 + (c.toNat - 65536) / 1024) ++ escape16 (56320 + (c.toNat - 65536) % 1024)

/-- A text in double quotes. -/
def quote (s : String) : String := "\"" ++ String.join (s.toList.map escapeChar) ++ "\""

mutual

/-- `json.dumps(j, sort_keys=True, separators=(",", ":"))`. -/
def dumps : Json → String
  | null => "null"
  | bool true => "true"
  | bool false => "false"
  | int i => toString i
  | str s => quote s
  | arr xs => "[" ++ ",".intercalate (dumpsList xs) ++ "]"
  | obj fields =>
    "\x7b" ++ ",".intercalate (((dumpsFields fields).insertionSort fun a b => a.1 ≤ b.1).map
      fun kv => quote kv.1 ++ ":" ++ kv.2) ++ "\x7d"

def dumpsList : List Json → List String
  | [] => []
  | x :: xs => dumps x :: dumpsList xs

def dumpsFields : List (String × Json) → List (String × String)
  | [] => []
  | (k, x) :: xs => (k, dumps x) :: dumpsFields xs

end

/-- The canonical text as bytes; it is ASCII. -/
def canonical (j : Json) : Bytes := j.dumps.toList.map fun c => UInt8.ofNat c.toNat

end Json
