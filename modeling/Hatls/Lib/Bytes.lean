import Mathlib.Data.List.Basic
import Mathlib.Data.List.Induction
import Mathlib.Data.Nat.Digits.Defs

/-!
# Byte strings, hexadecimal text, big-endian integers

The three encodings a Python program moves between: `bytes.hex`, `bytes.fromhex`
and `int.to_bytes`.  `fromHex` reads what Python reads — either case of digit, and
ASCII whitespace between bytes — so several texts may name one byte string, while
`hex` names each byte string once.

## Main definitions

* `hex`, `fromHex` — hexadecimal text; `fromHex_hex` and `hex_injective`.
* `toBytes` — the big-endian form of a natural number in a fixed width;
  `toLittle_injective`.
* `fromBytes` — the number a byte string spells, and `slice` — a part of one.
-/

/-- A byte string. -/
abbrev Bytes := List UInt8

namespace Bytes

/-! ## Hexadecimal text -/

/-- The lower-case digit for a value below sixteen. -/
def hexDigit (n : ℕ) : Char := if n < 10 then Char.ofNat (48 + n) else Char.ofNat (87 + n)

/-- The value of a hexadecimal digit of either case. -/
def hexValue (c : Char) : Option ℕ :=
  if '0' ≤ c ∧ c ≤ '9' then some (c.toNat - 48)
  else if 'a' ≤ c ∧ c ≤ 'f' then some (c.toNat - 87)
  else if 'A' ≤ c ∧ c ≤ 'F' then some (c.toNat - 55)
  else none

/-- ASCII whitespace. -/
def isSpace (c : Char) : Bool := c.toNat = 32 || (9 ≤ c.toNat && c.toNat ≤ 13)

def hexChars (b : Bytes) : List Char :=
  b.flatMap fun x => [hexDigit (x.toNat / 16), hexDigit (x.toNat % 16)]

/-- Python's `bytes.hex`. -/
def hex (b : Bytes) : String := String.ofList (hexChars b)

def fromHexChars : List Char → Option Bytes
  | [] => some []
  | [c] => if isSpace c then some [] else none
  | c :: d :: rest =>
    if isSpace c then fromHexChars (d :: rest) else
      match hexValue c, hexValue d, fromHexChars rest with
      | some h, some l, some b => some (UInt8.ofNat (16 * h + l) :: b)
      | _, _, _ => none

/-- Python's `bytes.fromhex`; `none` is its `ValueError`. -/
def fromHex (s : String) : Option Bytes := fromHexChars s.toList

theorem hexValue_hexDigit : ∀ n < 16, hexValue (hexDigit n) = some n := by decide

theorem isSpace_hexDigit : ∀ n < 16, isSpace (hexDigit n) = false := by decide

theorem fromHexChars_hexChars (b : Bytes) : fromHexChars (hexChars b) = some b := by
  induction b with
  | nil => rfl
  | cons x b ih =>
      have hx := x.toNat_lt
      have hhi : x.toNat / 16 < 16 := by omega
      have hlo : x.toNat % 16 < 16 := by omega
      have hval : 16 * (x.toNat / 16) + x.toNat % 16 = x.toNat := by omega
      rw [hexChars, List.flatMap_cons, ← hexChars]
      simp only [List.cons_append, List.nil_append, fromHexChars, isSpace_hexDigit _ hhi,
        hexValue_hexDigit _ hhi, hexValue_hexDigit _ hlo, ih, hval, UInt8.ofNat_toNat]
      rfl

/-- **Reading back what `hex` wrote.** -/
@[simp] theorem fromHex_hex (b : Bytes) : fromHex (hex b) = some b := by
  rw [fromHex, hex, String.toList_ofList, fromHexChars_hexChars]

theorem hex_injective : Function.Injective hex := by
  intro a b h
  have := congrArg fromHex h
  simpa using this

@[simp] theorem hex_inj {a b : Bytes} : hex a = hex b ↔ a = b := hex_injective.eq_iff

/-! ## Big-endian integers -/

/-- The bytes of `n` in width `k`, least significant first. -/
def toLittle : ℕ → ℕ → Bytes
  | 0, _ => []
  | k + 1, n => UInt8.ofNat n :: toLittle k (n / 256)

/-- Python's `int.to_bytes(k, "big")`; `none` is its `OverflowError`. -/
def toBytes (k n : ℕ) : Option Bytes := if n < 256 ^ k then some (toLittle k n).reverse else none

theorem length_toLittle (k n : ℕ) : (toLittle k n).length = k := by
  induction k generalizing n with
  | zero => rfl
  | succ k ih => simp [toLittle, ih]

theorem toLittle_injective {k m n : ℕ} (hm : m < 256 ^ k) (hn : n < 256 ^ k)
    (h : toLittle k m = toLittle k n) : m = n := by
  induction k generalizing m n with
  | zero => omega
  | succ k ih =>
      simp only [toLittle, List.cons.injEq] at h
      have hmod : m % 256 = n % 256 := by
        have := congrArg UInt8.toNat h.1
        simpa using this
      have hdiv : m / 256 = n / 256 := by
        rw [Nat.pow_succ] at hm hn
        exact ih (by omega) (by omega) h.2
      omega

/-- Python's `int.from_bytes(b, "big")`. -/
def fromBytes (b : Bytes) : ℕ := b.foldl (fun n x => 256 * n + x.toNat) 0

/-- **Reading back what `toBytes` wrote.** -/
theorem fromBytes_toLittle {k n : ℕ} (h : n < 256 ^ k) : fromBytes (toLittle k n).reverse = n := by
  rw [fromBytes, List.foldl_reverse]
  induction k generalizing n with
  | zero =>
      have : n = 0 := by omega
      simp [toLittle, this]
  | succ k ih =>
      have hdiv : n / 256 < 256 ^ k := by
        rw [Nat.pow_succ] at h
        omega
      rw [toLittle, List.foldr_cons, ih hdiv]
      simp only [UInt8.toNat_ofNat']
      omega

theorem fromBytes_concat (b : Bytes) (x : UInt8) :
    fromBytes (b ++ [x]) = 256 * fromBytes b + x.toNat := by
  simp [fromBytes]

theorem fromBytes_lt (b : Bytes) : fromBytes b < 256 ^ b.length := by
  induction b using List.reverseRecOn with
  | nil => simp [fromBytes]
  | append_singleton b x ih =>
      have hx := x.toNat_lt
      rw [fromBytes_concat, List.length_append, List.length_singleton, Nat.pow_succ]
      omega

/-- Writing back what `fromBytes` read. -/
theorem toLittle_fromBytes (b : Bytes) : (toLittle b.length (fromBytes b)).reverse = b := by
  induction b using List.reverseRecOn with
  | nil => rfl
  | append_singleton b x ih =>
      have hx := x.toNat_lt
      have hdiv : (256 * fromBytes b + x.toNat) / 256 = fromBytes b := by omega
      have hmod : UInt8.ofNat (256 * fromBytes b + x.toNat) = x := by
        apply UInt8.toNat_inj.mp
        rw [UInt8.toNat_ofNat']
        omega
      rw [fromBytes_concat, List.length_append, List.length_singleton, toLittle, hdiv, hmod,
        List.reverse_cons, ih]

/-! ## Parts -/

/-- Python's `b[i:j]`, for indices that are not negative: both are clamped to the length. -/
def slice (b : Bytes) (i j : ℕ) : Bytes := (b.take j).drop i

theorem slice_append_left {a : Bytes} {i j : ℕ} (h : j ≤ a.length) (b : Bytes) :
    slice (a ++ b) i j = slice a i j := by
  rw [slice, slice, List.take_append_of_le_length h]

/-- A part that begins where a prefix ends. -/
theorem slice_append_right (a b : Bytes) (i n : ℕ) :
    slice (a ++ b) (a.length + i) (a.length + n) = slice b i n := by
  rw [slice, slice, List.take_length_add_append, List.drop_length_add_append]

/-- The part between what comes before and what comes after. -/
theorem slice_middle {a m : Bytes} {i n : ℕ} (ha : a.length = i) (hm : m.length = n) (c : Bytes) :
    slice (a ++ (m ++ c)) i (i + n) = m := by
  have h := slice_append_right a (m ++ c) 0 n
  rw [ha, Nat.add_zero] at h
  rw [h, slice, List.drop_zero, List.take_left' hm]

/-- A part of a longer string is longer, at its end. -/
theorem slice_prefix (a b : Bytes) (i j : ℕ) : slice a i j <+: slice (a ++ b) i j := by
  rw [slice, slice, List.take_append]
  rcases Nat.le_total i (a.take j).length with hle | hge
  · rw [List.drop_append_of_le_length hle]
    exact List.prefix_append _ _
  · rw [List.drop_eq_nil_of_le hge]
    exact List.nil_prefix

end Bytes
