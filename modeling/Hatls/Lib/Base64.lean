import Hatls.Lib.Bytes

/-!
# Base64 as Python reads and writes it

`base64.b64encode` and `base64.b64decode`.  The decoder passes over characters that are not
of the alphabet and stops at the padding that completes a group, so many texts spell one byte
string; what the encoder wrote is read back.

## Main definitions

* `Base64.encode`, `Base64.decode`.
* `Base64.decode_encode` — the round trip.
-/

namespace Base64

/-- The character of six bits. -/
def digit (n : ℕ) : Char :=
  if n < 26 then Char.ofNat (65 + n)
  else if n < 52 then Char.ofNat (97 + (n - 26))
  else if n < 62 then Char.ofNat (48 + (n - 52))
  else if n = 62 then '+'
  else '/'

/-- The six bits of a character of the alphabet. -/
def sextet (c : Char) : Option ℕ :=
  if 65 ≤ c.toNat ∧ c.toNat ≤ 90 then some (c.toNat - 65)
  else if 97 ≤ c.toNat ∧ c.toNat ≤ 122 then some (c.toNat - 97 + 26)
  else if 48 ≤ c.toNat ∧ c.toNat ≤ 57 then some (c.toNat - 48 + 52)
  else if c = '+' then some 62
  else if c = '/' then some 63
  else none

theorem sextet_digit : ∀ n < 64, sextet (digit n) = some n := by decide

theorem digit_ne_pad : ∀ n < 64, digit n ≠ '=' := by decide

theorem digit_ascii : ∀ n < 64, (digit n).toNat < 128 := by decide

/-- Groups of three bytes as four characters, the last of them padded. -/
def encodeChars : Bytes → List Char
  | [] => []
  | [a] => [digit (a.toNat / 4), digit (a.toNat % 4 * 16), '=', '=']
  | [a, b] => [digit (a.toNat / 4), digit (a.toNat % 4 * 16 + b.toNat / 16),
      digit (b.toNat % 16 * 4), '=']
  | a :: b :: c :: rest =>
    digit (a.toNat / 4) :: digit (a.toNat % 4 * 16 + b.toNat / 16) ::
      digit (b.toNat % 16 * 4 + c.toNat / 64) :: digit (c.toNat % 64) :: encodeChars rest

/-- `base64.b64encode(b).decode()`. -/
def encode (b : Bytes) : String := String.ofList (encodeChars b)

/-- The decoder at a place: how many characters of the group are read, the bits left over
from the last of them, and how much padding there was since. -/
def decodeChars : List Char → ℕ → ℕ → ℕ → Option Bytes
  | [], place, _, _ => if place = 0 then some [] else none
  | c :: cs, place, left, pads =>
    if c = '=' then
      if 2 ≤ place then
        if 4 ≤ place + (pads + 1) then some [] else decodeChars cs place left (pads + 1)
      else decodeChars cs place left pads
    else
      match sextet c with
      | none => decodeChars cs place left pads
      | some x =>
        match place with
        | 0 => decodeChars cs 1 x 0
        | 1 => (decodeChars cs 2 (x % 16) 0).map (UInt8.ofNat (left * 4 + x / 16) :: ·)
        | 2 => (decodeChars cs 3 (x % 4) 0).map (UInt8.ofNat (left * 16 + x / 4) :: ·)
        | _ => (decodeChars cs 0 0 0).map (UInt8.ofNat (left * 64 + x) :: ·)

/-- `base64.b64decode(s)`; `none` is its `ValueError`. -/
def decode (s : String) : Option Bytes :=
  if s.toList.all (·.toNat < 128) then decodeChars s.toList 0 0 0 else none

section Group

variable {n : ℕ} (hn : n < 64) (cs : List Char) (left pads : ℕ)
include hn

/-! The four characters of a group. -/

theorem decodeChars_first : decodeChars (digit n :: cs) 0 left pads = decodeChars cs 1 n 0 := by
  rw [decodeChars, if_neg (digit_ne_pad n hn)]
  simp only [sextet_digit n hn]

theorem decodeChars_second :
    decodeChars (digit n :: cs) 1 left pads =
      (decodeChars cs 2 (n % 16) 0).map (UInt8.ofNat (left * 4 + n / 16) :: ·) := by
  rw [decodeChars, if_neg (digit_ne_pad n hn)]
  simp only [sextet_digit n hn]

theorem decodeChars_third :
    decodeChars (digit n :: cs) 2 left pads =
      (decodeChars cs 3 (n % 4) 0).map (UInt8.ofNat (left * 16 + n / 4) :: ·) := by
  rw [decodeChars, if_neg (digit_ne_pad n hn)]
  simp only [sextet_digit n hn]

theorem decodeChars_fourth :
    decodeChars (digit n :: cs) 3 left pads =
      (decodeChars cs 0 0 0).map (UInt8.ofNat (left * 64 + n) :: ·) := by
  rw [decodeChars, if_neg (digit_ne_pad n hn)]
  simp only [sextet_digit n hn]

end Group

theorem ofNat_eq {n : ℕ} {x : UInt8} (h : n = x.toNat) : UInt8.ofNat n = x := by
  rw [h, UInt8.ofNat_toNat]

theorem decodeChars_encodeChars (b : Bytes) : decodeChars (encodeChars b) 0 0 0 = some b := by
  induction b using encodeChars.induct with
  | case1 => rfl
  | case2 a =>
      have ha := a.toNat_lt
      have hbyte : UInt8.ofNat (a.toNat / 4 * 4 + a.toNat % 4 * 16 / 16) = a := ofNat_eq (by omega)
      rw [encodeChars, decodeChars_first (by omega), decodeChars_second (by omega), hbyte]
      rfl
  | case3 a b =>
      have ha := a.toNat_lt
      have hb := b.toNat_lt
      have hfirst : UInt8.ofNat (a.toNat / 4 * 4 + (a.toNat % 4 * 16 + b.toNat / 16) / 16) = a :=
        ofNat_eq (by omega)
      have hsecond : UInt8.ofNat ((a.toNat % 4 * 16 + b.toNat / 16) % 16 * 16 +
          b.toNat % 16 * 4 / 4) = b :=
        ofNat_eq (by omega)
      rw [encodeChars, decodeChars_first (by omega), decodeChars_second (by omega),
        decodeChars_third (by omega), hfirst, hsecond]
      rfl
  | case4 a b c rest ih =>
      have ha := a.toNat_lt
      have hb := b.toNat_lt
      have hc := c.toNat_lt
      have hfirst : UInt8.ofNat (a.toNat / 4 * 4 + (a.toNat % 4 * 16 + b.toNat / 16) / 16) = a :=
        ofNat_eq (by omega)
      have hsecond : UInt8.ofNat ((a.toNat % 4 * 16 + b.toNat / 16) % 16 * 16 +
          (b.toNat % 16 * 4 + c.toNat / 64) / 4) = b :=
        ofNat_eq (by omega)
      have hthird : UInt8.ofNat ((b.toNat % 16 * 4 + c.toNat / 64) % 4 * 64 + c.toNat % 64) = c :=
        ofNat_eq (by omega)
      rw [encodeChars, decodeChars_first (by omega), decodeChars_second (by omega),
        decodeChars_third (by omega), decodeChars_fourth (by omega), ih, hfirst, hsecond, hthird]
      rfl

theorem encodeChars_ascii (b : Bytes) : (encodeChars b).all (·.toNat < 128) = true := by
  induction b using encodeChars.induct with
  | case1 => rfl
  | case2 a =>
      have ha := a.toNat_lt
      simp [encodeChars, digit_ascii (a.toNat / 4) (by omega),
        digit_ascii (a.toNat % 4 * 16) (by omega)]
  | case3 a b =>
      have ha := a.toNat_lt
      have hb := b.toNat_lt
      simp [encodeChars, digit_ascii (a.toNat / 4) (by omega),
        digit_ascii (a.toNat % 4 * 16 + b.toNat / 16) (by omega),
        digit_ascii (b.toNat % 16 * 4) (by omega)]
  | case4 a b c rest ih =>
      have ha := a.toNat_lt
      have hb := b.toNat_lt
      have hc := c.toNat_lt
      simp [encodeChars, digit_ascii (a.toNat / 4) (by omega),
        digit_ascii (a.toNat % 4 * 16 + b.toNat / 16) (by omega),
        digit_ascii (b.toNat % 16 * 4 + c.toNat / 64) (by omega),
        digit_ascii (c.toNat % 64) (by omega), ih]

/-- **What was encoded is read back.** -/
@[simp] theorem decode_encode (b : Bytes) : decode (encode b) = some b := by
  rw [decode, encode, String.toList_ofList, if_pos (encodeChars_ascii b), decodeChars_encodeChars]

/-- Blanks, and whatever follows the padding, are passed over. -/
example : decode "aGF0 bHM=\n!!" = some [0x68, 0x61, 0x74, 0x6c, 0x73] := by decide

end Base64
