import Hatls.Lib.Bytes

/-!
# SHA-2 and HMAC

SHA-256, SHA-384, SHA-512 and HMAC-SHA-384 as functions on byte strings.  Words
are natural numbers below `2 ^ w`, so that a digest can be computed by the kernel.

## Main definitions

* `Variant` — the word size and the rotation amounts of one of the two families.
* `sha256`, `sha384`, `sha512`, `hmacSha384`, each with the length of its digest.
-/

namespace Sha2

/-! ## Constants -/

/-- The first sixty-four bits of the fractional parts of the cube roots of the
first eighty primes. -/
def cubeRoots : List ℕ := [
  0x428a2f98d728ae22, 0x7137449123ef65cd, 0xb5c0fbcfec4d3b2f, 0xe9b5dba58189dbbc,
  0x3956c25bf348b538, 0x59f111f1b605d019, 0x923f82a4af194f9b, 0xab1c5ed5da6d8118,
  0xd807aa98a3030242, 0x12835b0145706fbe, 0x243185be4ee4b28c, 0x550c7dc3d5ffb4e2,
  0x72be5d74f27b896f, 0x80deb1fe3b1696b1, 0x9bdc06a725c71235, 0xc19bf174cf692694,
  0xe49b69c19ef14ad2, 0xefbe4786384f25e3, 0x0fc19dc68b8cd5b5, 0x240ca1cc77ac9c65,
  0x2de92c6f592b0275, 0x4a7484aa6ea6e483, 0x5cb0a9dcbd41fbd4, 0x76f988da831153b5,
  0x983e5152ee66dfab, 0xa831c66d2db43210, 0xb00327c898fb213f, 0xbf597fc7beef0ee4,
  0xc6e00bf33da88fc2, 0xd5a79147930aa725, 0x06ca6351e003826f, 0x142929670a0e6e70,
  0x27b70a8546d22ffc, 0x2e1b21385c26c926, 0x4d2c6dfc5ac42aed, 0x53380d139d95b3df,
  0x650a73548baf63de, 0x766a0abb3c77b2a8, 0x81c2c92e47edaee6, 0x92722c851482353b,
  0xa2bfe8a14cf10364, 0xa81a664bbc423001, 0xc24b8b70d0f89791, 0xc76c51a30654be30,
  0xd192e819d6ef5218, 0xd69906245565a910, 0xf40e35855771202a, 0x106aa07032bbd1b8,
  0x19a4c116b8d2d0c8, 0x1e376c085141ab53, 0x2748774cdf8eeb99, 0x34b0bcb5e19b48a8,
  0x391c0cb3c5c95a63, 0x4ed8aa4ae3418acb, 0x5b9cca4f7763e373, 0x682e6ff3d6b2b8a3,
  0x748f82ee5defb2fc, 0x78a5636f43172f60, 0x84c87814a1f0ab72, 0x8cc702081a6439ec,
  0x90befffa23631e28, 0xa4506cebde82bde9, 0xbef9a3f7b2c67915, 0xc67178f2e372532b,
  0xca273eceea26619c, 0xd186b8c721c0c207, 0xeada7dd6cde0eb1e, 0xf57d4f7fee6ed178,
  0x06f067aa72176fba, 0x0a637dc5a2c898a6, 0x113f9804bef90dae, 0x1b710b35131c471b,
  0x28db77f523047d84, 0x32caab7b40c72493, 0x3c9ebe0a15c9bebc, 0x431d67c49c100d4c,
  0x4cc5d4becb3e42b6, 0x597f299cfc657e2a, 0x5fcb6fab3ad6faec, 0x6c44198c4a475817]

/-- The fractional parts of the square roots of the first eight primes. -/
def squareRoots : List ℕ := [
  0x6a09e667f3bcc908, 0xbb67ae8584caa73b, 0x3c6ef372fe94f82b, 0xa54ff53a5f1d36f1,
  0x510e527fade682d1, 0x9b05688c2b3e6c1f, 0x1f83d9abfb41bd6b, 0x5be0cd19137e2179]

/-- The fractional parts of the square roots of the next eight primes. -/
def squareRoots' : List ℕ := [
  0xcbbb9d5dc1059ed8, 0x629a292a367cd507, 0x9159015a3070dd17, 0x152fecd8f70e5939,
  0x67332667ffc00b31, 0x8eb44a8768581511, 0xdb0c2e0d64f98fa7, 0x47b5481dbefa4fa4]

/-! ## The compression function -/

/-- What distinguishes the 32-bit family from the 64-bit one. -/
structure Variant where
  bits : ℕ
  rounds : List ℕ
  bigSigma0 : ℕ × ℕ × ℕ
  bigSigma1 : ℕ × ℕ × ℕ
  smallSigma0 : ℕ × ℕ × ℕ
  smallSigma1 : ℕ × ℕ × ℕ

def short : Variant where
  bits := 32
  rounds := (cubeRoots.take 64).map (· / 2 ^ 32)
  bigSigma0 := (2, 13, 22)
  bigSigma1 := (6, 11, 25)
  smallSigma0 := (7, 18, 3)
  smallSigma1 := (17, 19, 10)

def long : Variant where
  bits := 64
  rounds := cubeRoots
  bigSigma0 := (28, 34, 39)
  bigSigma1 := (14, 18, 41)
  smallSigma0 := (1, 8, 7)
  smallSigma1 := (19, 61, 6)

/-- The chaining value: eight words. -/
structure State where
  a : ℕ
  b : ℕ
  c : ℕ
  d : ℕ
  e : ℕ
  f : ℕ
  g : ℕ
  h : ℕ

variable (v : Variant)

/-- Addition of words. -/
def add (x y : ℕ) : ℕ := (x + y) % 2 ^ v.bits

/-- Rotation of a word to the right. -/
def rotr (x n : ℕ) : ℕ := x >>> n ||| (x <<< (v.bits - n)) % 2 ^ v.bits

def rotate3 (r : ℕ × ℕ × ℕ) (x : ℕ) : ℕ := rotr v x r.1 ^^^ rotr v x r.2.1 ^^^ rotr v x r.2.2

def rotate2 (r : ℕ × ℕ × ℕ) (x : ℕ) : ℕ := rotr v x r.1 ^^^ rotr v x r.2.1 ^^^ x >>> r.2.2

/-- The words of the schedule from the sixteen last ones, newest first. -/
def expand : ℕ → List ℕ → List ℕ
  | 0, ws => ws
  | n + 1, ws =>
    expand n (add v (add v (rotate2 v v.smallSigma1 (ws.getD 1 0)) (ws.getD 6 0))
      (add v (rotate2 v v.smallSigma0 (ws.getD 14 0)) (ws.getD 15 0)) :: ws)

/-- One round, for a round constant and a word of the schedule. -/
def round (s : State) (k : ℕ × ℕ) : State :=
  let choice := (s.e &&& s.f) ^^^ ((2 ^ v.bits - 1 - s.e) &&& s.g)
  let majority := (s.a &&& s.b) ^^^ (s.a &&& s.c) ^^^ (s.b &&& s.c)
  let t := add v (add v s.h (rotate3 v v.bigSigma1 s.e)) (add v choice (add v k.1 k.2))
  ⟨add v t (add v (rotate3 v v.bigSigma0 s.a) majority), s.a, s.b, s.c, add v s.d t, s.e, s.f, s.g⟩

/-- One block, given as its sixteen words. -/
def compress (s : State) (block : List ℕ) : State :=
  let schedule := (expand v (v.rounds.length - 16) block.reverse).reverse
  let t := (v.rounds.zip schedule).foldl (round v) s
  ⟨add v s.a t.a, add v s.b t.b, add v s.c t.c, add v s.d t.d, add v s.e t.e, add v s.f t.f,
    add v s.g t.g, add v s.h t.h⟩

/-! ## Padding and digests -/

def wordOfBytes (b : Bytes) : ℕ := b.foldl (fun acc x => 256 * acc + x.toNat) 0

def bytesOfWord (n : ℕ) : Bytes := (Bytes.toLittle (v.bits / 8) n).reverse

/-- The message, a one bit, zeros, and the length in bits. -/
def pad (b : Bytes) : Bytes :=
  let width := v.bits / 8
  let zeros := (16 * width - (b.length + 1 + 2 * width) % (16 * width)) % (16 * width)
  b ++ 0x80 :: List.replicate zeros 0 ++ (Bytes.toLittle (2 * width) (8 * b.length)).reverse

/-- Cut a list into pieces of `k` elements, at most `fuel` of them. -/
def chunks {α : Type} (k : ℕ) : ℕ → List α → List (List α)
  | 0, _ => []
  | fuel + 1, xs => if xs.isEmpty then [] else xs.take k :: chunks k fuel (xs.drop k)

def State.ofList (ws : List ℕ) : State :=
  ⟨ws.getD 0 0, ws.getD 1 0, ws.getD 2 0, ws.getD 3 0, ws.getD 4 0, ws.getD 5 0, ws.getD 6 0,
    ws.getD 7 0⟩

def State.words (s : State) : List ℕ := [s.a, s.b, s.c, s.d, s.e, s.f, s.g, s.h]

/-- The chaining value after all blocks of a padded message. -/
def final (iv : State) (b : Bytes) : State :=
  let padded := pad v b
  let words := (chunks (v.bits / 8) padded.length padded).map wordOfBytes
  (chunks 16 words.length words).foldl (compress v) iv

def digest (iv : State) (b : Bytes) : Bytes := (final v iv b).words.flatMap (bytesOfWord v)

def sha256 (b : Bytes) : Bytes := digest short (State.ofList (squareRoots.map (· / 2 ^ 32))) b

def sha512 (b : Bytes) : Bytes := digest long (State.ofList squareRoots) b

def sha384 (b : Bytes) : Bytes := (digest long (State.ofList squareRoots') b).take 48

/-- `hmac.new(key, msg, hashlib.sha384).digest()`. -/
def hmacSha384 (key msg : Bytes) : Bytes :=
  let key := if key.length ≤ 128 then key else sha384 key
  let block := key ++ List.replicate (128 - key.length) 0
  sha384 (block.map (· ^^^ 0x5c) ++ sha384 (block.map (· ^^^ 0x36) ++ msg))

theorem length_digest (iv : State) (b : Bytes) : (digest v iv b).length = 8 * (v.bits / 8) := by
  simp [digest, State.words, bytesOfWord, Bytes.length_toLittle]
  omega

theorem length_sha256 (b : Bytes) : (sha256 b).length = 32 := length_digest short _ b

theorem length_sha512 (b : Bytes) : (sha512 b).length = 64 := length_digest long _ b

theorem length_sha384 (b : Bytes) : (sha384 b).length = 48 := by
  rw [sha384, List.length_take, length_digest]
  rfl

theorem length_hmacSha384 (key msg : Bytes) : (hmacSha384 key msg).length = 48 := length_sha384 _

end Sha2
