import Mathlib.Data.Nat.Bitwise
import Hatls.Primitives

/-!
# The Merkle log

`hatls/log.py`: the hashes of RFC 6962, the recursive root and the two recursive
proofs, and the two verifiers, which walk the bits of a position with shifts.  The
two verifiers share one loop body; they differ in what a sibling does to the
digests carried along.

## Main definitions

* `Log.root`, `Log.inclusionProof`, `Log.consistencyProof` — the generators.
* `Log.climb` — the loop of the verifiers.
* `Log.verifyInclusion`, `Log.verifyConsistency` — the verifiers.
* `MerkleLog` — the leaves and the operations on them.
-/

namespace Hatls.Log

variable (P : Primitives)

/-! ## Hashing -/

/-- The hash of several parts, one after the other. -/
def h (parts : List Bytes) : Bytes := P.sha256 parts.flatten

def leafHash (entry : Bytes) : Bytes := h P [[0x00], entry]

def nodeHash (l r : Bytes) : Bytes := h P [[0x01], l, r]

@[simp] theorem length_leafHash (entry : Bytes) : (leafHash P entry).length = 32 :=
  P.length_sha256 _

@[simp] theorem length_nodeHash (l r : Bytes) : (nodeHash P l r).length = 32 := P.length_sha256 _

/-! ## Roots and proofs -/

/-- The loop of `k`: double while the double is below `n`. -/
def kLoop (n k : ℕ) : ℕ := if 0 < k ∧ k * 2 < n then kLoop n (k * 2) else k
termination_by n - k

/-- The largest power of two strictly less than `n`. -/
def k (n : ℕ) : ℕ := kLoop n 1

theorem kLoop_pos {n k : ℕ} (hk : 0 < k) : 0 < kLoop n k := by
  fun_induction kLoop n k with
  | case1 k hlt ih => exact ih (by omega)
  | case2 => exact hk

theorem kLoop_lt {n k : ℕ} (hk : k < n) : kLoop n k < n := by
  fun_induction kLoop n k with
  | case1 k hlt ih => exact ih (by omega)
  | case2 => exact hk

theorem k_pos (n : ℕ) : 0 < k n := kLoop_pos Nat.one_pos

theorem k_lt {n : ℕ} (hn : 2 ≤ n) : k n < n := kLoop_lt (by omega)

/-- `MTH(D[n])`. -/
def root (leaves : List Bytes) : Bytes :=
  match leaves with
  | [] => h P []
  | [entry] => leafHash P entry
  | e :: e' :: rest =>
    let leaves := e :: e' :: rest
    nodeHash P (root (leaves.take (k leaves.length))) (root (leaves.drop (k leaves.length)))
termination_by leaves.length
decreasing_by
  · have := k_lt (n := (e :: e' :: rest).length) (by simp)
    simp only [List.length_take]; omega
  · have := k_pos (e :: e' :: rest).length
    simp only [List.length_drop, List.length_cons] at *; omega

@[simp] theorem length_root (leaves : List Bytes) : (root P leaves).length = 32 := by
  match leaves with
  | [] => rw [root]; exact P.length_sha256 _
  | [entry] => rw [root]; exact length_leafHash P entry
  | e :: e' :: rest => rw [root]; exact length_nodeHash P _ _

/-- `PATH(m, D[n])`: the hashes needed to walk leaf `m` up to the root. -/
def inclusionProof (leaves : List Bytes) (m : ℤ) : Except Exn (List Bytes) :=
  let n := leaves.length
  if ¬ (0 ≤ m ∧ m < n) then .error .indexError
  else if n = 1 then .ok []
  else if m < k n then
    (inclusionProof (leaves.take (k n)) m).map (· ++ [root P (leaves.drop (k n))])
  else (inclusionProof (leaves.drop (k n)) (m - k n)).map (· ++ [root P (leaves.take (k n))])
termination_by leaves.length
decreasing_by
  · have := k_lt (n := leaves.length) (by omega)
    simp only [List.length_take]; omega
  · have := k_pos leaves.length
    simp only [List.length_drop]; omega

/-- The recursion of `consistencyProof`; `b` says that the verifier already holds
the root of `leaves`.  The source never enters it with an empty prefix. -/
def subproof (leaves : List Bytes) (m : ℕ) (b : Bool) : List Bytes :=
  let n := leaves.length
  if m = n then (if b then [] else [root P leaves])
  else if n ≤ 1 then []
  else if m ≤ k n then subproof (leaves.take (k n)) m b ++ [root P (leaves.drop (k n))]
  else subproof (leaves.drop (k n)) (m - k n) false ++ [root P (leaves.take (k n))]
termination_by leaves.length
decreasing_by
  · have := k_lt (n := leaves.length) (by omega)
    simp only [List.length_take]; omega
  · have := k_pos leaves.length
    simp only [List.length_drop]; omega

/-- `PROOF(m, D[n])`: evidence that the first `m` leaves are a prefix of all. -/
def consistencyProof (leaves : List Bytes) (m : ℤ) : Except Exn (List Bytes) :=
  let n := leaves.length
  if ¬ (0 < m ∧ m ≤ n) then .error .indexError
  else if m = n then .ok []
  else .ok (subproof P leaves m.toNat true)

/-! ## The verifiers -/

/-- `while not (fn == 0 or fn & 1): fn >>= 1; sn >>= 1`. -/
def skip (fn sn : ℕ) : ℕ × ℕ :=
  if fn = 0 ∨ fn &&& 1 = 1 then (fn, sn) else skip (fn >>> 1) (sn >>> 1)
termination_by fn
decreasing_by rw [Nat.shiftRight_one]; omega

/-- `while fn & 1: fn >>= 1; sn >>= 1`. -/
def stripOnes (fn sn : ℕ) : ℕ × ℕ :=
  if fn &&& 1 = 1 then stripOnes (fn >>> 1) (sn >>> 1) else (fn, sn)
termination_by fn
decreasing_by
  have : fn ≠ 0 := by rintro rfl; simp at *
  rw [Nat.shiftRight_one]; omega

section Climb

variable {A : Type} (left : Bytes → A → A) (right : A → Bytes → A)

/-- The `for` loop of the verifiers, from the position `fn` of a level whose last
position is `sn`: `left` takes a sibling from the left, `right` one from the right.
The result is the final `sn` with what was rebuilt, or nothing where the loop
returns `False`. -/
def climb (fn sn : ℕ) (a : A) : List Bytes → Option (ℕ × A)
  | [] => some (sn, a)
  | c :: p =>
    if sn = 0 then none
    else if fn &&& 1 = 1 ∨ fn = sn then
      climb ((skip fn sn).1 >>> 1) ((skip fn sn).2 >>> 1) (left c a) p
    else climb (fn >>> 1) (sn >>> 1) (right a c) p

end Climb

/-- Rebuild the root from the entry and its proof alone. -/
def verifyInclusion (entry : Bytes) (m n : ℤ) (proof : List Bytes) (expectedRoot : Bytes) : Bool :=
  if ¬ (0 ≤ m ∧ m < n) then false
  else
    match climb (nodeHash P) (nodeHash P) m.toNat (n - 1).toNat (leafHash P entry) proof with
    | none => false
    | some (sn, node) => sn = 0 && node = expectedRoot

/-- A sibling on the left belongs to both trees. -/
def consistencyLeft (c : Bytes) (a : Bytes × Bytes) : Bytes × Bytes :=
  (nodeHash P c a.1, nodeHash P c a.2)

/-- A sibling on the right belongs to the new tree only. -/
def consistencyRight (a : Bytes × Bytes) (c : Bytes) : Bytes × Bytes := (a.1, nodeHash P a.2 c)

/-- True if a log of size `n` with `newRoot` really extends one of size `m` with
`oldRoot`. -/
def verifyConsistency (oldRoot : Bytes) (m : ℤ) (newRoot : Bytes) (n : ℤ) (proof : List Bytes) :
    Bool :=
  if m = n then oldRoot = newRoot && proof = []
  else if ¬ (0 < m ∧ m < n) ∨ proof = [] then false
  else
    -- a power of two: the old root is the first subtree
    let p := if m.toNat &&& (m.toNat - 1) = 0 then oldRoot :: proof else proof
    let start := stripOnes (m - 1).toNat (n - 1).toNat
    match p with
    | [] => false
    | c :: p =>
      match climb (consistencyLeft P) (consistencyRight P) start.1 start.2 (c, c) p with
      | none => false
      | some (sn, fr, sr) => fr = oldRoot && sr = newRoot && sn = 0

end Hatls.Log

namespace Hatls

/-- The leaves plus the operations a verifier needs. -/
structure MerkleLog where
  entries : List Bytes

namespace MerkleLog

variable (P : Primitives)

def size (log : MerkleLog) : ℕ := log.entries.length

def head (log : MerkleLog) : Bytes := Log.root P log.entries

def append (log : MerkleLog) (entry : Bytes) : MerkleLog := ⟨log.entries ++ [entry]⟩

def proveInclusion (log : MerkleLog) (m : ℤ) : Except Exn (List Bytes) :=
  Log.inclusionProof P log.entries m

def proveConsistency (log : MerkleLog) (m : ℤ) : Except Exn (List Bytes) :=
  Log.consistencyProof P log.entries m

@[simp] theorem size_append (log : MerkleLog) (entry : Bytes) :
    (log.append entry).size = log.size + 1 := by
  simp [append, size]

@[simp] theorem entries_append (log : MerkleLog) (entry : Bytes) :
    (log.append entry).entries = log.entries ++ [entry] := rfl

end MerkleLog

end Hatls
