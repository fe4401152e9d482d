import Mathlib.Data.List.Infix
import Hatls.Lib.MerkleTree
import Hatls.Log

/-!
# The log computes RFC 6962 trees, and its verifiers are climbs

The functions of `Hatls.Log` against the general theory of hash trees: the loop of
`k` finds the split point, `root` and `subproof` are those of the scheme the log
hashes with, and the verifiers' loop, which shifts two positions and skips zeros,
is the level-by-level climb.

## Main definitions

* `Log.scheme` — how the log hashes; `Log.string` — the bytes behind a hash.
* `Log.rootStrings`, `Log.inclusionStrings`, `Log.consistencyStrings` — the strings
  a call hashes.
* `Log.climb_eq_walk` — the loop is the climb.
* `Log.verifyInclusion_iff`, `Log.verifyConsistency_iff` — acceptance as a climb.
-/

namespace Hatls.Log

open MerkleTree

/-! ## The split point -/

theorem kLoop_eq_split {n h : ℕ} (hlt : 2 ^ h < n) : kLoop n (2 ^ h) = split n := by
  induction hd : n - 2 ^ h using Nat.strong_induction_on generalizing h with
  | _ d ih =>
    have hpos : 0 < 2 ^ h := Nat.two_pow_pos h
    rw [kLoop]
    by_cases hlt' : 2 ^ h * 2 < n
    · rw [if_pos ⟨hpos, hlt'⟩, ← Nat.pow_succ]
      exact ih _ (by rw [Nat.pow_succ]; omega) (by rw [Nat.pow_succ]; exact hlt') rfl
    · rw [if_neg (by simp [hlt']), split_eq_of_le hlt (by rw [Nat.pow_succ]; omega)]

/-- **The loop of `k` finds the split point.** -/
theorem k_eq_split (n : ℕ) : k n = split n := by
  rcases Nat.lt_or_ge 1 n with hn | hn
  · exact kLoop_eq_split (h := 0) hn
  · obtain rfl | rfl : n = 0 ∨ n = 1 := by omega
    · rw [k, kLoop]; rfl
    · rw [k, kLoop]; rfl

/-! ## Roots and proofs -/

section Generators

variable (P : Primitives)

/-- How the log hashes entries and pairs. -/
def scheme : Scheme Bytes Bytes where
  empty := h P []
  leaf := leafHash P
  node := nodeHash P

theorem root_eq_scheme (leaves : List Bytes) : root P leaves = (scheme P).root leaves := by
  induction hn : leaves.length using Nat.strong_induction_on generalizing leaves with
  | _ n ih =>
    subst hn
    match leaves with
    | [] => rw [root, Scheme.root]; rfl
    | [e] => rw [root, Scheme.root]; rfl
    | e :: e' :: rest =>
        have hk := split_lt (n := (e :: e' :: rest).length) (by simp)
        have hk0 := split_pos (e :: e' :: rest).length
        rw [(scheme P).root_split (by simp), root, k_eq_split,
          ih _ (by rw [List.length_take]; omega) _ rfl,
          ih _ (by rw [List.length_drop]; simp only [List.length_cons] at *; omega) _ rfl]
        rfl

theorem subproof_eq_scheme {leaves : List Bytes} {m : ℕ} (hm : 0 < m) (hmn : m ≤ leaves.length)
    (b : Bool) : subproof P leaves m b = (scheme P).subproof leaves m b := by
  induction hn : leaves.length using Nat.strong_induction_on generalizing leaves m b with
  | _ n ih =>
    subst hn
    rcases Nat.eq_or_lt_of_le hmn with heq | hlt
    · rw [subproof, if_pos heq, (scheme P).subproof_self heq.ge, root_eq_scheme]
    · have hk := split_lt (n := leaves.length) (by omega)
      have hk0 := split_pos leaves.length
      have htake : (leaves.take (split leaves.length)).length = split leaves.length := by
        rw [List.length_take]; omega
      rw [subproof]
      simp only [k_eq_split]
      rw [if_neg hlt.ne, if_neg (by omega)]
      split_ifs with hle
      · rw [(scheme P).subproof_left hle (by omega), root_eq_scheme,
          ih _ (by omega) hm (by omega) b rfl]
      · have hdrop : (leaves.drop (split leaves.length)).length =
            leaves.length - split leaves.length := List.length_drop
        rw [(scheme P).subproof_right (by omega) hlt, root_eq_scheme,
          ih _ (by omega) (by omega) (by omega) false rfl]

theorem consistencyProof_of_lt {leaves : List Bytes} {m : ℕ} (hm : 0 < m)
    (hmn : m < leaves.length) :
    consistencyProof P leaves m = .ok ((scheme P).subproof leaves m true) := by
  rw [consistencyProof, if_neg (by omega), if_neg (by omega), Int.toNat_natCast, subproof_eq_scheme P hm hmn.le]

theorem consistencyProof_self {leaves : List Bytes} (h : leaves ≠ []) :
    consistencyProof P leaves leaves.length = .ok [] := by
  have := List.length_pos_iff.mpr h
  rw [consistencyProof, if_neg (by omega), if_pos rfl]

theorem inclusionProof_eq_scheme {leaves : List Bytes} {m : ℕ} (hm : m < leaves.length) :
    inclusionProof P leaves m = .ok ((scheme P).inclusion leaves m) := by
  induction hn : leaves.length using Nat.strong_induction_on generalizing leaves m with
  | _ n ih =>
    subst hn
    rw [inclusionProof, if_neg (by omega)]
    rcases Nat.lt_or_ge leaves.length 2 with hsmall | hn
    · rw [if_pos (by omega), Scheme.inclusion, if_pos (by omega)]
    have hk := split_lt hn
    have hk0 := split_pos leaves.length
    have htake : (leaves.take (split leaves.length)).length = split leaves.length := by
      rw [List.length_take]; omega
    rw [if_neg (by omega), k_eq_split]
    rcases Nat.lt_or_ge m (split leaves.length) with hlt | hge
    · rw [if_pos (by omega), (scheme P).inclusion_of_lt hlt hn, ih _ (by omega) (by omega) rfl,
        root_eq_scheme]
      rfl
    · have hdrop : (leaves.drop (split leaves.length)).length =
          leaves.length - split leaves.length := List.length_drop
      have hcast : (m : ℤ) - (split leaves.length : ℕ) = ((m - split leaves.length : ℕ) : ℤ) := by
        omega
      rw [if_neg (by omega), (scheme P).inclusion_of_ge hge hn, hcast, ih _ (by omega) (by omega) rfl,
        root_eq_scheme]
      rfl

end Generators

/-! ## The loop of the verifiers -/

theorem skip_self {fn : ℕ} (h : fn ≠ 0) :
    (skip fn fn).2 = (skip fn fn).1 ∧ (skip fn fn).1 % 2 = 1 := by
  induction fn using Nat.strong_induction_on with
  | _ fn ih =>
    rw [skip]
    simp only [Nat.and_one_is_mod, Nat.shiftRight_one]
    split_ifs with hodd
    · exact ⟨rfl, by omega⟩
    · exact ih (fn / 2) (by omega) (by omega)

theorem skip_of_odd {fn : ℕ} (h : fn % 2 = 1) (sn : ℕ) : skip fn sn = (fn, sn) := by
  rw [skip]
  simp [Nat.and_one_is_mod, h]

section Climb

variable {A : Type} (l : Bytes → A → A) (r : A → Bytes → A)

/-- The zeros the loop skips are the levels on which the rightmost node is carried
up unchanged. -/
theorem walk_skip {fn : ℕ} (h : fn ≠ 0) (a : A) (p : List Bytes) :
    walk l r (skip fn fn).1 (skip fn fn).2 a p = walk l r fn fn a p := by
  induction fn using Nat.strong_induction_on with
  | _ fn ih =>
    rw [skip]
    simp only [Nat.and_one_is_mod, Nat.shiftRight_one]
    split_ifs with hodd
    · rfl
    · rw [ih (fn / 2) (by omega) (by omega), walk_carry l r (i := fn) (by omega) le_rfl h]

/-- **The loop of the verifiers is the climb.**  What the loop leaves to a final
check, that the last position has come down to zero, is part of the climb. -/
theorem climb_eq_walk {fn sn : ℕ} (hle : fn ≤ sn) (a : A) (p : List Bytes) :
    ((climb l r fn sn a p).bind fun x => if x.1 = 0 then some x.2 else none) =
      walk l r fn sn a p := by
  induction p generalizing fn sn a with
  | nil =>
      rw [climb, Option.bind_some]
      rcases Nat.eq_zero_or_pos sn with rfl | hpos
      · rw [walk_root, if_pos rfl, if_pos rfl]
      · rw [walk_nil l r hle (by omega), if_neg (by simp only; omega)]
  | cons c p ih =>
      rw [climb]
      rcases Nat.eq_zero_or_pos sn with rfl | hpos
      · rw [walk_root]
        simp
      rw [if_neg (by omega)]
      simp only [Nat.and_one_is_mod, Nat.shiftRight_one]
      by_cases hodd : fn % 2 = 1
      · rw [if_pos (.inl hodd), skip_of_odd hodd, ih (by omega), walk_odd l r hodd (by omega)]
      by_cases heq : fn = sn
      · subst heq
        obtain ⟨hsnd, hfst⟩ := skip_self (show fn ≠ 0 by omega)
        rw [if_pos (.inr rfl), ih (by rw [hsnd]), ← walk_skip l r (show fn ≠ 0 by omega)]
        rw [hsnd, walk_odd l r hfst (by omega)]
      · rw [if_neg (by omega), ih (by omega), walk_even l r (by omega) (by omega)]

theorem climb_eq_some_zero_iff {fn sn : ℕ} (hle : fn ≤ sn) (a b : A) (p : List Bytes) :
    climb l r fn sn a p = some (0, b) ↔ walk l r fn sn a p = some b := by
  rw [← climb_eq_walk l r hle]
  rcases climb l r fn sn a p with _ | ⟨s, x⟩
  · simp
  · by_cases hs : s = 0 <;> simp [hs]

/-- Stripping the ones is starting from the largest complete subtree. -/
theorem walk_stripOnes {fn sn : ℕ} (a : A) (p : List Bytes) :
    walk l r (stripOnes fn sn).1 (stripOnes fn sn).2 a p = walkFrom l r fn sn a p := by
  induction fn using Nat.strong_induction_on generalizing sn with
  | _ fn ih =>
    rw [stripOnes]
    simp only [Nat.and_one_is_mod, Nat.shiftRight_one]
    split_ifs with hodd
    · rw [ih (fn / 2) (by omega), walkFrom_odd l r hodd]
    · rw [walkFrom_even l r (by omega)]

theorem stripOnes_le {fn sn : ℕ} (hle : fn ≤ sn) : (stripOnes fn sn).1 ≤ (stripOnes fn sn).2 := by
  induction fn using Nat.strong_induction_on generalizing sn with
  | _ fn ih =>
    rw [stripOnes]
    simp only [Nat.and_one_is_mod, Nat.shiftRight_one]
    split_ifs with hodd
    · exact ih (fn / 2) (by omega) (by omega)
    · exact hle

end Climb

/-! ## The strings a call hashes -/

/-- The bytes behind a hash. -/
def string : Preimage Bytes Bytes → Bytes
  | .leaf e => [[0x00], e].flatten
  | .node a b => [[0x01], a, b].flatten

section Strings

variable (P : Primitives)

/-- The strings `root(leaves)` hashes. -/
def rootStrings (leaves : List Bytes) : List Bytes := ((scheme P).rootHashes leaves).map string

/-- The strings `verify_inclusion` hashes when its loop runs to the end. -/
def inclusionStrings (entry : Bytes) (m n : ℤ) (proof : List Bytes) : List Bytes :=
  string (.leaf entry) ::
    match climb (scheme P).inclusionL (scheme P).inclusionR m.toNat (n - 1).toNat
      (leafHash P entry, []) proof with
    | none => []
    | some (_, _, hashes) => hashes.map string

/-- The strings `verify_consistency` hashes when its loop runs to the end. -/
def consistencyStrings (oldRoot : Bytes) (m n : ℤ) (proof : List Bytes) : List Bytes :=
  let p := if m.toNat &&& (m.toNat - 1) = 0 then oldRoot :: proof else proof
  let start := stripOnes (m - 1).toNat (n - 1).toNat
  match p with
  | [] => []
  | c :: p =>
    match climb (scheme P).consistencyL (scheme P).consistencyR start.1 start.2 ((c, c), []) p with
    | none => []
    | some (_, _, hashes) => hashes.map string

/-- The binding that collision freedom gives: a digest is a string of 32 bytes, and
a proof element of any other length shifts a boundary the digests hold fixed. -/
theorem binding {strings : List Bytes} (hcf : CollisionFree P strings) :
    Binding (scheme P) (fun d => d.length = 32) (fun v => string v ∈ strings) where
  leaf_digest e := length_leafHash P e
  node_digest a b := length_nodeHash P a b
  leaf_inj e e' he he' heq := by
    have := hcf _ he _ he' heq
    simpa [string] using this
  node_inj a b c d hab hcd heq hlen hc hd := by
    have hstr := hcf _ hab _ hcd heq
    simp only [string, List.flatten_cons, List.flatten_nil, List.append_nil, List.cons_append,
      List.nil_append, List.cons.injEq, true_and] at hstr
    have hsum := congrArg List.length hstr
    simp only [List.length_append] at hsum
    exact List.append_inj hstr (by omega)

/-- A leaf is hashed after another byte than a pair, and nothing else is hashed with no
byte before it. -/
theorem separated {strings : List Bytes} (hcf : CollisionFree P strings) (hempty : [] ∈ strings) :
    Separated (scheme P) (fun v => string v ∈ strings) where
  leaf_ne_node e a b he hab heq := by
    have := hcf _ he _ hab heq
    simp [string] at this
  empty_ne_leaf e he heq := by
    have := hcf _ hempty _ he heq
    simp [string] at this
  empty_ne_node a b hab heq := by
    have := hcf _ hempty _ hab heq
    simp [string] at this

end Strings

/-! ## Acceptance -/

section Acceptance

variable (P : Primitives)

/-- **Inclusion.**  A proof is accepted exactly when climbing it from the leaf
rebuilds the root. -/
theorem verifyInclusion_iff {entry r : Bytes} {m n : ℕ} {proof : List Bytes} (hmn : m < n) :
    verifyInclusion P entry m n proof r = true ↔
      ∃ out, walk (scheme P).inclusionL (scheme P).inclusionR m (n - 1) (leafHash P entry, [])
        proof = some (r, out) := by
  have hmap : walk (nodeHash P) (nodeHash P) m (n - 1) (leafHash P entry) proof =
      (walk (scheme P).inclusionL (scheme P).inclusionR m (n - 1) (leafHash P entry, [])
        proof).map Prod.fst :=
    walk_map Prod.fst (fun _ _ => rfl) (fun _ _ => rfl) m (n - 1) (leafHash P entry, []) proof
  have hn : ((n : ℤ) - 1).toNat = n - 1 := by omega
  have hle : m ≤ n - 1 := by omega
  rw [verifyInclusion, if_neg (by omega), hn, Int.toNat_natCast]
  constructor
  · intro h
    split at h
    · cases h
    · next sn node hclimb =>
      simp only [Bool.and_eq_true, decide_eq_true_eq] at h
      obtain ⟨rfl, rfl⟩ := h
      rw [climb_eq_some_zero_iff _ _ hle, hmap, Option.map_eq_some_iff] at hclimb
      obtain ⟨⟨_, out⟩, hwalk, rfl⟩ := hclimb
      exact ⟨out, hwalk⟩
  · rintro ⟨out, hwalk⟩
    rw [hwalk, Option.map_some, ← climb_eq_some_zero_iff _ _ hle] at hmap
    rw [hmap]
    simp

/-- What an accepted inclusion climb hashed is among the strings of the call. -/
theorem mem_inclusionStrings {entry r : Bytes} {m n : ℕ} {proof : List Bytes}
    {out : List (Preimage Bytes Bytes)} (hmn : m < n)
    (hwalk : walk (scheme P).inclusionL (scheme P).inclusionR m (n - 1) (leafHash P entry, [])
      proof = some (r, out)) :
    ∀ v ∈ out, string v ∈ inclusionStrings P entry m n proof := by
  intro v hv
  have hn : ((n : ℤ) - 1).toNat = n - 1 := by omega
  rw [inclusionStrings, hn, Int.toNat_natCast,
    (climb_eq_some_zero_iff _ _ (by omega) _ _ _).mpr hwalk]
  exact List.mem_cons_of_mem _ (List.mem_map_of_mem hv)

/-- The bit test of the source finds the powers of two. -/
theorem and_pred_eq_zero_iff {m : ℕ} (hm : 0 < m) :
    m &&& (m - 1) = 0 ↔ m = 2 ^ Nat.log 2 m := by
  rw [Nat.and_sub_one_eq_zero_iff_isPowerOfTwo hm.ne']
  constructor
  · rintro ⟨j, rfl⟩
    rw [Nat.log_pow Nat.one_lt_two]
  · exact fun h => ⟨_, h⟩

/-- What the verifier climbs: the proof, with the old root in front where the old
tree is one complete subtree of the new. -/
def fullPath (oldRoot : Bytes) (m : ℕ) (proof : List Bytes) : List Bytes :=
  if m = 2 ^ Nat.log 2 m then oldRoot :: proof else proof

theorem fullPath_eq {m : ℕ} (hm : 0 < m) (oldRoot : Bytes) (proof : List Bytes) :
    (if m &&& (m - 1) = 0 then oldRoot :: proof else proof) = fullPath oldRoot m proof := by
  simp only [fullPath, and_pred_eq_zero_iff hm]

/-- **Consistency.**  A proof between two sizes is accepted exactly when it is not
empty and climbing it rebuilds both roots. -/
theorem verifyConsistency_iff {old new : Bytes} {m n : ℕ} {proof : List Bytes} (hm : 0 < m)
    (hmn : m < n) :
    verifyConsistency P old m new n proof = true ↔
      proof ≠ [] ∧ ∃ c p out, fullPath old m proof = c :: p ∧
        walkFrom (scheme P).consistencyL (scheme P).consistencyR (m - 1) (n - 1) ((c, c), []) p =
          some ((old, new), out) := by
  have hmap : ∀ (c : Bytes) (p : List Bytes),
      walkFrom (consistencyLeft P) (consistencyRight P) (m - 1) (n - 1) (c, c) p =
        (walkFrom (scheme P).consistencyL (scheme P).consistencyR (m - 1) (n - 1) ((c, c), [])
          p).map Prod.fst := fun c p =>
    walkFrom_map Prod.fst (fun _ _ => rfl) (fun _ _ => rfl) (m - 1) (n - 1) ((c, c), []) p
  have hm' : ((m : ℤ) - 1).toNat = m - 1 := by omega
  have hn' : ((n : ℤ) - 1).toNat = n - 1 := by omega
  have hle := stripOnes_le (show m - 1 ≤ n - 1 by omega)
  rw [verifyConsistency, if_neg (by omega)]
  simp only [hm', hn', Int.toNat_natCast, fullPath_eq hm]
  constructor
  · intro h
    split_ifs at h with hguard
    refine ⟨fun h0 => hguard (.inr h0), ?_⟩
    split at h
    · cases h
    · next c p hp =>
      split at h
      · cases h
      · next sn fr sr hclimb =>
        simp only [Bool.and_eq_true, decide_eq_true_eq] at h
        obtain ⟨⟨rfl, rfl⟩, rfl⟩ := h
        rw [climb_eq_some_zero_iff _ _ hle, walk_stripOnes, hmap, Option.map_eq_some_iff] at hclimb
        obtain ⟨⟨_, out⟩, hwalk, rfl⟩ := hclimb
        exact ⟨c, p, out, hp, hwalk⟩
  · rintro ⟨hne, c, p, out, hp, hwalk⟩
    have hc := hmap c p
    rw [hwalk, Option.map_some, ← walk_stripOnes, ← climb_eq_some_zero_iff _ _ hle] at hc
    rw [if_neg (by simp [hne]; omega)]
    simp only [hp, hc]
    simp

/-- What an accepted consistency climb hashed is among the strings of the call. -/
theorem mem_consistencyStrings {old new c : Bytes} {m n : ℕ} {proof p : List Bytes}
    {out : List (Preimage Bytes Bytes)} (hm : 0 < m) (hmn : m < n)
    (hp : fullPath old m proof = c :: p)
    (hwalk : walkFrom (scheme P).consistencyL (scheme P).consistencyR (m - 1) (n - 1)
      ((c, c), []) p = some ((old, new), out)) :
    ∀ v ∈ out, string v ∈ consistencyStrings P old m n proof := by
  intro v hv
  have hm' : ((m : ℤ) - 1).toNat = m - 1 := by omega
  have hn' : ((n : ℤ) - 1).toNat = n - 1 := by omega
  have hle := stripOnes_le (show m - 1 ≤ n - 1 by omega)
  rw [← walk_stripOnes, ← climb_eq_some_zero_iff _ _ hle] at hwalk
  simp only [consistencyStrings, hm', hn', Int.toNat_natCast, fullPath_eq hm, hp, hwalk]
  exact List.mem_map_of_mem hv

theorem verifyConsistency_self {old new : Bytes} {n : ℤ} {proof : List Bytes} :
    verifyConsistency P old n new n proof = true ↔ old = new ∧ proof = [] := by
  rw [verifyConsistency, if_pos rfl]
  simp

/-- An extension proof for a longer log is never empty. -/
theorem subproof_ne_nil {leaves : List Bytes} {m : ℕ} (hmn : m < leaves.length) (hm : 0 < m)
    (known : Bool) : (scheme P).subproof leaves m known ≠ [] := by
  rcases Nat.lt_or_ge (split leaves.length) m with hgt | hle
  · simp [(scheme P).subproof_right hgt hmn]
  · simp [(scheme P).subproof_left hle (by omega)]

/-- The path the verifier climbs is the one the generator starts from. -/
theorem fullPath_subproof {leaves : List Bytes} {m : ℕ} (hm : 0 < m) (hmn : m < leaves.length) :
    fullPath ((scheme P).root (leaves.take m)) m ((scheme P).subproof leaves m true) =
      (scheme P).subproof leaves m false := by
  rw [(scheme P).subproof_known hm hmn, fullPath]

/-- **Completeness.**  The proof a log gives for one of its prefixes is accepted. -/
theorem verifyConsistency_consistencyProof {leaves : List Bytes} {m : ℕ} (hm : 0 < m)
    (hmn : m ≤ leaves.length) :
    ∃ proof, consistencyProof P leaves m = .ok proof ∧
      verifyConsistency P (root P (leaves.take m)) m (root P leaves) leaves.length proof = true := by
  rcases Nat.eq_or_lt_of_le hmn with rfl | hlt
  · refine ⟨[], consistencyProof_self P (List.ne_nil_of_length_pos hm), ?_⟩
    rw [verifyConsistency_self, List.take_length]
    exact ⟨rfl, rfl⟩
  · refine ⟨_, consistencyProof_of_lt P hm hlt, ?_⟩
    obtain ⟨c, p, hp⟩ := List.exists_cons_of_ne_nil (subproof_ne_nil P hlt hm false)
    obtain ⟨out, hwalk⟩ := walkFrom_subproof (scheme P) hm hlt hp
    rw [root_eq_scheme, root_eq_scheme, verifyConsistency_iff P hm hlt]
    exact ⟨subproof_ne_nil P hlt hm true, c, p, out, (fullPath_subproof P hm hlt).trans hp, hwalk⟩

/-- The proof a log gives for one of its entries is accepted. -/
theorem verifyInclusion_inclusionProof {leaves : List Bytes} {m : ℕ} {entry : Bytes}
    (h : leaves[m]? = some entry) :
    ∃ proof, inclusionProof P leaves m = .ok proof ∧
      verifyInclusion P entry m leaves.length proof (root P leaves) = true := by
  obtain ⟨hm, -⟩ := List.getElem?_eq_some_iff.mp h
  refine ⟨_, inclusionProof_eq_scheme P hm, ?_⟩
  rw [verifyInclusion_iff P hm, root_eq_scheme]
  exact (walk_inclusion (scheme P) h).imp fun _ hwalk => hwalk.1

/-- Two lists of one length with one root are equal. -/
theorem root_inj {A B : List Bytes} (hcf : CollisionFree P (rootStrings P A ++ rootStrings P B))
    (hlen : A.length = B.length) (heq : root P A = root P B) : A = B := by
  rw [root_eq_scheme, root_eq_scheme] at heq
  refine (binding P hcf).root_inj hlen heq (fun v hv => ?_) (fun v hv => ?_)
  · exact List.mem_append_left _ (List.mem_map_of_mem hv)
  · exact List.mem_append_right _ (List.mem_map_of_mem hv)

/-- The strings hashed for the roots of all beginnings of a log. -/
def historyStrings (leaves : List Bytes) : List Bytes :=
  [] :: leaves.inits.flatMap (rootStrings P)

theorem rootStrings_nil : rootStrings P [] = [] := by simp [rootStrings, Scheme.rootHashes]

theorem rootStrings_singleton (e : Bytes) : rootStrings P [e] = [string (.leaf e)] := by
  simp [rootStrings, Scheme.rootHashes]

theorem rootStrings_pair (e e' : Bytes) : rootStrings P [e, e'] =
    [string (.node (leafHash P e) (leafHash P e')), string (.leaf e), string (.leaf e')] := by
  have hsplit : split [e, e'].length = 1 := rfl
  rw [rootStrings, (scheme P).rootHashes_split (le_refl 2), hsplit]
  simp [Scheme.rootHashes, Scheme.root, scheme]

/-! Three entries are split into two and one. -/

theorem k_two : k 2 = 1 := by rw [k, kLoop, if_neg (by omega)]

theorem k_three : k 3 = 2 := by rw [k, kLoop, if_pos (by omega), kLoop, if_neg (by omega)]

theorem root_pair (a b : Bytes) : root P [a, b] = nodeHash P (leafHash P a) (leafHash P b) := by
  simp only [root, List.length_cons, List.length_nil, Nat.reduceAdd, k_two, List.take_succ_cons,
    List.take_zero, List.drop_succ_cons, List.drop_zero]

theorem rootStrings_triple (a b c : Bytes) : rootStrings P [a, b, c] =
    string (.node (root P [a, b]) (leafHash P c)) :: rootStrings P [a, b] ++ [string (.leaf c)] := by
  have hsplit : split [a, b, c].length = 2 := rfl
  rw [rootStrings, (scheme P).rootHashes_split (by simp), hsplit]
  simp [rootStrings, Scheme.rootHashes, Scheme.root, root_eq_scheme, scheme]

theorem inclusionProof_triple (a b c : Bytes) :
    inclusionProof P [a, b, c] 2 = .ok [root P [a, b]] := by
  rw [inclusionProof]
  simp only [List.length_cons, List.length_nil, Nat.reduceAdd, k_three, List.take_succ_cons,
    List.take_zero, List.drop_succ_cons, List.drop_zero]
  rw [if_neg (by decide), if_neg (by decide), if_neg (by decide), inclusionProof]
  rfl

theorem inclusionStrings_triple (e d : Bytes) :
    inclusionStrings P e 2 3 [d] = [string (.leaf e), string (.node d (leafHash P e))] := by
  have hskip : skip 2 2 = (1, 1) := by
    rw [skip, if_neg (by decide), skip, if_pos (by decide)]
    rfl
  simp [inclusionStrings, climb, hskip, Scheme.inclusionL]

theorem consistencyProof_triple (a b c : Bytes) :
    consistencyProof P [a, b, c] 2 = .ok [leafHash P c] := by
  simp [consistencyProof, subproof, k_three, root]

theorem consistencyStrings_triple (r d : Bytes) :
    consistencyStrings P r 2 3 [d] = [string (.node r d)] := by
  have hstrip : stripOnes 1 2 = (0, 1) := by
    rw [stripOnes, if_pos (by decide), stripOnes, if_neg (by decide)]
    rfl
  simp [consistencyStrings, climb, hstrip, Scheme.consistencyR]

/-- **The root determines the list**, whatever its length. -/
theorem root_injective {A B : List Bytes}
    (hcf : CollisionFree P ([] :: (rootStrings P A ++ rootStrings P B)))
    (heq : root P A = root P B) : A = B := by
  rw [root_eq_scheme, root_eq_scheme] at heq
  apply (binding P hcf).eq_of_root_eq (separated P hcf List.mem_cons_self) heq
  · intro v hv
    exact List.mem_cons_of_mem _ (List.mem_append_left _ (List.mem_map_of_mem hv))
  · intro v hv
    exact List.mem_cons_of_mem _ (List.mem_append_right _ (List.mem_map_of_mem hv))

/-- Two beginnings of a log with one root are one. -/
theorem eq_of_root_eq {leaves A B : List Bytes} (hcf : CollisionFree P (historyStrings P leaves))
    (hA : A <+: leaves) (hB : B <+: leaves) (heq : root P A = root P B) : A = B := by
  have hsub : ∀ {C : List Bytes}, C <+: leaves → rootStrings P C ⊆ leaves.inits.flatMap (rootStrings P) :=
    fun {C} hC v hv => List.mem_flatMap.mpr ⟨C, (List.mem_inits _ _).mpr hC, hv⟩
  apply root_injective P (hcf.mono _) heq
  exact List.cons_subset_cons _ (List.append_subset.mpr ⟨hsub hA, hsub hB⟩)

end Acceptance

end Hatls.Log
