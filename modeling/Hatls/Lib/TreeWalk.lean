import Mathlib.Algebra.Group.Nat.Defs
import Mathlib.Data.Nat.Log
import Mathlib.Data.List.Basic

/-!
# Climbing a ragged binary tree by the bits of a position

A hash tree over `n` leaves splits at the largest power of two below `n`.  A
verifier does not see the tree: it holds a position `i`, the position `last` of
the rightmost leaf, and a list of siblings, and it climbs level by level, halving
both positions.  The rightmost node of a level has no sibling when its position
is even, and is carried up unchanged.

The two views meet in one theorem, stated here for an arbitrary accumulator: the
*last* sibling of the list is the one next to the root, and what is left of the
list climbs one of the two subtrees of the split.  `l` says what a sibling on the
left does to the accumulator and `r` what a sibling on the right does, so the
same theorem serves a climb that rebuilds one root and a climb that rebuilds two.

## Main definitions

* `split n` — the size of the left subtree of a tree with `n` leaves.
* `walk l r i last a p` — the climb.
* `walkFrom l r i last a p` — the climb that starts at the largest complete
  subtree ending at `i`.
* `walk_concat_left`, `walk_concat_right` — the climb, read from the root.
-/

namespace MerkleTree

universe u v
variable {A B : Type u} {S : Type v}

/-! ## The split point -/

/-- The largest power of two strictly below `n`, and `1` when there is none. -/
def split (n : ℕ) : ℕ := 2 ^ Nat.log 2 (n - 1)

theorem split_pos (n : ℕ) : 0 < split n := Nat.two_pow_pos _

theorem split_lt {n : ℕ} (h : 2 ≤ n) : split n < n := by
  have := Nat.pow_log_le_self 2 (x := n - 1) (by omega)
  simp only [split]
  omega

theorem le_two_mul_split (n : ℕ) : n ≤ 2 * split n := by
  have := Nat.lt_pow_succ_log_self (b := 2) Nat.one_lt_two (n - 1)
  rw [Nat.pow_succ] at this
  simp only [split]
  omega

/-- A power of two that is below `n` and at least half of it is the split point. -/
theorem split_eq_of_le {n h : ℕ} (hlt : 2 ^ h < n) (hle : n ≤ 2 ^ (h + 1)) :
    split n = 2 ^ h := by
  simp only [split]
  congr 1
  exact Nat.log_eq_of_pow_le_of_lt_pow (by omega) (by omega)

/-- **The split point is stable.**  A prefix that reaches beyond the split point
of the whole is split at the same place. -/
theorem split_stable {m n : ℕ} (hlt : split n < m) (hle : m ≤ n) : split m = split n := by
  have hn := le_two_mul_split n
  refine split_eq_of_le hlt ?_
  rw [Nat.pow_succ]
  simp only [split] at hn hlt
  omega

/-! ## The climb -/

/-- Climb from position `i` of a level whose rightmost position is `last`. -/
def walk (l : S → A → A) (r : A → S → A) (i last : ℕ) (a : A) (p : List S) : Option A :=
  if last = 0 then
    match p with
    | [] => some a
    | _ :: _ => none
  else if i % 2 = 1 then
    match p with
    | [] => none
    | s :: p => walk l r (i / 2) (last / 2) (l s a) p
  else if i < last then
    match p with
    | [] => none
    | s :: p => walk l r (i / 2) (last / 2) (r a s) p
  else walk l r (i / 2) (last / 2) a p
termination_by last

variable (l : S → A → A) (r : A → S → A)

theorem walk_root (i : ℕ) (a : A) (p : List S) :
    walk l r i 0 a p = if p = [] then some a else none := by
  cases p <;> simp [walk.eq_def]

theorem walk_odd {i last : ℕ} (hi : i % 2 = 1) (hlast : last ≠ 0) (a : A) (s : S)
    (p : List S) : walk l r i last a (s :: p) = walk l r (i / 2) (last / 2) (l s a) p := by
  rw [walk]
  simp [hi, hlast]

theorem walk_even {i last : ℕ} (hi : i % 2 = 0) (hlt : i < last) (a : A) (s : S)
    (p : List S) : walk l r i last a (s :: p) = walk l r (i / 2) (last / 2) (r a s) p := by
  rw [walk]
  have : last ≠ 0 := by omega
  simp [hi, hlt, this]

/-- The rightmost node of a level with no sibling is carried up unchanged. -/
theorem walk_carry {i last : ℕ} (hi : i % 2 = 0) (hle : last ≤ i) (hlast : last ≠ 0) (a : A)
    (p : List S) : walk l r i last a p = walk l r (i / 2) (last / 2) a p := by
  conv_lhs => rw [walk.eq_def]
  have : ¬ i < last := by omega
  simp [hi, this, hlast]

/-- A climb that is not yet at the root needs another sibling. -/
theorem walk_nil {i last : ℕ} (hle : i ≤ last) (hlast : last ≠ 0) (a : A) :
    walk l r i last a [] = none := by
  induction last using Nat.strong_induction_on generalizing i with
  | _ last ih =>
    rw [walk, if_neg hlast]
    split_ifs with hodd hlt
    · rfl
    · rfl
    · exact ih (last / 2) (by omega) (by omega) (by omega)

/-- The two subtrees at the top, when the level has `2 ^ (h + 1)` positions at
most: the induction behind `walk_concat_left` and `walk_concat_right`. -/
private theorem walk_concat (h : ℕ) :
    ∀ (i last : ℕ) (a : A) (q : List S) (s : S), 2 ^ h ≤ last → last < 2 ^ (h + 1) → i ≤ last →
      walk l r i last a (q ++ [s]) =
        if i < 2 ^ h then (walk l r i (2 ^ h - 1) a q).map (r · s)
        else (walk l r (i - 2 ^ h) (last - 2 ^ h) a q).map (l s ·) := by
  induction h with
  | zero =>
      intro i last a q s hlo hhi hi
      obtain rfl : last = 1 := by omega
      cases q with
      | nil =>
          obtain rfl | rfl : i = 0 ∨ i = 1 := by omega
          · simp [walk_even, walk_root]
          · simp [walk_odd, walk_root]
      | cons b q =>
          obtain rfl | rfl : i = 0 ∨ i = 1 := by omega
          · simp [walk_even, walk_root]
          · simp [walk_odd, walk_root]
  | succ h ih =>
      intro i last a q s hlo hhi hi
      have hk : 2 ^ (h + 1) = 2 * 2 ^ h := by rw [Nat.pow_succ, Nat.mul_comm]
      have hk' : 2 ^ (h + 1 + 1) = 2 * (2 * 2 ^ h) := by rw [Nat.pow_succ, hk, Nat.mul_comm]
      rw [hk'] at hhi
      rw [hk] at hlo ⊢
      have hpos : 0 < 2 ^ h := Nat.two_pow_pos h
      have ih' := fun b q => ih (i / 2) (last / 2) b q s (by omega) (by omega) (by omega)
      have hhalf : (2 * 2 ^ h - 1) / 2 = 2 ^ h - 1 := by omega
      have hisub : (i - 2 * 2 ^ h) / 2 = i / 2 - 2 ^ h := by omega
      have hlsub : (last - 2 * 2 ^ h) / 2 = last / 2 - 2 ^ h := by omega
      by_cases hleft : i < 2 * 2 ^ h
      · have hleft' : i / 2 < 2 ^ h := by omega
        simp only [hleft, hleft', if_true] at ih' ⊢
        by_cases hodd : i % 2 = 1
        · cases q with
          | nil =>
              rw [List.nil_append, walk_odd l r hodd (by omega), walk_nil l r (by omega) (by omega),
                walk_nil l r (by omega) (by omega)]
              rfl
          | cons b q =>
              rw [List.cons_append, walk_odd l r hodd (by omega), ih',
                walk_odd l r hodd (by omega), hhalf]
        · cases q with
          | nil =>
              rw [List.nil_append, walk_even l r (by omega) (by omega),
                walk_nil l r (by omega) (by omega), walk_nil l r (by omega) (by omega)]
              rfl
          | cons b q =>
              rw [List.cons_append, walk_even l r (by omega) (by omega), ih',
                walk_even l r (by omega) (by omega), hhalf]
      · have hleft' : ¬ i / 2 < 2 ^ h := by omega
        simp only [hleft, hleft', if_false] at ih' ⊢
        by_cases hodd : i % 2 = 1
        · cases q with
          | nil =>
              rw [List.nil_append, walk_odd l r hodd (by omega), walk_nil l r (by omega) (by omega),
                walk_nil l r (by omega) (by omega)]
              rfl
          | cons b q =>
              rw [List.cons_append, walk_odd l r hodd (by omega), ih',
                walk_odd l r (i := i - 2 * 2 ^ h) (by omega) (by omega), hisub, hlsub]
        · by_cases hlt : i < last
          · cases q with
            | nil =>
                rw [List.nil_append, walk_even l r (by omega) hlt,
                  walk_nil l r (by omega) (by omega), walk_nil l r (by omega) (by omega)]
                rfl
            | cons b q =>
                rw [List.cons_append, walk_even l r (by omega) hlt, ih',
                  walk_even l r (i := i - 2 * 2 ^ h) (by omega) (by omega), hisub, hlsub]
          · rw [walk_carry l r (by omega) (by omega) (by omega), ih']
            by_cases hzero : last - 2 * 2 ^ h = 0
            · have hi0 : i - 2 * 2 ^ h = 0 := by omega
              rw [hzero, hi0, ← hisub, ← hlsub, hzero, hi0]
            · rw [walk_carry l r (i := i - 2 * 2 ^ h) (by omega) (by omega) hzero, hisub, hlsub]

/-- A climb that starts left of the split point climbs the left subtree, and ends
by taking the root of the right one. -/
theorem walk_concat_left {i n : ℕ} (hi : i < split n) (hn : 2 ≤ n) (a : A) (q : List S) (s : S) :
    walk l r i (n - 1) a (q ++ [s]) = (walk l r i (split n - 1) a q).map (r · s) := by
  have hlo : 2 ^ Nat.log 2 (n - 1) ≤ n - 1 := Nat.pow_log_le_self 2 (by omega)
  have hhi := Nat.lt_pow_succ_log_self (b := 2) Nat.one_lt_two (n - 1)
  simp only [split] at hi ⊢
  rw [walk_concat l r _ i (n - 1) a q s hlo hhi (by omega), if_pos hi]

/-- A climb that starts right of the split point climbs the right subtree, and
ends by taking the root of the left one. -/
theorem walk_concat_right {i n : ℕ} (hi : split n ≤ i) (hn : 2 ≤ n) (hin : i < n) (a : A)
    (q : List S) (s : S) :
    walk l r i (n - 1) a (q ++ [s]) =
      (walk l r (i - split n) (n - split n - 1) a q).map (l s ·) := by
  have hlo : 2 ^ Nat.log 2 (n - 1) ≤ n - 1 := Nat.pow_log_le_self 2 (by omega)
  have hhi := Nat.lt_pow_succ_log_self (b := 2) Nat.one_lt_two (n - 1)
  simp only [split] at hi ⊢
  rw [walk_concat l r _ i (n - 1) a q s hlo hhi (by omega), if_neg (by omega)]
  congr 2
  omega

/-- A map between accumulators that commutes with both moves commutes with the
climb. -/
theorem walk_map {l : S → A → A} {r : A → S → A} {l' : S → B → B} {r' : B → S → B} (f : A → B)
    (hl : ∀ s a, f (l s a) = l' s (f a)) (hr : ∀ a s, f (r a s) = r' (f a) s)
    (i last : ℕ) (a : A) (p : List S) :
    walk l' r' i last (f a) p = (walk l r i last a p).map f := by
  fun_induction walk l r i last a p with
  | case1 => simp [walk_root]
  | case2 => simp [walk_root]
  | case3 i last a hlast hodd => rw [walk]; simp [hlast, hodd]
  | case4 i last a hlast hodd s p ih => rw [walk_odd l' r' hodd hlast, ← hl, ih]
  | case5 i last a hlast hodd hlt => rw [walk]; simp [hlast, hodd, hlt]
  | case6 i last a hlast hodd hlt s p ih => rw [walk_even l' r' (by omega) hlt, ← hr, ih]
  | case7 i last a p hlast hodd hlt ih =>
      rw [walk_carry l' r' (by omega) (by omega) hlast, ih]

/-- What both moves preserve, the climb preserves. -/
theorem walk_preserves {P : A → Prop} (hl : ∀ s a, P a → P (l s a)) (hr : ∀ a s, P a → P (r a s))
    {i last : ℕ} {a b : A} {p : List S} (ha : P a) (h : walk l r i last a p = some b) : P b := by
  fun_induction walk l r i last a p with
  | case1 => simp only [Option.some.injEq] at h; exact h ▸ ha
  | case2 => simp at h
  | case3 => simp at h
  | case4 _ _ _ _ _ _ _ ih => exact ih (hl _ _ ha) h
  | case5 => simp at h
  | case6 _ _ _ _ _ _ _ _ ih => exact ih (hr _ _ ha) h
  | case7 _ _ _ _ _ _ _ ih => exact ih ha h

/-! ## The climb from a complete subtree -/

/-- Climb from the largest complete subtree whose rightmost leaf is at `i`: a
position that is odd shares its parent with the complete subtree on its left. -/
def walkFrom (l : S → A → A) (r : A → S → A) (i last : ℕ) (a : A) (p : List S) : Option A :=
  if i % 2 = 1 then walkFrom l r (i / 2) (last / 2) a p else walk l r i last a p
termination_by i
decreasing_by omega

theorem walkFrom_odd {i : ℕ} (hi : i % 2 = 1) (last : ℕ) (a : A) (p : List S) :
    walkFrom l r i last a p = walkFrom l r (i / 2) (last / 2) a p := by
  rw [walkFrom, if_pos hi]

theorem walkFrom_even {i : ℕ} (hi : i % 2 = 0) (last : ℕ) (a : A) (p : List S) :
    walkFrom l r i last a p = walk l r i last a p := by
  rw [walkFrom, if_neg (by omega)]

/-- A tree that is its own prefix: nothing is climbed. -/
theorem walkFrom_pow (h : ℕ) (a : A) (p : List S) :
    walkFrom l r (2 ^ h - 1) (2 ^ h - 1) a p = if p = [] then some a else none := by
  induction h with
  | zero => rw [walkFrom_even l r (by simp)]; exact walk_root l r _ a p
  | succ h ih =>
      have hk : 2 ^ (h + 1) = 2 * 2 ^ h := by rw [Nat.pow_succ, Nat.mul_comm]
      have hpos : 0 < 2 ^ h := Nat.two_pow_pos h
      rw [walkFrom_odd l r (by omega), show (2 ^ (h + 1) - 1) / 2 = 2 ^ h - 1 by omega, ih]

theorem walkFrom_nil {i last : ℕ} (hlt : i < last) (a : A) : walkFrom l r i last a [] = none := by
  induction i using Nat.strong_induction_on generalizing last with
  | _ i ih =>
    by_cases hodd : i % 2 = 1
    · rw [walkFrom_odd l r hodd]
      exact ih (i / 2) (by omega) (by omega)
    · rw [walkFrom_even l r (by omega)]
      exact walk_nil l r (by omega) (by omega) a

private theorem walkFrom_concat (a : A) (q : List S) (s : S) :
    ∀ (i last : ℕ), i < last →
      walkFrom l r i last a (q ++ [s]) =
        if i < 2 ^ Nat.log 2 last then (walkFrom l r i (2 ^ Nat.log 2 last - 1) a q).map (r · s)
        else (walkFrom l r (i - 2 ^ Nat.log 2 last) (last - 2 ^ Nat.log 2 last) a q).map (l s ·) := by
  intro i
  induction i using Nat.strong_induction_on with
  | _ i ih =>
    intro last hlt
    have hlo := Nat.pow_log_le_self 2 (x := last) (by omega)
    have hhi := Nat.lt_pow_succ_log_self (b := 2) Nat.one_lt_two last
    by_cases hodd : i % 2 = 1
    · have hlog : Nat.log 2 last = Nat.log 2 (last / 2) + 1 := by
        rw [Nat.log_div_base]
        have := Nat.log_pos (b := 2) (n := last) Nat.one_lt_two (by omega)
        omega
      rw [walkFrom_odd l r hodd, ih (i / 2) (by omega) (last / 2) (by omega), hlog]
      have hk : 2 ^ (Nat.log 2 (last / 2) + 1) = 2 * 2 ^ Nat.log 2 (last / 2) := by
        rw [Nat.pow_succ, Nat.mul_comm]
      rw [hlog, hk] at hlo
      rw [hk]
      generalize 2 ^ Nat.log 2 (last / 2) = k at hlo ⊢
      by_cases hleft : i < 2 * k
      · rw [if_pos hleft, if_pos (by omega), walkFrom_odd l r hodd,
          show (2 * k - 1) / 2 = k - 1 by omega]
      · rw [if_neg hleft, if_neg (by omega), walkFrom_odd l r (i := i - 2 * k) (by omega),
          show (i - 2 * k) / 2 = i / 2 - k by omega, show (last - 2 * k) / 2 = last / 2 - k by omega]
    · have heven : i % 2 = 0 := by omega
      rw [walkFrom_even l r heven, walk_concat l r _ i last a q s hlo hhi (by omega)]
      by_cases hleft : i < 2 ^ Nat.log 2 last
      · rw [if_pos hleft, if_pos hleft, walkFrom_even l r heven]
      · rw [if_neg hleft, if_neg hleft, walkFrom_even l r]
        rcases Nat.eq_zero_or_pos (Nat.log 2 last) with h0 | h0
        · rw [h0] at hhi hleft ⊢
          omega
        · obtain ⟨h, hh⟩ : ∃ h, Nat.log 2 last = h + 1 := ⟨_, (Nat.succ_pred_eq_of_pos h0).symm⟩
          rw [hh, Nat.pow_succ]
          omega

/-- The climb from a prefix of size `m` that lies in the left subtree. -/
theorem walkFrom_concat_left {m n : ℕ} (hm : m ≤ split n) (hpos : 0 < m) (hmn : m < n) (a : A)
    (q : List S) (s : S) :
    walkFrom l r (m - 1) (n - 1) a (q ++ [s]) =
      (walkFrom l r (m - 1) (split n - 1) a q).map (r · s) := by
  rw [walkFrom_concat l r a q s (m - 1) (n - 1) (by omega)]
  simp only [split] at hm ⊢
  rw [if_pos (by omega)]

/-- The climb from a prefix of size `m` that reaches into the right subtree. -/
theorem walkFrom_concat_right {m n : ℕ} (hm : split n < m) (hmn : m < n) (a : A)
    (q : List S) (s : S) :
    walkFrom l r (m - 1) (n - 1) a (q ++ [s]) =
      (walkFrom l r (m - split n - 1) (n - split n - 1) a q).map (l s ·) := by
  rw [walkFrom_concat l r a q s (m - 1) (n - 1) (by omega)]
  simp only [split] at hm ⊢
  rw [if_neg (by omega)]
  congr 2 <;> omega

theorem walkFrom_map {l : S → A → A} {r : A → S → A} {l' : S → B → B} {r' : B → S → B}
    (f : A → B) (hl : ∀ s a, f (l s a) = l' s (f a)) (hr : ∀ a s, f (r a s) = r' (f a) s)
    (i last : ℕ) (a : A) (p : List S) :
    walkFrom l' r' i last (f a) p = (walkFrom l r i last a p).map f := by
  fun_induction walkFrom l r i last a p with
  | case1 i last hodd ih => rw [walkFrom_odd l' r' hodd, ih]
  | case2 i last hodd => rw [walkFrom_even l' r' (by omega), walk_map f hl hr]

end MerkleTree
