import Hatls.Lib.MerkleTree

/-!
# Accepted paths compose

Two facts about the climbs of a verifier, of which nothing is known but that they rebuild the
roots.  A path from an old tree to a newer one and a path from there to a third give a path
from the first to the third; and the path of an entry in an old tree, with one from there to a
newer tree, gives a path of the entry in the newer.  None of the three roots need be the root
of any tree, and what the new path hashes was hashed for the two it is made of.

## Main definitions

* `MerkleTree.walkFrom_trans` — consistency paths compose.
* `MerkleTree.walk_extend` — inclusion paths are carried along.
-/

namespace MerkleTree

variable {E D : Type} {T : Scheme E D} {IsDigest : D → Prop} {hashed : Preimage E D → Prop}

/-- A path from a tree that is the left subtree of a larger one, or lies in it, is made of
digests where its parts are. -/
theorem Binding.left_digest (B : Binding T IsDigest hashed) {m n : ℕ} {d r v : D} {q : List D}
    {out : List (Preimage E D)} (hm : 0 < m) (hmn : m ≤ split n) (hd : IsDigest d)
    (h : walkFrom T.consistencyL T.consistencyR (m - 1) (split n - 1) ((d, d), []) q =
      some ((r, v), out)) : IsDigest v := by
  rcases Nat.eq_or_lt_of_le hmn with rfl | hlt
  · obtain ⟨-, -, rfl⟩ := T.consistency_split h
    exact hd
  · exact B.new_digest hm hlt h

variable (T) in
/-- A climb in the left subtree, and the root of the right one. -/
theorem Scheme.concat_left {m n : ℕ} {d r v u : D} {q : List D} {out : List (Preimage E D)}
    (hm : m ≤ split n) (hpos : 0 < m) (hmn : m < n)
    (h : walkFrom T.consistencyL T.consistencyR (m - 1) (split n - 1) ((d, d), []) q =
      some ((r, v), out)) :
    walkFrom T.consistencyL T.consistencyR (m - 1) (n - 1) ((d, d), []) (q ++ [u]) =
      some ((r, T.node v u), .node v u :: out) := by
  rw [walkFrom_concat_left _ _ hm hpos hmn, h]
  rfl

variable (T) in
/-- A climb in the right subtree, and the root of the left one. -/
theorem Scheme.concat_right {m n : ℕ} {d f v u : D} {q : List D} {out : List (Preimage E D)}
    (hm : split n < m) (hmn : m < n)
    (h : walkFrom T.consistencyL T.consistencyR (m - split n - 1) (n - split n - 1) ((d, d), []) q =
      some ((f, v), out)) :
    walkFrom T.consistencyL T.consistencyR (m - 1) (n - 1) ((d, d), []) (q ++ [u]) =
      some ((T.node u f, T.node u v), .node u f :: .node u v :: out) := by
  rw [walkFrom_concat_right _ _ hm hmn, h]
  rfl

/-- **Accepted extensions compose.**  The induction is on the size of the third tree, whose
split point decides in which of its halves the second tree ends. -/
theorem walkFrom_trans (B : Binding T IsDigest hashed) {m n l : ℕ} {d e r s t : D} {p q : List D}
    {op oq : List (Preimage E D)} (hm : 0 < m) (hmn : m < n) (hnl : n < l)
    (hp : walkFrom T.consistencyL T.consistencyR (m - 1) (n - 1) ((d, d), []) p = some ((r, s), op))
    (hq : walkFrom T.consistencyL T.consistencyR (n - 1) (l - 1) ((e, e), []) q = some ((s, t), oq))
    (hop : ∀ v ∈ op, hashed v) (hoq : ∀ v ∈ oq, hashed v)
    (hd : IsDigest d) (hpd : ∀ u ∈ p, IsDigest u) (hqd : ∀ u ∈ q, IsDigest u) :
    ∃ c oc, walkFrom T.consistencyL T.consistencyR (m - 1) (l - 1) ((d, d), []) c =
        some ((r, t), oc) ∧
      (∀ v ∈ oc, v ∈ op ∨ v ∈ oq) ∧ ∀ u ∈ c, IsDigest u := by
  induction l using Nat.strong_induction_on generalizing m n p q r s t op oq with
  | _ l ih =>
    have hk := split_lt (n := l) (by omega)
    have hk0 := split_pos l
    rcases Nat.lt_or_ge (split l) n with hgt | hle
    · -- the second tree shares the left half of the third
      obtain ⟨q, u₂, f₂, v₂, oq, rfl, hs₂, rfl, rfl, hq'⟩ := T.consistency_right hgt hnl hq
      have hsame : split n = split l := split_stable hgt hnl.le
      have hu₂ : IsDigest u₂ := hqd u₂ (by simp)
      have hv₂ : IsDigest v₂ := B.new_digest (by omega) (by omega) hq'
      rcases Nat.lt_or_ge (split l) m with hgt' | hle'
      · -- and so does the first
        obtain ⟨p, u₁, f₁, v₁, op, rfl, rfl, hs₁, rfl, hp'⟩ :=
          T.consistency_right (hsame ▸ hgt') hmn hp
        rw [hsame] at hp'
        have hv₁ : IsDigest v₁ := B.new_digest (by omega) (by omega) hp'
        obtain ⟨rfl, rfl⟩ := B.node_inj _ _ _ _ (hoq _ List.mem_cons_self)
          (hop _ (.tail _ List.mem_cons_self)) (hs₂.symm.trans hs₁) (.inl hu₂)
          (hpd u₁ (by simp)) hv₁
        obtain ⟨c, oc, hc, hoc, hcd⟩ := ih (l - split l) (by omega) (by omega) (by omega)
          (by omega) hp' hq' (fun v hv => hop v (.tail _ (.tail _ hv)))
          (fun v hv => hoq v (.tail _ (.tail _ hv))) (fun u hu => hpd u (by simp [hu]))
          (fun u hu => hqd u (by simp [hu]))
        refine ⟨c ++ [u₂], _, T.concat_right hgt' (by omega) hc, ?_, ?_⟩
        · intro v hv
          rcases List.mem_cons.mp hv with rfl | hv
          · exact .inl List.mem_cons_self
          rcases List.mem_cons.mp hv with rfl | hv
          · exact .inr (.tail _ List.mem_cons_self)
          · exact (hoc v hv).imp (fun h => .tail _ (.tail _ h)) fun h => .tail _ (.tail _ h)
        · exact List.forall_mem_append.mpr ⟨hcd, List.forall_mem_singleton.mpr hu₂⟩
      · -- the first lies in it
        obtain ⟨p, u₁, v₁, op, rfl, hs₁, rfl, hp'⟩ := T.consistency_left (hsame ▸ hle') hm hmn hp
        have hv₁ : IsDigest v₁ := B.left_digest hm (hsame ▸ hle') hd hp'
        rw [hsame] at hp'
        obtain ⟨rfl, rfl⟩ := B.node_inj _ _ _ _ (hoq _ List.mem_cons_self)
          (hop _ List.mem_cons_self) (hs₂.symm.trans hs₁) (.inl hu₂) hv₁ (hpd u₁ (by simp))
        refine ⟨p ++ [v₂], _, T.concat_left hle' hm (by omega) hp', ?_, ?_⟩
        · intro v hv
          rcases List.mem_cons.mp hv with rfl | hv
          · exact .inr (.tail _ List.mem_cons_self)
          · exact .inl (.tail _ hv)
        · exact List.forall_mem_append.mpr
            ⟨fun u hu => hpd u (by simp [hu]), List.forall_mem_singleton.mpr hv₂⟩
    · -- the second tree lies in the left half of the third
      obtain ⟨q, u₂, v₂, oq, rfl, rfl, rfl, hq'⟩ := T.consistency_left hle (by omega) hnl hq
      have hu₂ : IsDigest u₂ := hqd u₂ (by simp)
      rcases Nat.eq_or_lt_of_le hle with rfl | hlt
      · obtain ⟨-, -, rfl⟩ := T.consistency_split hq'
        obtain ⟨-, hs, -⟩ := T.consistency_split hq'
        rw [hs] at hp
        refine ⟨p ++ [u₂], _, T.concat_left (by omega) hm (by omega) hp, ?_, ?_⟩
        · intro v hv
          rcases List.mem_cons.mp hv with rfl | hv
          · exact .inr List.mem_cons_self
          · exact .inl hv
        · exact List.forall_mem_append.mpr ⟨hpd, List.forall_mem_singleton.mpr hu₂⟩
      · obtain ⟨c, oc, hc, hoc, hcd⟩ := ih (split l) hk hm hmn hlt hp hq' hop
          (fun v hv => hoq v (.tail _ hv)) hpd (fun u hu => hqd u (by simp [hu]))
        refine ⟨c ++ [u₂], _, T.concat_left (by omega) hm (by omega) hc, ?_, ?_⟩
        · intro v hv
          rcases List.mem_cons.mp hv with rfl | hv
          · exact .inr List.mem_cons_self
          · exact (hoc v hv).imp id fun h => .tail _ h
        · exact List.forall_mem_append.mpr ⟨hcd, List.forall_mem_singleton.mpr hu₂⟩

/-- **An accepted path of an entry is carried along** to a newer root. -/
theorem walk_extend (B : Binding T IsDigest hashed) {m n i : ℕ} {x d r s : D} {p c : List D}
    {op oc : List (Preimage E D)} (him : i < m) (hmn : m < n)
    (hp : walk T.inclusionL T.inclusionR i (m - 1) (x, []) p = some (r, op))
    (hc : walkFrom T.consistencyL T.consistencyR (m - 1) (n - 1) ((d, d), []) c = some ((r, s), oc))
    (hop : ∀ v ∈ op, hashed v) (hoc : ∀ v ∈ oc, hashed v) (hx : IsDigest x)
    (hpd : ∀ u ∈ p, IsDigest u) (hcd : ∀ u ∈ c, IsDigest u) :
    ∃ q oq, walk T.inclusionL T.inclusionR i (n - 1) (x, []) q = some (s, oq) ∧
      (∀ v ∈ oq, v ∈ op ∨ v ∈ oc) ∧ ∀ u ∈ q, IsDigest u := by
  induction n using Nat.strong_induction_on generalizing m i p c r s op oc with
  | _ n ih =>
    have hk := split_lt (n := n) (by omega)
    have hk0 := split_pos n
    rcases Nat.lt_or_ge (split n) m with hgt | hle
    · obtain ⟨c, u, f, v, oc, rfl, hrc, rfl, rfl, hc'⟩ := T.consistency_right hgt hmn hc
      have hsame : split m = split n := split_stable hgt hmn.le
      have hu : IsDigest u := hcd u (by simp)
      have hv : IsDigest v := B.new_digest (by omega) (by omega) hc'
      rcases Nat.lt_or_ge i (split n) with hi | hi
      · -- the entry lies in the half that both trees share
        obtain ⟨p, w, a, op, rfl, hrp, rfl, hp'⟩ := T.inclusion_left (hsame ▸ hi) (by omega) hp
        rw [hsame] at hp'
        have ha : IsDigest a := B.walk_digest hx hp'
        obtain ⟨rfl, rfl⟩ := B.node_inj _ _ _ _ (hoc _ List.mem_cons_self)
          (hop _ List.mem_cons_self) (hrc.symm.trans hrp) (.inl hu) ha (hpd w (by simp))
        refine ⟨p ++ [v], .node u v :: op, ?_, ?_, ?_⟩
        · rw [walk_concat_left _ _ hi (by omega), hp']
          rfl
        · intro y hy
          rcases List.mem_cons.mp hy with rfl | hy
          · exact .inr (.tail _ List.mem_cons_self)
          · exact .inl (.tail _ hy)
        · exact List.forall_mem_append.mpr
            ⟨fun y hy => hpd y (by simp [hy]), List.forall_mem_singleton.mpr hv⟩
      · obtain ⟨p, w, a, op, rfl, hrp, rfl, hp'⟩ := T.inclusion_right (hsame ▸ hi) him hp
        rw [hsame] at hp'
        obtain ⟨rfl, rfl⟩ := B.node_inj _ _ _ _ (hoc _ List.mem_cons_self)
          (hop _ List.mem_cons_self) (hrc.symm.trans hrp) (.inl hu) (hpd w (by simp))
          (B.walk_digest hx hp')
        obtain ⟨q, oq, hq, hoq, hqd⟩ := ih (n - split n) (by omega) (by omega) (by omega) hp' hc'
          (fun v hv => hop v (.tail _ hv)) (fun v hv => hoc v (.tail _ (.tail _ hv)))
          (fun y hy => hpd y (by simp [hy])) (fun y hy => hcd y (by simp [hy]))
        refine ⟨q ++ [u], .node u v :: oq, ?_, ?_, ?_⟩
        · rw [walk_concat_right _ _ hi (by omega) (by omega), hq]
          rfl
        · intro y hy
          rcases List.mem_cons.mp hy with rfl | hy
          · exact .inr (.tail _ List.mem_cons_self)
          · exact (hoq y hy).imp (fun h => .tail _ h) fun h => .tail _ (.tail _ h)
        · exact List.forall_mem_append.mpr ⟨hqd, List.forall_mem_singleton.mpr hu⟩
    · -- the old tree lies in the left half of the new one
      obtain ⟨c, u, v, oc, rfl, rfl, rfl, hc'⟩ := T.consistency_left hle (by omega) hmn hc
      have hu : IsDigest u := hcd u (by simp)
      have hsub : ∃ q oq, walk T.inclusionL T.inclusionR i (split n - 1) (x, []) q = some (v, oq) ∧
          (∀ y ∈ oq, y ∈ op ∨ y ∈ oc) ∧ ∀ y ∈ q, IsDigest y := by
        rcases Nat.eq_or_lt_of_le hle with rfl | hlt
        · obtain ⟨-, rfl, rfl⟩ := T.consistency_split hc'
          exact ⟨p, op, hp, fun y hy => .inl hy, hpd⟩
        · exact ih (split n) hk him hlt hp hc' hop (fun v hv => hoc v (.tail _ hv)) hpd
            fun y hy => hcd y (by simp [hy])
      obtain ⟨q, oq, hq, hoq, hqd⟩ := hsub
      refine ⟨q ++ [u], .node v u :: oq, ?_, ?_, ?_⟩
      · rw [walk_concat_left _ _ (by omega) (by omega), hq]
        rfl
      · intro y hy
        rcases List.mem_cons.mp hy with rfl | hy
        · exact .inr List.mem_cons_self
        · exact (hoq y hy).imp id fun h => .tail _ h
      · exact List.forall_mem_append.mpr ⟨hqd, List.forall_mem_singleton.mpr hu⟩

end MerkleTree
