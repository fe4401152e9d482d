import Mathlib.Data.List.TakeDrop
import Hatls.Lib.TreeWalk

/-!
# Hash trees over lists, and what a climb proves about them

A `Scheme` hashes entries and pairs of digests.  Its tree over a list splits at
`split`, and the proofs about that tree are lists of subtree roots, the one next
to the root last.

Binding is stated without idealising the hash.  Every run of a verifier comes
with the list of values it hashed, and a `Binding` says only that no two values
among the ones at hand collide.  `IsDigest` singles out the values a hash can
return: a proof element need not be one, so an equality of two node hashes gives
an equality of their parts only when the lengths leave no choice.

## Main definitions

* `Scheme`, `Scheme.root`, `Scheme.rootHashes` — the tree and the values it hashes.
* `Scheme.subproof` — the consistency path of a prefix.
* `Binding` — no collision among the values at hand.
* `Scheme.inclusion` — the path of an entry.
* `walk_inclusion`, `walkFrom_subproof` — an honest path rebuilds the root, or both roots.
* `walkFrom_exact` — whatever rebuilds both roots is the honest path of a prefix.
* `walk_unique`, `walk_agree` — one position of one root, or of two linked roots,
  opens to one entry.
-/

namespace MerkleTree

universe u v

/-- How entries and pairs of digests are hashed. -/
structure Scheme (E : Type u) (D : Type v) where
  empty : D
  leaf : E → D
  node : D → D → D

/-- A value that is hashed: an entry, or a pair of child digests. -/
inductive Preimage (E : Type u) (D : Type v)
  | leaf (e : E)
  | node (a b : D)

variable {E : Type u} {D : Type v}

namespace Scheme

variable (T : Scheme E D)

/-- The root of the tree over a list. -/
def root (es : List E) : D :=
  match es with
  | [] => T.empty
  | [e] => T.leaf e
  | e :: e' :: rest =>
    let es := e :: e' :: rest
    T.node (root (es.take (split es.length))) (root (es.drop (split es.length)))
termination_by es.length
decreasing_by
  · have := split_lt (n := (e :: e' :: rest).length) (by simp)
    simp only [List.length_take]; omega
  · have := split_pos (e :: e' :: rest).length
    simp only [List.length_drop, List.length_cons] at *; omega

theorem root_split {es : List E} (h : 2 ≤ es.length) :
    T.root es = T.node (T.root (es.take (split es.length))) (T.root (es.drop (split es.length))) := by
  match es, h with
  | e :: e' :: rest, _ => rw [root]

/-- The values hashed while the root of a list is computed. -/
def rootHashes (es : List E) : List (Preimage E D) :=
  match es with
  | [] => []
  | [e] => [.leaf e]
  | e :: e' :: rest =>
    let es := e :: e' :: rest
    .node (T.root (es.take (split es.length))) (T.root (es.drop (split es.length))) ::
      (rootHashes (es.take (split es.length)) ++ rootHashes (es.drop (split es.length)))
termination_by es.length
decreasing_by
  · have := split_lt (n := (e :: e' :: rest).length) (by simp)
    simp only [List.length_take]; omega
  · have := split_pos (e :: e' :: rest).length
    simp only [List.length_drop, List.length_cons] at *; omega

theorem rootHashes_split {es : List E} (h : 2 ≤ es.length) :
    T.rootHashes es =
      .node (T.root (es.take (split es.length))) (T.root (es.drop (split es.length))) ::
        (T.rootHashes (es.take (split es.length)) ++ T.rootHashes (es.drop (split es.length))) := by
  match es, h with
  | e :: e' :: rest, _ => rw [rootHashes]

/-- Every entry is hashed. -/
theorem leaf_mem_rootHashes {es : List E} {i : ℕ} {e : E} (he : es[i]? = some e) :
    .leaf e ∈ T.rootHashes es := by
  induction hn : es.length using Nat.strong_induction_on generalizing es i with
  | _ n ih =>
    subst hn
    obtain ⟨hi, -⟩ := List.getElem?_eq_some_iff.mp he
    rcases Nat.lt_or_ge es.length 2 with hsmall | hn
    · obtain ⟨a, rfl⟩ := List.length_eq_one_iff.mp (show es.length = 1 by omega)
      obtain rfl : i = 0 := by simpa using hi
      obtain rfl := Option.some.inj he
      rw [rootHashes]
      exact List.mem_singleton_self _
    have hk := split_lt hn
    have hk0 := split_pos es.length
    rw [T.rootHashes_split hn]
    apply List.mem_cons_of_mem
    rcases Nat.lt_or_ge i (split es.length) with hlt | hge
    · apply List.mem_append_left
      exact @ih _ (by rw [List.length_take]; omega) (es.take (split es.length)) i
        (by rw [List.getElem?_take_of_lt hlt, he]) rfl
    · apply List.mem_append_right
      exact @ih _ (by rw [List.length_drop]; omega) (es.drop (split es.length))
        (i - split es.length) (by rw [List.getElem?_drop, Nat.add_sub_cancel' hge, he]) rfl

/-- The path that links the tree over the first `m` entries to the tree over all
of them.  `known` says that the verifier already holds the root of the subtree
the path starts from. -/
def subproof (es : List E) (m : ℕ) (known : Bool) : List D :=
  if es.length ≤ m then (if known then [] else [T.root es])
  else if es.length ≤ 1 then []
  else if m ≤ split es.length then
    subproof (es.take (split es.length)) m known ++ [T.root (es.drop (split es.length))]
  else subproof (es.drop (split es.length)) (m - split es.length) false ++
    [T.root (es.take (split es.length))]
termination_by es.length
decreasing_by
  · have := split_lt (n := es.length) (by omega)
    simp only [List.length_take]; omega
  · have := split_pos es.length
    simp only [List.length_drop]; omega

theorem subproof_self {es : List E} {m : ℕ} (h : es.length ≤ m) (known : Bool) :
    T.subproof es m known = if known then [] else [T.root es] := by
  rw [subproof, if_pos h]

theorem subproof_left {es : List E} {m : ℕ} (hm : m ≤ split es.length) (hn : 2 ≤ es.length)
    (known : Bool) :
    T.subproof es m known =
      T.subproof (es.take (split es.length)) m known ++
        [T.root (es.drop (split es.length))] := by
  have := split_lt hn
  rw [subproof, if_neg (by omega), if_neg (by omega), if_pos hm]

theorem subproof_right {es : List E} {m : ℕ} (hm : split es.length < m) (hn : m < es.length)
    (known : Bool) :
    T.subproof es m known =
      T.subproof (es.drop (split es.length)) (m - split es.length) false ++
        [T.root (es.take (split es.length))] := by
  have := split_pos es.length
  rw [subproof, if_neg (by omega), if_neg (by omega), if_neg (by omega)]

/-- The path of the entry at a position. -/
def inclusion (es : List E) (i : ℕ) : List D :=
  if es.length ≤ 1 then []
  else if i < split es.length then
    inclusion (es.take (split es.length)) i ++ [T.root (es.drop (split es.length))]
  else inclusion (es.drop (split es.length)) (i - split es.length) ++
    [T.root (es.take (split es.length))]
termination_by es.length
decreasing_by
  · have := split_lt (n := es.length) (by omega)
    simp only [List.length_take]; omega
  · have := split_pos es.length
    simp only [List.length_drop]; omega

theorem inclusion_of_lt {es : List E} {i : ℕ} (hi : i < split es.length) (hn : 2 ≤ es.length) :
    T.inclusion es i =
      T.inclusion (es.take (split es.length)) i ++ [T.root (es.drop (split es.length))] := by
  rw [inclusion, if_neg (by omega), if_pos hi]

theorem inclusion_of_ge {es : List E} {i : ℕ} (hi : split es.length ≤ i) (hn : 2 ≤ es.length) :
    T.inclusion es i =
      T.inclusion (es.drop (split es.length)) (i - split es.length) ++
        [T.root (es.take (split es.length))] := by
  rw [inclusion, if_neg (by omega), if_neg (by omega)]

/-! ## The moves of the two verifiers

An inclusion climb carries one digest, a consistency climb the digests of the old
and the new tree.  Each also carries the values it has hashed. -/

/-- A sibling on the left of the node being climbed. -/
def inclusionL (s : D) (a : D × List (Preimage E D)) : D × List (Preimage E D) :=
  (T.node s a.1, .node s a.1 :: a.2)

/-- A sibling on its right. -/
def inclusionR (a : D × List (Preimage E D)) (s : D) : D × List (Preimage E D) :=
  (T.node a.1 s, .node a.1 s :: a.2)

/-- A sibling on the left belongs to both trees. -/
def consistencyL (s : D) (a : (D × D) × List (Preimage E D)) :
    (D × D) × List (Preimage E D) :=
  ((T.node s a.1.1, T.node s a.1.2), .node s a.1.1 :: .node s a.1.2 :: a.2)

/-- A sibling on the right belongs to the new tree only. -/
def consistencyR (a : (D × D) × List (Preimage E D)) (s : D) :
    (D × D) × List (Preimage E D) :=
  ((a.1.1, T.node a.1.2 s), .node a.1.2 s :: a.2)

end Scheme

/-- No two values among those `hashed` picks out collide.  The left-hand pair of
a node equality may hold an arbitrary proof element, the right-hand pair is made
of digests. -/
structure Binding (T : Scheme E D) (IsDigest : D → Prop) (hashed : Preimage E D → Prop) : Prop where
  leaf_digest : ∀ e, IsDigest (T.leaf e)
  node_digest : ∀ a b, IsDigest (T.node a b)
  leaf_inj : ∀ e e', hashed (.leaf e) → hashed (.leaf e') → T.leaf e = T.leaf e' → e = e'
  node_inj : ∀ a b c d, hashed (.node a b) → hashed (.node c d) → T.node a b = T.node c d →
    IsDigest a ∨ IsDigest b → IsDigest c → IsDigest d → a = c ∧ b = d

variable {T : Scheme E D} {IsDigest : D → Prop} {hashed : Preimage E D → Prop}

theorem Binding.root_digest (B : Binding T IsDigest hashed) {es : List E} (h : es ≠ []) :
    IsDigest (T.root es) := by
  match es, h with
  | [e], _ => rw [Scheme.root]; exact B.leaf_digest e
  | e :: e' :: rest, _ => rw [T.root_split (by simp)]; exact B.node_digest _ _

theorem take_split_ne_nil {es : List E} (h : 2 ≤ es.length) : es.take (split es.length) ≠ [] := by
  have := split_pos es.length
  intro hnil
  have := congrArg List.length hnil
  rw [List.length_take, List.length_nil] at this
  omega

theorem drop_split_ne_nil {es : List E} (h : 2 ≤ es.length) : es.drop (split es.length) ≠ [] := by
  have := split_lt h
  intro hnil
  have := congrArg List.length hnil
  rw [List.length_drop, List.length_nil] at this
  omega

/-- **Two lists of one length with one root are equal**, when the values hashed
on the way do not collide. -/
theorem Binding.root_inj (B : Binding T IsDigest hashed) {es es' : List E}
    (hlen : es.length = es'.length) (heq : T.root es = T.root es')
    (hh : ∀ x ∈ T.rootHashes es, hashed x) (hh' : ∀ x ∈ T.rootHashes es', hashed x) : es = es' := by
  induction hn : es.length using Nat.strong_induction_on generalizing es es' with
  | _ n ih =>
    subst hn
    rcases Nat.lt_or_ge es.length 2 with hlt | hge
    · match es, es', hlen with
      | [], [], _ => rfl
      | [e], [e'], _ =>
          simp only [Scheme.root, Scheme.rootHashes, List.mem_singleton, forall_eq] at heq hh hh'
          rw [B.leaf_inj e e' hh hh' heq]
      | _ :: _ :: _, _, _ => simp only [List.length_cons] at hlt; omega
    · have hk := split_lt hge
      have hk0 := split_pos es.length
      rw [T.rootHashes_split hge] at hh
      rw [T.rootHashes_split (by omega), ← hlen] at hh'
      rw [T.root_split hge, T.root_split (show 2 ≤ es'.length by omega), ← hlen] at heq
      have htake := take_split_ne_nil hge
      have hdrop := drop_split_ne_nil hge
      have htake' := take_split_ne_nil (hlen ▸ hge)
      have hdrop' := drop_split_ne_nil (hlen ▸ hge)
      rw [← hlen] at htake' hdrop'
      obtain ⟨hl, hr⟩ := B.node_inj _ _ _ _ (hh _ List.mem_cons_self) (hh' _ List.mem_cons_self) heq
        (.inl (B.root_digest htake)) (B.root_digest htake') (B.root_digest hdrop')
      simp only [List.mem_cons, List.mem_append] at hh hh'
      have hleft : es.take (split es.length) = es'.take (split es.length) :=
        ih _ (by rw [List.length_take]; omega) (by simp only [List.length_take]; omega) hl
          (fun x hx => hh x (.inr (.inl hx))) (fun x hx => hh' x (.inr (.inl hx))) rfl
      have hright : es.drop (split es.length) = es'.drop (split es.length) :=
        ih _ (by rw [List.length_drop]; omega) (by simp only [List.length_drop]; omega) hr
          (fun x hx => hh x (.inr (.inr hx))) (fun x hx => hh' x (.inr (.inr hx))) rfl
      rw [← List.take_append_drop (split es.length) es,
        ← List.take_append_drop (split es.length) es', hleft, hright]

/-- Entries, pairs and the empty list are hashed to different values. -/
structure Separated (T : Scheme E D) (hashed : Preimage E D → Prop) : Prop where
  leaf_ne_node : ∀ e a b, hashed (.leaf e) → hashed (.node a b) → T.leaf e ≠ T.node a b
  empty_ne_leaf : ∀ e, hashed (.leaf e) → T.empty ≠ T.leaf e
  empty_ne_node : ∀ a b, hashed (.node a b) → T.empty ≠ T.node a b

/-- A list of two or more entries has the root of none that is shorter. -/
theorem Separated.root_ne (S : Separated T hashed) {es es' : List E} (h : es.length < 2)
    (h' : 2 ≤ es'.length) (hh : ∀ x ∈ T.rootHashes es, hashed x)
    (hh' : ∀ x ∈ T.rootHashes es', hashed x) : T.root es ≠ T.root es' := by
  rw [T.root_split h']
  rw [T.rootHashes_split h'] at hh'
  have hnode := hh' _ List.mem_cons_self
  match es with
  | [] =>
      rw [Scheme.root]
      exact S.empty_ne_node _ _ hnode
  | [e] =>
      simp only [Scheme.root, Scheme.rootHashes, List.mem_singleton, forall_eq] at hh ⊢
      exact S.leaf_ne_node _ _ _ hh hnode
  | _ :: _ :: _ => simp only [List.length_cons] at h; omega

/-- **Two lists with one root are equal**, whatever their lengths, when what is hashed on
the way is also told apart. -/
theorem Binding.eq_of_root_eq (B : Binding T IsDigest hashed) (S : Separated T hashed)
    {es es' : List E} (heq : T.root es = T.root es') (hh : ∀ x ∈ T.rootHashes es, hashed x)
    (hh' : ∀ x ∈ T.rootHashes es', hashed x) : es = es' := by
  induction hn : es.length using Nat.strong_induction_on generalizing es es' with
  | _ n ih =>
    subst hn
    rcases Nat.lt_or_ge es.length 2 with hlt | hge
    · rcases Nat.lt_or_ge es'.length 2 with hlt' | hge'
      · match es, es' with
        | [], [] => rfl
        | [], [e'] =>
            simp only [Scheme.root, Scheme.rootHashes, List.mem_singleton, forall_eq] at heq hh'
            exact absurd heq (S.empty_ne_leaf e' hh')
        | [e], [] =>
            simp only [Scheme.root, Scheme.rootHashes, List.mem_singleton, forall_eq] at heq hh
            exact absurd heq.symm (S.empty_ne_leaf e hh)
        | [e], [e'] => exact B.root_inj rfl heq hh hh'
        | _ :: _ :: _, _ => simp only [List.length_cons] at hlt; omega
        | _, _ :: _ :: _ => simp only [List.length_cons] at hlt'; omega
      · exact absurd heq (S.root_ne hlt hge' hh hh')
    · rcases Nat.lt_or_ge es'.length 2 with hlt' | hge'
      · exact absurd heq.symm (S.root_ne hlt' hge hh' hh)
      have hk := split_lt hge
      have hk0 := split_pos es.length
      rw [T.rootHashes_split hge] at hh
      rw [T.rootHashes_split hge'] at hh'
      rw [T.root_split hge, T.root_split hge'] at heq
      obtain ⟨hl, hr⟩ := B.node_inj _ _ _ _ (hh _ List.mem_cons_self) (hh' _ List.mem_cons_self) heq
        (.inl (B.root_digest (take_split_ne_nil hge))) (B.root_digest (take_split_ne_nil hge'))
        (B.root_digest (drop_split_ne_nil hge'))
      simp only [List.mem_cons, List.mem_append] at hh hh'
      have hleft : es.take (split es.length) = es'.take (split es'.length) :=
        ih _ (by rw [List.length_take]; omega) hl (fun x hx => hh x (.inr (.inl hx)))
          (fun x hx => hh' x (.inr (.inl hx))) rfl
      have hright : es.drop (split es.length) = es'.drop (split es'.length) :=
        ih _ (by rw [List.length_drop]; omega) hr (fun x hx => hh x (.inr (.inr hx)))
          (fun x hx => hh' x (.inr (.inr hx))) rfl
      rw [← List.take_append_drop (split es.length) es, hleft, hright, List.take_append_drop]

/-! ## Inclusion paths -/

/-- **An honest path rebuilds the root**, and hashes nothing that the root does not. -/
theorem walk_inclusion (T : Scheme E D) {es : List E} {i : ℕ} {e : E} (he : es[i]? = some e) :
    ∃ log, walk T.inclusionL T.inclusionR i (es.length - 1) (T.leaf e, []) (T.inclusion es i) =
      some (T.root es, log) ∧ ∀ v ∈ log, v ∈ T.rootHashes es := by
  induction hn : es.length using Nat.strong_induction_on generalizing es i with
  | _ n ih =>
    subst hn
    obtain ⟨hi, -⟩ := List.getElem?_eq_some_iff.mp he
    rcases Nat.lt_or_ge es.length 2 with hsmall | hn
    · -- a log of one entry is its own leaf
      obtain ⟨a, rfl⟩ := List.length_eq_one_iff.mp (show es.length = 1 by omega)
      obtain rfl : i = 0 := by simpa using hi
      obtain rfl := Option.some.inj he
      refine ⟨[], ?_, by simp⟩
      rw [Scheme.inclusion, if_pos (by simp), Scheme.root]
      simp [walk_root]
    have hk := split_lt hn
    have hk0 := split_pos es.length
    have htake : (es.take (split es.length)).length = split es.length := by
      rw [List.length_take]; omega
    rcases Nat.lt_or_ge i (split es.length) with hlt | hge
    · obtain ⟨log, hlog, hmem⟩ := @ih _ (by omega) (es.take (split es.length)) i
        (by rw [List.getElem?_take_of_lt hlt, he]) rfl
      rw [htake] at hlog
      rw [T.inclusion_of_lt hlt hn, walk_concat_left _ _ hlt hn, hlog]
      refine ⟨_, congrArg some (Prod.ext ?_ rfl), fun v hv => ?_⟩
      · rw [T.root_split hn]
        rfl
      · rw [T.rootHashes_split hn]
        rcases List.mem_cons.mp hv with rfl | hv
        · exact List.mem_cons_self
        · exact List.mem_cons_of_mem _ (List.mem_append_left _ (hmem v hv))
    · obtain ⟨log, hlog, hmem⟩ := @ih _ (by rw [List.length_drop]; omega) (es.drop (split es.length))
        (i - split es.length)
        (by rw [List.getElem?_drop, Nat.add_sub_cancel' hge, he]) rfl
      rw [List.length_drop] at hlog
      rw [T.inclusion_of_ge hge hn, walk_concat_right _ _ hge hn hi, hlog]
      refine ⟨_, congrArg some (Prod.ext ?_ rfl), fun v hv => ?_⟩
      · rw [T.root_split hn]
        rfl
      · rw [T.rootHashes_split hn]
        rcases List.mem_cons.mp hv with rfl | hv
        · exact List.mem_cons_self
        · exact List.mem_cons_of_mem _ (List.mem_append_right _ (hmem v hv))

/-- The path of an entry is made of digests. -/
theorem Binding.inclusion_digest (B : Binding T IsDigest hashed) {es : List E} {i : ℕ} :
    ∀ d ∈ T.inclusion es i, IsDigest d := by
  induction hn : es.length using Nat.strong_induction_on generalizing es i with
  | _ n ih =>
    subst hn
    intro d hd
    rcases Nat.lt_or_ge es.length 2 with hsmall | hn
    · rw [Scheme.inclusion, if_pos (by omega)] at hd
      cases hd
    have hk := split_lt hn
    have hk0 := split_pos es.length
    rcases Nat.lt_or_ge i (split es.length) with hlt | hge
    · rw [T.inclusion_of_lt hlt hn, List.mem_append, List.mem_singleton] at hd
      rcases hd with hd | rfl
      · exact ih _ (by rw [List.length_take]; omega) rfl d hd
      · exact B.root_digest (drop_split_ne_nil hn)
    · rw [T.inclusion_of_ge hge hn, List.mem_append, List.mem_singleton] at hd
      rcases hd with hd | rfl
      · exact ih _ (by rw [List.length_drop]; omega) rfl d hd
      · exact B.root_digest (take_split_ne_nil hn)

/-! ## Consistency paths -/

theorem Scheme.subproof_ne_nil (T : Scheme E D) {es : List E} {m : ℕ} (hm : 0 < m) :
    T.subproof es m false ≠ [] := by
  rcases Nat.lt_or_ge m es.length with hlt | hge
  · rcases Nat.lt_or_ge (split es.length) m with hgt | hle
    · simp [T.subproof_right hgt hlt]
    · simp [T.subproof_left hle (by omega)]
  · simp [T.subproof_self hge]

/-- A prefix that is the left subtree is linked by the two roots of the split. -/
theorem Scheme.subproof_split (T : Scheme E D) {es : List E} (hn : 2 ≤ es.length) :
    T.subproof es (split es.length) false =
      [T.root (es.take (split es.length)), T.root (es.drop (split es.length))] := by
  rw [T.subproof_left le_rfl hn, T.subproof_self (by rw [List.length_take]; omega)]
  simp

/-- **An honest path rebuilds both roots.** -/
theorem walkFrom_subproof (T : Scheme E D) {es : List E} {m : ℕ} {d : D} {p : List D}
    (hm : 0 < m) (hmn : m < es.length) (hp : T.subproof es m false = d :: p) :
    ∃ log, walkFrom T.consistencyL T.consistencyR (m - 1) (es.length - 1) ((d, d), []) p =
      some ((T.root (es.take m), T.root es), log) := by
  induction hn : es.length using Nat.strong_induction_on generalizing es m d p with
  | _ n ih =>
    subst hn
    have hk := split_lt (n := es.length) (by omega)
    have hk0 := split_pos es.length
    have hlt' : (es.take (split es.length)).length = split es.length := by
      rw [List.length_take]; omega
    rcases Nat.lt_trichotomy m (split es.length) with hlt | rfl | hgt
    · rw [T.subproof_left (by omega) (by omega)] at hp
      obtain ⟨d', q, hq⟩ := List.exists_cons_of_ne_nil
        (T.subproof_ne_nil hm : T.subproof (es.take (split es.length)) m false ≠ [])
      rw [hq, List.cons_append, List.cons.injEq] at hp
      obtain ⟨rfl, rfl⟩ := hp
      obtain ⟨log, hlog⟩ := ih _ (by omega) hm (by omega) hq rfl
      rw [hlt'] at hlog
      rw [walkFrom_concat_left _ _ (by omega) hm hmn, hlog]
      refine ⟨_, congrArg some (Prod.ext (Prod.ext ?_ ?_) rfl)⟩
      · simp only [Scheme.consistencyR]
        rw [List.take_take, Nat.min_eq_left (by omega)]
      · simp only [Scheme.consistencyR]
        rw [T.root_split (show 2 ≤ es.length by omega)]
    · rw [T.subproof_split (by omega), List.cons.injEq] at hp
      obtain ⟨rfl, rfl⟩ := hp
      rw [← List.nil_append [_], walkFrom_concat_left _ _ le_rfl hm hmn]
      simp only [split]
      rw [walkFrom_pow, if_pos rfl]
      refine ⟨_, congrArg some (Prod.ext (Prod.ext rfl ?_) rfl)⟩
      simp only [Scheme.consistencyR]
      rw [T.root_split (show 2 ≤ es.length by omega), split]
    · rw [T.subproof_right hgt hmn] at hp
      obtain ⟨d', q, hq⟩ := List.exists_cons_of_ne_nil
        (T.subproof_ne_nil (by omega) :
          T.subproof (es.drop (split es.length)) (m - split es.length) false ≠ [])
      rw [hq, List.cons_append, List.cons.injEq] at hp
      obtain ⟨rfl, rfl⟩ := hp
      obtain ⟨log, hlog⟩ := ih _ (by rw [List.length_drop]; omega) (by omega)
        (by rw [List.length_drop]; omega) hq rfl
      rw [List.length_drop] at hlog
      rw [walkFrom_concat_right _ _ hgt hmn, hlog]
      refine ⟨_, congrArg some (Prod.ext (Prod.ext ?_ ?_) rfl)⟩
      · simp only [Scheme.consistencyL]
        have hsame : split (es.take m).length = split es.length := by
          rw [List.length_take, Nat.min_eq_left (by omega)]
          exact split_stable hgt (by omega)
        rw [T.root_split (show 2 ≤ (es.take m).length by rw [List.length_take]; omega), hsame,
          List.take_take, Nat.min_eq_left (by omega), List.drop_take]
      · simp only [Scheme.consistencyL]
        rw [T.root_split (show 2 ≤ es.length by omega)]

/-! ## What an accepted climb did last

The last sibling of an accepted climb is hashed next to the root, and the rest of
the path is an accepted climb of one of the two subtrees. -/

variable (T) in
theorem Scheme.inclusion_left {i n : ℕ} {x r : D} {p : List D} {out : List (Preimage E D)}
    (hi : i < split n) (hn : 2 ≤ n)
    (h : walk T.inclusionL T.inclusionR i (n - 1) (x, []) p = some (r, out)) :
    ∃ q s v out', p = q ++ [s] ∧ r = T.node v s ∧ out = .node v s :: out' ∧
      walk T.inclusionL T.inclusionR i (split n - 1) (x, []) q = some (v, out') := by
  have hk := split_lt hn
  rcases List.eq_nil_or_concat' p with rfl | ⟨q, s, rfl⟩
  · rw [walk_nil _ _ (by omega) (by omega)] at h
    cases h
  · rw [walk_concat_left _ _ hi hn] at h
    obtain ⟨⟨v, out'⟩, hq, hr⟩ := Option.map_eq_some_iff.mp h
    simp only [Scheme.inclusionR, Prod.mk.injEq] at hr
    exact ⟨q, s, v, out', rfl, hr.1.symm, hr.2.symm, hq⟩

variable (T) in
theorem Scheme.inclusion_right {i n : ℕ} {x r : D} {p : List D} {out : List (Preimage E D)}
    (hi : split n ≤ i) (hin : i < n)
    (h : walk T.inclusionL T.inclusionR i (n - 1) (x, []) p = some (r, out)) :
    ∃ q s v out', p = q ++ [s] ∧ r = T.node s v ∧ out = .node s v :: out' ∧
      walk T.inclusionL T.inclusionR (i - split n) (n - split n - 1) (x, []) q =
        some (v, out') := by
  have hk := split_pos n
  rcases List.eq_nil_or_concat' p with rfl | ⟨q, s, rfl⟩
  · rw [walk_nil _ _ (by omega) (by omega)] at h
    cases h
  · rw [walk_concat_right _ _ hi (by omega) hin] at h
    obtain ⟨⟨v, out'⟩, hq, hr⟩ := Option.map_eq_some_iff.mp h
    simp only [Scheme.inclusionL, Prod.mk.injEq] at hr
    exact ⟨q, s, v, out', rfl, hr.1.symm, hr.2.symm, hq⟩

variable (T) in
theorem Scheme.consistency_left {m n : ℕ} {d r s : D} {p : List D} {out : List (Preimage E D)}
    (hm : m ≤ split n) (hpos : 0 < m) (hmn : m < n)
    (h : walkFrom T.consistencyL T.consistencyR (m - 1) (n - 1) ((d, d), []) p =
      some ((r, s), out)) :
    ∃ q u v out', p = q ++ [u] ∧ s = T.node v u ∧ out = .node v u :: out' ∧
      walkFrom T.consistencyL T.consistencyR (m - 1) (split n - 1) ((d, d), []) q =
        some ((r, v), out') := by
  rcases List.eq_nil_or_concat' p with rfl | ⟨q, u, rfl⟩
  · rw [walkFrom_nil _ _ (by omega)] at h
    cases h
  · rw [walkFrom_concat_left _ _ hm hpos hmn] at h
    obtain ⟨⟨⟨f, v⟩, out'⟩, hq, hr⟩ := Option.map_eq_some_iff.mp h
    simp only [Scheme.consistencyR, Prod.mk.injEq] at hr
    obtain ⟨⟨rfl, rfl⟩, rfl⟩ := hr
    exact ⟨q, u, v, out', rfl, rfl, rfl, hq⟩

variable (T) in
theorem Scheme.consistency_right {m n : ℕ} {d r s : D} {p : List D} {out : List (Preimage E D)}
    (hm : split n < m) (hmn : m < n)
    (h : walkFrom T.consistencyL T.consistencyR (m - 1) (n - 1) ((d, d), []) p =
      some ((r, s), out)) :
    ∃ q u f v out', p = q ++ [u] ∧ r = T.node u f ∧ s = T.node u v ∧
      out = .node u f :: .node u v :: out' ∧
      walkFrom T.consistencyL T.consistencyR (m - split n - 1) (n - split n - 1) ((d, d), []) q =
        some ((f, v), out') := by
  rcases List.eq_nil_or_concat' p with rfl | ⟨q, u, rfl⟩
  · rw [walkFrom_nil _ _ (by omega)] at h
    cases h
  · rw [walkFrom_concat_right _ _ hm hmn] at h
    obtain ⟨⟨⟨f, v⟩, out'⟩, hq, hr⟩ := Option.map_eq_some_iff.mp h
    simp only [Scheme.consistencyL, Prod.mk.injEq] at hr
    obtain ⟨⟨rfl, rfl⟩, rfl⟩ := hr
    exact ⟨q, u, f, v, out', rfl, rfl, rfl, rfl, hq⟩

/-- A path that ends at the complete left subtree is empty. -/
theorem Scheme.consistency_split (T : Scheme E D) {n : ℕ} {d r s : D} {p : List D}
    {out : List (Preimage E D)}
    (h : walkFrom T.consistencyL T.consistencyR (split n - 1) (split n - 1) ((d, d), []) p =
      some ((r, s), out)) : p = [] ∧ r = d ∧ s = d := by
  simp only [split] at h
  rw [walkFrom_pow] at h
  split_ifs at h with hnil
  simp only [Option.some.injEq, Prod.mk.injEq] at h
  exact ⟨hnil, h.1.1.symm, h.1.2.symm⟩

/-- A path that does not reach the whole tree ends with a hash. -/
theorem Binding.new_digest (B : Binding T IsDigest hashed) {m n : ℕ} {d r s : D} {p : List D}
    {out : List (Preimage E D)} (hm : 0 < m) (hmn : m < n)
    (h : walkFrom T.consistencyL T.consistencyR (m - 1) (n - 1) ((d, d), []) p =
      some ((r, s), out)) : IsDigest s := by
  rcases Nat.lt_or_ge (split n) m with hgt | hle
  · obtain ⟨q, u, f, v, out', -, -, rfl, -⟩ := T.consistency_right hgt hmn h
    exact B.node_digest _ _
  · obtain ⟨q, u, v, out', -, rfl, -⟩ := T.consistency_left hle hm hmn h
    exact B.node_digest _ _

/-- **Whatever rebuilds both roots is the honest path of a prefix.**  The proof
elements are arbitrary: the digest lengths of the two honest trees decide where
each of them begins and ends. -/
theorem walkFrom_exact (B : Binding T IsDigest hashed) {old es : List E} {d : D} {p : List D}
    {log : List (Preimage E D)} (hm : 0 < old.length) (hmn : old.length < es.length)
    (h : walkFrom T.consistencyL T.consistencyR (old.length - 1) (es.length - 1) ((d, d), []) p =
      some ((T.root old, T.root es), log))
    (hlog : ∀ x ∈ log, hashed x) (hold : ∀ x ∈ T.rootHashes old, hashed x)
    (hnew : ∀ x ∈ T.rootHashes es, hashed x) :
    old = es.take old.length ∧ T.subproof es old.length false = d :: p := by
  induction hn : es.length using Nat.strong_induction_on generalizing old es p log with
  | _ n ih =>
    subst hn
    have hk := split_lt (n := es.length) (by omega)
    have hk0 := split_pos es.length
    have htake : (es.take (split es.length)).length = split es.length := by
      rw [List.length_take]; omega
    have hdl := B.root_digest (take_split_ne_nil (show 2 ≤ es.length by omega))
    have hdr := B.root_digest (drop_split_ne_nil (show 2 ≤ es.length by omega))
    have hroot := T.root_split (show 2 ≤ es.length by omega)
    rw [T.rootHashes_split (show 2 ≤ es.length by omega)] at hnew
    simp only [List.mem_cons, List.mem_append] at hnew
    rcases Nat.lt_trichotomy old.length (split es.length) with hlt | heq | hgt
    · obtain ⟨q, u, v, out, rfl, hs, rfl, hq⟩ := T.consistency_left (by omega) hm hmn h
      obtain ⟨rfl, rfl⟩ := B.node_inj _ _ _ _ (hlog _ List.mem_cons_self) (hnew _ (.inl rfl))
        (hs.symm.trans hroot) (.inl (B.new_digest hm hlt hq)) hdl hdr
      have hrec := ih _ (by omega) hm
        (show old.length < (es.take (split es.length)).length by omega)
        (by rw [htake]; exact hq) (fun x hx => hlog x (List.mem_cons_of_mem _ hx)) hold
        (fun x hx => hnew x (.inr (.inl hx))) rfl
      rw [List.take_take, Nat.min_eq_left (by omega)] at hrec
      refine ⟨hrec.1, ?_⟩
      rw [T.subproof_left (by omega) (by omega), hrec.2, List.cons_append]
    · obtain ⟨q, u, v, out, rfl, hs, rfl, hq⟩ := T.consistency_left heq.le hm hmn h
      rw [heq] at hq
      obtain ⟨rfl, hd, rfl⟩ := T.consistency_split hq
      have hdd : IsDigest v := hd ▸ B.root_digest (List.ne_nil_of_length_pos hm)
      obtain ⟨hdl', rfl⟩ := B.node_inj _ _ _ _ (hlog _ List.mem_cons_self) (hnew _ (.inl rfl))
        (hs.symm.trans hroot) (.inl hdd) hdl hdr
      have hpre : old = es.take (split es.length) :=
        B.root_inj (by omega) (by rw [hd, hdl']) hold (fun x hx => hnew x (.inr (.inl hx)))
      refine ⟨by rw [heq]; exact hpre, ?_⟩
      rw [heq, T.subproof_split (by omega), ← hdl']
      rfl
    · obtain ⟨q, u, f, v, out, rfl, hr, hs, rfl, hq⟩ := T.consistency_right hgt hmn h
      simp only [List.mem_cons] at hlog
      have hsame : split old.length = split es.length := split_stable hgt hmn.le
      have hroot' := T.root_split (show 2 ≤ old.length by omega)
      rw [T.rootHashes_split (show 2 ≤ old.length by omega), hsame] at hold
      simp only [List.mem_cons, List.mem_append] at hold
      have hodl := B.root_digest (take_split_ne_nil (show 2 ≤ old.length by omega))
      have hodr := B.root_digest (drop_split_ne_nil (show 2 ≤ old.length by omega))
      rw [hsame] at hroot' hodl hodr
      -- the new tree fixes the sibling, and with it the boundary in the old one
      obtain ⟨rfl, rfl⟩ := B.node_inj _ _ _ _ (hlog _ (.inr (.inl rfl))) (hnew _ (.inl rfl))
        (hs.symm.trans hroot) (.inr (B.new_digest (by omega) (by omega) hq)) hdl hdr
      obtain ⟨hleft, rfl⟩ := B.node_inj _ _ _ _ (hlog _ (.inl rfl)) (hold _ (.inl rfl))
        (hr.symm.trans hroot') (.inl hdl) hodl hodr
      have hpre : old.take (split es.length) = es.take (split es.length) :=
        B.root_inj (by simp only [List.length_take]; omega) hleft.symm
          (fun x hx => hold x (.inr (.inl hx))) (fun x hx => hnew x (.inr (.inl hx)))
      have hrec := ih _ (by rw [List.length_drop]; omega)
        (show 0 < (old.drop (split es.length)).length by rw [List.length_drop]; omega)
        (show (old.drop (split es.length)).length < (es.drop (split es.length)).length by
          simp only [List.length_drop]; omega) (by simp only [List.length_drop]; exact hq)
        (fun x hx => hlog x (.inr (.inr hx))) (fun x hx => hold x (.inr (.inr hx)))
        (fun x hx => hnew x (.inr (.inr hx))) rfl
      rw [List.length_drop] at hrec
      refine ⟨?_, ?_⟩
      · calc old = old.take (split es.length) ++ old.drop (split es.length) :=
              (List.take_append_drop _ _).symm
          _ = es.take (split es.length) ++
              (es.drop (split es.length)).take (old.length - split es.length) := by
              rw [hpre, ← hrec.1]
          _ = es.take old.length := by
              rw [← List.take_add, Nat.add_sub_cancel' hgt.le]
      · rw [T.subproof_right hgt hmn, hrec.2, List.cons_append]

/-- Dropping the root the verifier already holds: it is the first element of the
path when the prefix is a complete left spine, and no element of it otherwise. -/
theorem Scheme.subproof_known (T : Scheme E D) {es : List E} {m : ℕ} (hm : 0 < m)
    (hmn : m < es.length) :
    T.subproof es m false =
      if m = 2 ^ Nat.log 2 m then T.root (es.take m) :: T.subproof es m true
      else T.subproof es m true := by
  induction hn : es.length using Nat.strong_induction_on generalizing es m with
  | _ n ih =>
    subst hn
    have hk := split_lt (n := es.length) (by omega)
    have hk0 := split_pos es.length
    have htake : (es.take (split es.length)).length = split es.length := by
      rw [List.length_take]; omega
    rcases Nat.lt_trichotomy m (split es.length) with hlt | rfl | hgt
    · rw [T.subproof_left (show m ≤ split es.length by omega) (by omega) false,
        T.subproof_left (show m ≤ split es.length by omega) (by omega) true,
        ih _ (by omega) hm (by omega) rfl, List.take_take, Nat.min_eq_left (by omega)]
      split_ifs <;> rfl
    · rw [T.subproof_split (by omega), T.subproof_left le_rfl (by omega),
        T.subproof_self (by omega), if_pos]
      · rfl
      · simp only [split]
        rw [Nat.log_pow Nat.one_lt_two]
    · rw [T.subproof_right hgt hmn, T.subproof_right hgt hmn, if_neg]
      intro hpow
      have h1 := le_two_mul_split es.length
      rw [hpow] at hgt hmn
      simp only [split] at hgt h1
      rw [← Nat.pow_succ'] at h1
      have h2 := (Nat.pow_lt_pow_iff_right Nat.one_lt_two).mp hgt
      have h3 := (Nat.pow_lt_pow_iff_right Nat.one_lt_two).mp (lt_of_lt_of_le hmn h1)
      omega

/-! ## One position, one entry -/

/-- What a climb has hashed it keeps in its list. -/
theorem Scheme.mem_of_walk (T : Scheme E D) {i last : ℕ} {a b : D × List (Preimage E D)}
    {p : List D} {v : Preimage E D} (hv : v ∈ a.2)
    (h : walk T.inclusionL T.inclusionR i last a p = some b) : v ∈ b.2 :=
  walk_preserves (P := fun a => v ∈ a.2) _ _ (fun _ _ hv => List.mem_cons_of_mem _ hv)
    (fun _ _ hv => List.mem_cons_of_mem _ hv) hv h

theorem Binding.walk_digest (B : Binding T IsDigest hashed) {i last : ℕ}
    {a b : D × List (Preimage E D)} {p : List D} (ha : IsDigest a.1)
    (h : walk T.inclusionL T.inclusionR i last a p = some b) : IsDigest b.1 :=
  walk_preserves (P := fun a => IsDigest a.1) _ _ (fun _ _ _ => B.node_digest _ _)
    (fun _ _ _ => B.node_digest _ _) ha h

/-- **Two climbs from one position to one root start at one node**, and take one path. -/
theorem walk_unique_path (B : Binding T IsDigest hashed) {i last : ℕ} {x y : D} {p q : List D}
    {r : D} {lx ly ox oy : List (Preimage E D)} (hi : i ≤ last)
    (hx : walk T.inclusionL T.inclusionR i last (x, lx) p = some (r, ox))
    (hy : walk T.inclusionL T.inclusionR i last (y, ly) q = some (r, oy))
    (hox : ∀ v ∈ ox, hashed v) (hoy : ∀ v ∈ oy, hashed v)
    (hdx : IsDigest x) (hdy : IsDigest y) (hq : ∀ s ∈ q, IsDigest s) : x = y ∧ p = q := by
  induction last using Nat.strong_induction_on generalizing i x y p q lx ly with
  | _ last ih =>
    rcases Nat.eq_zero_or_pos last with rfl | hpos
    · rw [walk_root] at hx hy
      split_ifs at hx hy with hp hq
      simp only [Option.some.injEq, Prod.mk.injEq] at hx hy
      exact ⟨by rw [hx.1, hy.1], by rw [hp, hq]⟩
    by_cases hcarry : i % 2 = 0 ∧ last ≤ i
    · rw [walk_carry _ _ hcarry.1 hcarry.2 (by omega)] at hx hy
      exact ih (last / 2) (by omega) (by omega) hx hy hdx hdy hq
    rcases p with _ | ⟨s, p⟩
    · rw [walk_nil _ _ hi (by omega)] at hx
      cases hx
    rcases q with _ | ⟨t, q⟩
    · rw [walk_nil _ _ hi (by omega)] at hy
      cases hy
    have hq' : ∀ s ∈ q, IsDigest s := fun s hs => hq s (List.mem_cons_of_mem _ hs)
    by_cases hodd : i % 2 = 1
    · rw [walk_odd _ _ hodd (by omega)] at hx hy
      obtain ⟨heq, hpath⟩ := ih (last / 2) (by omega) (by omega) hx hy (B.node_digest _ _)
        (B.node_digest _ _) hq'
      obtain ⟨hst, hxy⟩ := B.node_inj _ _ _ _ (hox _ (T.mem_of_walk List.mem_cons_self hx))
        (hoy _ (T.mem_of_walk List.mem_cons_self hy)) heq (.inr hdx) (hq t List.mem_cons_self) hdy
      exact ⟨hxy, by rw [hst, hpath]⟩
    · rw [walk_even _ _ (by omega) (by omega)] at hx hy
      obtain ⟨heq, hpath⟩ := ih (last / 2) (by omega) (by omega) hx hy (B.node_digest _ _)
        (B.node_digest _ _) hq'
      obtain ⟨hxy, hst⟩ := B.node_inj _ _ _ _ (hox _ (T.mem_of_walk List.mem_cons_self hx))
        (hoy _ (T.mem_of_walk List.mem_cons_self hy)) heq (.inl hdx) hdy (hq t List.mem_cons_self)
      exact ⟨hxy, by rw [hst, hpath]⟩

theorem walk_unique (B : Binding T IsDigest hashed) {i last : ℕ} {x y : D} {p q : List D}
    {r : D} {lx ly ox oy : List (Preimage E D)} (hi : i ≤ last)
    (hx : walk T.inclusionL T.inclusionR i last (x, lx) p = some (r, ox))
    (hy : walk T.inclusionL T.inclusionR i last (y, ly) q = some (r, oy))
    (hox : ∀ v ∈ ox, hashed v) (hoy : ∀ v ∈ oy, hashed v)
    (hdx : IsDigest x) (hdy : IsDigest y) (hq : ∀ s ∈ q, IsDigest s) : x = y :=
  (walk_unique_path B hi hx hy hox hoy hdx hdy hq).1

/-- **Two linked roots open one position to one node.**  Neither root need be the
root of any tree: the three paths are compared with each other only, from the
roots down to the subtree all three share. -/
theorem walk_agree (B : Binding T IsDigest hashed) {m n i : ℕ} {x y d r s : D} {p q c : List D}
    {ox oy oc : List (Preimage E D)} (him : i < m) (hmn : m < n)
    (hx : walk T.inclusionL T.inclusionR i (m - 1) (x, []) p = some (r, ox))
    (hy : walk T.inclusionL T.inclusionR i (n - 1) (y, []) q = some (s, oy))
    (hc : walkFrom T.consistencyL T.consistencyR (m - 1) (n - 1) ((d, d), []) c = some ((r, s), oc))
    (hox : ∀ v ∈ ox, hashed v) (hoy : ∀ v ∈ oy, hashed v) (hoc : ∀ v ∈ oc, hashed v)
    (hdx : IsDigest x) (hdy : IsDigest y) (hdd : IsDigest d)
    (hp : ∀ u ∈ p, IsDigest u) (hq : ∀ u ∈ q, IsDigest u) (hcc : ∀ u ∈ c, IsDigest u) : x = y := by
  induction n using Nat.strong_induction_on generalizing m i p q c r s ox oy oc with
  | _ n ih =>
    have hk := split_lt (n := n) (by omega)
    have hk0 := split_pos n
    rcases Nat.lt_or_ge (split n) m with hgt | hle
    · obtain ⟨c, u, f, v, oc, rfl, hrc, hsc, rfl, hc'⟩ := T.consistency_right hgt hmn hc
      have hsame : split m = split n := split_stable hgt hmn.le
      have hdu : IsDigest u := hcc u (by simp)
      rcases Nat.lt_or_ge i (split n) with hi | hi
      · -- the position lies in the left subtree, which both trees share whole
        obtain ⟨p, w, a, ox, rfl, hrx, rfl, hx'⟩ := T.inclusion_left (hsame ▸ hi) (by omega) hx
        obtain ⟨q, z, b, oy, rfl, hsy, rfl, hy'⟩ := T.inclusion_left hi (by omega) hy
        rw [hsame] at hx'
        have hda : IsDigest a := B.walk_digest hdx hx'
        have hdb : IsDigest b := B.walk_digest hdy hy'
        obtain ⟨rfl, -⟩ := B.node_inj _ _ _ _ (hoc _ List.mem_cons_self) (hox _ List.mem_cons_self)
          (hrc.symm.trans hrx) (.inl hdu) hda (hp w (by simp))
        obtain ⟨rfl, -⟩ := B.node_inj _ _ _ _ (hoc _ (.tail _ List.mem_cons_self))
          (hoy _ List.mem_cons_self) (hsc.symm.trans hsy) (.inl hdu) hdb (hq z (by simp))
        exact walk_unique B (by omega) hx' hy' (fun v hv => hox v (.tail _ hv))
          (fun v hv => hoy v (.tail _ hv)) hdx hdy (fun u hu => hq u (by simp [hu]))
      · obtain ⟨p, w, a, ox, rfl, hrx, rfl, hx'⟩ := T.inclusion_right (hsame ▸ hi) him hx
        obtain ⟨q, z, b, oy, rfl, hsy, rfl, hy'⟩ := T.inclusion_right hi (by omega) hy
        rw [hsame] at hx'
        obtain ⟨-, rfl⟩ := B.node_inj _ _ _ _ (hoc _ List.mem_cons_self) (hox _ List.mem_cons_self)
          (hrc.symm.trans hrx) (.inl hdu) (hp w (by simp)) (B.walk_digest hdx hx')
        obtain ⟨-, rfl⟩ := B.node_inj _ _ _ _ (hoc _ (.tail _ List.mem_cons_self))
          (hoy _ List.mem_cons_self) (hsc.symm.trans hsy) (.inl hdu) (hq z (by simp))
          (B.walk_digest hdy hy')
        exact ih (n - split n) (by omega) (by omega) (by omega) hx' hy' hc'
          (fun v hv => hox v (.tail _ hv)) (fun v hv => hoy v (.tail _ hv))
          (fun v hv => hoc v (.tail _ (.tail _ hv))) (fun u hu => hp u (by simp [hu]))
          (fun u hu => hq u (by simp [hu])) (fun u hu => hcc u (by simp [hu]))
    · obtain ⟨q, z, b, oy, rfl, hsy, rfl, hy'⟩ := T.inclusion_left (by omega) (by omega) hy
      obtain ⟨c, u, v, oc, rfl, hsc, rfl, hc'⟩ := T.consistency_left hle (by omega) hmn hc
      have hdb : IsDigest b := B.walk_digest hdy hy'
      obtain ⟨rfl, -⟩ := B.node_inj _ _ _ _ (hoc _ List.mem_cons_self) (hoy _ List.mem_cons_self)
        (hsc.symm.trans hsy) (.inr (hcc u (by simp))) hdb (hq z (by simp))
      rcases Nat.lt_or_ge m (split n) with hlt | hge
      · exact ih (split n) hk him hlt hx hy' hc' hox (fun v hv => hoy v (.tail _ hv))
          (fun v hv => hoc v (.tail _ hv)) hp (fun u hu => hq u (by simp [hu]))
          (fun u hu => hcc u (by simp [hu]))
      · -- the old tree is the left subtree of the new one
        obtain rfl : m = split n := by omega
        obtain ⟨-, rfl, rfl⟩ := T.consistency_split hc'
        exact walk_unique B (by omega) hx hy' hox (fun v hv => hoy v (.tail _ hv)) hdx hdy
          (fun u hu => hq u (by simp [hu]))

end MerkleTree
