import Hatls.LogSound

/-!
# What an accepted proof binds

Two results about the verifiers of `hatls/log.py`.  Against honest roots, the only
accepted consistency proof is the generated one, and only for a prefix.  Against
roots a dishonest log chose, one position still opens to one entry, across every
two heads that are linked by an accepted consistency proof.

Neither asks that the hash be injective: the strings hashed by the calls at hand do
not collide.
-/

namespace Hatls.Log

open MerkleTree

variable {P : Primitives}

/-! ## Against honest roots -/

/-- **Exactness.**  Whatever bytes a consistency proof holds, it is accepted between
the roots of two lists exactly when the first is a prefix of the second and the
proof is the generated one. -/
theorem verifyConsistency_exact {A B : List Bytes} {p : List Bytes} (hA : 1 ≤ A.length)
    (hAB : A.length ≤ B.length)
    (hcf : CollisionFree P (rootStrings P A ++ rootStrings P B ++
      consistencyStrings P (root P A) A.length B.length p)) :
    verifyConsistency P (root P A) A.length (root P B) B.length p = true ↔
      A <+: B ∧ consistencyProof P B A.length = .ok p := by
  rcases Nat.eq_or_lt_of_le hAB with heq | hlt
  · rw [heq, verifyConsistency_self,
      consistencyProof_self P (List.ne_nil_of_length_pos (by omega))]
    constructor
    · rintro ⟨hroot, rfl⟩
      obtain rfl := root_inj P (hcf.mono (List.subset_append_left _ _)) heq hroot
      exact ⟨List.prefix_rfl, rfl⟩
    · rintro ⟨hpre, hp⟩
      obtain rfl := hpre.eq_of_length heq
      exact ⟨rfl, (Except.ok.inj hp).symm⟩
  rw [consistencyProof_of_lt P hA hlt]
  constructor
  · intro h
    rw [verifyConsistency_iff P hA hlt] at h
    obtain ⟨-, c, q, out, hp, hwalk⟩ := h
    have hmem := mem_consistencyStrings P hA hlt hp hwalk
    rw [root_eq_scheme P A, root_eq_scheme P B] at hwalk
    obtain ⟨hpre, hsub⟩ := walkFrom_exact (binding P hcf) hA hlt hwalk
      (fun v hv => List.mem_append_right _ (hmem v hv))
      (fun v hv => List.mem_append_left _ (List.mem_append_left _ (List.mem_map_of_mem hv)))
      (fun v hv => List.mem_append_left _ (List.mem_append_right _ (List.mem_map_of_mem hv)))
    refine ⟨List.prefix_iff_eq_take.mpr hpre, ?_⟩
    have hfull := fullPath_subproof P hA hlt
    rw [hsub, ← hp, ← hpre, root_eq_scheme P A] at hfull
    simp only [fullPath] at hfull
    split_ifs at hfull
    · exact congrArg _ (List.cons.inj hfull).2
    · exact congrArg _ hfull
  · rintro ⟨hpre, hp⟩
    obtain ⟨proof, hproof, hver⟩ := verifyConsistency_consistencyProof P hA hlt.le
    rw [consistencyProof_of_lt P hA hlt, hp] at hproof
    rwa [← List.prefix_iff_eq_take.mp hpre, ← Except.ok.inj hproof] at hver

theorem verifyInclusion_range {entry r : Bytes} {m n : ℤ} {proof : List Bytes}
    (h : verifyInclusion P entry m n proof r = true) : 0 ≤ m ∧ m < n := by
  rw [verifyInclusion] at h
  split_ifs at h with hr
  exact hr

/-- Leaves that are among the strings at hand do not collide. -/
theorem leafHash_injOn {strings : List Bytes} (hcf : CollisionFree P strings) {e e' : Bytes}
    (he : string (.leaf e) ∈ strings) (he' : string (.leaf e') ∈ strings)
    (h : leafHash P e = leafHash P e') : e = e' :=
  (binding P hcf).leaf_inj e e' he he' h

/-- **Exactness of inclusion.**  Whatever bytes a proof holds, it is accepted for a
position under the root of a list exactly when the entry stands there and the proof is
the generated one. -/
theorem verifyInclusion_exact (L : List Bytes) (m : ℤ) (e : Bytes) (p : List Bytes)
    (hcf : CollisionFree P (rootStrings P L ++ inclusionStrings P e m L.length p)) :
    verifyInclusion P e m L.length p (root P L) = true ↔
      (0 ≤ m ∧ m < L.length) ∧ L[m.toNat]? = some e ∧ inclusionProof P L m = .ok p := by
  constructor
  · intro h
    have hrange := verifyInclusion_range h
    obtain ⟨hm0, hm⟩ := hrange
    lift m to ℕ using hm0
    have hlt : m < L.length := by omega
    obtain ⟨e', he'⟩ : ∃ e', L[m]? = some e' := ⟨_, List.getElem?_eq_getElem hlt⟩
    have B := binding P hcf
    obtain ⟨out, hwalk⟩ := (verifyInclusion_iff P hlt).mp h
    obtain ⟨log, hhonest, hlog⟩ := walk_inclusion (scheme P) he'
    rw [root_eq_scheme] at hwalk
    obtain ⟨hleaf, hpath⟩ := walk_unique_path B (by omega) hwalk hhonest
      (fun v hv => List.mem_append_right _ (mem_inclusionStrings P hlt hwalk v hv))
      (fun v hv => List.mem_append_left _ (List.mem_map_of_mem (hlog v hv)))
      (length_leafHash P e) (length_leafHash P e') B.inclusion_digest
    have hentry : e = e' := by
      apply leafHash_injOn hcf _ _ hleaf
      · exact List.mem_append_right _ List.mem_cons_self
      · apply List.mem_append_left
        exact List.mem_map_of_mem ((scheme P).leaf_mem_rootHashes he')
    refine ⟨⟨by omega, hm⟩, by rw [Int.toNat_natCast, he', hentry], ?_⟩
    rw [inclusionProof_eq_scheme P hlt, hpath]
  · rintro ⟨⟨hm0, hm⟩, he, hp⟩
    lift m to ℕ using hm0
    obtain ⟨proof, hproof, hver⟩ := verifyInclusion_inclusionProof P he
    rw [Int.toNat_natCast] at hproof hver
    rw [hp] at hproof
    rwa [Except.ok.inj hproof]

/-- In a log of three entries the last one has a proof, which proves no other entry there. -/
theorem verifyInclusion_exact_ragged :
    let L : List Bytes := [[1], [2], [3]]
    let proof := [root .plain [[1], [2]]]
    verifyInclusion .plain [3] 2 L.length proof (root .plain L) = true ∧
      verifyInclusion .plain [4] 2 L.length proof (root .plain L) = false := by
  intro L proof
  have hcf : CollisionFree .plain (rootStrings .plain L ++ [string (.leaf [4]),
      string (.node (root .plain [[1], [2]]) (leafHash .plain [4]))]) := by
    rw [rootStrings_triple, rootStrings_pair, root_pair]
    exact .of_nodup (by decide +kernel)
  have hstrings : ∀ e, inclusionStrings .plain e 2 L.length proof =
      [string (.leaf e), string (.node (root .plain [[1], [2]]) (leafHash .plain e))] :=
    fun e => inclusionStrings_triple .plain e _
  constructor
  · refine (verifyInclusion_exact L 2 [3] proof (hcf.mono ?_)).mpr
      ⟨by decide, rfl, inclusionProof_triple .plain [1] [2] [3]⟩
    rw [hstrings, rootStrings_triple]
    simp
  · apply Bool.eq_false_iff.mpr
    intro h
    have hentry := ((verifyInclusion_exact L 2 [4] proof (hstrings [4] ▸ hcf)).mp h).2.1
    cases hentry

/-! ## Against roots chosen by the log -/

theorem verifyConsistency_range {old new : Bytes} {m n : ℤ} {proof : List Bytes}
    (h : verifyConsistency P old m new n proof = true) : m = n ∨ 0 < m ∧ m < n := by
  by_contra hno
  rw [not_or] at hno
  rw [verifyConsistency, if_neg hno.1, if_pos (.inl hno.2)] at h
  cases h

/-- **One position, one entry.**  Two heads linked by an accepted consistency proof
open a position of the older one to the same entry, whatever roots the log signed
and whatever proofs of digest length it hands out. -/
theorem linked_heads_open_alike {r₁ r₂ e e' : Bytes} {m n i : ℤ} {q q' p : List Bytes}
    (hq : ∀ d ∈ q, d.length = 32) (hq' : ∀ d ∈ q', d.length = 32) (hp : ∀ d ∈ p, d.length = 32)
    (h₁ : verifyInclusion P e i m q r₁ = true) (h₂ : verifyInclusion P e' i n q' r₂ = true)
    (hc : verifyConsistency P r₁ m r₂ n p = true)
    (hcf : CollisionFree P (inclusionStrings P e i m q ++ inclusionStrings P e' i n q' ++
      consistencyStrings P r₁ m n p)) : e = e' := by
  obtain ⟨hi0, him⟩ := verifyInclusion_range h₁
  have hmn := verifyConsistency_range hc
  lift i to ℕ using hi0
  lift m to ℕ using by omega
  lift n to ℕ using by omega
  have B := binding P hcf
  obtain ⟨out₁, hwalk₁⟩ := (verifyInclusion_iff P (by omega)).mp h₁
  obtain ⟨out₂, hwalk₂⟩ := (verifyInclusion_iff P (by omega)).mp h₂
  have hmem₁ := mem_inclusionStrings P (by omega) hwalk₁
  have hmem₂ := mem_inclusionStrings P (by omega) hwalk₂
  have hmem₁' := fun v hv => List.mem_append_left (consistencyStrings P r₁ m n p)
    (List.mem_append_left (inclusionStrings P e' i n q') (hmem₁ v hv))
  have hmem₂' := fun v hv => List.mem_append_left (consistencyStrings P r₁ m n p)
    (List.mem_append_right (inclusionStrings P e i m q) (hmem₂ v hv))
  suffices hleaf : leafHash P e = leafHash P e' by
    refine leafHash_injOn hcf ?_ ?_ hleaf
    · exact List.mem_append_left _ (List.mem_append_left _ List.mem_cons_self)
    · exact List.mem_append_left _ (List.mem_append_right _ List.mem_cons_self)
  rcases hmn with heq | ⟨hm0, hlt⟩
  · obtain rfl : m = n := by omega
    obtain ⟨rfl, -⟩ := (verifyConsistency_self P).mp hc
    exact walk_unique B (by omega) hwalk₁ hwalk₂ hmem₁' hmem₂' (length_leafHash P e)
      (length_leafHash P e') hq'
  · obtain ⟨-, c, p', out, hpath, hwalk⟩ :=
      (verifyConsistency_iff P (by omega) (by omega)).mp hc
    have hmem := mem_consistencyStrings P (by omega) (by omega) hpath hwalk
    have hr₁ : r₁.length = 32 := B.walk_digest (length_leafHash P e) hwalk₁
    have hall : ∀ d ∈ c :: p', d.length = 32 := by
      intro d hd
      rw [← hpath, fullPath] at hd
      split_ifs at hd
      · rcases List.mem_cons.mp hd with rfl | hd
        · exact hr₁
        · exact hp d hd
      · exact hp d hd
    exact walk_agree B (by omega) (by omega) hwalk₁ hwalk₂ hwalk hmem₁' hmem₂'
      (fun v hv => List.mem_append_right _ (hmem v hv)) (length_leafHash P e)
      (length_leafHash P e') (hall c List.mem_cons_self) hq hq'
      (fun d hd => hall d (List.mem_cons_of_mem _ hd))

/-- The heads of a log of one entry and of the log extended by a second one, with
the proofs an honest log gives. -/
theorem linked_heads_open_alike_one_two :
    let P := Primitives.plain
    let l := leafHash P [1]
    let s := leafHash P [2]
    verifyInclusion P [1] 0 1 [] l = true ∧ verifyInclusion P [1] 0 2 [s] (nodeHash P l s) = true ∧
      verifyConsistency P l 1 (nodeHash P l s) 2 [s] = true ∧ ([1] : Bytes) = [1] := by
  intro P l s
  have hskip : stripOnes 0 1 = (0, 1) := by rw [stripOnes]; rfl
  have h₁ : verifyInclusion P [1] 0 1 [] l = true := by simp [verifyInclusion, climb, l]
  have h₂ : verifyInclusion P [1] 0 2 [s] (nodeHash P l s) = true := by
    simp [verifyInclusion, climb, l]
  have h₃ : verifyConsistency P l 1 (nodeHash P l s) 2 [s] = true := by
    simp [verifyConsistency, hskip, climb, consistencyRight]
  refine ⟨h₁, h₂, h₃, linked_heads_open_alike (q := []) (by simp) (by simp [s]) (by simp [s]) h₁ h₂
    h₃ ?_⟩
  have hne : P.sha256 (string (.leaf [1])) ≠ P.sha256 (string (.node l s)) := by decide +kernel
  intro x hx y hy hxy
  have hmem : ∀ z ∈ inclusionStrings P [1] 0 1 [] ++ inclusionStrings P [1] 0 2 [s] ++
      consistencyStrings P l 1 2 [s], z = string (.leaf [1]) ∨ z = string (.node l s) := by
    simp [inclusionStrings, consistencyStrings, hskip, climb, Scheme.inclusionR,
      Scheme.consistencyR, scheme, l]
  rcases hmem x hx with rfl | rfl <;> rcases hmem y hy with rfl | rfl
  · rfl
  · exact absurd hxy hne
  · exact absurd hxy.symm hne
  · rfl

end Hatls.Log
