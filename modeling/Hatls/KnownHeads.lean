import Hatls.History

/-!
# The heads a log has had

A mandate keeps every root its log has had, with the size the log had then, and answers
from that table whether a head is one of its own.  The table is exactly the history of
the log: every call that adds an entry adds its root, and no two beginnings of one log
share a root, whatever their lengths.

## Main definitions

* `Mandate.Had` — the log has had a head.
* `HoldsHeads` — the table of roots is the history of the log.
* `knowsHead_exact` — the answers of `knows_head`.
-/

namespace Hatls

open Mandate

variable {P : Primitives} {cfg : Config}

/-- The log has had a head: it is the root of its first entries. -/
structure Mandate.Had (P : Primitives) (m : Mandate) (size : ℕ) (root : Bytes) : Prop where
  size_le : size ≤ m.merkle.size
  root_eq : root = Log.root P (m.merkle.entries.take size)

/-- **The table of roots is the history of the log**: what it holds under a root is a size
the log had then, and it holds every root. -/
structure HoldsHeads (P : Primitives) (m : Mandate) : Prop where
  sound : ∀ root size, m.roots root = some size → m.Had P size root
  complete : ∀ root size, m.Had P size root → m.knowsHead root = true

theorem holdsHeads_new (ledger : Bytes → Option Record) : HoldsHeads P (new P ledger) where
  sound root size h := by
    by_cases hroot : root = MerkleLog.head P ⟨[]⟩
    · have hsize : 0 = size := by simpa [new, hroot] using h
      exact ⟨by omega, by simpa [new, MerkleLog.head] using hroot⟩
    · simp [new, Function.update_of_ne hroot] at h
  complete root size h := by
    have hroot : root = MerkleLog.head P ⟨[]⟩ := by
      simpa [new, MerkleLog.head] using h.root_eq
    simp [knowsHead, new, hroot]

/-- What a log has had, a longer one has. -/
theorem Mandate.Had.mono {m m' : Mandate} {size : ℕ} {root : Bytes} (h : m.Had P size root)
    (hlog : m.merkle.entries <+: m'.merkle.entries) : m'.Had P size root where
  size_le := h.size_le.trans hlog.length_le
  root_eq := by
    obtain ⟨rest, hrest⟩ := hlog
    rw [h.root_eq, ← hrest, List.take_append_of_le_length h.size_le]

/-- What it has had besides, is its own head. -/
theorem Mandate.Had.of_append {m m' : Mandate} {e : Bytes} (hlog : m'.merkle = m.merkle.append e)
    {size : ℕ} {root : Bytes} (h : m'.Had P size root) :
    m.Had P size root ∨ size = m'.merkle.size ∧ root = m'.merkle.head P := by
  have hsize : m'.merkle.size = m.merkle.size + 1 := by rw [hlog, MerkleLog.size_append]
  rcases Nat.lt_or_ge m.merkle.size size with hlt | hle
  · have heq : size = m'.merkle.size := by
      have := h.size_le
      omega
    refine .inr ⟨heq, ?_⟩
    rw [h.root_eq, heq, MerkleLog.size, List.take_length]
    rfl
  · refine .inl ⟨hle, ?_⟩
    rw [h.root_eq, hlog, MerkleLog.entries_append, List.take_append_of_le_length hle]

/-- **A call keeps the table.** -/
theorem holdsHeads_step {m : Mandate} (i : Moment × Call) (h : HoldsHeads P m) :
    HoldsHeads P (m.step P cfg i).2 := by
  obtain ⟨t, c⟩ := i
  have hgrow : m.merkle.entries <+: (m.step P cfg (t, c)).2.merkle.entries := entries_step m (t, c)
  have hknown : ∀ root, m.knowsHead root = true → (m.step P cfg (t, c)).2.knowsHead root = true :=
    fun root => knowsHead_step (t, c)
  have hlogged := m.step_log P cfg t c
  generalize (m.step P cfg (t, c)).2 = m' at hgrow hknown hlogged ⊢
  cases hlogged with
  | nothing hm hr _ =>
      constructor
      · intro root size hroot
        rw [hr] at hroot
        exact (h.sound root size hroot).mono hgrow
      · intro root size hhad
        rw [knowsHead, hr]
        exact h.complete root size ⟨by rw [← hm]; exact hhad.size_le, by rw [← hm]; exact hhad.root_eq⟩
  | entry e env hm hr _ =>
      constructor
      · intro root size hroot
        rw [hr] at hroot
        by_cases heq : root = m'.merkle.head P
        · rw [heq, Function.update_self] at hroot
          cases hroot
          refine ⟨le_rfl, ?_⟩
          rw [heq, MerkleLog.size, List.take_length]
          rfl
        · rw [Function.update_of_ne heq] at hroot
          exact (h.sound root size hroot).mono hgrow
      · intro root size hhad
        rcases hhad.of_append hm with hold | ⟨-, heq⟩
        · exact hknown root (h.complete root size hold)
        · rw [knowsHead, hr, heq, Function.update_self]
          rfl

theorem holdsHeads_after (ledger : Bytes → Option Record) (run : List (Moment × Call)) :
    HoldsHeads P (after P cfg ledger run) :=
  Run.exec_invariant' (step P cfg) (HoldsHeads P) (fun _ i => holdsHeads_step i) run
    (holdsHeads_new ledger)

/-- Where no two heads of the log collide, it is the whole history. -/
theorem HoldsHeads.had_iff {m : Mandate} (h : HoldsHeads P m)
    (hcf : CollisionFree P (Log.historyStrings P m.merkle.entries)) {size : ℕ} {root : Bytes} :
    m.Had P size root ↔ m.roots root = some size := by
  refine ⟨fun hhad => ?_, h.sound root size⟩
  obtain ⟨size', hsize'⟩ := Option.isSome_iff_exists.mp (h.complete root size hhad)
  have hhad' := h.sound root size' hsize'
  have htake := Log.eq_of_root_eq P hcf (List.take_prefix size m.merkle.entries)
    (List.take_prefix size' m.merkle.entries) (hhad.root_eq.symm.trans hhad'.root_eq)
  have hlen := congrArg List.length htake
  rw [List.length_take_of_le hhad.size_le, List.length_take_of_le hhad'.size_le] at hlen
  rw [hsize', hlen]

/-- **`knows_head` is exact.**  Roots are injective on lists of all lengths, so the
answer is yes for the roots of the beginnings of the log and for nothing else, and the
size held for a root is that of the one beginning that has it. -/
theorem knowsHead_exact (ledger : Bytes → Option Record) (run : List (Moment × Call))
    (hcf : CollisionFree P (Log.historyStrings P (after P cfg ledger run).merkle.entries)) :
    (∀ A B, CollisionFree P ([] :: (Log.rootStrings P A ++ Log.rootStrings P B)) →
      Log.root P A = Log.root P B → A = B) ∧
    ∀ head, ((after P cfg ledger run).knowsHead head = true ↔
        ∃ size, (after P cfg ledger run).Had P size head) ∧
      ∀ size, (after P cfg ledger run).Had P size head →
        (after P cfg ledger run).roots head = some size ∧
          ∀ size', (after P cfg ledger run).Had P size' head → size' = size := by
  have htable : HoldsHeads P (after P cfg ledger run) := holdsHeads_after ledger run
  refine ⟨fun A B hAB heq => Log.root_injective P hAB heq, fun head => ⟨⟨fun h => ?_, ?_⟩, ?_⟩⟩
  · obtain ⟨size, hsize⟩ := Option.isSome_iff_exists.mp h
    exact ⟨size, htable.sound head size hsize⟩
  · intro h
    obtain ⟨size, hhad⟩ := h
    exact htable.complete head size hhad
  · intro size hhad
    have hsize := (htable.had_iff hcf).mp hhad
    refine ⟨hsize, fun size' hhad' => ?_⟩
    have hsize' := (htable.had_iff hcf).mp hhad'
    rw [hsize] at hsize'
    exact (Option.some.inj hsize').symm

section Revocations

open Tee

/-- Two identities are revoked. -/
def revocations : List (Moment × Call) :=
  [(instant 0, .revoke [5] "lost"), (instant 1, .revoke [6] "stolen")]

/-- The entries of the two decisions. -/
def lostEntry : Bytes := Receipt.makeEntry .plain "revoke" [5] true "lost" none 0 0

def stolenEntry : Bytes := Receipt.makeEntry .plain "revoke" [6] true "stolen" none 1 1

theorem entries_revocations :
    (after .plain twoChips (fun _ => none) revocations).merkle.entries = [lostEntry, stolenEntry] := by
  rw [revocations, after, Run.exec_cons, Run.exec_cons, Run.exec_nil, step_revoke, step_revoke]
  simp only [merkle_recordDecision, merkle_put, MerkleLog.entries_append, entries_new, time_instant,
    MerkleLog.size]
  rfl

/-- What is hashed for the heads it has had, and for the root of the second entry alone. -/
def hashedForRevocations : List Bytes :=
  [[], Log.string (.leaf lostEntry), Log.string (.leaf stolenEntry),
    Log.string (.node (Log.leafHash .plain lostEntry) (Log.leafHash .plain stolenEntry))]

theorem collisionFree_revocations : CollisionFree .plain hashedForRevocations :=
  .of_nodup (by decide +kernel)

theorem historyStrings_revocations :
    Log.historyStrings .plain (after .plain twoChips (fun _ => none) revocations).merkle.entries ⊆
      hashedForRevocations := by
  rw [entries_revocations]
  simp [Log.historyStrings, Log.rootStrings_nil, Log.rootStrings_singleton, Log.rootStrings_pair,
    hashedForRevocations]

/-- After two decisions a mandate knows the head it had after the first, at size one only, and
not the head of a log that begins with the second. -/
theorem knowsHead_exact_revocations :
    let m := after .plain twoChips (fun _ => none) revocations
    m.roots (Log.root .plain [lostEntry]) = some 1 ∧
      (∀ size, m.Had .plain size (Log.root .plain [lostEntry]) → size = 1) ∧
      m.knowsHead (Log.root .plain [stolenEntry]) = false := by
  obtain ⟨hinjective, hexact⟩ := @knowsHead_exact .plain twoChips (fun _ => none) revocations
    (collisionFree_revocations.mono historyStrings_revocations)
  have hentries := entries_revocations
  have hhistory := historyStrings_revocations
  generalize after .plain twoChips (fun _ => none) revocations = m at hexact hentries hhistory ⊢
  have hhad : m.Had .plain 1 (Log.root .plain [lostEntry]) := by
    constructor
    · rw [MerkleLog.size, hentries]
      decide
    · rw [hentries]
      rfl
  obtain ⟨hsize, hunique⟩ := (hexact _).2 1 hhad
  refine ⟨hsize, hunique, Bool.eq_false_iff.mpr fun h => ?_⟩
  obtain ⟨size, hhad'⟩ := (hexact _).1.mp h
  have hbeginning : Log.rootStrings .plain (m.merkle.entries.take size) ⊆ hashedForRevocations := by
    intro v hv
    exact hhistory (List.mem_cons_of_mem _ (List.mem_flatMap.mpr
      ⟨_, (List.mem_inits _ _).mpr (List.take_prefix size _), hv⟩))
  have hstrings : [] :: (Log.rootStrings .plain [stolenEntry] ++
      Log.rootStrings .plain (m.merkle.entries.take size)) ⊆ hashedForRevocations := by
    rw [Log.rootStrings_singleton, List.singleton_append, List.cons_subset, List.cons_subset]
    exact ⟨by simp [hashedForRevocations], by simp [hashedForRevocations], hbeginning⟩
  have htake := hinjective _ _ (collisionFree_revocations.mono hstrings) hhad'.root_eq
  -- a beginning of the log is empty, or begins with the first entry
  cases size with
  | zero => cases htake
  | succ size =>
      rw [hentries, List.take_succ_cons] at htake
      have hseq := Receipt.makeEntry_seq_inj .plain (List.cons.inj htake).1
      cases hseq

end Revocations

end Hatls
