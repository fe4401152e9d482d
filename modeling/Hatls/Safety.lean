import Hatls.Tee

/-!
# One instance for an identity

What a relying party is promised about the instances behind the presentations a
mandate accepts, over runs of any length in which anybody calls anything.

The record of an identity keeps two instances, the enrolled one and the one last
observed, and both are consulted on every step.  Between two transfers the observed
instance never changes once it is set, because a presentation is accepted only from
it; so one instance stands behind all of them, whenever the enrolment came.

## Main definitions

* `Usable` — no record spells an instance as an empty text.
* `SingleInstance`, `single_instance` — the guarantee.
-/

namespace Hatls

open Mandate

variable {P : Primitives} {cfg : Config}

/-- An instance on record is a nonempty byte string, so the source's tests for truth
are tests for presence. -/
def Usable (record : Bytes → Record) : Prop :=
  ∀ k, (record k).enrolledInstance ≠ some [] ∧ (record k).observedInstance ≠ some []

theorem Admits.inst_ne_nil {m : Mandate} {k ctx exporter : Bytes} {msg : Json}
    {head : Option Bytes} {bundle : Option Json} {i : Bytes} {place : Option Bytes} {pl : Bytes}
    {n : ℕ} (h : Admits P cfg m k ctx exporter msg head bundle (some i) place pl n) : i ≠ [] := by
  obtain ⟨anchor, -, hinst, -⟩ := h.verified
  cases anchor with
  | none => simp at hinst
  | some a =>
      obtain rfl := Option.some.inj hinst
      exact a.inst_ne_nil

theorem usable_step {m : Mandate} (i : Moment × Call) (h : Usable m.record) :
    Usable (m.step P cfg i).2.record := by
  obtain ⟨t, c⟩ := i
  intro k
  obtain ⟨hen, hob⟩ := h k
  have hch := m.step_change P cfg t c k
  generalize (m.step P cfg (t, c)).1 = reply, (m.step P cfg (t, c)).2.record k = r' at hch ⊢
  cases hch with
  | @enrolled _ _ _ _ _ _ anchor _ =>
      exact ⟨fun heq => anchor.inst_ne_nil (Option.some.inj heq), hob⟩
  | revoked => exact ⟨hen, hob⟩
  | transferred hg _ => exact ⟨fun heq => hg.toInstance_ne_nil (Option.some.inj heq), by simp [moved]⟩
  | presented hadm => exact ⟨hen, fun heq => hadm.inst_ne_nil (Option.some.inj heq)⟩
  | noted _ hn => rw [hn.enrolledInstance, hn.observedInstance]; exact ⟨hen, hob⟩
  | same => exact ⟨hen, hob⟩

theorem usable_of_reachable {m : Mandate} (h : Reachable P cfg m) : Usable m.record :=
  h.induction (fun _ => ⟨by simp [Record.blank], by simp [Record.blank]⟩)
    fun _ _ i hm => usable_step i hm

/-! ## What steps keep -/

/-- A transfer of `k` is the only call that forgets the observed instance. -/
theorem observed_step {m : Mandate} {c : Moment × Call} {k i : Bytes}
    (hno : ¬ Accepted P cfg (Call.Transfers k) m c) (hi : i ≠ [])
    (h : (m.record k).observedInstance = some i) :
    ((m.step P cfg c).2.record k).observedInstance = some i := by
  obtain ⟨t, c⟩ := c
  have hch := m.step_change P cfg t c k
  simp only [Accepted] at hno
  generalize (m.step P cfg (t, c)).1 = reply, (m.step P cfg (t, c)).2.record k = r' at hch hno ⊢
  cases hch with
  | enrolled => exact h
  | revoked => exact h
  | transferred => exact absurd ⟨rfl, rfl⟩ hno
  | @presented _ _ _ _ _ j _ _ _ hadm =>
      have hj : j = i := hadm.sole i j (by rw [h, nonEmpty_some hi]) rfl
      rw [hj]
  | noted _ hn => rw [hn.observedInstance, h]
  | same => exact h

theorem revoked_step {m : Mandate} (c : Moment × Call) {k : Bytes}
    (h : (m.record k).revoked = true) : ((m.step P cfg c).2.record k).revoked = true := by
  obtain ⟨t, c⟩ := c
  have hch := m.step_change P cfg t c k
  generalize (m.step P cfg (t, c)).1 = reply, (m.step P cfg (t, c)).2.record k = r' at hch ⊢
  cases hch with
  | enrolled => exact h
  | revoked => rfl
  | transferred => exact h
  | presented => exact h
  | noted _ hn => rw [hn.revoked, h]
  | same => exact h

/-! ## The guarantee -/

/-- What is promised about one identity, over all runs of one mandate. -/
structure SingleInstance (P : Primitives) (cfg : Config) (ledger : Bytes → Option Record)
    (k : Bytes) : Prop where
  /-- An accepted presentation shows evidence of the instance it carries, the enrolled one if any. -/
  verified : ∀ run c, Accepted P cfg (Call.Presents k) (after P cfg ledger run) c →
    ∃ evidence anchor, c.2.Shows P cfg k evidence anchor ∧
      ((after P cfg ledger run).step P cfg c).1.inst = some anchor.inst ∧
      ∀ e, ((after P cfg ledger run).record k).enrolledInstance = some e → anchor.inst = e
  /-- Between two transfers all accepted presentations come from one instance. -/
  one : ∀ run c mid c', Accepted P cfg (Call.Presents k) (after P cfg ledger run) c →
    Run.Along (step P cfg) (fun m c => ¬ Accepted P cfg (Call.Transfers k) m c)
      ((after P cfg ledger run).step P cfg c).2 mid →
    Accepted P cfg (Call.Presents k) (after P cfg ledger (run ++ c :: mid)) c' →
    ((after P cfg ledger (run ++ c :: mid)).step P cfg c').1.inst =
      ((after P cfg ledger run).step P cfg c).1.inst
  /-- Nothing is accepted after a revocation. -/
  revoked : ∀ run c mid c', Call.Revokes k c.2 →
    ¬ Accepted P cfg (Call.Presents k) (after P cfg ledger (run ++ c :: mid)) c'
  /-- Nothing is accepted for an unknown identity, where enrolment is required. -/
  enrolled : cfg.requireEnrolment = true → ∀ run c,
    Accepted P cfg (Call.Presents k) (after P cfg ledger run) c →
    ((after P cfg ledger run).record k).enrolledInstance.isSome

/-- An accepted presentation, with its anchor, under a mandate that requires one. -/
theorem admits_of_presents (hreq : cfg.requireAnchor = true) {m : Mandate} {c : Moment × Call}
    {k : Bytes} (hacc : Accepted P cfg (Call.Presents k) m c) :
    ∃ (anchor : Anchor) (ctx exporter : Bytes) (msg : Json) (head : Option Bytes)
      (bundle : Option Json) (place : Option Bytes) (pl : Bytes) (n : ℕ),
      Admits P cfg m k ctx exporter msg head bundle (some anchor.inst) place pl n ∧
      (∃ evidence, c.2.Shows P cfg k evidence anchor) ∧
      (m.step P cfg c).1.inst = some anchor.inst ∧
      ((m.step P cfg c).2.record k).observedInstance = some anchor.inst := by
  obtain ⟨t, c⟩ := c
  obtain ⟨hc, hacc⟩ := hacc
  cases c with
  | present k' ctx exporter msg head bundle =>
      obtain rfl : k' = k := hc
      obtain ⟨inst, place, pl, n, hadm, hstep⟩ := m.admits_of_accepted t hacc
      obtain ⟨i, rfl⟩ := Option.isSome_iff_exists.mp (hadm.anchored hreq)
      obtain ⟨evidence, anchor, hshows, rfl, -⟩ := hadm.toVerified.shows ctx exporter
      refine ⟨anchor, ctx, exporter, msg, head, bundle, place, pl, n, hadm, ⟨evidence, hshows⟩,
        by rw [hstep]; rfl, ?_⟩
      rw [hstep, record_recordDecision, record_admitted_self]
  | _ => exact absurd hc (by simp [Call.Presents])

/-- **Single-instance safety.**  A mandate that requires an anchor accepts, for an
identity, only the enrolled instance, only one instance between two transfers, and
none after a revocation. -/
theorem single_instance (hreq : cfg.requireAnchor = true) {ledger : Bytes → Option Record}
    (hledger : Written P ledger) (k : Bytes) : SingleInstance P cfg ledger k where
  verified run c hacc := by
    obtain ⟨anchor, _, _, _, _, _, _, _, _, hadm, ⟨evidence, hshows⟩, hinst, -⟩ :=
      admits_of_presents hreq hacc
    refine ⟨evidence, anchor, hshows, hinst, fun e he => hadm.home e _ ?_ rfl⟩
    have husable : Usable (after P cfg ledger run).record :=
      usable_of_reachable ⟨ledger, run, hledger, rfl⟩
    have hne := (husable k).1
    rw [he, nonEmpty_some fun h => hne (by rw [he, h])]
  one run c mid c' hacc hmid hacc' := by
    obtain ⟨a, _, _, _, _, _, _, _, _, -, -, hinst, hobs⟩ := admits_of_presents hreq hacc
    obtain ⟨b, _, _, _, _, _, _, _, _, hadm', -, hinst', -⟩ := admits_of_presents hreq hacc'
    have hlast : ((after P cfg ledger (run ++ c :: mid)).record k).observedInstance =
        some a.inst := by
      rw [after_append]
      exact Run.exec_invariant _ (fun m : Mandate => (m.record k).observedInstance = some a.inst)
        (fun m c hno hm => observed_step hno a.inst_ne_nil hm) hmid hobs
    rw [hinst, hinst', hadm'.sole a.inst b.inst (by rw [hlast, nonEmpty_some a.inst_ne_nil]) rfl]
  revoked run c mid c' hc hacc' := by
    obtain ⟨b, _, _, _, _, _, _, _, _, hadm, -⟩ := admits_of_presents hreq hacc'
    have hrev : ((after P cfg ledger (run ++ c :: mid)).record k).revoked = true := by
      rw [after_append]
      refine Run.exec_invariant' _ (fun m : Mandate => (m.record k).revoked = true)
        (fun m c hm => revoked_step c hm) mid ?_
      obtain ⟨t, c⟩ := c
      cases c with
      | revoke k' reason =>
          obtain rfl : k' = k := hc
          simp [step, revoke, revokeWith, save_of_putOk t.env_putOk]
      | _ => exact absurd hc (by simp [Call.Revokes])
    rw [hadm.notRevoked] at hrev
    cases hrev
  enrolled hen run c hacc := by
    obtain ⟨a, _, _, _, _, _, _, _, _, hadm, -⟩ := admits_of_presents hreq hacc
    obtain ⟨e, he⟩ := Option.isSome_iff_exists.mp (hadm.enrolled hen)
    rw [(nonEmpty_eq_some.mp he).1]
    rfl

open Tee in
/-- A mandate over an empty store accepts a session from a chip it trusts, and makes the
promise. -/
theorem single_instance_twoChips :
    Accepted .plain twoChips (Call.Presents tik) (after .plain twoChips (fun _ => none) [])
      (opening teeA [1] [2] 0) ∧
    SingleInstance .plain twoChips (fun _ => none) tik := by
  refine ⟨⟨rfl, ?_⟩, single_instance rfl .empty tik⟩
  have hstep := step_hello .plain twoChips teeA (after .plain twoChips (fun _ => none) []) tik rfl
    teeA_trusted (show [1].length < 256 by decide) (welcome_blank rfl _) (fun h => nomatch h) rfl
    (instant 0) [] [2]
  rw [opening, hstep]
  rfl

end Hatls
