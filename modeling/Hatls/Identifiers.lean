import Hatls.AnchorRules
import Hatls.Malleability
import Hatls.Witnesses

/-!
# Absent identifiers

An identifier of zeros is a byte string like any other, and it is the same on every machine.
Identifiers reach a record by an enrolment, an accepted presentation, the two refusals that
note a witness, and a transfer onto a witness.  None of them brings one that is empty or
zero, where the anchors come from the rules of the repository, and evidence whose instance
field is zero neither enrols nor is accepted.

## Main definitions

* `Identified` — a record with no absent identifier in it.
* `Ruled` — a mandate that takes its anchors from the rules.
* `Call.Offers` — a call with evidence.
* `FailsClosed`, `absent_never_identity` — the guarantee.
-/

namespace Hatls

open Mandate Tee Binder

variable {P : Primitives} {cfg : Config}

/-- **Every identifier in a record is one.** -/
structure Identified (r : Record) : Prop where
  enrolledInstance : ∀ i, r.enrolledInstance = some i → Identifies i
  enrolledPlace : ∀ p, r.enrolledPlace = some p → Identifies p
  observedInstance : ∀ i, r.observedInstance = some i → Identifies i
  observedPlace : ∀ p, r.observedPlace = some p → Identifies p
  witnessed : ∀ w ∈ r.witnessed, Identifies w.inst ∧ ∀ p, w.place = some p → Identifies p
  transfers : ∀ x ∈ r.transfers, Identifies x.to_

/-- The anchors of a mandate come from the rules: it is built with a verifier whose claims
are those of a rule. -/
def Ruled (cfg : Config) : Prop :=
  ∃ rule verify, Claimed rule verify ∧ cfg.verifyReport = anchored verify

theorem identified_blank : Identified .blank where
  enrolledInstance _ h := by cases h
  enrolledPlace _ h := by cases h
  observedInstance _ h := by cases h
  observedPlace _ h := by cases h
  witnessed _ h := by cases h
  transfers _ h := by cases h

/-- What is stored of a place is the place. -/
theorem identifies_nonEmpty {place : Option Bytes} (h : ∀ p, place = some p → Identifies p) :
    ∀ p, nonEmpty place = some p → Identifies p := by
  intro p hp
  exact h p (nonEmpty_eq_some.mp hp).1

theorem Ruled.place (h : Ruled cfg) {ev : Json} {rd : Bytes} {ok : Bool} {anchor : Anchor}
    (hver : cfg.verifyReport ev rd = .ok (ok, some anchor)) :
    ∀ p, anchor.place = some p → Identifies p := by
  obtain ⟨rule, verify, hrule, heq⟩ := h
  rw [heq] at hver
  exact (Rule.claims_sound (hrule.takesAnchor ev rd ok anchor hver)).2.place

/-- The mock chips. -/
theorem ruled_mockMandate (P : Primitives) (trustedPubs : List String) (signingKey : Bytes) :
    Ruled (mockMandate P trustedPubs signingKey) :=
  ⟨_, (mockVerifier_takesAnchor P trustedPubs).exists_claimed⟩

/-- Chips that make SEV-SNP reports. -/
theorem ruled_snpMandate (P : Primitives) : Ruled (snpMandate P) :=
  ⟨_, _, sevsnpVerifier_claimed b64decode (certified P offline false none) false none, rfl⟩

/-- What valid evidence names is an instance, and a place if any. -/
theorem Ruled.verified (h : Ruled cfg) {m : Mandate} {k i pl : Bytes} {msg : Json}
    {head : Option Bytes} {bundle : Option Json} {place : Option Bytes}
    (hver : Verified P cfg m k msg head bundle (some i) place pl) :
    Identifies i ∧ ∀ p, place = some p → Identifies p := by
  obtain ⟨evidence, anchor, -, hverified, rfl, rfl⟩ := hver.exists_anchor
  exact ⟨anchor.usable, h.place hverified⟩

/-! ## The record -/

section Record

variable {r : Record}

/-- A note of an instance. -/
theorem Identified.witness (h : Identified r) (env : Env) {i : Bytes} {place : Option Bytes}
    (hi : Identifies i) (hplace : ∀ p, place = some p → Identifies p) :
    ∀ w ∈ (r.witness cfg env i place).witnessed,
      Identifies w.inst ∧ ∀ p, w.place = some p → Identifies p := by
  intro w hw
  rcases mem_witness hw with hold | rfl
  · exact h.witnessed w hold
  · exact ⟨hi, identifies_nonEmpty hplace⟩

/-- A move onto a witness. -/
theorem Identified.moved (h : Identified r) {env : Env} {k sig toInstance : Bytes} {grant : Json}
    {fields : List (String × Json)} {w : Witness}
    (hg : Grants P cfg env r k grant sig fields toInstance w) (nonce : Json) :
    Identified (moved env r fields toInstance w nonce) where
  enrolledInstance i hi := by
    rw [← Option.some.inj hi]
    exact hg.usable
  enrolledPlace p hp := by
    obtain ⟨toHex, -, -, hfind⟩ := hg.destination
    exact (h.witnessed w (List.mem_of_find?_eq_some hfind)).2 p hp
  observedInstance i hi := by cases hi
  observedPlace p hp := by cases hp
  witnessed := h.witnessed
  transfers x hx := by
    rcases List.mem_append.mp (List.mem_of_mem_drop hx) with hold | hnew
    · exact h.transfers x hold
    · rw [List.mem_singleton.mp hnew]
      exact hg.usable

/-- A note leaves what it does not write. -/
theorem Identified.noted (hrule : Ruled cfg) {m : Mandate} {t : Moment} {k : Bytes} {c : Call}
    {r' : Record} (h : Identified (m.record k)) (hn : Noted cfg t.env (m.record k) r')
    (hobj : Objected P cfg m t k c r') : Identified r' := by
  obtain ⟨hei, hep, hoi, hop, -, -, -, htr, -⟩ := hn.fields_eq
  refine ⟨hei ▸ h.enrolledInstance, hep ▸ h.enrolledPlace, hoi ▸ h.observedInstance,
    hop ▸ h.observedPlace, ?_, htr ▸ h.transfers⟩
  cases hobj with
  | present hobj =>
      rcases hobj.witnessed with hsame | ⟨i, place, helse, hwit⟩
      · rw [hsame]
        exact h.witnessed
      · obtain ⟨pl, hver⟩ := helse.verified
        obtain ⟨hi, hplace⟩ := hrule.verified hver
        rw [hwit]
        exact h.witness t.env hi hplace

end Record

/-- **Every change leaves the identifiers of a record.** -/
theorem Change.identified (hrule : Ruled cfg) {m : Mandate} {t : Moment} {k : Bytes} {c : Call}
    {reply : Reply} {r' : Record} (hch : Change P cfg m t k c reply r')
    (h : Identified (m.record k)) : Identified r' := by
  cases hch with
  | @enrolled _ _ _ _ _ _ anchor henr =>
      exact {
        enrolledInstance := fun i hi => Option.some.inj hi ▸ anchor.usable
        enrolledPlace := identifies_nonEmpty (hrule.place henr.verified)
        observedInstance := h.observedInstance
        observedPlace := h.observedPlace
        witnessed := h.witnessed
        transfers := h.transfers }
  | revoked => exact { h with }
  | transferred hg => exact h.moved hg _
  | presented hadm =>
      obtain ⟨hi, hplace⟩ := hrule.verified hadm.toVerified
      exact {
        enrolledInstance := h.enrolledInstance
        enrolledPlace := h.enrolledPlace
        observedInstance := fun i heq => Option.some.inj heq ▸ hi
        observedPlace := identifies_nonEmpty hplace
        witnessed := h.witnessed
        transfers := h.transfers }
  | noted _ hn hobj => exact h.noted hrule hn hobj
  | same => exact h

/-! ## Evidence with no instance -/

/-- A call that offers evidence. -/
def Call.Offers (ev : Json) : Call → Prop
  | .enroll _ evidence .. => evidence = ev
  | .present _ _ _ msg .. => msg.item "evidence" = .ok ev
  | _ => False

/-- Nothing comes of evidence for which the rule makes no claim. -/
theorem refused_of_absent {rule : Json → Rule}
    {verify : Json → Bytes → Except Exn (Bool × Option Claims)} (hrule : Claimed rule verify)
    (hcfg : cfg.verifyReport = anchored verify) (hreq : cfg.requireAnchor = true) {m : Mandate}
    {t : Moment} {c : Call} {ev : Json} {b : Bytes} (hc : c.Offers ev)
    (hfield : (rule ev).instanceField ev = .ok b) (hb : ¬ Identifies b) :
    (m.step P cfg (t, c)).1.accepted = false := by
  have hnone : ∀ rd ok anchor, cfg.verifyReport ev rd ≠ .ok (ok, some anchor) := by
    intro rd ok anchor hver
    rw [hcfg] at hver
    obtain ⟨heq, hsound⟩ := Rule.claims_sound (hrule.takesAnchor ev rd ok anchor hver)
    rw [hfield] at heq
    exact hb (Except.ok.inj heq ▸ hsound.inst)
  rw [← Bool.not_eq_true]
  intro hacc
  cases c with
  | enroll k evidence nonce csrDer authority authorisation sig =>
      obtain rfl : evidence = ev := hc
      obtain ⟨anchor, henr⟩ := m.enrols_of_accepted t hacc
      exact hnone _ _ _ henr.verified
  | present k ctx exporter msg head bundle =>
      obtain ⟨inst, place, pl, n, hadm, -⟩ := m.admits_of_accepted t hacc
      obtain ⟨i, rfl⟩ := Option.isSome_iff_exists.mp (hadm.anchored hreq)
      obtain ⟨evidence, anchor, hevidence, hver, -, -⟩ := hadm.toVerified.exists_anchor
      obtain rfl : evidence = ev := Except.ok.inj (hevidence.symm.trans hc)
      exact hnone _ _ _ hver
  | _ => exact hc.elim

/-! ## Runs -/

/-- **What is promised of absent identifiers**: none is stored, and, where the mandate
requires an anchor, no evidence without an instance gets anywhere. -/
structure FailsClosed (P : Primitives) (s : Process) : Prop where
  stored : ∀ k, Identified (s.mandate.record k)
  refused : s.cfg.requireAnchor = true → ∀ rule verify, Claimed rule verify →
    s.cfg.verifyReport = anchored verify →
      ∀ t c ev b, c.Offers ev → (rule ev).instanceField ev = .ok b → ¬ Identifies b →
        (s.mandate.step P s.cfg (t, c)).1.accepted = false

/-- A call, or a restart with such a mandate. -/
theorem identified_event {k : Bytes} (s : Process) (e : Event)
    (he : ∀ cfg', e = .restart cfg' → Ruled cfg')
    (h : Ruled s.cfg ∧ Identified (s.mandate.record k)) :
    Ruled (s.step P e).2.cfg ∧ Identified ((s.step P e).2.mandate.record k) := by
  obtain ⟨hrule, hrec⟩ := h
  cases e with
  | call i =>
      exact ⟨hrule, (s.mandate.step_change P s.cfg i.1 i.2 k).identified hrule hrec⟩
  | restart cfg' => exact ⟨he cfg' rfl, hrec⟩

/-- **An absent identifier never becomes an identity**, over any calls and restarts of
mandates whose anchors come from the rules. -/
theorem absent_never_identity (hcfg : Ruled cfg) (events : List Event)
    (hrestart : ∀ cfg', .restart cfg' ∈ events → Ruled cfg') :
    FailsClosed P (Process.after P cfg (fun _ => none) events) := by
  constructor
  · intro k
    have halong : Run.Along (Process.step P) (fun _ e => ∀ cfg', e = .restart cfg' → Ruled cfg')
        ⟨cfg, .new P fun _ => none⟩ events := by
      rw [Run.along_const]
      intro e he cfg' heq
      exact hrestart cfg' (heq ▸ he)
    have hinv := Run.exec_invariant (Process.step P)
      (fun s => Ruled s.cfg ∧ Identified (s.mandate.record k)) identified_event halong
      ⟨hcfg, identified_blank⟩
    exact hinv.2
  · intro hreq rule verify hrule hverify t c ev b hc hfield hb
    exact refused_of_absent hrule hverify hreq hc hfield hb

/-- Another verifier, and a first message. -/
def reported : List Event := [
  .restart (snpMandate .plain),
  .call (instant 0, .present tik [1] [2] (flippedHello .plain (List.replicate 32 1) tik [1] [2] 7)
    none none)]

/-- A mandate of mock chips, started again for SEV-SNP reports, accepts one with a report
identifier.  One whose identifier is zeros is refused there, with the same signature and in
whatever session and at whatever time it is presented. -/
theorem absent_never_identity_reported :
    FailsClosed .plain (Process.after .plain twoChips (fun _ => none) reported) ∧
      (∃ m₁, (Mandate.new .plain fun _ => none).serve .plain (snpMandate .plain) (instant 0).env
          (.present tik [1] [2] (flippedHello .plain (List.replicate 32 1) tik [1] [2] 7) none none) =
            (.decision (acceptedVerdict (some (List.replicate 32 1))), m₁)) ∧
      ∀ t ctx exporter, ((Process.after .plain twoChips (fun _ => none) reported).mandate.step .plain
        (snpMandate .plain) (t, .present tik ctx exporter
          (flippedHello .plain (List.replicate 32 0) tik ctx exporter 7) none none)).1.accepted =
            false := by
  have hruled : Ruled twoChips := ruled_mockMandate .plain ["0a", "0b"] [0x5e]
  have hrestart : ∀ cfg', .restart cfg' ∈ reported → Ruled cfg' := by
    intro cfg' hmem
    simp only [reported, List.mem_cons, reduceCtorEq, Event.restart.injEq, List.not_mem_nil,
      or_false] at hmem
    exact hmem ▸ ruled_snpMandate .plain
  have hclosed := absent_never_identity (P := .plain) hruled reported hrestart
  refine ⟨hclosed, ?_, ?_⟩
  · exact serve_flippedHello .plain [2] List.length_replicate (by decide) (by decide) (fun _ => none)
      rfl (.inl rfl) (instant 0)
  · intro t ctx exporter
    have hrd : (reportDataFor .plain (nextLink .plain exporter (firstLink .plain ctx tik) 0)
        none).length = 64 := by
      rw [reportDataFor, Primitives.plain.length_sha512]
    have hid : (List.replicate 32 0 : Bytes).length = 32 := List.length_replicate
    obtain ⟨f, hf, -, hident, -⟩ := parseSnp_reportOf hrd hid 7
    obtain ⟨j, hj, hb⟩ := (carries_evidenceOf hrd hid .plain (.inl rfl)).report
    refine hclosed.refused rfl _ _ (sevsnpVerifier_claimed b64decode
      (certified .plain offline false none) false none) rfl t _ _ (List.replicate 32 0) rfl ?_ (by decide)
    simp only [Rule.instanceField, hj, hb, hf, hident, Exn.ok_bind, Exn.pure_eq_ok]

end Hatls
