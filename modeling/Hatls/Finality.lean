import Hatls.Enrolment

/-!
# How final a revocation is

A revoked identity is refused presentation and transfer, and nothing that is refused
touches what its record allows.  An enrolment does not ask whether the identity was
revoked, only whether it is enrolled.  So a revocation is final for an identity that was
enrolled by then, and for another one until somebody enrols it.

## Main definitions

* `Qualifies` — an enrolment with nothing but the record in its way.
* `Retains` — what a record allows is unchanged.
* `Final` — what is promised of the events that follow a revocation.
* `revocation_final_iff` — when the promise is kept.
-/

namespace Hatls

open Mandate

variable {P : Primitives} {cfg : Config}

/-! ## The promise -/

/-- The conditions on an accepted enrolment that do not concern the record: a challenge
that is outstanding, the permission of the authority, a request that carries the key,
and evidence of an instance, at a place where one is required. -/
structure Mandate.Qualifies (P : Primitives) (cfg : Config) (env : Env) (m : Mandate) (k : Bytes)
    (evidence : Json) (nonce csrDer : Bytes) (authorisation : Option Json)
    (authorisationSig : Option Bytes) (anchor : Anchor) : Prop where
  issued : ∃ expiry, m.challenges nonce = some expiry ∧ env.now < expiry
  permitted : ∃ why, Mandate.permitted P cfg env k nonce authorisation authorisationSig =
    .ok (true, why)
  possession : csrPublicKeyDer P csrDer = .ok k
  verified : cfg.verifyReport evidence (P.sha512 (nonce ++ csrDer)) = .ok (true, some anchor)
  placed : cfg.requirePlace = true → anchor.place.isSome

theorem Mandate.Qualifies.enrols {env : Env} {m : Mandate} {k nonce csrDer : Bytes} {evidence : Json}
    {authorisation : Option Json} {sig : Option Bytes} {anchor : Anchor}
    (h : Qualifies P cfg env m k evidence nonce csrDer authorisation sig anchor)
    (hfresh : (m.record k).enrolledInstance = none) :
    Enrols P cfg env m k evidence nonce csrDer authorisation sig anchor where
  issued := h.issued
  permitted := h.permitted
  fresh := hfresh
  possession := h.possession
  verified := h.verified
  placed := h.placed

theorem Mandate.Enrols.qualifies {env : Env} {m : Mandate} {k nonce csrDer : Bytes} {evidence : Json}
    {authorisation : Option Json} {sig : Option Bytes} {anchor : Anchor}
    (h : Enrols P cfg env m k evidence nonce csrDer authorisation sig anchor) :
    Qualifies P cfg env m k evidence nonce csrDer authorisation sig anchor where
  issued := h.issued
  permitted := h.permitted
  possession := h.possession
  verified := h.verified
  placed := h.placed

/-- An enrolment of `k` arrives with nothing but the record in its way. -/
def Event.Qualifies (P : Primitives) (k : Bytes) (s : Process) (e : Event) : Prop :=
  ∃ t evidence nonce csrDer authority authorisation sig anchor,
    e = .call (t, .enroll k evidence nonce csrDer authority authorisation sig) ∧
    Mandate.Qualifies P s.cfg t.env s.mandate k evidence nonce csrDer authorisation sig anchor

/-- A call that asks something for `k`: to enrol it, to move it or to admit a step. -/
def Call.Asks (k : Bytes) (c : Call) : Prop := c.Enrolls k ∨ c.Transfers k ∨ c.Presents k

/-- What a record allows is what another one allows. -/
structure Retains (r r' : Record) : Prop where
  enrolledInstance : r'.enrolledInstance = r.enrolledInstance
  enrolledPlace : r'.enrolledPlace = r.enrolledPlace
  transferAuthority : r'.transferAuthority = r.transferAuthority
  transfers : r'.transfers = r.transfers
  consumedGrants : r'.consumedGrants = r.consumedGrants

theorem Retains.refl (r : Record) : Retains r r := ⟨rfl, rfl, rfl, rfl, rfl⟩

theorem Retains.trans {r r' r'' : Record} (h : Retains r r') (h' : Retains r' r'') : Retains r r'' where
  enrolledInstance := h'.enrolledInstance.trans h.enrolledInstance
  enrolledPlace := h'.enrolledPlace.trans h.enrolledPlace
  transferAuthority := h'.transferAuthority.trans h.transferAuthority
  transfers := h'.transfers.trans h.transfers
  consumedGrants := h'.consumedGrants.trans h.consumedGrants

/-- **What is promised of the events that follow a revocation of `k`.** -/
structure Final (P : Primitives) (k : Bytes) (s : Process) (later : List Event) : Prop where
  /-- Nothing that is asked for `k` is granted. -/
  refused : Run.Along (Process.step P) (fun s e => ¬ s.Accepted P (Call.Asks k) e) s later
  /-- Nothing but further revocations of `k` is logged as accepted. -/
  logged : Run.Along (Process.step P) (fun s e => ∀ t c d, e = .call (t, c) →
    c.decision t (s.mandate.step P s.cfg (t, c)).1 = some d → d.tikPub = k → d.accepted = true →
      d.kind = "revoke") s later
  /-- What the record of `k` allows stays as it was. -/
  kept : ∀ p, p <+: later →
    Retains (s.mandate.record k) ((Run.exec (Process.step P) s p).mandate.record k)

/-! ## What a revoked record is proof against -/

/-- A decision logged as accepted is a revocation, or something asked and granted. -/
theorem Call.asks_of_decision {t : Moment} {c : Call} {reply : Reply} {d : Decision}
    (h : c.decision t reply = some d) (hok : d.accepted = true) :
    d.kind = "revoke" ∨ c.Asks d.tikPub ∧ reply.accepted = true := by
  simp only [Call.decision] at h
  split at h
  · cases h
    exact .inr ⟨.inl rfl, hok⟩
  · cases h
    exact .inl rfl
  · cases h
    exact .inr ⟨.inr (.inl rfl), hok⟩
  · cases h
    exact .inr ⟨.inr (.inr rfl), hok⟩
  · cases h

/-- Where no enrolment gets through, a revoked identity is granted nothing. -/
theorem refused_of_revoked {k : Bytes} {s : Process} {e : Event}
    (hrev : (s.mandate.record k).revoked = true)
    (hno : (s.mandate.record k).enrolledInstance = none → ¬ e.Qualifies P k s) :
    ¬ s.Accepted P (Call.Asks k) e := by
  rintro ⟨⟨t, c⟩, rfl, hasks, hok⟩
  have heff := s.mandate.step_effect P s.cfg t c
  generalize s.mandate.step P s.cfg (t, c) = out at heff hok
  obtain ⟨reply, m'⟩ := out
  have hasks : c.Enrolls k ∨ c.Transfers k ∨ c.Presents k := hasks
  cases heff with
  | enrolled henr =>
      obtain rfl | h | h := hasks
      · exact hno henr.fresh ⟨t, _, _, _, _, _, _, _, rfl, henr.qualifies⟩
      · exact h
      · exact h
  | revoked =>
      obtain h | h | h := hasks
      · exact h
      · exact h
      · exact h
  | transferred hg =>
      obtain h | rfl | h := hasks
      · exact h
      · exact absurd hrev (by simp [hg.notRevoked])
      · exact h
  | presented hadm =>
      obtain h | h | rfl := hasks
      · exact h
      · exact h
      · exact absurd hrev (by simp [hadm.notRevoked])
  | quiet hreply => exact absurd hok (by simp [hreply])

/-- Where no enrolment gets through, the record of a revoked identity keeps what it
allows, and the revocation. -/
theorem retains_of_revoked {k : Bytes} {s : Process} {e : Event}
    (hrev : (s.mandate.record k).revoked = true)
    (hno : (s.mandate.record k).enrolledInstance = none → ¬ e.Qualifies P k s) :
    ((s.step P e).2.mandate.record k).revoked = true ∧
      Retains (s.mandate.record k) ((s.step P e).2.mandate.record k) := by
  rcases s.step_change e k with ⟨t, c, rfl, hch⟩ | heq
  · generalize (s.mandate.step P s.cfg (t, c)).1 = reply,
      ((s.step P (.call (t, c))).2.mandate.record k) = r' at hch ⊢
    cases hch with
    | enrolled henr => exact absurd ⟨t, _, _, _, _, _, _, _, rfl, henr.qualifies⟩ (hno henr.fresh)
    | revoked => exact ⟨rfl, rfl, rfl, rfl, rfl, rfl⟩
    | transferred hg => exact absurd hrev (by simp [hg.notRevoked])
    | presented hadm => exact absurd hrev (by simp [hadm.notRevoked])
    | noted _ hn =>
        exact ⟨hn.revoked.trans hrev, hn.enrolledInstance, hn.enrolledPlace, hn.transferAuthority,
          hn.transfers, hn.consumedGrants⟩
    | same => exact ⟨hrev, .refl _⟩
  · rw [heq]
    exact ⟨hrev, .refl _⟩

/-! ## When the promise is kept -/

/-- An event that does not get `k` enrolled: `k` is enrolled already, or something but the
record stands in the way. -/
def Guarded (P : Primitives) (k : Bytes) (s : Process) (e : Event) : Prop :=
  (s.mandate.record k).enrolledInstance = none → ¬ e.Qualifies P k s

/-- **The promise is kept as long as no enrolment gets through.** -/
theorem final_of_guarded {k : Bytes} {s : Process} {later : List Event}
    (hrev : (s.mandate.record k).revoked = true)
    (hguard : Run.Along (Process.step P) (Guarded P k) s later) : Final P k s later := by
  let Inv : Process → Prop := fun s' => (s'.mandate.record k).revoked = true ∧
    Retains (s.mandate.record k) (s'.mandate.record k)
  have hstep : ∀ s' e, Guarded P k s' e → Inv s' → Inv (s'.step P e).2 := by
    intro s' e hno hinv
    obtain ⟨hrev', hret⟩ := retains_of_revoked hinv.1 hno
    exact ⟨hrev', hinv.2.trans hret⟩
  have hstart : Inv s := ⟨hrev, .refl _⟩
  have hrefused : Run.Along (Process.step P) (fun s e => ¬ s.Accepted P (Call.Asks k) e) s later :=
    Run.along_of_invariant (Process.step P) Inv hstep
      (fun s' e hno hinv => refused_of_revoked hinv.1 hno) hguard hstart
  refine ⟨hrefused, ?_, ?_⟩
  · refine hrefused.mono (Process.step P) ?_
    intro s' e hno t c d he hd hk hok
    rcases Call.asks_of_decision hd hok with hkind | ⟨hasks, hacc⟩
    · exact hkind
    · exact absurd ⟨(t, c), he, hk ▸ hasks, hacc⟩ hno
  · rintro p ⟨rest, rfl⟩
    rw [Run.along_append] at hguard
    exact (Run.exec_invariant (Process.step P) Inv hstep hguard.1 hstart).2

/-- An identity that is enrolled stays enrolled, so no event enrols it. -/
theorem guarded_of_enrolled {k : Bytes} {s : Process}
    (h : (s.mandate.record k).enrolledInstance.isSome) (later : List Event) :
    Run.Along (Process.step P) (Guarded P k) s later := by
  rw [Run.along_iff_forall_split]
  intro pre e post _ hnone
  have hsome := (stays_enrolled_under (P := P) h pre).1
  rw [hnone] at hsome
  exact nomatch hsome

/-- While the promise is kept for an identity that was not enrolled, no enrolment of it
has only the record in its way. -/
theorem not_qualifies_of_final {k : Bytes} {s : Process} {later : List Event}
    (h : (s.mandate.record k).enrolledInstance = none) (hfinal : Final P k s later) :
    Run.Along (Process.step P) (fun s e => ¬ e.Qualifies P k s) s later := by
  rw [Run.along_iff_forall_split]
  rintro pre e post rfl ⟨t, evidence, nonce, csrDer, authority, authorisation, sig, anchor, rfl, hq⟩
  have hkept := hfinal.kept pre (List.prefix_append _ _)
  have henr := hq.enrols (hkept.enrolledInstance.trans h)
  have hrefused := (Run.along_iff_forall_split (Process.step P)).mp hfinal.refused pre _ post rfl
  refine hrefused ⟨_, rfl, .inl rfl, ?_⟩
  rw [step_of_enrols _ t henr]
  rfl

/-- **When a revocation is final.**  After a revocation of `k`, in any run over a store
with any restarts, the promise is kept over the events that follow if and only if `k` was
enrolled when it was revoked, or no enrolment of it arrives that qualifies: one with an
outstanding challenge, the permission the mandate asks for, a request that carries the
key, and evidence of an instance. -/
theorem revocation_final_iff (cfg : Config) (ledger : Bytes → Option Record) (events : List Event)
    (t : Moment) (k : Bytes) (reason : String) (later : List Event) :
    let before := Process.after P cfg ledger events
    let s := Process.after P cfg ledger (events ++ [.call (t, .revoke k reason)])
    Final P k s later ↔ (before.mandate.record k).enrolledInstance.isSome ∨
      Run.Along (Process.step P) (fun s e => ¬ e.Qualifies P k s) s later := by
  intro before s
  have hrec : s.mandate.record k = revokedFor (before.mandate.record k) reason := by
    simp only [s, Process.after_concat, Process.step_call, step_revoke, record_recordDecision,
      record_put_self]
    rfl
  have hrev : (s.mandate.record k).revoked = true := by rw [hrec]; rfl
  have hen : (s.mandate.record k).enrolledInstance = (before.mandate.record k).enrolledInstance := by
    rw [hrec]; rfl
  rw [← hen]
  constructor
  · intro hfinal
    cases h : (s.mandate.record k).enrolledInstance with
    | some e => exact .inl rfl
    | none => exact .inr (not_qualifies_of_final h hfinal)
  · rintro (h | h)
    · exact final_of_guarded hrev (guarded_of_enrolled h later)
    · exact final_of_guarded hrev (h.mono (Process.step P) (R := Guarded P k) fun _ _ hno _ => hno)

section Born

open Tee

/-- An enrolled identity is revoked.  What it was served before it is served no more, nor is
anything else that follows, over restarts, accepted for it. -/
theorem revocation_final_iff_born :
    Accepted .plain twoChips (Call.Asks tik) (after .plain twoChips (fun _ => none) (birth none))
        (opening teeA [1] [2] 2) ∧
      ¬ Process.Accepted .plain (Call.Asks tik) (Process.after .plain twoChips (fun _ => none)
        ((birth none).map .call ++ [.call (instant 2, .revoke tik "lost")] ++
          [.call (opening teeB [1] [2] 3), .restart twoChips])) (.call (opening teeA [1] [2] 4)) ∧
      ∀ later, Final .plain tik (Process.after .plain twoChips (fun _ => none)
        ((birth none).map .call ++ [.call (instant 2, .revoke tik "lost")])) later := by
  have hborn : ((Process.after .plain twoChips (fun _ => none)
      ((birth none).map .call)).mandate.record tik).enrolledInstance.isSome := by
    rw [Process.after_calls, record_birth trustsChips]
    rfl
  have hfinal : ∀ later, Final .plain tik (Process.after .plain twoChips (fun _ => none)
      ((birth none).map .call ++ [.call (instant 2, .revoke tik "lost")])) later := fun later =>
    (revocation_final_iff twoChips (fun _ => none) ((birth none).map .call) (instant 2) tik "lost"
      later).mpr (.inl hborn)
  refine ⟨⟨.inr (.inr rfl), accepted_opening trustsChips none (by decide) [2] 2⟩, ?_, hfinal⟩
  have hrefused := (hfinal ([.call (opening teeB [1] [2] 3), .restart twoChips] ++
    [.call (opening teeA [1] [2] 4)])).refused
  rw [Run.along_append] at hrefused
  rw [Process.after, Run.exec_append]
  exact hrefused.2.1

end Born

section BornRevoked

open Tee

/-- The enrolment of the identity on the first chip qualifies, in any state of a mandate
that trusts the chip and has just drawn the challenge. -/
theorem qualifies_birth (s : Process) (hcfg : s.cfg = twoChips) :
    Event.Qualifies .plain tik (s.step .plain (.call (instant 0, .challenge [9]))).2
      (.call (enrolment teeA [9] none 1)) := by
  refine ⟨_, _, _, _, _, _, _, teeA_trusted.anchor, rfl, ?_⟩
  rw [Process.step_call, step_challenge, hcfg]
  constructor
  · refine ⟨(instant 0).env.now + twoChips.challengeTtl, ?_, ?_⟩
    · rw [challenges_challenge, Function.update_self]
    · norm_num [instant, twoChips, mockMandate]
  · exact ⟨"", rfl⟩
  · exact csr_possession
  · exact mockVerifier_report .plain teeA_trusted [] _
  · intro hreq
    cases hreq

/-- **A revocation that is not final**: of an identity that is enrolled afterwards. -/
theorem enrolled_after_revocation : ¬ Final .plain tik
    (Process.after .plain twoChips (fun _ => none)
      ([] ++ [.call (instant 0, .revoke tik "compromised")]))
    ((birth none).map .call) := by
  intro hfinal
  have hnone : ((Process.after .plain twoChips (fun _ => none)
      ([] ++ [.call (instant 0, .revoke tik "compromised")])).mandate.record tik).enrolledInstance =
        none := by
    rw [Process.after_concat, Process.step_call, step_revoke, record_recordDecision, record_put_self]
    rfl
  have halong := not_qualifies_of_final hnone hfinal
  exact halong.2.1 (qualifies_birth _ rfl)

end BornRevoked

end Hatls
