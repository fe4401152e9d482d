import Hatls.Safety

/-!
# Progress of the enrolled instance

What the owner of an identity is promised once it is enrolled.  The record keeps the
enrolled instance and the one last observed, and a presentation is held against both;
it is served when they agree.  Only a transfer or a revocation can end the agreement,
but an enrolment does not bring it about: an instance observed before stays observed.

## Main definitions

* `Coherent` — the two instances of a record agree.
* `FreshStep` — the first message of an honest attester.
* `owner_served_iff` — when the owner is served after an enrolment.
-/

namespace Hatls

open Mandate Binder

variable {P : Primitives} {cfg : Config}

/-! ## Coherence -/

/-- The record is in force, on `inst`, and nothing else was observed. -/
structure Coherent (r : Record) (inst : Bytes) : Prop where
  notRevoked : r.revoked = false
  enrolled : r.enrolledInstance = some inst
  observed : ∀ o, r.observedInstance = some o → o = inst

theorem Coherent.welcome {r : Record} {inst : Bytes} (h : Coherent r inst) : Welcome cfg r inst where
  notRevoked := h.notRevoked
  enrolled _ := by rw [h.enrolled]; rfl
  home e he := by rw [h.enrolled] at he; exact (Option.some.inj he).symm
  observed := h.observed

/-- Neither revoked nor moved. -/
def Keeps (P : Primitives) (cfg : Config) (k : Bytes) (m : Mandate) (c : Moment × Call) : Prop :=
  ¬ Call.Revokes k c.2 ∧ ¬ Accepted P cfg (Call.Transfers k) m c

/-- The enrolled instance changes with a transfer only. -/
theorem enrolled_step {m : Mandate} {c : Moment × Call} {k inst : Bytes}
    (hno : ¬ Accepted P cfg (Call.Transfers k) m c)
    (h : (m.record k).enrolledInstance = some inst) :
    ((m.step P cfg c).2.record k).enrolledInstance = some inst := by
  obtain ⟨t, c⟩ := c
  have hch := m.step_change P cfg t c k
  simp only [Accepted] at hno
  generalize (m.step P cfg (t, c)).1 = reply, (m.step P cfg (t, c)).2.record k = r' at hch hno ⊢
  cases hch with
  | enrolled hen => rw [hen.fresh] at h; cases h
  | revoked => exact h
  | transferred => exact absurd ⟨rfl, rfl⟩ hno
  | presented => exact h
  | noted _ hn => rw [hn.enrolledInstance, h]
  | same => exact h

/-- **Coherence is lost by a revocation or a transfer only.** -/
theorem coherent_step {m : Mandate} {c : Moment × Call} {k inst : Bytes}
    (hkeep : Keeps P cfg k m c) (hne : inst ≠ []) (h : Coherent (m.record k) inst) :
    Coherent ((m.step P cfg c).2.record k) inst := by
  have hen := enrolled_step hkeep.2 h.enrolled
  obtain ⟨t, c⟩ := c
  have hch := m.step_change P cfg t c k
  obtain ⟨hrev, htr⟩ := hkeep
  simp only [Accepted] at htr
  generalize (m.step P cfg (t, c)).1 = reply, (m.step P cfg (t, c)).2.record k = r' at hch htr hen ⊢
  refine ⟨?_, hen, ?_⟩
  · cases hch with
    | enrolled => exact h.notRevoked
    | revoked => exact absurd rfl hrev
    | transferred => exact absurd ⟨rfl, rfl⟩ htr
    | presented => exact h.notRevoked
    | noted _ hn => rw [hn.revoked, h.notRevoked]
    | same => exact h.notRevoked
  · cases hch with
    | enrolled => exact h.observed
    | revoked => exact h.observed
    | transferred => exact absurd ⟨rfl, rfl⟩ htr
    | presented hadm =>
        have hhome := hadm.home inst _ (by rw [h.enrolled, nonEmpty_some hne]) rfl
        rintro o ⟨⟩
        exact hhome
    | noted _ hn => rw [hn.observedInstance]; exact h.observed
    | same => exact h.observed

/-- What stood against the owner still stands after steps that neither revoke nor move
the identity. -/
theorem coherent_of_exec {m : Mandate} {k inst : Bytes} {mid : List (Moment × Call)}
    (hmid : Run.Along (step P cfg) (Keeps P cfg k) m mid) (husable : Usable m.record)
    (hen : (m.record k).enrolledInstance = some inst)
    (h : Coherent ((Run.exec (step P cfg) m mid).record k) inst) : Coherent (m.record k) inst where
  notRevoked := by
    by_contra hrev
    have hlast := Run.exec_invariant' (step P cfg)
      (fun m : Mandate => (m.record k).revoked = true) (fun m c => revoked_step c) mid (by simpa using hrev)
    rw [h.notRevoked] at hlast
    cases hlast
  enrolled := hen
  observed o ho := by
    have hne : o ≠ [] := fun heq => (husable k).2 (by rw [ho, heq])
    exact h.observed o (Run.exec_invariant (Q := Keeps P cfg k) (step P cfg)
      (fun m : Mandate => (m.record k).observedInstance = some o)
      (fun m c hc => observed_step hc.2 hne) hmid ho)

/-! ## The owner after an enrolment -/

/-- The first message of an honest attester on `inst`, for a session context the mandate
has no chain for, with a head the log has had, if any. -/
structure FreshStep (P : Primitives) (cfg : Config) (m : Mandate) (k inst ctx exporter : Bytes)
    (head : Option Bytes) (msg : Json) : Prop where
  attested : ∃ report a', ChipOf cfg inst report ∧
    (Attester.new k).attest P report ctx exporter head = (.ok msg, a')
  unused : m.sessions (sessionKey P k ctx) = none
  known : ∀ h, head = some h → m.knowsHead h = true

namespace FreshStep

variable {m : Mandate} {k inst ctx exporter : Bytes} {head : Option Bytes} {msg : Json}

theorem genuine (h : FreshStep P cfg m k inst ctx exporter head msg) :
    Genuine P cfg inst exporter (firstLink P ctx k) 0 head msg := by
  obtain ⟨report, a', hchip, hmsg⟩ := h.attested
  exact Attester.genuine_of_attest (a := Attester.new k) (by simp [Attester.new]) hchip hmsg

theorem expects (h : FreshStep P cfg m k inst ctx exporter head msg) :
    m.Expects P k ctx (firstLink P ctx k) 0 := by
  obtain ⟨report, a', -, hmsg⟩ := h.attested
  obtain ⟨hctx, -⟩ := Attester.attest_ok (by simp [Attester.new]) hmsg
  simp [Expects, h.unused, intraLink_eq P hctx]

/-- The owner of an enrolled identity is served exactly when its record is coherent. -/
theorem accepted_iff (hplace : cfg.requirePlace = false)
    (h : FreshStep P cfg m k inst ctx exporter head msg) (husable : Usable m.record)
    (hen : (m.record k).enrolledInstance = some inst) (t : Moment) :
    (m.step P cfg (t, .present k ctx exporter msg head none)).1.accepted = true ↔
      Coherent (m.record k) inst := by
  constructor
  · intro hacc
    obtain ⟨inst', place, pl, n, hadm, -⟩ := m.admits_of_accepted t hacc
    refine ⟨hadm.notRevoked, hen, fun o ho => ?_⟩
    -- the evidence names the instance of the chip
    obtain ⟨anchor, hver, hinst⟩ := h.genuine.evidence
    obtain ⟨anchor', hver', hinst', -⟩ := hadm.verified
    have hpl := hadm.link
    rw [h.genuine.link] at hpl
    obtain rfl := Except.ok.inj hpl
    rw [hver] at hver'
    obtain rfl := (Prod.mk.inj (Except.ok.inj hver')).2
    have hne : o ≠ [] := fun heq => (husable k).2 (by rw [ho, heq])
    exact (hadm.sole o inst (by rw [ho, nonEmpty_some hne]) (by rw [hinst', ← hinst]; rfl)).symm
  · intro hco
    obtain ⟨place, hadm⟩ := admits_of_genuine hplace h.genuine hco.welcome h.known h.expects
    rw [step_of_admits m t hadm]
    rfl

end FreshStep

/-- An enrolment leaves the observed instance as it was. -/
theorem coherent_enrolled_iff {m : Mandate} {c : Moment × Call} {k inst : Bytes}
    (hc : Call.Enrolls k c.2)
    (hinst : ((m.step P cfg c).2.record k).enrolledInstance = some inst) :
    Coherent ((m.step P cfg c).2.record k) inst ↔
      (m.record k).revoked = false ∧ ∀ o, (m.record k).observedInstance = some o → o = inst := by
  obtain ⟨t, c⟩ := c
  have hch := m.step_change P cfg t c k
  generalize (m.step P cfg (t, c)).1 = reply, (m.step P cfg (t, c)).2.record k = r' at hch hinst ⊢
  cases hch with
  | enrolled _ => exact ⟨fun h => ⟨h.notRevoked, h.observed⟩, fun h => ⟨h.1, hinst, h.2⟩⟩
  | revoked => exact absurd hc (by simp [Call.Enrolls])
  | transferred => exact absurd hc (by simp [Call.Enrolls])
  | presented => exact absurd hc (by simp [Call.Enrolls])
  | noted _ hn =>
      rw [← hn.revoked, ← hn.observedInstance]
      exact ⟨fun h => ⟨h.notRevoked, h.observed⟩, fun h => ⟨h.1, hinst, h.2⟩⟩
  | same => exact ⟨fun h => ⟨h.notRevoked, h.observed⟩, fun h => ⟨h.1, hinst, h.2⟩⟩

/-- **Who is served after an enrolment.**  From a successful enrolment of `k` on `inst`
until it is revoked or moved, a fresh attester on `inst` is served if and only if, when
the enrolment was made, the identity was not revoked and no other instance had been
observed for it. -/
theorem owner_served_iff (hplace : cfg.requirePlace = false) {m : Mandate}
    (hm : Reachable P cfg m) {k inst : Bytes} {c : Moment × Call}
    (henrol : Accepted P cfg (Call.Enrolls k) m c)
    (hinst : ((m.step P cfg c).2.record k).enrolledInstance = some inst)
    {mid : List (Moment × Call)}
    (hmid : Run.Along (step P cfg) (Keeps P cfg k) (m.step P cfg c).2 mid)
    {ctx exporter : Bytes} {head : Option Bytes} {msg : Json}
    (hfresh : FreshStep P cfg (Run.exec (step P cfg) (m.step P cfg c).2 mid) k inst ctx exporter head
      msg) (t : Moment) :
    ((Run.exec (step P cfg) (m.step P cfg c).2 mid).step P cfg
        (t, .present k ctx exporter msg head none)).1.accepted = true ↔
      (m.record k).revoked = false ∧ ∀ o, (m.record k).observedInstance = some o → o = inst := by
  have husable : Usable (m.step P cfg c).2.record := usable_step c (usable_of_reachable hm)
  have hne : inst ≠ [] := fun heq => (husable k).1 (by rw [hinst, heq])
  have hlast := Run.exec_invariant' (step P cfg) (fun m : Mandate => Usable m.record)
    (fun m i => usable_step i) mid husable
  have hen := Run.exec_invariant (Q := Keeps P cfg k) (step P cfg)
    (fun m : Mandate => (m.record k).enrolledInstance = some inst)
    (fun m c hc => enrolled_step hc.2) hmid hinst
  rw [hfresh.accepted_iff hplace hlast hen t, ← coherent_enrolled_iff henrol.1 hinst]
  constructor
  · exact coherent_of_exec hmid husable hinst
  · exact Run.exec_invariant (Q := Keeps P cfg k) (step P cfg)
      (fun m : Mandate => Coherent (m.record k) inst)
      (fun m c hc => coherent_step hc hne) hmid

section Lockout

open Tee

theorem freshStep_hello {trustedPubs : List String} {tee : MockTEE} {m : Mandate} {k ctx : Bytes}
    (hcfg : cfg.verifyReport = mockVerifier P trustedPubs)
    (htee : tee.Trusted P trustedPubs) (hctx : ctx.length < 256) (hnew : m.sessions (sessionKey P k ctx) = none)
    (rnd exporter : Bytes) :
    FreshStep P cfg m k tee.inst ctx exporter none (tee.hello P rnd k ctx exporter) :=
  ⟨⟨_, _, MockTEE.chipOf hcfg htee rnd, MockTEE.attest_hello P tee hctx rnd k exporter⟩, hnew,
    by simp⟩

/-- The owner enrols and is served, with an impostor in between. -/
theorem owner_served_twoChips :
    ((after .plain twoChips (fun _ => none) ([(instant 0, .challenge [9])] ++
        enrolment teeA [9] none 1 :: [opening teeB [1] [2] 2])).step .plain twoChips
      (opening teeA [3] [4] 3)).1.accepted = true := by
  have hborn := after_concat .plain twoChips (fun _ => none) [(instant 0, .challenge [9])]
    (enrolment teeA [9] none 1)
  have hrec := record_birth trustsChips none
  have hsessions := sessions_birth trustsChips none
  rw [birth, ← List.singleton_append, hborn] at hrec hsessions
  have henrol : Accepted .plain twoChips (Call.Enrolls tik)
      (after .plain twoChips (fun _ => none) [(instant 0, .challenge [9])])
      (enrolment teeA [9] none 1) := ⟨rfl, by rw [step_birth trustsChips]; rfl⟩
  rw [after_append, opening]
  have hinst : (((after .plain twoChips (fun _ => none) [(instant 0, .challenge [9])]).step .plain
      twoChips (enrolment teeA [9] none 1)).2.record tik).enrolledInstance = some teeA.inst := by
    rw [hrec]
    rfl
  refine (owner_served_iff rfl ⟨_, _, .empty, rfl⟩ henrol hinst ?_ ?_ (instant 3)).mpr
    ⟨rfl, by rintro o ⟨⟩⟩
  · simp [Keeps, Accepted, Call.Revokes, Call.Transfers]
  · refine freshStep_hello rfl teeA_trusted (by decide) ?_ [] [4]
    rw [Run.exec_cons, Run.exec_nil, step_impostor .plain twoChips teeB _ tik rfl teeB_trusted
      (by rw [hrec]; rfl) hinst (by decide) (by decide),
      sessions_recordDecision, sessions_put, hsessions]

/-- Another instance is served while the identity is not enrolled, and a challenge is issued. -/
def openedElsewhere : Mandate :=
  after .plain twoChips (fun _ => none) [opening teeB [1] [2] 0, (instant 1, .challenge [9])]

theorem openedElsewhere_eq : ∃ served : Mandate,
    openedElsewhere = served.challenge twoChips (instant 1).env [9] ∧
    served.record tik = { Record.blank with
      observedInstance := some teeB.inst, observedPlace := nonEmpty (Tee.present teeB.chip) } ∧
    served.sessions (sessionKey .plain tik [3]) = none := by
  have hopen := step_hello .plain twoChips teeB (new .plain fun _ => none) tik rfl teeB_trusted
    (show [1].length < 256 by decide) (welcome_blank rfl _) (fun h => nomatch h) rfl (instant 0) [] [2]
  have hkey : sessionKey .plain tik [3] ≠ sessionKey .plain tik [1] := by decide +kernel
  refine ⟨((new .plain fun _ => none).step .plain twoChips (opening teeB [1] [2] 0)).2, ?_, ?_, ?_⟩
  · simp only [openedElsewhere, after, Run.exec_cons, Run.exec_nil, step_challenge]
  · rw [opening, hopen, record_recordDecision, record_admitted_self]
    rfl
  · rw [opening, hopen, sessions_recordDecision, sessions_admitted, Function.update_of_ne hkey,
      sessions_new]

/-- Then the owner enrols. -/
def contested : Mandate :=
  after .plain twoChips (fun _ => none)
    [opening teeB [1] [2] 0, (instant 1, .challenge [9]), enrolment teeA [9] none 2]

theorem contested_eq : contested = (openedElsewhere.step .plain twoChips (enrolment teeA [9] none 2)).2 :=
  after_concat .plain twoChips (fun _ => none) [opening teeB [1] [2] 0, (instant 1, .challenge [9])]
    (enrolment teeA [9] none 2)

theorem step_openedElsewhere :
    openedElsewhere.step .plain twoChips (enrolment teeA [9] none 2) =
      (.decision ⟨true, "enrolled", none⟩, contested) ∧
    (contested.record tik).enrolledInstance = some teeA.inst ∧
    (contested.record tik).observedInstance = some teeB.inst ∧
    contested.sessions (sessionKey .plain tik [3]) = none := by
  obtain ⟨served, hserved, hrec, hsessions⟩ := openedElsewhere_eq
  have henrol := step_enroll .plain twoChips teeA openedElsewhere tik rfl (fun _ => rfl) rfl teeA_trusted
    (t := instant 2) (show openedElsewhere.challenges [9] = some (((1 : ℕ) : ℚ) + 300) by
      rw [hserved]; simp [challenge, twoChips, mockMandate, instant]) (by norm_num [instant])
    (by rw [hserved, record_challenge, hrec]; rfl) csr_possession [] none
  have hcontested := contested_eq
  rw [enrolment, henrol] at hcontested
  refine ⟨?_, ?_, ?_, ?_⟩
  · rw [enrolment, henrol, hcontested]
  · rw [hcontested, record_recordDecision, record_enrolledAs_self]
    rfl
  · rw [hcontested, record_recordDecision, record_enrolledAs_self, hserved, record_challenge, hrec]
  · rw [hcontested, sessions_recordDecision, sessions_enrolledAs, hserved, sessions_challenge, hsessions]

/-- **The owner can be locked out before the enrolment.**  Another instance is served
while the identity is not enrolled; the owner then enrols, and its first step, in a
session of its own, is refused. -/
theorem owner_locked_out :
    let m := after .plain twoChips (fun _ => none)
      [opening teeB [1] [2] 0, (instant 1, .challenge [9])]
    let m' := (m.step .plain twoChips (enrolment teeA [9] none 2)).2
    Accepted .plain twoChips (Call.Enrolls tik) m (enrolment teeA [9] none 2) ∧
      (m'.record tik).enrolledInstance = some teeA.inst ∧
      FreshStep .plain twoChips m' tik teeA.inst [3] [4] none (teeA.hello .plain [] tik [3] [4]) ∧
      (m'.step .plain twoChips (opening teeA [3] [4] 3)).1.accepted = false := by
  intro m m'
  have hm' : m' = contested := contested_eq.symm
  have hm : m = openedElsewhere := rfl
  clear_value m' m
  subst hm hm'
  obtain ⟨henrol, hinst, hobs, hsessions⟩ := step_openedElsewhere
  have hfresh : FreshStep .plain twoChips contested tik teeA.inst [3] [4] none
      (teeA.hello .plain [] tik [3] [4]) :=
    freshStep_hello rfl teeA_trusted (by decide) hsessions [] [4]
  have husable : Usable contested.record := usable_of_reachable ⟨_, _, .empty, rfl⟩
  refine ⟨⟨rfl, congrArg (fun out => out.1.accepted) henrol⟩, hinst, hfresh, ?_⟩
  rw [← Bool.not_eq_true, opening]
  intro haccepted
  have hco := (hfresh.accepted_iff rfl husable hinst (instant 3)).mp haccepted
  exact absurd (hco.observed _ hobs) (by decide)

end Lockout

end Hatls
