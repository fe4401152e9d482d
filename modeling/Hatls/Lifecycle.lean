import Hatls.Progress
import Hatls.Recovery

/-!
# The life of an identity

An identity is enrolled against a challenge, is served where it lives, and is moved by its owner
when the machine under it dies.  Each of these takes several calls, and others call what they like
in between.  What they can do about it is little: they can redeem the challenge themselves, crowd
out a witness, or have the identity revoked or moved.  Where they do none of it, the enrolment goes
through, the grant is accepted, and the attester on the right machine is served.

## Main definitions

* `Application` — what an applicant shows the mandate.
* `Aside` — a call that leaves an enrolment under way alone.
* `onboarded` — a challenge leads to an enrolment, and to service.
* `migrated` — a grant of the owner leads to service on another machine, and there only.
-/

namespace Hatls

open Mandate

variable {P : Primitives} {cfg : Config}

/-! ## From a challenge to service -/

/-- What becomes of an outstanding challenge: it is issued again, it is redeemed, it has expired,
or it stands. -/
theorem challenges_cases (m : Mandate) (i : Moment × Call) {nonce : Bytes} {expiry : ℚ}
    (h : m.challenges nonce = some expiry) :
    (m.step P cfg i).2.challenges nonce = some (i.1.now + cfg.challengeTtl) ∨
      Accepted P cfg (Call.Redeems nonce) m i ∨ expiry ≤ i.1.now ∨
        (m.step P cfg i).2.challenges nonce = some expiry := by
  obtain ⟨t, c⟩ := i
  by_cases hnow : expiry ≤ t.now
  · exact .inr (.inr (.inl hnow))
  cases c with
  | challenge nonce' =>
      rw [step_challenge, challenges_challenge]
      by_cases heq : nonce = nonce'
      · subst heq
        left
        rw [Function.update_self]
        rfl
      · right; right; right
        rw [Function.update_of_ne heq, h, Option.filter_some]
        have hlt : t.now < expiry := not_le.mp hnow
        simp [Moment.env, hlt]
  | enroll k evidence nonce' csrDer authority authorisation sig =>
      right
      rcases enrollCore_cases P cfg m k nonce' csrDer evidence authority authorisation sig
        t.env_putOk with ⟨anchor, henr, -⟩ | ⟨challenges, answer, heq, hch, -⟩
      · by_cases hn : nonce = nonce'
        · subst hn
          exact .inl ⟨rfl, by rw [step_of_enrols m t henr]; rfl⟩
        · right; right
          rw [step_of_enrols m t henr, challenges_recordDecision, challenges_enrolledAs,
            Function.update_of_ne hn, h]
      · right; right
        have hout : (m.step P cfg (t, .enroll k evidence nonce' csrDer authority authorisation
            sig)).2.challenges = challenges := by
          rcases answer with x | ⟨ok, why⟩ <;> simp only [step, enroll, heq] <;> rfl
        rw [hout]
        rcases hch with rfl | ⟨rfl, ⟨expiry', hexp, hle⟩, -⟩
        · exact h
        · have hn : nonce ≠ nonce' := by
            intro hn
            rw [← hn, h] at hexp
            cases hexp
            exact hnow hle
          rw [Function.update_of_ne hn, h]
  | revoke k reason =>
      right; right; right
      rw [step_revoke]
      exact h
  | acceptTransfer k grant sig =>
      right; right; right
      rcases acceptTransfer_cases P cfg k sig grant m t.env_putOk with
        ⟨fields, to_, w, n, hg, hn, -⟩ | ⟨x, heq⟩ | ⟨reason, heq⟩
      · rwa [step_of_grants m t hg hn, challenges_recordDecision, challenges_transferred]
      · simpa only [step, heq, Prod.map, id] using h
      · simpa only [step, heq, Prod.map, id, challenges_recordDecision] using h
  | present k ctx exporter msg head bundle =>
      right; right; right
      rcases appraise_cases P cfg m k ctx exporter msg t.env_putOk head bundle with
        ⟨inst, place, pl, n, hadm, -⟩ | ⟨-, hst⟩
      · rwa [step_of_admits m t hadm, challenges_recordDecision, challenges_admitted]
      · have hsame : (m.appraise P cfg t.env k ctx exporter msg head bundle).2.challenges =
            m.challenges := by
          rcases hst with hst | ⟨r', _, _, -, hst⟩ <;> rw [hst]
          rfl
        simp only [step, present]
        generalize m.appraise P cfg t.env k ctx exporter msg head bundle = out at hsame
        obtain ⟨answer, m'⟩ := out
        cases answer with
        | error x => exact (congrFun hsame nonce).trans h
        | ok v => exact (congrFun hsame nonce).trans h

/-- The identity is not enrolled yet, and nothing on record speaks against the instance. -/
structure Unclaimed (r : Record) (inst : Bytes) : Prop where
  notRevoked : r.revoked = false
  enrolled : r.enrolledInstance = none
  observed : ∀ o, r.observedInstance = some o → o = inst

/-- What an applicant shows the mandate: a request that its key signed, evidence of its instance
for the challenge and the request, and the permission of the enrolment authority, where there is
one. -/
structure Application (P : Primitives) (cfg : Config) (t : Moment) (k : Bytes) (evidence : Json)
    (nonce csrDer : Bytes) (authorisation : Option Json) (sig : Option Bytes) (anchor : Anchor) :
    Prop where
  possession : csrPublicKeyDer P csrDer = .ok k
  verified : cfg.verifyReport evidence (P.sha512 (nonce ++ csrDer)) = .ok (true, some anchor)
  placed : cfg.requirePlace = true → anchor.place.isSome
  permitted : ∀ a, cfg.enrolmentAuthority = some a → ∃ key rnd made validFor,
    a = P.ecdsa.publicKey key ∧ made ≤ t.env.time ∧ t.env.time ≤ made + validFor ∧
      authorisation = some (Transfer.makeEnrolmentAuthorisation P key rnd k nonce made validFor).1 ∧
      sig = some (Transfer.makeEnrolmentAuthorisation P key rnd k nonce made validFor).2

/-- **A call that leaves an enrolment under way alone**: it comes in time, it neither redeems the
challenge nor enrols or revokes the identity, and no other instance is served under it. -/
structure Aside (P : Primitives) (cfg : Config) (k nonce inst : Bytes) (since : ℚ) (m : Mandate)
    (i : Moment × Call) : Prop where
  begun : since ≤ i.1.now
  soon : i.1.now < since + cfg.challengeTtl
  redeems : ¬ Accepted P cfg (Call.Redeems nonce) m i
  enrolls : ¬ Accepted P cfg (Call.Enrolls k) m i
  revokes : ¬ Call.Revokes k i.2
  presents : ∀ j, Accepted P cfg (Call.Presents k) m i → (m.step P cfg i).1.inst = some j → j = inst

/-- The challenge is outstanding, for the time to live at least. -/
def Outstanding (cfg : Config) (since : ℚ) (nonce : Bytes) (m : Mandate) : Prop :=
  ∃ expiry, m.challenges nonce = some expiry ∧ since + cfg.challengeTtl ≤ expiry

theorem outstanding_challenge (m : Mandate) (t : Moment) (nonce : Bytes) :
    Outstanding cfg t.now nonce (m.step P cfg (t, .challenge nonce)).2 := by
  refine ⟨t.now + cfg.challengeTtl, ?_, le_refl _⟩
  rw [step_challenge, challenges_challenge, Function.update_self]
  rfl

theorem outstanding_step {m : Mandate} {i : Moment × Call} {k nonce inst : Bytes} {since : ℚ}
    (haside : Aside P cfg k nonce inst since m i) (h : Outstanding cfg since nonce m) :
    Outstanding cfg since nonce (m.step P cfg i).2 := by
  obtain ⟨expiry, hexp, hle⟩ := h
  rcases challenges_cases m i hexp with hagain | hredeemed | hstale | hkept
  · refine ⟨_, hagain, ?_⟩
    have := haside.begun
    linarith
  · exact absurd hredeemed haside.redeems
  · have := haside.soon
    linarith
  · exact ⟨expiry, hkept, hle⟩

theorem unclaimed_step {m : Mandate} {i : Moment × Call} {k nonce inst : Bytes} {since : ℚ}
    (haside : Aside P cfg k nonce inst since m i) (h : Unclaimed (m.record k) inst) :
    Unclaimed ((m.step P cfg i).2.record k) inst := by
  obtain ⟨t, c⟩ := i
  have hch := m.step_change P cfg t c k
  obtain ⟨-, -, -, henrolls, hrevokes, hpresents⟩ := haside
  simp only [Accepted] at henrolls hpresents
  generalize (m.step P cfg (t, c)).1 = reply, (m.step P cfg (t, c)).2.record k = r'
    at hch henrolls hpresents ⊢
  cases hch with
  | enrolled => exact absurd ⟨rfl, rfl⟩ henrolls
  | revoked => exact absurd rfl hrevokes
  | transferred hg =>
      have hsome := hg.enrolled
      rw [h.enrolled] at hsome
      cases hsome
  | presented =>
      refine ⟨h.notRevoked, h.enrolled, fun o ho => ?_⟩
      cases ho
      exact hpresents _ ⟨rfl, rfl⟩ rfl
  | noted _ hn =>
      refine ⟨hn.revoked.trans h.notRevoked, hn.enrolledInstance.trans h.enrolled, ?_⟩
      rw [hn.observedInstance]
      exact h.observed
  | same => exact h

/-- An application for an outstanding challenge meets the conditions of an enrolment. -/
theorem Application.enrols {m : Mandate} {t : Moment} {k nonce csrDer : Bytes} {evidence : Json}
    {authorisation : Option Json} {sig : Option Bytes} {anchor : Anchor} {since : ℚ}
    (h : Application P cfg t k evidence nonce csrDer authorisation sig anchor)
    (hout : Outstanding cfg since nonce m) (hsoon : t.now < since + cfg.challengeTtl)
    (hfresh : (m.record k).enrolledInstance = none) :
    Enrols P cfg t.env m k evidence nonce csrDer authorisation sig anchor where
  issued := by
    obtain ⟨expiry, hexp, hle⟩ := hout
    exact ⟨expiry, hexp, hsoon.trans_le hle⟩
  permitted := by
    simp only [Mandate.permitted]
    cases ha : cfg.enrolmentAuthority with
    | none => exact ⟨_, rfl⟩
    | some a =>
        obtain ⟨key, rnd, made, validFor, rfl, hnbf, hexp, rfl, rfl⟩ := h.permitted a ha
        exact ⟨_, Transfer.verifyEnrolmentAuthorisation_make P key rnd k nonce hnbf hexp⟩
  fresh := hfresh
  possession := h.possession
  verified := h.verified
  placed := h.placed

/-- An enrolment touches no chain. -/
theorem sessions_of_enroll (m : Mandate) (t : Moment) {k nonce csrDer : Bytes} {evidence : Json}
    {authority sig : Option Bytes} {authorisation : Option Json} (key : Bytes × Bytes) :
    (m.step P cfg (t, .enroll k evidence nonce csrDer authority authorisation sig)).2.sessions key =
      m.sessions key := by
  have hadv := @step_advance P cfg m t (.enroll k evidence nonce csrDer authority authorisation sig) key
  generalize (m.step P cfg (t, .enroll k evidence nonce csrDer authority authorisation sig)).1 = reply,
    (m.step P cfg (t, .enroll k evidence nonce csrDer authority authorisation sig)).2.sessions key =
      after at hadv ⊢
  cases hadv with
  | kept => rfl

/-- An attester is served as long as the record is coherent with its instance. -/
theorem FreshStep.accepted_of_keeps (hplace : cfg.requirePlace = false) {m : Mandate}
    {k inst ctx exporter : Bytes} {head : Option Bytes} {msg : Json} {late : List (Moment × Call)}
    (hne : inst ≠ []) (hco : Coherent (m.record k) inst)
    (hlate : Run.Along (step P cfg) (Keeps P cfg k) m late)
    (h : FreshStep P cfg (Run.exec (step P cfg) m late) k inst ctx exporter head msg) (t : Moment) :
    ((Run.exec (step P cfg) m late).step P cfg
      (t, .present k ctx exporter msg head none)).1.accepted = true := by
  have hco' : Coherent ((Run.exec (step P cfg) m late).record k) inst :=
    Run.exec_invariant (step P cfg) (fun m : Mandate => Coherent (m.record k) inst)
      (fun m c hc => coherent_step hc hne) hlate hco
  obtain ⟨place, hadm⟩ := admits_of_genuine hplace h.genuine hco'.welcome h.known h.expects
  rw [step_of_admits _ t hadm]
  rfl

/-- **A challenge leads to an enrolment, and to service.**  Whoever is issued a challenge and
applies with it before it expires is enrolled, whatever is called in between, unless somebody
redeems the challenge or enrols the identity first.  From then on, until the identity is revoked or
moved, every fresh attester on its instance is served. -/
theorem onboarded (hplace : cfg.requirePlace = false) {m : Mandate} {t₀ t : Moment}
    {k nonce csrDer : Bytes} {evidence : Json} {authority sig : Option Bytes}
    {authorisation : Option Json} {anchor : Anchor} {mid : List (Moment × Call)}
    (hnew : Unclaimed (m.record k) anchor.inst)
    (hmid : Run.Along (step P cfg) (Aside P cfg k nonce anchor.inst t₀.now)
      (m.step P cfg (t₀, .challenge nonce)).2 mid)
    (hsoon : t.now < t₀.now + cfg.challengeTtl)
    (happlied : Application P cfg t k evidence nonce csrDer authorisation sig anchor) :
    let before := Run.exec (step P cfg) (m.step P cfg (t₀, .challenge nonce)).2 mid
    let enrol : Moment × Call :=
      (t, .enroll k evidence nonce csrDer authority authorisation sig)
    (before.step P cfg enrol).1.accepted = true ∧
      ∀ late, Run.Along (step P cfg) (Keeps P cfg k) (before.step P cfg enrol).2 late →
        ∀ ctx exporter head msg,
          FreshStep P cfg (Run.exec (step P cfg) (before.step P cfg enrol).2 late) k anchor.inst ctx
            exporter head msg →
          ∀ t', ((Run.exec (step P cfg) (before.step P cfg enrol).2 late).step P cfg
            (t', .present k ctx exporter msg head none)).1.accepted = true := by
  intro before enrol
  have hstart : Unclaimed ((m.step P cfg (t₀, .challenge nonce)).2.record k) anchor.inst := by
    rwa [step_challenge, record_challenge]
  obtain ⟨hout, hunclaimed⟩ :
      Outstanding cfg t₀.now nonce before ∧ Unclaimed (before.record k) anchor.inst :=
    Run.exec_invariant (step P cfg)
      (fun m : Mandate => Outstanding cfg t₀.now nonce m ∧ Unclaimed (m.record k) anchor.inst)
      (fun m i hi h => ⟨outstanding_step hi h.1, unclaimed_step hi h.2⟩) hmid
      ⟨outstanding_challenge m t₀ nonce, hstart⟩
  have hstep := step_of_enrols before t (happlied.enrols hout hsoon hunclaimed.enrolled) authority
  have hcoherent : Coherent ((before.step P cfg enrol).2.record k) anchor.inst := by
    rw [hstep, record_recordDecision, record_enrolledAs_self]
    exact ⟨hunclaimed.notRevoked, rfl, hunclaimed.observed⟩
  refine ⟨by rw [hstep]; rfl, ?_⟩
  intro late hlate ctx exporter head msg hmsg t'
  exact hmsg.accepted_of_keeps hplace anchor.inst_ne_nil hcoherent hlate t'

section Gated

open Tee

/-- A mandate on which the owner decides who enrols. -/
def gated : Config :=
  { twoChips with enrolmentAuthority := some (Primitives.plain.ecdsa.publicKey owner) }

/-- What the owner permits, until a quarter of an hour after the epoch. -/
def permission : Json × Bytes :=
  Transfer.makeEnrolmentAuthorisation .plain owner [] tik [9] 0 900

/-- The guest of the first chip enrols with it. -/
def permittedEnrolment : Moment × Call :=
  (instant 2, .enroll tik (teeA.report .plain [] (Primitives.plain.sha512 ([9] ++ csr))) [9] csr none
    (some permission.1) (some permission.2))

theorem application_permitted : Application .plain gated (instant 2) tik
    (teeA.report .plain [] (Primitives.plain.sha512 ([9] ++ csr))) [9] csr (some permission.1)
    (some permission.2) teeA_trusted.anchor where
  possession := csr_possession
  verified := mockVerifier_report .plain teeA_trusted [] _
  placed h := by cases h
  permitted a ha := by
    cases ha
    exact ⟨owner, [], 0, 900, rfl, by simp, by simp, rfl, rfl⟩

/-- It is enrolled, with another challenge in between, and served. -/
theorem onboarded_gated :
    let before := after .plain gated (fun _ => none)
      [(instant 0, .challenge [9]), (instant 1, .challenge [8])]
    (before.step .plain gated permittedEnrolment).1.accepted = true ∧
      ((before.step .plain gated permittedEnrolment).2.step .plain gated
        (opening teeA [3] [4] 3)).1.accepted = true := by
  intro before
  have hnew : Unclaimed ((new .plain fun _ => none).record tik) teeA_trusted.anchor.inst :=
    ⟨rfl, rfl, by rintro o ⟨⟩⟩
  have hmid : Run.Along (step .plain gated) (Aside .plain gated tik [9] teeA_trusted.anchor.inst
      (instant 0).now) ((new .plain fun _ => none).step .plain gated (instant 0, .challenge [9])).2
      [(instant 1, .challenge [8])] := by
    refine ⟨⟨?_, ?_, fun h => h.1, fun h => h.1, id, fun j h => absurd h.1 id⟩, trivial⟩
    · norm_num [instant]
    · norm_num [instant, gated, twoChips, mockMandate]
  have hsoon : (instant 2).now < (instant 0).now + gated.challengeTtl := by
    norm_num [instant, gated, twoChips, mockMandate]
  obtain ⟨henrolled, hserved⟩ := onboarded rfl hnew hmid hsoon application_permitted
  have hserved' := hserved [] trivial [3] [4] none
  rw [Run.exec_nil] at hserved'
  exact ⟨henrolled, hserved' _ (freshStep_hello rfl teeA_trusted (by decide)
    (sessions_of_enroll before (instant 2) (sessionKey .plain tik [3])) [] [4]) (instant 3)⟩

end Gated

/-! ## From one machine to another -/

/-- The identity lives on an instance and may be moved from there by the holder of a key, with a
grant that is still unspent. -/
structure MovableBy (P : Primitives) (r : Record) (e key nonce : Bytes) : Prop where
  notRevoked : r.revoked = false
  enrolled : r.enrolledInstance = some e
  authority : r.transferAuthority = some (P.ecdsa.publicKey key)
  unspent : Json.pyMem (.str (Bytes.hex nonce)) r.consumedGrants = false

theorem movableBy_step {m : Mandate} {i : Moment × Call} {k e key nonce : Bytes}
    (hkeep : Keeps P cfg k m i) (h : MovableBy P (m.record k) e key nonce) :
    MovableBy P ((m.step P cfg i).2.record k) e key nonce := by
  have hen := enrolled_step hkeep.2 h.enrolled
  obtain ⟨t, c⟩ := i
  have hch := m.step_change P cfg t c k
  obtain ⟨hrev, htr⟩ := hkeep
  simp only [Accepted] at htr
  generalize (m.step P cfg (t, c)).1 = reply, (m.step P cfg (t, c)).2.record k = r' at hch htr hen ⊢
  cases hch with
  | enrolled henr =>
      have hfresh := henr.fresh
      rw [h.enrolled] at hfresh
      cases hfresh
  | revoked => exact absurd rfl hrev
  | transferred => exact absurd ⟨rfl, rfl⟩ htr
  | presented => exact ⟨h.notRevoked, hen, h.authority, h.unspent⟩
  | noted _ hn =>
      exact ⟨hn.revoked.trans h.notRevoked, hen, hn.transferAuthority.trans h.authority,
        by rw [hn.consumedGrants]; exact h.unspent⟩
  | same => exact h

/-- An instance that is made a witness of has an identifier. -/
theorem Notices.usable {m : Mandate} {k inst : Bytes} {i : Moment × Call}
    (h : Notices P cfg m k i inst) : inst.any (· ≠ 0) = true := by
  cases h with
  | present h =>
      obtain ⟨pl, hver⟩ := h.verified
      obtain ⟨anchor, -, hinst, -⟩ := hver.verified
      cases anchor with
      | none => cases hinst
      | some anchor =>
          cases hinst
          exact anchor.usable

/-- A transfer ends the chains of its identity. -/
theorem sessions_of_transfers {m : Mandate} {i : Moment × Call} {k : Bytes}
    (h : Accepted P cfg (Call.Transfers k) m i) (ctx : Bytes) :
    (m.step P cfg i).2.sessions (sessionKey P k ctx) = none := by
  obtain ⟨t, c⟩ := i
  obtain ⟨hc, hacc⟩ := h
  have hadv := @step_advance P cfg m t c (sessionKey P k ctx)
  generalize (m.step P cfg (t, c)).1 = reply,
    (m.step P cfg (t, c)).2.sessions (sessionKey P k ctx) = after at hadv hacc ⊢
  cases hadv with
  | ended => rfl
  | moved => exact absurd hc id
  | kept hkept => exact absurd hc (hkept hacc).1

/-- From then on only the enrolled instance is served. -/
theorem served_where_enrolled {m : Mandate} {k inst : Bytes} (hne : inst ≠ [])
    (hen : (m.record k).enrolledInstance = some inst) {i : Moment × Call}
    (hacc : Accepted P cfg (Call.Presents k) m i) {j : Bytes}
    (hj : (m.step P cfg i).1.inst = some j) : j = inst := by
  obtain ⟨t, c⟩ := i
  obtain ⟨hc, hacc⟩ := hacc
  cases c with
  | present k' ctx exporter msg head bundle =>
      obtain rfl : k' = k := hc
      obtain ⟨inst', place, pl, n, hadm, -⟩ := m.admits_of_accepted t hacc
      rw [step_of_admits m t hadm] at hj
      exact hadm.home inst j (by rw [hen, nonEmpty_some hne]) hj
  | _ => exact absurd hc (by simp [Call.Presents])

/-- **A grant of the owner leads to service on another machine, and there only.**  An instance
shows its evidence and is refused, for the identity lives elsewhere.  Then the owner makes a grant
onto it.  Whatever is called in between, the grant is accepted, unless it comes too late, or
thirty-two other instances have shown theirs, or the identity was revoked or moved.  From then on,
until the identity is revoked or moved again, every fresh attester on the new instance is served,
and nobody is whose evidence names another. -/
theorem migrated (hplace : cfg.requirePlace = false) {m : Mandate} {i : Moment × Call} {t : Moment}
    {k e inst key rnd nonce sig : Bytes} {fromInstance : Option Bytes} {anyOrigin : Bool}
    {made validFor : ℤ} {grant : Json} {mid : List (Moment × Call)} {others : Finset Bytes}
    (he : e ≠ []) (howned : MovableBy P (m.record k) e key nonce)
    (hnoticed : Notices P cfg m k i inst)
    (hkept : Run.Along (step P cfg) (Keeps P cfg k) m (i :: mid))
    (hsince : Since P cfg k inst (m.step P cfg i).2 mid others) (hfew : others.card < 32)
    (hclock : ∀ j ∈ mid, i.1.env.time ≤ j.1.env.time ∧ j.1.env.time ≤ t.env.time)
    (hfresh : ((t.env.time - i.1.env.time : ℤ) : ℚ) < cfg.witnessTtl)
    (hmade : Transfer.makeGrant P key rnd k inst fromInstance anyOrigin made validFor nonce =
      .ok (grant, sig))
    (horigin : (fromInstance = none ∧ anyOrigin = true) ∨ fromInstance = some e)
    (hnbf : made ≤ t.env.time) (hexp : t.env.time ≤ made + validFor) :
    let before := Run.exec (step P cfg) m (i :: mid)
    let move : Moment × Call := (t, .acceptTransfer k grant sig)
    (before.step P cfg move).1.accepted = true ∧
      ∀ late, Run.Along (step P cfg) (Keeps P cfg k) (before.step P cfg move).2 late →
        (∀ ctx exporter head msg,
          FreshStep P cfg (Run.exec (step P cfg) (before.step P cfg move).2 late) k inst ctx
            exporter head msg →
          ∀ t', ((Run.exec (step P cfg) (before.step P cfg move).2 late).step P cfg
            (t', .present k ctx exporter msg head none)).1.accepted = true) ∧
        ∀ i' j, Accepted P cfg (Call.Presents k)
            (Run.exec (step P cfg) (before.step P cfg move).2 late) i' →
          ((Run.exec (step P cfg) (before.step P cfg move).2 late).step P cfg i').1.inst = some j →
          j = inst := by
  intro before move
  have husable : inst.any (· ≠ 0) = true := hnoticed.usable
  have hne : inst ≠ [] := by
    rintro rfl
    cases husable
  have howned' : MovableBy P (before.record k) e key nonce :=
    Run.exec_invariant (step P cfg) (fun m : Mandate => MovableBy P (m.record k) e key nonce)
      (fun m c hc => movableBy_step hc) hkept howned
  -- the witness still stands
  have hstart : Seen ((m.step P cfg i).2.record k) inst i.1.env.time ∅ := by
    rcases witnessed_cases m i k with ⟨inst', place, hnoticed', hwit⟩ | ⟨hno, -⟩
    · obtain rfl := hnoticed.unique hnoticed'
      exact (seen_witness _ (le_refl i.1.env.time) inst place).congr hwit
    · exact absurd hnoticed (hno inst)
  have hdest : Destination cfg t.env (before.record k) inst :=
    ((seen_exec hfresh hstart hsince hclock).found_iff hfresh).mpr hfew
  obtain ⟨w, hw⟩ := Option.isSome_iff_exists.mp hdest
  have hgrants : Grants P cfg t.env (before.record k) k grant sig _ inst w :=
    .of_makeGrant howned'.notRevoked howned'.enrolled he howned'.authority hmade horigin hnbf hexp
      howned'.unspent husable hw
  have hstep := step_of_grants before t hgrants rfl
  have hcoherent : Coherent ((before.step P cfg move).2.record k) inst := by
    rw [hstep, record_recordDecision, record_transferred_self]
    exact ⟨howned'.notRevoked, rfl, by rintro o ⟨⟩⟩
  refine ⟨by rw [hstep]; rfl, ?_⟩
  intro late hlate
  refine ⟨fun ctx exporter head msg hmsg t' =>
    hmsg.accepted_of_keeps hplace hne hcoherent hlate t', ?_⟩
  intro i' j hacc hj
  have hlast : Coherent ((Run.exec (step P cfg) (before.step P cfg move).2 late).record k) inst :=
    Run.exec_invariant (step P cfg) (fun m : Mandate => Coherent (m.record k) inst)
      (fun m c hc => coherent_step hc hne) hlate hcoherent
  exact served_where_enrolled hne hlast.enrolled hacc hj

section Chips

open Tee

/-- The identity is moved from the first chip to the second, and served there. -/
theorem migrated_twoChips :
    let before := Run.exec (step .plain twoChips)
      (after .plain twoChips (fun _ => none) (birth (some owner))) [opening teeB [1] [2] 2]
    (before.step .plain twoChips (move teeB (some teeA.inst) false [7] 3)).1.accepted = true ∧
      ((before.step .plain twoChips (move teeB (some teeA.inst) false [7] 3)).2.step .plain twoChips
        (opening teeB [5] [6] 4)).1.accepted = true := by
  intro before
  have hrecord := record_birth trustsChips (some owner)
  have hmovable := movable_birth trustsChips
  have howned : MovableBy .plain
      ((after .plain twoChips (fun _ => none) (birth (some owner))).record tik) teeA.inst owner [7] := by
    rw [hrecord]
    exact ⟨rfl, rfl, rfl, rfl⟩
  have hnoticed := notices_opening hmovable teeB_trusted (by decide) 2
  have hkept : Run.Along (step .plain twoChips) (Keeps .plain twoChips tik)
      (after .plain twoChips (fun _ => none) (birth (some owner))) [opening teeB [1] [2] 2] :=
    ⟨⟨id, fun h => h.1⟩, trivial⟩
  have hfresh : (((instant 3).env.time - (opening teeB [1] [2] 2).1.env.time : ℤ) : ℚ) <
      twoChips.witnessTtl := by
    rw [opening, time_instant, time_instant]
    norm_num [twoChips, mockMandate]
  have hmade : Transfer.makeGrant .plain owner [] tik teeB.inst (some teeA.inst) false 3 900 [7] =
      .ok (.obj (Transfer.grantFields tik teeB.inst (some teeA.inst) false 3 900 [7]), _) := rfl
  obtain ⟨haccepted, hserved⟩ := migrated (t := instant 3) rfl (by decide) howned hnoticed hkept .start
    (by simp) (by simp) hfresh hmade (.inr rfl) (by simp) (by simp)
  have hmoved : Accepted .plain twoChips (Call.Transfers tik) before
      (move teeB (some teeA.inst) false [7] 3) := ⟨rfl, haccepted⟩
  have hserved' := (hserved [] trivial).1 [5] [6] none
  rw [Run.exec_nil] at hserved'
  exact ⟨haccepted, hserved' _ (freshStep_hello rfl teeB_trusted (by decide)
    (sessions_of_transfers hmoved [5]) [] [6]) (instant 4)⟩

end Chips

end Hatls
