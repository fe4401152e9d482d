import Hatls.Enrolment

/-!
# What a call reads

A call about an identity reads its record, the chain of one session and the challenge it
redeems, and it writes nothing else but the log.  So two mandates that share these answer
alike and go on sharing them, whatever else sets them apart, and a call about another
identity changes none of them.  Only a head that comes with a presentation asks the log.

## Main definitions

* `Shares` — what two mandates share.
* `Call.Reads`, `Shares.step` — a call that reads nothing else.
* `Call.Outside`, `Shares.outside` — a call that writes none of it.
-/

namespace Hatls

open Mandate

/-- What two mandates share: the records of some identities, the chains of some sessions,
and some of the challenges. -/
structure Shares (known : Bytes → Prop) (live : Bytes × Bytes → Prop) (inHand : Bytes → Prop)
    (m m' : Mandate) : Prop where
  ledger : ∀ k, known k → m'.ledger k = m.ledger k
  sessions : ∀ key, live key → m'.sessions key = m.sessions key
  challenges : ∀ nonce, inHand nonce → m'.challenges nonce = m.challenges nonce

/-- Two mandates answer the same, and share the same afterwards. -/
def AgreeOn {A : Type} (known : Bytes → Prop) (live : Bytes × Bytes → Prop)
    (inHand : Bytes → Prop) (out out' : A × Mandate) : Prop :=
  out'.1 = out.1 ∧ Shares known live inHand out.2 out'.2

variable {P : Primitives} {cfg : Config} {env : Env} {known : Bytes → Prop}
  {live : Bytes × Bytes → Prop} {inHand : Bytes → Prop} {m m' : Mandate}

theorem AgreeOn.map {A B : Type} {out out' : A × Mandate} (h : AgreeOn known live inHand out out') (f : A → B) :
    AgreeOn known live inHand (out.map f id) (out'.map f id) :=
  ⟨congrArg f h.1, h.2⟩

/-- A call that issues nothing leaves what is in hand. -/
theorem AgreeOn.only {A : Type} {out out' : A × Mandate} (h : AgreeOn known live inHand out out') :
    AgreeOn known live (fun nonce => False ∨ inHand nonce) out out' := by
  simpa only [false_or] using h

/-- Both take the same branch. -/
theorem AgreeOn.ite {A : Type} {c : Prop} [Decidable c] {a a' b b' : A × Mandate}
    (ha : AgreeOn known live inHand a a') (hb : AgreeOn known live inHand b b') :
    AgreeOn known live inHand (if c then a else b) (if c then a' else b') := by
  by_cases hc : c
  · rw [if_pos hc, if_pos hc]
    exact ha
  · rw [if_neg hc, if_neg hc]
    exact hb

namespace Shares

/-- They share any part of it. -/
theorem mono (h : Shares known live inHand m m') {live' : Bytes × Bytes → Prop}
    {inHand' : Bytes → Prop} (hlive : ∀ key, live' key → live key)
    (hin : ∀ nonce, inHand' nonce → inHand nonce) : Shares known live' inHand' m m' where
  ledger := h.ledger
  sessions key hkey := h.sessions key (hlive key hkey)
  challenges nonce hn := h.challenges nonce (hin nonce hn)

theorem refl (m : Mandate) : Shares known live inHand m m :=
  ⟨fun _ _ => rfl, fun _ _ => rfl, fun _ _ => rfl⟩

theorem symm (h : Shares known live inHand m m') : Shares known live inHand m' m :=
  ⟨fun k hk => (h.ledger k hk).symm, fun key hkey => (h.sessions key hkey).symm,
    fun nonce hn => (h.challenges nonce hn).symm⟩

theorem trans {m'' : Mandate} (h : Shares known live inHand m m')
    (h' : Shares known live inHand m' m'') : Shares known live inHand m m'' :=
  ⟨fun k hk => (h'.ledger k hk).trans (h.ledger k hk),
    fun key hkey => (h'.sessions key hkey).trans (h.sessions key hkey),
    fun nonce hn => (h'.challenges nonce hn).trans (h.challenges nonce hn)⟩

theorem record (h : Shares known live inHand m m') {k : Bytes} (hk : known k) :
    m'.record k = m.record k := by
  rw [Mandate.record, Mandate.record, h.ledger k hk]

/-! ### The parts of an operation -/

theorem answer {A : Type} (h : Shares known live inHand m m') (a : A) :
    AgreeOn known live inHand (a, m) (a, m') := ⟨rfl, h⟩

theorem put (h : Shares known live inHand m m') (k : Bytes) (r : Record) :
    Shares known live inHand (m.put k r) (m'.put k r) where
  ledger k' hk' := by
    by_cases hkk : k' = k
    · simp [Mandate.put, hkk]
    · simp [Mandate.put, hkk, h.ledger k' hk']
  sessions := h.sessions
  challenges := h.challenges

theorem save {A : Type} (h : Shares known live inHand m m') (k : Bytes) (r : Record)
    {next next' : Mandate → Except Exn A × Mandate}
    (hnext : AgreeOn known live inHand (next (m.put k r)) (next' (m'.put k r))) :
    AgreeOn known live inHand (m.save env k r next) (m'.save env k r next') := by
  simp only [Mandate.save]
  by_cases hput : env.putOk = true
  · simp only [hput, if_true]
    exact hnext
  · simp only [hput]
    exact h.answer _

theorem recordDecision (h : Shares known live inHand m m') (kind : String) (k : Bytes) (accepted : Bool)
    (why : String) (inst : Option Bytes) :
    Shares known live inHand (m.recordDecision P cfg env kind k accepted why inst)
      (m'.recordDecision P cfg env kind k accepted why inst) :=
  ⟨h.ledger, h.sessions, h.challenges⟩

theorem refuse (h : Shares known live inHand m m') (msg : Json) (why : String) (inst : Option Bytes) :
    AgreeOn known live inHand (m.refuse msg why inst) (m'.refuse msg why inst) := by
  simp only [Mandate.refuse]
  cases msg.item "counter" with
  | error x => exact h.answer _
  | ok _ => exact h.answer _

/-- A challenge struck out. -/
theorem strike (h : Shares known live inHand m m') (nonce : Bytes) :
    Shares known live inHand { m with challenges := Function.update m.challenges nonce none }
      { m' with challenges := Function.update m'.challenges nonce none } where
  ledger := h.ledger
  sessions := h.sessions
  challenges x hx := by
    by_cases hxn : x = nonce
    · simp [hxn]
    · simp [Function.update_of_ne hxn, h.challenges x hx]

/-- A chain moved on. -/
theorem advance (h : Shares known live inHand m m') (key : Bytes × Bytes) (s : Option Session) :
    Shares known live inHand { m with sessions := Function.update m.sessions key s }
      { m' with sessions := Function.update m'.sessions key s } where
  ledger := h.ledger
  sessions key' hkey' := by
    by_cases hkey : key' = key
    · simp [hkey]
    · simp [Function.update_of_ne hkey, h.sessions key' hkey']
  challenges := h.challenges

theorem dropSessions (h : Shares known live inHand m m') (k : Bytes) :
    Shares known live inHand (m.dropSessions k) (m'.dropSessions k) where
  ledger := h.ledger
  sessions key hkey := by simp only [Mandate.dropSessions, h.sessions key hkey]
  challenges := h.challenges

/-! ### The operations -/

/-- A challenge is in the hands of both from when it is issued. -/
theorem challenge (h : Shares known live inHand m m') (nonce : Bytes) :
    Shares known live (fun x => x = nonce ∨ inHand x) (m.challenge cfg env nonce)
      (m'.challenge cfg env nonce) where
  ledger := h.ledger
  sessions := h.sessions
  challenges x hx := by
    by_cases hxn : x = nonce
    · simp [Mandate.challenge, hxn]
    · have hin := hx.resolve_left hxn
      simp [Mandate.challenge, Function.update_of_ne hxn, h.challenges x hin]

theorem enrollCore (h : Shares known live inHand m m') {k nonce : Bytes} (hk : known k)
    (hnonce : inHand nonce) (evidence : Json) (csrDer : Bytes) (authority : Option Bytes) (authorisation : Option Json)
    (sig : Option Bytes) :
    AgreeOn known live inHand (m.enrollCore P cfg env k evidence nonce csrDer authority authorisation sig)
      (m'.enrollCore P cfg env k evidence nonce csrDer authority authorisation sig) := by
  simp only [Mandate.enrollCore, Mandate.enrollWith]
  rw [h.challenges nonce hnonce, h.record hk]
  cases m.challenges nonce with
  | none => exact h.answer _
  | some expiry =>
      apply AgreeOn.ite ((h.strike nonce).answer _)
      rcases permitted P cfg env k nonce authorisation sig with x | ⟨_ | _, why⟩
      · exact h.answer _
      · exact h.answer _
      apply AgreeOn.ite (h.answer _)
      rcases csrPublicKeyDer P csrDer with e | spki
      · exact h.answer _
      apply AgreeOn.ite (h.answer _)
      rcases cfg.verifyReport evidence (P.sha512 (nonce ++ csrDer)) with x | ⟨_ | _, _ | anchor⟩
      · exact h.answer _
      · exact h.answer _
      · exact h.answer _
      · exact h.answer _
      apply AgreeOn.ite (h.answer _)
      exact (h.strike nonce).save k _ (((h.strike nonce).put k _).answer _)

theorem revoke (h : Shares known live inHand m m') {k : Bytes} (hk : known k) (reason : String) :
    AgreeOn known live inHand (m.revoke P cfg env k reason) (m'.revoke P cfg env k reason) := by
  simp only [Mandate.revoke, Mandate.revokeWith]
  rw [h.record hk]
  exact h.save k _ ⟨rfl, (h.put k _).recordDecision ..⟩

theorem acceptTransfer (h : Shares known live inHand m m') {k : Bytes} (hk : known k) (grant : Json)
    (sig : Bytes) :
    AgreeOn known live inHand (m.acceptTransfer P cfg env k grant sig)
      (m'.acceptTransfer P cfg env k grant sig) := by
  simp only [Mandate.acceptTransfer, h.record hk]
  rcases checkGrant P cfg env (m.record k) k grant sig with x | why | ⟨fields, toInstance, w⟩
  · exact h.answer _
  · exact ⟨rfl, h.recordDecision ..⟩
  · cases hnonce : Json.lookup fields "nonce" with
    | none =>
        simp only [hnonce]
        exact h.answer _
    | some nonce =>
        simp only [hnonce]
        exact h.save k _ ⟨rfl, ((h.put k _).dropSessions k).recordDecision ..⟩

section Appraise

variable {k ctx exporter : Bytes} {msg : Json} {pl : Bytes} {r : Record} {inst place : Option Bytes}
  {first : Except Exn Bytes}

theorem admitStep (h : Shares known live inHand m m') (key : Bytes × Bytes) (counter : ℕ) :
    AgreeOn known live inHand (m.admitStep env k key counter pl r inst place)
      (m'.admitStep env k key counter pl r inst place) := by
  have hadv := h.advance key (some ⟨pl, counter⟩)
  cases inst with
  | none => exact hadv.answer _
  | some i => exact hadv.save k _ ((hadv.put k _).answer _)

theorem appraiseLink (h : Shares known live inHand m m') (base : Bytes) (counter : ℕ) :
    AgreeOn known live inHand (m.appraiseLink P env k ctx exporter msg pl r inst place base counter)
      (m'.appraiseLink P env k ctx exporter msg pl r inst place base counter) := by
  simp only [Mandate.appraiseLink]
  cases Binder.postLink P exporter base counter with
  | error x => exact h.answer _
  | ok link =>
      apply AgreeOn.ite
      · exact h.save k _ ((h.put k _).refuse ..)
      · exact h.admitStep _ counter

/-- The chain is looked up where both have it. -/
theorem appraiseChain (h : Shares known live inHand m m') (hkey : live (sessionKey P k ctx)) :
    AgreeOn known live inHand (m.appraiseChain P env first k ctx exporter msg pl r inst place)
      (m'.appraiseChain P env first k ctx exporter msg pl r inst place) := by
  simp only [Mandate.appraiseChain]
  rw [h.sessions _ hkey]
  cases m.sessions (sessionKey P k ctx) with
  | none =>
      cases msg.item "counter" with
      | error x => exact h.answer _
      | ok counter =>
          apply AgreeOn.ite (h.answer _)
          cases first with
          | error x => exact h.answer _
          | ok base => exact h.appraiseLink base 0
  | some session =>
      cases msg.item "counter" with
      | error x => exact h.answer _
      | ok counter =>
          apply AgreeOn.ite
          · exact h.save k _ ((h.put k _).answer _)
          · exact h.appraiseLink session.prev (session.counter + 1)

theorem appraiseInstance (h : Shares known live inHand m m') (hkey : live (sessionKey P k ctx)) :
    AgreeOn known live inHand (m.appraiseInstance P cfg env first k ctx exporter msg pl r inst place)
      (m'.appraiseInstance P cfg env first k ctx exporter msg pl r inst place) := by
  simp only [Mandate.appraiseInstance]
  apply AgreeOn.ite (h.refuse ..)
  rcases appraiseInstance.foreign (nonEmpty r.enrolledInstance) inst with _ | i
  · apply AgreeOn.ite (h.refuse ..)
    apply AgreeOn.ite
    · exact h.save k _ ((h.put k _).refuse ..)
    rcases appraiseInstance.foreign (nonEmpty r.observedInstance) inst with _ | i
    · exact h.appraiseChain hkey
    · exact h.save k _ ((h.put k _).refuse ..)
  · exact h.save k _ ((h.put k _).refuse ..)

/-- No head, so nothing is asked of the log. -/
theorem appraise (h : Shares known live inHand m m') (hk : known k)
    (hkey : live (sessionKey P k ctx)) (bundle : Option Json) :
    AgreeOn known live inHand (m.appraise P cfg env k ctx exporter msg none bundle)
      (m'.appraise P cfg env k ctx exporter msg none bundle) := by
  simp only [Mandate.appraise, appraiseWith, h.record hk]
  apply AgreeOn.ite (h.refuse ..)
  cases postLinkOf msg with
  | error x => exact h.answer _
  | ok pl =>
      simp only [checkHead]
      rcases verifyEvidence cfg msg (Binder.reportDataFor P pl none) with x | ⟨_ | _, _ | anchor⟩
      · exact h.answer _
      · exact h.refuse ..
      · exact h.refuse ..
      · apply AgreeOn.ite (h.refuse ..)
        cases msg.item "counter" with
        | error x => exact h.answer _
        | ok _ => exact h.appraiseInstance hkey
      · exact h.appraiseInstance hkey

end Appraise

/-! ### A call -/

theorem enroll (h : Shares known live inHand m m') {k nonce : Bytes} (hk : known k)
    (hnonce : inHand nonce) (evidence : Json) (csrDer : Bytes) (authority : Option Bytes) (authorisation : Option Json)
    (sig : Option Bytes) :
    AgreeOn known live inHand (m.enroll P cfg env k evidence nonce csrDer authority authorisation sig)
      (m'.enroll P cfg env k evidence nonce csrDer authority authorisation sig) := by
  have hcore : AgreeOn known live inHand
      (m.enrollCore P cfg env k evidence nonce csrDer authority authorisation sig)
      (m'.enrollCore P cfg env k evidence nonce csrDer authority authorisation sig) :=
    h.enrollCore hk hnonce evidence csrDer authority authorisation sig
  simp only [Mandate.enroll]
  generalize m.enrollCore P cfg env k evidence nonce csrDer authority authorisation sig = out,
    m'.enrollCore P cfg env k evidence nonce csrDer authority authorisation sig = out' at hcore
  obtain ⟨answer, n⟩ := out
  obtain ⟨answer', n'⟩ := out'
  obtain ⟨heq, hshares⟩ := hcore
  simp only at heq hshares
  subst heq
  cases answer' with
  | error x => exact hshares.answer _
  | ok v =>
      simp only [hshares.record hk]
      exact ⟨rfl, hshares.recordDecision ..⟩

theorem present (h : Shares known live inHand m m') {k ctx : Bytes} (hk : known k)
    (hkey : live (sessionKey P k ctx)) (exporter : Bytes) (msg : Json) (bundle : Option Json) :
    AgreeOn known live inHand (m.present P cfg env k ctx exporter msg none bundle)
      (m'.present P cfg env k ctx exporter msg none bundle) := by
  have happ : AgreeOn known live inHand (m.appraise P cfg env k ctx exporter msg none bundle)
      (m'.appraise P cfg env k ctx exporter msg none bundle) := h.appraise hk hkey bundle
  simp only [Mandate.present]
  generalize m.appraise P cfg env k ctx exporter msg none bundle = out,
    m'.appraise P cfg env k ctx exporter msg none bundle = out' at happ
  obtain ⟨answer, n⟩ := out
  obtain ⟨answer', n'⟩ := out'
  obtain ⟨heq, hshares⟩ := happ
  simp only at heq hshares
  subst heq
  cases answer' with
  | error x => exact hshares.answer _
  | ok v => exact ⟨rfl, hshares.recordDecision ..⟩

end Shares

/-- The call reads nothing but what is shared: no other record, chain or challenge, and not
the log. -/
def Call.Reads (P : Primitives) (known : Bytes → Prop) (live : Bytes × Bytes → Prop)
    (inHand : Bytes → Prop) : Call → Prop
  | .challenge _ => True
  | .enroll k _ nonce .. => known k ∧ inHand nonce
  | .revoke k _ => known k
  | .acceptTransfer k .. => known k
  | .present k ctx _ _ head _ => known k ∧ live (sessionKey P k ctx) ∧ head = none

/-- A presentation with a head or a bundle. -/
def Call.Witnesses : Call → Prop
  | .present _ _ _ _ head bundle => head ≠ none ∨ bundle ≠ none
  | _ => False

/-- A challenge with a nonce. -/
def Call.Issues (nonce : Bytes) : Call → Prop
  | .challenge nonce' => nonce' = nonce
  | _ => False

/-- **Such a call is answered alike**, and they share the same afterwards, with the nonce it
issues. -/
theorem Shares.step (h : Shares known live inHand m m') {i : Moment × Call}
    (hi : i.2.Reads P known live inHand) :
    AgreeOn known live (fun nonce => i.2.Issues nonce ∨ inHand nonce) (m.step P cfg i)
      (m'.step P cfg i) := by
  obtain ⟨t, c⟩ := i
  cases c with
  | challenge nonce =>
      refine ⟨rfl, (h.challenge nonce).mono (fun _ => id) fun x hx => ?_⟩
      exact hx.imp_left Eq.symm
  | enroll k evidence nonce csrDer authority authorisation sig =>
      exact ((h.enroll hi.1 hi.2 ..).map _).only
  | revoke k reason => exact ((h.revoke hi ..).map _).only
  | acceptTransfer k grant sig => exact ((h.acceptTransfer hi ..).map _).only
  | present k ctx exporter msg head bundle =>
      obtain ⟨hk, hkey, rfl⟩ := hi
      exact ((h.present hk hkey ..).map _).only

/-! ## Calls about another identity -/

/-- The identity a call is about. -/
def Call.Concerns (k : Bytes) : Call → Prop
  | .challenge _ => False
  | .enroll k' .. => k' = k
  | .revoke k' _ => k' = k
  | .acceptTransfer k' .. => k' = k
  | .present k' .. => k' = k

instance (k : Bytes) : DecidablePred (Call.Concerns k)
  | .challenge _ => inferInstanceAs (Decidable False)
  | .enroll k' .. => instDecidableEqList k' k
  | .revoke k' _ => instDecidableEqList k' k
  | .acceptTransfer k' .. => instDecidableEqList k' k
  | .present k' .. => instDecidableEqList k' k

/-- A call about an identity that is not shared, nor any of its sessions, which redeems no
challenge that is. -/
structure Call.Outside (known : Bytes → Prop) (live : Bytes × Bytes → Prop) (inHand : Bytes → Prop)
    (c : Call) : Prop where
  identity : ∃ k, c.Concerns k ∧ ¬ known k ∧ ∀ key, live key → key.1 ≠ k
  nonce : ∀ nonce, c.Redeems nonce → ¬ inHand nonce

namespace Shares

section Outside

variable {k : Bytes}

theorem of_put (hk : ¬ known k) (m : Mandate) (r : Record) : Shares known live inHand m (m.put k r) where
  ledger k' hk' := by
    have hne : k' ≠ k := by
      intro heq
      exact hk (heq ▸ hk')
    exact Function.update_of_ne hne _ _
  sessions _ _ := rfl
  challenges _ _ := rfl

theorem of_strike {nonce : Bytes} (hnonce : ¬ inHand nonce) (m : Mandate) :
    Shares known live inHand m
      { m with challenges := Function.update m.challenges nonce none } where
  ledger _ _ := rfl
  sessions _ _ := rfl
  challenges x hx := by
    have hne : x ≠ nonce := by
      intro heq
      exact hnonce (heq ▸ hx)
    exact Function.update_of_ne hne _ _

theorem of_recordDecision (h : Shares known live inHand m m') (kind : String) (k : Bytes)
    (accepted : Bool) (why : String) (inst : Option Bytes) :
    Shares known live inHand m (m'.recordDecision P cfg env kind k accepted why inst) :=
  ⟨h.ledger, h.sessions, h.challenges⟩

theorem of_dropSessions (h : Shares known live inHand m m') (hsessions : ∀ key, live key → key.1 ≠ k) :
    Shares known live inHand m (m'.dropSessions k) where
  ledger := h.ledger
  sessions key hkey := by
    rw [sessions_dropSessions, if_neg (hsessions key hkey)]
    exact h.sessions key hkey
  challenges := h.challenges

theorem of_admitted (hk : ¬ known k) (hsessions : ∀ key, live key → key.1 ≠ k) (m : Mandate)
    {key : Bytes × Bytes} (hkey : key.1 = k) (n : ℕ) (pl : Bytes) (inst place : Option Bytes) :
    Shares known live inHand m (m.admitted k key n pl inst place) where
  ledger k' hk' := by
    have hne : k' ≠ k := by
      intro heq
      exact hk (heq ▸ hk')
    cases inst with
    | none => rfl
    | some i => exact Function.update_of_ne hne _ _
  sessions key' hlive := by
    have hne : key' ≠ key := by
      intro heq
      exact hsessions key' hlive (heq ▸ hkey)
    rw [sessions_admitted]
    exact Function.update_of_ne hne _ _
  challenges _ _ := by rw [challenges_admitted]

/-- **A call outside changes nothing that is shared.** -/
theorem outside {i : Moment × Call} (hi : i.2.Outside known live inHand) (m : Mandate) :
    Shares known live inHand m (m.step P cfg i).2 := by
  obtain ⟨t, c⟩ := i
  obtain ⟨k, hconcerns, hk, hsessions⟩ := hi.identity
  cases c with
  | challenge => exact hconcerns.elim
  | enroll k' evidence nonce csrDer authority authorisation sig =>
      obtain rfl : k' = k := hconcerns
      have hnonce : ¬ inHand nonce := hi.nonce nonce rfl
      have hstrike : Shares known live inHand m
          { m with challenges := Function.update m.challenges nonce none } := of_strike hnonce m
      rcases enrollCore_cases P cfg m k' nonce csrDer evidence authority authorisation sig
        t.env_putOk with ⟨anchor, h, -⟩ | ⟨challenges, answer, heq, hch, -⟩
      · rw [step_of_enrols m t h]
        exact (hstrike.trans (of_put hk _ _)).of_recordDecision ..
      · have hcore : Shares known live inHand m { m with challenges := challenges } := by
          rcases hch with rfl | ⟨rfl, -⟩
          · exact refl m
          · exact hstrike
        simp only [Mandate.step, Mandate.enroll, heq]
        cases answer with
        | error x => exact hcore
        | ok v => exact hcore.of_recordDecision ..
  | revoke k' reason =>
      obtain rfl : k' = k := hconcerns
      rw [step_revoke]
      exact (of_put hk m _).of_recordDecision ..
  | acceptTransfer k' grant sig =>
      obtain rfl : k' = k := hconcerns
      rcases acceptTransfer_cases P cfg k' sig grant m t.env_putOk with
        ⟨fields, to_, w, nonce, h, hnonce, -⟩ | ⟨x, heq⟩ | ⟨reason, heq⟩
      · rw [step_of_grants m t h hnonce]
        exact ((of_put hk m _).of_dropSessions hsessions).of_recordDecision ..
      · simp only [Mandate.step, heq]
        exact refl m
      · simp only [Mandate.step, heq]
        exact (refl m).of_recordDecision ..
  | present k' ctx exporter msg head bundle =>
      obtain rfl : k' = k := hconcerns
      have happ : Shares known live inHand m
          (m.appraise P cfg t.env k' ctx exporter msg head bundle).2 := by
        rcases appraise_cases P cfg m k' ctx exporter msg t.env_putOk head bundle with
          ⟨inst, place, pl, n, -, heq⟩ | ⟨-, hst | ⟨r', why, inst, -, hst⟩⟩
        · rw [heq]
          exact of_admitted hk hsessions m rfl n pl inst place
        · rw [hst]
          exact refl m
        · rw [hst]
          exact of_put hk m r'
      simp only [Mandate.step, Mandate.present]
      generalize m.appraise P cfg t.env k' ctx exporter msg head bundle = out at happ
      obtain ⟨answer, m'⟩ := out
      cases answer with
      | error x => exact happ
      | ok v => exact happ.of_recordDecision ..

end Outside

end Shares

end Hatls
