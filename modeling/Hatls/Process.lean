import Hatls.Lib.Run
import Hatls.Appraisal

/-!
# Runs of a mandate

The operations as the steps of a machine, over a store that takes every write.  A step
has one of five effects, each an accepted decision with the state it leaves, or none
worth the name; every invariant of a run is read off these five.

## Main definitions

* `Call`, `Moment`, `Reply`, `Mandate.step` — one call.
* `Effect`, `Mandate.step_effect` — what a call does to the ledger and the sessions.
* `Change`, `Mandate.step_change` — the same, for the record of one identity.
* `Decision`, `Call.decision` — what is to be logged of a call.
* `Mandate.step_recorded`, `Mandate.step_log` — what a call does to the log.
* `Mandate.after`, `Mandate.Written`, `Mandate.Reachable` — runs, and where they start.
-/

namespace Hatls

/-- A call with the arguments its caller chose; `challenge` carries the nonce drawn. -/
inductive Call
  | challenge (nonce : Bytes)
  | enroll (tikPub : Bytes) (enrollEvidence : Json) (nonce csrDer : Bytes)
      (transferAuthority : Option Bytes) (authorisation : Option Json)
      (authorisationSig : Option Bytes)
  | revoke (tikPub : Bytes) (reason : String)
  | acceptTransfer (tikPub : Bytes) (grant : Json) (signature : Bytes)
  | present (tikPub sessionContext exporter : Bytes) (msg : Json) (head : Option Bytes)
      (bundle : Option Json)

namespace Call

/-- A presentation for the identity `k`. -/
def Presents (k : Bytes) : Call → Prop
  | .present k' .. => k' = k
  | _ => False

/-- A presentation for `k` shows evidence that verifies for its own link and head, with an anchor. -/
inductive Shows (P : Primitives) (cfg : Config) (k : Bytes) : Call → Json → Anchor → Prop
  | present {ctx exporter : Bytes} {msg : Json} {head : Option Bytes} {bundle : Option Json}
      {pl : Bytes} {evidence : Json} {anchor : Anchor} (hlink : Mandate.postLinkOf msg = .ok pl)
      (hevidence : msg.item "evidence" = .ok evidence)
      (hverified : cfg.verifyReport evidence (Binder.reportDataFor P pl head) =
        .ok (true, some anchor)) :
      Shows P cfg k (.present k ctx exporter msg head bundle) evidence anchor

/-- An enrolment of `k`. -/
def Enrolls (k : Bytes) : Call → Prop
  | .enroll k' .. => k' = k
  | _ => False

/-- A request to transfer `k`. -/
def Transfers (k : Bytes) : Call → Prop
  | .acceptTransfer k' .. => k' = k
  | _ => False

/-- A presentation in the session kept under a key. -/
def Continues (P : Primitives) (key : Bytes × Bytes) : Call → Prop
  | .present k ctx .. => Mandate.sessionKey P k ctx = key
  | _ => False

/-- A presentation for `k` in a session, of a message with a given counter. -/
def Counts (k ctx : Bytes) (n : ℤ) : Call → Prop
  | .present k' ctx' _ msg .. => k' = k ∧ ctx' = ctx ∧ ∃ c, msg.item "counter" = .ok c ∧ c.eqInt n = true
  | _ => False

/-- A request to transfer `k` by a grant with a given nonce. -/
def Spends (k : Bytes) (nonce : Json) : Call → Prop
  | .acceptTransfer k' (.obj fields) _ => k' = k ∧ Json.lookup fields "nonce" = some nonce
  | _ => False

/-- A revocation of `k`. -/
def Revokes (k : Bytes) : Call → Prop
  | .revoke k' _ => k' = k
  | _ => False

instance (k : Bytes) : DecidablePred (Transfers k) := fun c => by
  cases c with
  | acceptTransfer k' _ _ => exact inferInstanceAs (Decidable (k' = k))
  | _ => exact inferInstanceAs (Decidable False)

end Call

/-- Past the gates about the message, evidence has been shown. -/
theorem Verified.shows {P : Primitives} {cfg : Config} {m : Mandate} {k i pl : Bytes} {msg : Json}
    {head : Option Bytes} {bundle : Option Json} {place : Option Bytes}
    (h : Verified P cfg m k msg head bundle (some i) place pl) (ctx exporter : Bytes) :
    ∃ evidence anchor,
      Call.Shows P cfg k (.present k ctx exporter msg head bundle) evidence anchor ∧
        anchor.inst = i ∧ anchor.place = place := by
  obtain ⟨evidence, anchor, hevidence, hverified, hinst, hplace⟩ := h.exists_anchor
  exact ⟨evidence, anchor, .present h.link hevidence hverified, hinst, hplace⟩


/-- The clock and the randomness of a call. -/
structure Moment where
  now : ℚ
  rnd : Bytes

/-- A call is served by a working store. -/
def Moment.env (t : Moment) : Env := ⟨t.now, t.rnd, true⟩

@[simp] theorem Moment.env_putOk (t : Moment) : t.env.putOk = true := rfl

@[simp] theorem Moment.env_now (t : Moment) : t.env.now = t.now := rfl

/-- What the caller sees. -/
inductive Reply
  | nonce
  | decision (v : Verdict)
  | raised (x : Exn)

/-- The call returned `True`. -/
def Reply.accepted : Reply → Bool
  | .decision v => v.ok
  | _ => false

/-- The instance of an accepted presentation. -/
def Reply.inst : Reply → Option Bytes
  | .decision v => v.inst
  | _ => none

/-- The reply of an operation that answers `(ok, why)`. -/
def Reply.ofAnswer : Except Exn (Bool × String) → Reply
  | .ok (ok, why) => .decision ⟨ok, why, none⟩
  | .error x => .raised x

def Reply.ofVerdict : Except Exn Verdict → Reply
  | .ok v => .decision v
  | .error x => .raised x

/-- A decision, as the log is to hold it. -/
structure Decision where
  kind : String
  tikPub : Bytes
  accepted : Bool
  reason : String
  at_ : ℤ

/-- The decision of a call that returned.  A revocation is logged with the reason it was
given, and any other call with the reason it returned. -/
def Call.decision (t : Moment) : Call → Reply → Option Decision
  | .enroll k .., .decision v => some ⟨"enroll", k, v.ok, v.why, t.env.time⟩
  | .revoke k reason, .decision v => some ⟨"revoke", k, v.ok, reason, t.env.time⟩
  | .acceptTransfer k .., .decision v => some ⟨"transfer", k, v.ok, v.why, t.env.time⟩
  | .present k .., .decision v => some ⟨"present", k, v.ok, v.why, t.env.time⟩
  | _, _ => none

namespace Mandate

variable (P : Primitives) (cfg : Config)

/-- One call. -/
def step (m : Mandate) (i : Moment × Call) : Reply × Mandate :=
  match i.2 with
  | .challenge nonce => (.nonce, m.challenge cfg i.1.env nonce)
  | .enroll k evidence nonce csrDer authority authorisation sig =>
    (m.enroll P cfg i.1.env k evidence nonce csrDer authority authorisation sig).map
      Reply.ofAnswer id
  | .revoke k reason => (m.revoke P cfg i.1.env k reason).map Reply.ofAnswer id
  | .acceptTransfer k grant sig =>
    (m.acceptTransfer P cfg i.1.env k grant sig).map Reply.ofAnswer id
  | .present k ctx exporter msg head bundle =>
    (m.present P cfg i.1.env k ctx exporter msg head bundle).map Reply.ofVerdict id

/-- The record after a revocation. -/
def revokedFor (r : Record) (reason : String) : Record :=
  { r with revoked := true, reason := some reason }

end Mandate

open Mandate

/-- A presentation for an identity is objected to, and leaves a note. -/
inductive Objected (P : Primitives) (cfg : Config) (m : Mandate) (t : Moment) (k : Bytes) :
    Call → Record → Prop
  | present {ctx exporter : Bytes} {msg : Json} {head : Option Bytes} {bundle : Option Json}
      {r' : Record} {why : String} {inst : Option Bytes}
      (h : Objects P cfg t.env m k ctx exporter msg head bundle r' why inst) :
      Objected P cfg m t k (.present k ctx exporter msg head bundle) r'

theorem Objected.noted {P : Primitives} {cfg : Config} {m : Mandate} {t : Moment} {k : Bytes}
    {c : Call} {r' : Record} (h : Objected P cfg m t k c r') : Noted cfg t.env (m.record k) r' := by
  cases h with
  | present h => exact h.noted

/-- **What a call does.**  It is an accepted decision of one of four kinds, or it leaves
the sessions alone and at most notes something in records. -/
inductive Effect (P : Primitives) (cfg : Config) (m : Mandate) (t : Moment) :
    Call → Reply → Mandate → Prop
  | enrolled {k : Bytes} {evidence : Json} {nonce csrDer : Bytes} {authority : Option Bytes}
      {authorisation : Option Json} {sig : Option Bytes} {anchor : Anchor}
      (h : Enrols P cfg t.env m k evidence nonce csrDer authorisation sig anchor) :
      Effect P cfg m t (.enroll k evidence nonce csrDer authority authorisation sig)
        (.decision ⟨true, "enrolled", none⟩)
        ((m.enrolledAs k nonce anchor authority).recordDecision P cfg t.env "enroll" k true
          "enrolled" (nonEmpty (some anchor.inst)))
  | revoked {k : Bytes} {reason : String} :
      Effect P cfg m t (.revoke k reason) (.decision ⟨true, "identity revoked: " ++ reason, none⟩)
        ((m.put k (revokedFor (m.record k) reason)).recordDecision P cfg t.env "revoke" k true
          reason none)
  | transferred {k : Bytes} {grant : Json} {sig : Bytes} {fields : List (String × Json)}
      {toInstance : Bytes} {w : Witness} {nonce : Json}
      (h : Grants P cfg t.env (m.record k) k grant sig fields toInstance w)
      (hnonce : Json.lookup fields "nonce" = some nonce) :
      Effect P cfg m t (.acceptTransfer k grant sig) (.decision ⟨true, transferredText, none⟩)
        ((Mandate.transferred t.env m k fields toInstance w nonce).recordDecision P cfg t.env
          "transfer" k true transferredText (some toInstance))
  | presented {k ctx exporter : Bytes} {msg : Json} {head : Option Bytes} {bundle : Option Json}
      {inst place : Option Bytes} {pl : Bytes} {n : ℕ}
      (h : Admits P cfg m k ctx exporter msg head bundle inst place pl n) :
      Effect P cfg m t (.present k ctx exporter msg head bundle)
        (.decision (acceptedVerdict inst))
        ((m.admitted k (sessionKey P k ctx) n pl inst place).recordDecision P cfg t.env "present" k
          true "accepted; continuity intact" inst)
  | quiet {c : Call} {reply : Reply} {m' : Mandate} (hreply : reply.accepted = false)
      (hsessions : m'.sessions = m.sessions)
      (hrecord : ∀ k, m'.record k = m.record k ∨ Objected P cfg m t k c (m'.record k)) :
      Effect P cfg m t c reply m'

/-- **What a call does to the record of one identity.** -/
inductive Change (P : Primitives) (cfg : Config) (m : Mandate) (t : Moment) (k : Bytes) :
    Call → Reply → Record → Prop
  | enrolled {evidence : Json} {nonce csrDer : Bytes} {authority : Option Bytes}
      {authorisation : Option Json} {sig : Option Bytes} {anchor : Anchor}
      (h : Enrols P cfg t.env m k evidence nonce csrDer authorisation sig anchor) :
      Change P cfg m t k (.enroll k evidence nonce csrDer authority authorisation sig)
        (.decision ⟨true, "enrolled", none⟩)
        { m.record k with
          enrolledInstance := some anchor.inst
          enrolledPlace := nonEmpty anchor.place
          transferAuthority := authority.or (m.record k).transferAuthority }
  | revoked {reason : String} :
      Change P cfg m t k (.revoke k reason)
        (.decision ⟨true, "identity revoked: " ++ reason, none⟩) (revokedFor (m.record k) reason)
  | transferred {grant : Json} {sig : Bytes} {fields : List (String × Json)} {toInstance : Bytes}
      {w : Witness} {nonce : Json}
      (h : Grants P cfg t.env (m.record k) k grant sig fields toInstance w)
      (hnonce : Json.lookup fields "nonce" = some nonce) :
      Change P cfg m t k (.acceptTransfer k grant sig) (.decision ⟨true, transferredText, none⟩)
        (moved t.env (m.record k) fields toInstance w nonce)
  | presented {ctx exporter : Bytes} {msg : Json} {head : Option Bytes} {bundle : Option Json}
      {i : Bytes} {place : Option Bytes} {pl : Bytes} {n : ℕ}
      (h : Admits P cfg m k ctx exporter msg head bundle (some i) place pl n) :
      Change P cfg m t k (.present k ctx exporter msg head bundle)
        (.decision (acceptedVerdict (some i)))
        { m.record k with observedInstance := some i, observedPlace := nonEmpty place }
  | noted {c : Call} {reply : Reply} {r' : Record} (hreply : reply.accepted = false)
      (h : Noted cfg t.env (m.record k) r') (hobj : Objected P cfg m t k c r') :
      Change P cfg m t k c reply r'
  | same {c : Call} {reply : Reply} : Change P cfg m t k c reply (m.record k)

theorem Effect.change {P : Primitives} {cfg : Config} {m m' : Mandate} {t : Moment} {c : Call}
    {reply : Reply} (h : Effect P cfg m t c reply m') (k : Bytes) :
    Change P cfg m t k c reply (m'.record k) := by
  cases h with
  | @enrolled k' _ _ _ _ _ _ _ h =>
      by_cases hk : k = k'
      · subst hk
        rw [record_recordDecision, record_enrolledAs_self]
        exact .enrolled h
      · rw [record_recordDecision, record_enrolledAs_of_ne hk]
        exact .same
  | @revoked k' =>
      by_cases hk : k = k'
      · subst hk
        rw [record_recordDecision, record_put_self]
        exact .revoked
      · rw [record_recordDecision, record_put_of_ne hk]
        exact .same
  | @transferred k' _ _ _ _ _ _ h hnonce =>
      by_cases hk : k = k'
      · subst hk
        rw [record_recordDecision, record_transferred_self]
        exact .transferred h hnonce
      · rw [record_recordDecision, record_transferred_of_ne hk]
        exact .same
  | @presented k' _ _ _ _ _ inst _ _ _ h =>
      rw [record_recordDecision]
      by_cases hk : k = k'
      · subst hk
        cases inst with
        | none => exact .same
        | some i =>
            rw [record_admitted_self]
            exact .presented h
      · rw [record_admitted_of_ne hk]
        exact .same
  | quiet hreply _ hrecord =>
      rcases hrecord k with heq | h
      · rw [heq]
        exact .same
      · exact .noted hreply h.noted h

namespace Mandate

variable {P : Primitives} {cfg : Config} (m : Mandate) (t : Moment)

theorem step_challenge (nonce : Bytes) :
    m.step P cfg (t, .challenge nonce) = (.nonce, m.challenge cfg t.env nonce) := rfl

/-- An enrolment under its conditions. -/
theorem step_of_enrols {k nonce csrDer : Bytes} {evidence : Json} {authorisation : Option Json}
    {sig : Option Bytes} {anchor : Anchor}
    (h : Enrols P cfg t.env m k evidence nonce csrDer authorisation sig anchor)
    (authority : Option Bytes) :
    m.step P cfg (t, .enroll k evidence nonce csrDer authority authorisation sig) =
      (.decision ⟨true, "enrolled", none⟩,
        (m.enrolledAs k nonce anchor authority).recordDecision P cfg t.env "enroll" k true
          "enrolled" (nonEmpty (some anchor.inst))) := by
  simp only [step, enroll, enrollCore_of_enrols t.env_putOk h, if_true, Prod.map, Reply.ofAnswer, id,
    enrolledAs, record_put_self]

/-- A revocation. -/
theorem step_revoke (k : Bytes) (reason : String) :
    m.step P cfg (t, .revoke k reason) =
      (.decision ⟨true, "identity revoked: " ++ reason, none⟩,
        (m.put k (revokedFor (m.record k) reason)).recordDecision P cfg t.env "revoke" k true
          reason none) := by
  simp only [step, revoke, revokeWith, save_of_putOk t.env_putOk]
  rfl

/-- A transfer under its conditions. -/
theorem step_of_grants {k sig : Bytes} {grant : Json} {fields : List (String × Json)}
    {toInstance : Bytes} {w : Witness} {nonce : Json}
    (h : Grants P cfg t.env (m.record k) k grant sig fields toInstance w)
    (hnonce : Json.lookup fields "nonce" = some nonce) :
    m.step P cfg (t, .acceptTransfer k grant sig) =
      (.decision ⟨true, transferredText, none⟩,
        (Mandate.transferred t.env m k fields toInstance w nonce).recordDecision P cfg t.env
          "transfer" k true transferredText (some toInstance)) := by
  simp only [step, acceptTransfer_of_grants t.env_putOk h hnonce, Prod.map, Reply.ofAnswer, id]

/-- The conditions suffice for a presentation to be accepted. -/
theorem step_of_admits {k ctx exporter : Bytes} {msg : Json} {head : Option Bytes}
    {bundle : Option Json} {inst place : Option Bytes} {pl : Bytes} {n : ℕ}
    (h : Admits P cfg m k ctx exporter msg head bundle inst place pl n) :
    m.step P cfg (t, .present k ctx exporter msg head bundle) =
      (.decision (acceptedVerdict inst),
        (m.admitted k (sessionKey P k ctx) n pl inst place).recordDecision P cfg t.env "present" k
          true "accepted; continuity intact" inst) := by
  simp only [step, present, appraise_of_admits t.env_putOk h]
  rfl

/-- What the presenter is told when the ledger objects. -/
theorem step_of_objects {k ctx exporter : Bytes} {msg : Json} {head : Option Bytes}
    {bundle : Option Json} {r' : Record} {why : String} {inst : Option Bytes}
    (h : Objects P cfg t.env m k ctx exporter msg head bundle r' why inst) :
    m.step P cfg (t, .present k ctx exporter msg head bundle) =
      match msg.item "counter" with
      | .error x => (.raised x, m.put k r')
      | .ok _ => (.decision ⟨false, why, inst⟩,
          (m.put k r').recordDecision P cfg t.env "present" k false why inst) := by
  simp only [step, Mandate.present, appraise_of_objects h, save_of_putOk t.env_putOk, refuse]
  cases msg.item "counter" <;> rfl

variable (P cfg) in
theorem step_effect (c : Call) : Effect P cfg m t c (m.step P cfg (t, c)).1 (m.step P cfg (t, c)).2 := by
  cases c with
  | challenge nonce => exact .quiet rfl rfl fun k => .inl rfl
  | enroll k evidence nonce csrDer authority authorisation sig =>
      rcases enrollCore_cases P cfg m k nonce csrDer evidence authority authorisation sig
        t.env_putOk with
        ⟨anchor, h, heq⟩ | ⟨challenges, answer, heq, -, hno⟩
      · rw [step_of_enrols m t h]
        exact .enrolled h
      · rcases answer with x | ⟨ok, why⟩
        · simp only [step, enroll, heq, Prod.map, Reply.ofAnswer, id]
          exact .quiet rfl rfl fun k => .inl rfl
        · cases ok with
          | true => exact absurd rfl (hno why)
          | false =>
              simp only [step, enroll, heq, Prod.map, Reply.ofAnswer, id]
              exact .quiet rfl rfl fun k => .inl rfl
  | revoke k reason =>
      rw [step_revoke]
      exact .revoked
  | acceptTransfer k grant sig =>
      rcases acceptTransfer_cases P cfg k sig grant m t.env_putOk with ⟨fields, to_, w, nonce, h, hnonce, heq⟩ | ⟨x, heq⟩ |
        ⟨reason, heq⟩
      · rw [step_of_grants m t h hnonce]
        exact .transferred h hnonce
      · simp only [step, heq, Prod.map, Reply.ofAnswer, id]
        exact .quiet rfl rfl fun k => .inl rfl
      · simp only [step, heq, Prod.map, Reply.ofAnswer, id]
        exact .quiet rfl rfl fun k => .inl rfl
  | present k ctx exporter msg head bundle =>
      rcases appraise_cases P cfg m k ctx exporter msg t.env_putOk head bundle with
        ⟨inst, place, pl, n, h, heq⟩ | ⟨hno, hst⟩
      · simp only [step, present, heq, Prod.map, Reply.ofVerdict, id]
        exact .presented h
      · have hquiet : ∀ m' : Mandate, m'.sessions = (m.appraise P cfg t.env k ctx exporter msg head bundle).2.sessions →
            m'.ledger = (m.appraise P cfg t.env k ctx exporter msg head bundle).2.ledger →
            m'.sessions = m.sessions ∧ ∀ k', m'.record k' = m.record k' ∨
              Objected P cfg m t k' (.present k ctx exporter msg head bundle) (m'.record k') := by
          intro m' hs hl
          have hrec : ∀ k', m'.record k' =
              (m.appraise P cfg t.env k ctx exporter msg head bundle).2.record k' := fun k' => by
            simp only [record, hl]
          rcases hst with hst | ⟨r', _, _, hobj, hst⟩
          · exact ⟨by rw [hs, hst], fun k' => .inl (by rw [hrec, hst])⟩
          · refine ⟨by rw [hs, hst]; rfl, fun k' => ?_⟩
            rw [hrec, hst, record_put]
            split_ifs with hk
            · subst hk
              exact .inr (.present hobj)
            · exact .inl rfl
        simp only [step, present]
        generalize m.appraise P cfg t.env k ctx exporter msg head bundle = out at hno hquiet
        obtain ⟨answer, m'⟩ := out
        cases answer with
        | error x =>
            obtain ⟨hs, hr⟩ := hquiet m' rfl rfl
            exact .quiet rfl hs hr
        | ok v =>
            obtain ⟨hs, hr⟩ := hquiet
              (m'.recordDecision P cfg t.env "present" k v.ok v.why v.inst) rfl rfl
            exact .quiet (hno v rfl) hs hr

variable (P cfg) in
theorem step_change (c : Call) (k : Bytes) :
    Change P cfg m t k c (m.step P cfg (t, c)).1 ((m.step P cfg (t, c)).2.record k) :=
  (m.step_effect P cfg t c).change k

/-- What the acceptance of a presentation says. -/
theorem admits_of_accepted {k ctx exporter : Bytes} {msg : Json} {head : Option Bytes}
    {bundle : Option Json}
    (h : (m.step P cfg (t, .present k ctx exporter msg head bundle)).1.accepted = true) :
    ∃ inst place pl n, Admits P cfg m k ctx exporter msg head bundle inst place pl n ∧
      m.step P cfg (t, .present k ctx exporter msg head bundle) =
        (.decision (acceptedVerdict inst),
          (m.admitted k (sessionKey P k ctx) n pl inst place).recordDecision P cfg t.env "present" k
            true "accepted; continuity intact" inst) := by
  have heff := m.step_effect P cfg t (.present k ctx exporter msg head bundle)
  generalize hout : m.step P cfg (t, .present k ctx exporter msg head bundle) = out at h heff
  obtain ⟨reply, m'⟩ := out
  cases heff with
  | presented hadm => exact ⟨_, _, _, _, hadm, rfl⟩
  | quiet hreply => simp [hreply] at h

/-- What the acceptance of an enrolment says. -/
theorem enrols_of_accepted {k nonce csrDer : Bytes} {evidence : Json} {authority : Option Bytes}
    {authorisation : Option Json} {sig : Option Bytes}
    (h : (m.step P cfg (t, .enroll k evidence nonce csrDer authority authorisation sig)).1.accepted =
      true) :
    ∃ anchor, Enrols P cfg t.env m k evidence nonce csrDer authorisation sig anchor := by
  have heff := m.step_effect P cfg t (.enroll k evidence nonce csrDer authority authorisation sig)
  generalize (m.step P cfg (t, .enroll k evidence nonce csrDer authority authorisation sig)).1 = reply,
    (m.step P cfg (t, .enroll k evidence nonce csrDer authority authorisation sig)).2 = m' at h heff
  cases heff with
  | enrolled henr => exact ⟨_, henr⟩
  | quiet hreply => simp [hreply] at h

/-- What the acceptance of a transfer says. -/
theorem grants_of_accepted {k sig : Bytes} {grant : Json}
    (h : (m.step P cfg (t, .acceptTransfer k grant sig)).1.accepted = true) :
    ∃ fields toInstance w nonce, Grants P cfg t.env (m.record k) k grant sig fields toInstance w ∧
      Json.lookup fields "nonce" = some nonce := by
  have heff := m.step_effect P cfg t (.acceptTransfer k grant sig)
  generalize (m.step P cfg (t, .acceptTransfer k grant sig)).1 = reply,
    (m.step P cfg (t, .acceptTransfer k grant sig)).2 = m' at h heff
  cases heff with
  | transferred hg hnonce => exact ⟨_, _, _, _, hg, hnonce⟩
  | quiet hreply => simp [hreply] at h

/-! ## Sessions -/

/-- **What a call does to the chain of one session.**  A transfer of the identity ends
it, an accepted presentation moves it on, and nothing else touches it. -/
inductive Advance (P : Primitives) (cfg : Config) (m : Mandate) (key : Bytes × Bytes) :
    Call → Reply → Option Session → Prop
  | ended {k : Bytes} {grant : Json} {sig : Bytes} (hkey : key.1 = k) :
      Advance P cfg m key (.acceptTransfer k grant sig) (.decision ⟨true, transferredText, none⟩) none
  | moved {k ctx exporter : Bytes} {msg : Json} {head : Option Bytes} {bundle : Option Json}
      {inst place : Option Bytes} {pl : Bytes} {n : ℕ}
      (h : Admits P cfg m k ctx exporter msg head bundle inst place pl n)
      (hkey : sessionKey P k ctx = key) :
      Advance P cfg m key (.present k ctx exporter msg head bundle)
        (.decision (acceptedVerdict inst)) (some ⟨pl, n⟩)
  | kept {c : Call} {reply : Reply}
      (h : reply.accepted = true → ¬ c.Transfers key.1 ∧ ¬ c.Continues P key) :
      Advance P cfg m key c reply (m.sessions key)

theorem advance_of_effect {m m' : Mandate} {t : Moment} {c : Call} {reply : Reply}
    (h : Effect P cfg m t c reply m') (key : Bytes × Bytes) :
    Advance P cfg m key c reply (m'.sessions key) := by
  cases h with
  | enrolled => exact .kept fun _ => ⟨id, id⟩
  | revoked => exact .kept fun _ => ⟨id, id⟩
  | @transferred k =>
      rw [sessions_recordDecision, sessions_transferred]
      by_cases hkey : key.1 = k
      · rw [if_pos hkey]
        exact .ended hkey
      · rw [if_neg hkey]
        exact .kept fun _ => ⟨fun h => hkey h.symm, id⟩
  | @presented k ctx _ _ _ _ _ _ _ _ hadm =>
      rw [sessions_recordDecision, sessions_admitted]
      by_cases hkey : sessionKey P k ctx = key
      · subst hkey
        rw [Function.update_self]
        exact .moved hadm rfl
      · rw [Function.update_of_ne (Ne.symm hkey)]
        exact .kept fun _ => ⟨id, hkey⟩
  | quiet hreply hsessions =>
      rw [hsessions]
      exact .kept fun h => absurd h (by simp [hreply])

variable (P cfg) in
theorem step_advance (c : Call) (key : Bytes × Bytes) :
    Advance P cfg m key c (m.step P cfg (t, c)).1 ((m.step P cfg (t, c)).2.sessions key) :=
  advance_of_effect (m.step_effect P cfg t c) key

/-! ## The log -/

/-- What a call does to the log: nothing, or one entry more, with a receipt that holds
the head then. -/
inductive Logged (P : Primitives) (cfg : Config) (m m' : Mandate) : Prop
  | nothing (merkle : m'.merkle = m.merkle) (roots : m'.roots = m.roots)
      (receipt : m'.lastReceipt = m.lastReceipt) : Logged P cfg m m'
  | entry (e : Bytes) (env : Env) (merkle : m'.merkle = m.merkle.append e)
      (roots : m'.roots = Function.update m.roots (m'.merkle.head P) (some m'.merkle.size))
      (receipt : m'.lastReceipt = (m'.receipt P cfg env (m'.merkle.size - 1)).toOption) :
      Logged P cfg m m'

/-- Two mandates with one log. -/
structure SameLog (m m' : Mandate) : Prop where
  merkle : m'.merkle = m.merkle
  roots : m'.roots = m.roots
  receipt : m'.lastReceipt = m.lastReceipt

theorem SameLog.refl (m : Mandate) : SameLog m m := ⟨rfl, rfl, rfl⟩

theorem SameLog.logged {m m' : Mandate} (h : SameLog m m') : Logged P cfg m m' :=
  .nothing h.merkle h.roots h.receipt

theorem SameLog.recordDecision {m m' : Mandate} (h : SameLog m m') (env : Env) (kind : String)
    (k : Bytes) (ok : Bool) (why : String) (inst : Option Bytes) :
    Logged P cfg m (m'.recordDecision P cfg env kind k ok why inst) :=
  .entry _ env (by rw [merkle_recordDecision, h.merkle]) (by rw [roots_recordDecision, h.roots]) rfl

theorem sameLog_admitted (k : Bytes) (key : Bytes × Bytes) (n : ℕ) (pl : Bytes)
    (inst place : Option Bytes) : SameLog m (m.admitted k key n pl inst place) := by
  cases inst <;> exact ⟨rfl, rfl, rfl⟩

variable (P cfg) in
theorem sameLog_enrollCore (k : Bytes) (evidence : Json) (nonce csrDer : Bytes)
    (authority : Option Bytes) (authorisation : Option Json) (sig : Option Bytes) :
    SameLog m
      (m.enrollCore P cfg t.env k evidence nonce csrDer authority authorisation sig).2 := by
  rcases enrollCore_cases P cfg m k nonce csrDer evidence authority authorisation sig
    t.env_putOk with
    ⟨anchor, -, heq⟩ | ⟨challenges, answer, heq, -, -⟩
  · rw [heq]; exact ⟨rfl, rfl, rfl⟩
  · rw [heq]; exact ⟨rfl, rfl, rfl⟩

variable (P cfg) in
theorem sameLog_appraise (k ctx exporter : Bytes) (msg : Json) (head : Option Bytes)
    (bundle : Option Json) :
    SameLog m (m.appraise P cfg t.env k ctx exporter msg head bundle).2 := by
  rcases appraise_cases P cfg m k ctx exporter msg t.env_putOk head bundle with
    ⟨inst, place, pl, n, -, heq⟩ | ⟨-, hst | ⟨r', _, _, -, hst⟩⟩
  · rw [heq]; exact sameLog_admitted m k _ n pl inst place
  · rw [hst]; exact .refl m
  · rw [hst]; exact ⟨rfl, rfl, rfl⟩

variable (P cfg) in
/-- **A call that returns a decision logs it, once, and no other call logs anything.** -/
theorem step_recorded (c : Call) : ∃ m' : Mandate, SameLog m m' ∧
    match c.decision t (m.step P cfg (t, c)).1 with
    | none => (m.step P cfg (t, c)).2 = m'
    | some d => ∃ inst, (m.step P cfg (t, c)).2 =
        m'.recordDecision P cfg t.env d.kind d.tikPub d.accepted d.reason inst := by
  cases c with
  | challenge nonce => exact ⟨m.challenge cfg t.env nonce, ⟨rfl, rfl, rfl⟩, rfl⟩
  | enroll k evidence nonce csrDer authority authorisation sig =>
      have hlog := sameLog_enrollCore P cfg m t k evidence nonce csrDer authority
        authorisation sig
      simp only [step, enroll]
      generalize m.enrollCore P cfg t.env k evidence nonce csrDer authority authorisation sig = out
        at hlog
      obtain ⟨answer, m'⟩ := out
      cases answer with
      | error x => exact ⟨m', hlog, rfl⟩
      | ok v => exact ⟨m', hlog, _, rfl⟩
  | revoke k reason =>
      rw [step_revoke]
      exact ⟨m.put k (revokedFor (m.record k) reason), ⟨rfl, rfl, rfl⟩, none, rfl⟩
  | acceptTransfer k grant sig =>
      rcases acceptTransfer_cases P cfg k sig grant m t.env_putOk with
        ⟨fields, to_, w, nonce, h, hnonce, -⟩ | ⟨x, heq⟩ | ⟨reason, heq⟩
      · rw [step_of_grants m t h hnonce]
        exact ⟨transferred t.env m k fields to_ w nonce, ⟨rfl, rfl, rfl⟩, some to_, rfl⟩
      · simp only [step, heq]
        exact ⟨m, .refl m, rfl⟩
      · simp only [step, heq]
        exact ⟨m, .refl m, none, rfl⟩
  | present k ctx exporter msg head bundle =>
      have hlog := sameLog_appraise P cfg m t k ctx exporter msg head bundle
      simp only [step, present]
      generalize m.appraise P cfg t.env k ctx exporter msg head bundle = out at hlog
      obtain ⟨answer, m'⟩ := out
      cases answer with
      | error x => exact ⟨m', hlog, rfl⟩
      | ok v => exact ⟨m', hlog, _, rfl⟩

variable (P cfg) in
/-- **A call logs at most one entry.** -/
theorem step_log (c : Call) : Logged P cfg m (m.step P cfg (t, c)).2 := by
  obtain ⟨m', hlog, hstep⟩ := step_recorded P cfg m t c
  split at hstep
  · rw [hstep]
    exact hlog.logged
  · obtain ⟨inst, hstep⟩ := hstep
    rw [hstep]
    exact hlog.recordDecision ..

end Mandate

/-- A head the log has had, it has had. -/
theorem Mandate.knowsHead_step {P : Primitives} {cfg : Config} {m : Mandate} {head : Bytes}
    (i : Moment × Call) (h : m.knowsHead head = true) :
    (m.step P cfg i).2.knowsHead head = true := by
  obtain ⟨t, c⟩ := i
  rcases m.step_log P cfg t c with ⟨-, hr, -⟩ | ⟨e, env, -, hr, -⟩
  · rwa [knowsHead, hr]
  · rw [knowsHead, hr]
    by_cases heq : head = (m.step P cfg (t, c)).2.merkle.head P
    · simp [heq]
    · rwa [Function.update_of_ne heq]

/-! ## Runs -/

namespace Mandate

variable (P : Primitives) (cfg : Config)

/-- The state of a mandate over a store, after a run of calls. -/
def after (ledger : Bytes → Option Record) (run : List (Moment × Call)) : Mandate :=
  Run.exec (step P cfg) (new P ledger) run

theorem after_concat (ledger : Bytes → Option Record) (run : List (Moment × Call))
    (i : Moment × Call) :
    after P cfg ledger (run ++ [i]) = ((after P cfg ledger run).step P cfg i).2 := by
  simp [after]

theorem along_concat {Q : Mandate → Moment × Call → Prop} (ledger : Bytes → Option Record)
    (run : List (Moment × Call)) (i : Moment × Call) :
    Run.Along (step P cfg) Q (new P ledger) (run ++ [i]) ↔
      Run.Along (step P cfg) Q (new P ledger) run ∧ Q (after P cfg ledger run) i := by
  simp [after]

theorem after_append (ledger : Bytes → Option Record) (run mid : List (Moment × Call))
    (i : Moment × Call) :
    after P cfg ledger (run ++ i :: mid) =
      Run.exec (step P cfg) ((after P cfg ledger run).step P cfg i).2 mid := by
  simp [after]

/-- A call `p` picks out, and accepted. -/
def Accepted (p : Call → Prop) (m : Mandate) (i : Moment × Call) : Prop :=
  p i.2 ∧ (m.step P cfg i).1.accepted = true

/-- The ledgers a store can hold: an empty one, and what a mandate of any configuration
leaves in such a store.  A mandate is restarted over one. -/
inductive Written : (Bytes → Option Record) → Prop
  | empty : Written fun _ => none
  | run {ledger : Bytes → Option Record} (h : Written ledger) (cfg : Config)
      (calls : List (Moment × Call)) : Written (after P cfg ledger calls).ledger

/-- The states a mandate can be in. -/
def Reachable (m : Mandate) : Prop := ∃ ledger run, Written P ledger ∧ m = after P cfg ledger run

/-- What a call of any mandate keeps of the records, every written ledger has. -/
theorem Written.induction {P : Primitives} (Inv : (Bytes → Record) → Prop)
    (hblank : Inv fun _ => .blank)
    (hcall : ∀ (cfg : Config) (m : Mandate) (i : Moment × Call), Inv m.record →
      Inv (m.step P cfg i).2.record)
    {ledger : Bytes → Option Record} (h : Written P ledger) : Inv (new P ledger).record := by
  induction h with
  | empty => exact hblank
  | run _ cfg calls ih => exact Run.exec_invariant' (step P cfg) (fun m : Mandate => Inv m.record) (hcall cfg) calls ih

theorem Reachable.induction {P : Primitives} {cfg : Config} {Inv : (Bytes → Record) → Prop}
    (hblank : Inv fun _ => .blank)
    (hcall : ∀ (cfg : Config) (m : Mandate) (i : Moment × Call), Inv m.record →
      Inv (m.step P cfg i).2.record) {m : Mandate} (h : Reachable P cfg m) : Inv m.record := by
  obtain ⟨ledger, run, hw, rfl⟩ := h
  exact Run.exec_invariant' (step P cfg) (fun m : Mandate => Inv m.record) (hcall cfg) run
    (hw.induction Inv hblank hcall)

end Mandate

/-! ## Restarts -/

/-- A running mandate, with the arguments it was built with. -/
structure Process where
  cfg : Config
  mandate : Mandate

/-- A call, or a restart over the store the process had. -/
inductive Event
  | call (i : Moment × Call)
  | restart (cfg : Config)

namespace Process

variable (P : Primitives)

/-- Nothing but the store outlives a process. -/
def step (s : Process) : Event → Option Reply × Process
  | .call i => (some (s.mandate.step P s.cfg i).1, ⟨s.cfg, (s.mandate.step P s.cfg i).2⟩)
  | .restart cfg => (none, ⟨cfg, .new P s.mandate.ledger⟩)

theorem step_call (s : Process) (i : Moment × Call) :
    s.step P (.call i) =
      (some (s.mandate.step P s.cfg i).1, ⟨s.cfg, (s.mandate.step P s.cfg i).2⟩) := rfl

/-- The process over a store, after a sequence of events. -/
def after (cfg : Config) (ledger : Bytes → Option Record) (events : List Event) : Process :=
  Run.exec (step P) ⟨cfg, .new P ledger⟩ events

theorem after_concat (cfg : Config) (ledger : Bytes → Option Record) (events : List Event)
    (e : Event) : after P cfg ledger (events ++ [e]) = ((after P cfg ledger events).step P e).2 := by
  simp [after]

theorem after_append (cfg : Config) (ledger : Bytes → Option Record) (events mid : List Event)
    (e : Event) :
    after P cfg ledger (events ++ e :: mid) =
      Run.exec (step P) ((after P cfg ledger events).step P e).2 mid := by
  simp [after]

/-- Without restarts it is a run of one mandate. -/
theorem after_calls (cfg : Config) (ledger : Bytes → Option Record) (run : List (Moment × Call)) :
    after P cfg ledger (run.map .call) = ⟨cfg, Mandate.after P cfg ledger run⟩ := by
  induction run using List.reverseRecOn with
  | nil => rfl
  | append_singleton run i ih =>
      rw [List.map_append, List.map_singleton, after_concat, ih, Mandate.after_concat]
      rfl

/-- A call `p` picks out, and accepted. -/
def Accepted (p : Call → Prop) (s : Process) (e : Event) : Prop :=
  ∃ i, e = .call i ∧ Mandate.Accepted P s.cfg p s.mandate i

variable {P}

theorem accepted_calls {cfg : Config} {ledger : Bytes → Option Record} {run : List (Moment × Call)}
    {p : Call → Prop} {i : Moment × Call} :
    (after P cfg ledger (run.map .call)).Accepted P p (.call i) ↔
      Mandate.Accepted P cfg p (Mandate.after P cfg ledger run) i := by
  rw [after_calls]
  exact ⟨fun ⟨_, hi, h⟩ => Event.call.inj hi ▸ h, fun h => ⟨i, rfl, h⟩⟩

/-- **What an event does to the record of one identity.** -/
theorem step_change (s : Process) (e : Event) (k : Bytes) :
    (∃ t c, e = .call (t, c) ∧ Change P s.cfg s.mandate t k c (s.mandate.step P s.cfg (t, c)).1
      ((s.step P e).2.mandate.record k)) ∨
    (s.step P e).2.mandate.record k = s.mandate.record k := by
  cases e with
  | call i => exact .inl ⟨i.1, i.2, rfl, s.mandate.step_change P s.cfg i.1 i.2 k⟩
  | restart cfg => exact .inr rfl

/-- What every change keeps of the record of an identity, events keep. -/
theorem record_invariant {k : Bytes} (Inv : Record → Prop)
    (hchange : ∀ cfg m t c reply r', Change P cfg m t k c reply r' → Inv (m.record k) → Inv r')
    (s : Process) (e : Event) (h : Inv (s.mandate.record k)) :
    Inv ((s.step P e).2.mandate.record k) := by
  rcases s.step_change e k with ⟨t, c, -, hch⟩ | heq
  · exact hchange _ _ _ _ _ _ hch h
  · rwa [heq]

/-- What every change keeps, holds of every record over a store that only mandates have
written. -/
theorem record_after (Inv : Record → Prop) (hblank : Inv .blank)
    (hchange : ∀ cfg m t k c reply r', Change P cfg m t k c reply r' → Inv (m.record k) → Inv r')
    {ledger : Bytes → Option Record} (hledger : Written P ledger) (cfg : Config)
    (events : List Event) (k : Bytes) : Inv ((after P cfg ledger events).mandate.record k) := by
  have hstart : ∀ k, Inv ((Mandate.new P ledger).record k) :=
    hledger.induction (fun record => ∀ k, Inv (record k)) (fun _ => hblank)
      fun cfg m i h k => hchange cfg m i.1 k i.2 _ _ (m.step_change P cfg i.1 i.2 k) (h k)
  exact Run.exec_invariant' (step P) (fun s => Inv (s.mandate.record k))
    (fun s e => record_invariant Inv (fun cfg m t => hchange cfg m t k) s e) events (hstart k)

end Process

end Hatls
