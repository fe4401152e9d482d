import Hatls.Atomicity
import Hatls.Witnesses

/-!
# What a refusal leaves behind

A call that is refused must not change what an identity's standing rests on, nor end a
chain, nor spend a challenge that is still good.  An enrolment that is refused changes at
most the challenges, a transfer nothing, and a presentation leaves at most a note in the
record of its own identity: a dispute, and the instance it came from.

## Main definitions

* `SameStanding`, `Harmless` — what is asked of a refused call.
* `refused_harmless` — every refused call is harmless.
-/

namespace Hatls

open Mandate

variable {P : Primitives} {cfg : Config}

/-- Two records give an identity the same standing: they differ at most in the disputes
and in the witnesses. -/
structure SameStanding (r r' : Record) : Prop where
  enrolledInstance : r'.enrolledInstance = r.enrolledInstance
  enrolledPlace : r'.enrolledPlace = r.enrolledPlace
  observedInstance : r'.observedInstance = r.observedInstance
  observedPlace : r'.observedPlace = r.observedPlace
  revoked : r'.revoked = r.revoked
  reason : r'.reason = r.reason
  transferAuthority : r'.transferAuthority = r.transferAuthority
  transfers : r'.transfers = r.transfers
  consumedGrants : r'.consumedGrants = r.consumedGrants

theorem SameStanding.refl (r : Record) : SameStanding r r := by
  constructor <;> rfl

theorem Noted.sameStanding {env : Env} {r r' : Record} (h : Noted cfg env r r') :
    SameStanding r r' := by
  cases h <;> constructor <;> rfl

/-- A note is one dispute, and only the oldest beyond sixty-four make room for it. -/
theorem Noted.contention {env : Env} {r r' : Record} (h : Noted cfg env r r') :
    ∃ d, r'.contention = lastN 64 (r.contention ++ [d]) := by
  cases h <;> exact ⟨_, rfl⟩

/-- **What is asked of a refused call.**  The sessions and the standing of every identity
are as they were, and so are the challenges, but for one that was presented and had
expired; nothing is written about an identity the call does not present, and one dispute
at most about the one it does. -/
structure Harmless (env : Env) (c : Call) (m m' : Mandate) : Prop where
  sessions : m'.sessions = m.sessions
  standing : ∀ k, SameStanding (m.record k) (m'.record k)
  challenges : m'.challenges = m.challenges ∨ ∃ nonce expiry, c.Redeems nonce ∧
    m.challenges nonce = some expiry ∧ expiry ≤ env.now ∧
      m'.challenges = Function.update m.challenges nonce none
  others : ∀ k, ¬ c.Presents k → m'.ledger k = m.ledger k
  contention : ∀ k, (m'.record k).contention = (m.record k).contention ∨
    ∃ d, (m'.record k).contention = lastN 64 ((m.record k).contention ++ [d])

/-- A call that leaves the ledger, the sessions and the challenges alone is harmless. -/
theorem Harmless.of_same {env : Env} {c : Call} {m m' : Mandate} (hledger : m'.ledger = m.ledger)
    (hsessions : m'.sessions = m.sessions) (hchallenges : m'.challenges = m.challenges) :
    Harmless env c m m' := by
  have hrecord : ∀ k, m'.record k = m.record k := by
    intro k
    rw [record, record, hledger]
  constructor
  · exact hsessions
  · intro k
    rw [hrecord]
    exact .refl _
  · exact .inl hchallenges
  · intro k _
    rw [hledger]
  · intro k
    rw [hrecord]
    exact .inl rfl

/-- A note in the record of the presented identity is harmless. -/
theorem Harmless.of_noted {env : Env} {m : Mandate} {k ctx exporter : Bytes} {msg : Json}
    {head : Option Bytes} {bundle : Option Json} {r' : Record} (h : Noted cfg env (m.record k) r') :
    Harmless env (.present k ctx exporter msg head bundle) m (m.put k r') := by
  constructor
  · rfl
  · intro k'
    by_cases hk : k' = k
    · subst hk
      rw [record_put_self]
      exact h.sameStanding
    · rw [record_put_of_ne hk]
      exact .refl _
  · exact .inl rfl
  · intro k' hno
    have hk : k' ≠ k := fun heq => hno heq.symm
    exact Function.update_of_ne hk _ _
  · intro k'
    by_cases hk : k' = k
    · subst hk
      rw [record_put_self]
      exact .inr h.contention
    · rw [record_put_of_ne hk]
      exact .inl rfl

/-- Logging the refusal changes none of it. -/
theorem Harmless.recordDecision {env : Env} {c : Call} {m m' : Mandate} (h : Harmless env c m m')
    (env' : Env) (kind : String) (k : Bytes) (ok : Bool) (why : String) (inst : Option Bytes) :
    Harmless env c m (m'.recordDecision P cfg env' kind k ok why inst) :=
  ⟨h.sessions, h.standing, h.challenges, h.others, h.contention⟩

section Refused

variable {m : Mandate} {env : Env} {v : Verdict}

theorem enroll_of_refused {k nonce csrDer : Bytes} {evidence : Json} {authority : Option Bytes}
    {authorisation : Option Json} {sig : Option Bytes} {why : String}
    (h : (m.enroll P cfg env k evidence nonce csrDer authority authorisation sig).1 =
      .ok (false, why)) :
    Harmless env (.enroll k evidence nonce csrDer authority authorisation sig) m
      (m.enroll P cfg env k evidence nonce csrDer authority authorisation sig).2 := by
  simp only [enroll] at h ⊢
  by_cases henr : ∃ anchor, Enrols P cfg env m k evidence nonce csrDer authorisation sig anchor
  · obtain ⟨anchor, henr⟩ := henr
    cases hput : env.putOk with
    | false =>
        rw [enrollCore_of_not_putOk hput henr] at h
        cases h
    | true =>
        rw [enrollCore_of_enrols hput henr] at h
        cases h
  · obtain ⟨challenges, answer, heq, hch, -⟩ := enrollCore_of_not_enrols authority henr
    rw [heq] at h ⊢
    cases answer with
    | error x => cases h
    | ok a =>
        apply Harmless.recordDecision
        rcases hch with rfl | ⟨rfl, ⟨expiry, hexp, hnow⟩, -⟩
        · exact .of_same rfl rfl rfl
        · refine ⟨rfl, fun _ => .refl _, .inr ⟨nonce, expiry, rfl, hexp, hnow, rfl⟩, fun _ _ => rfl,
            fun _ => .inl rfl⟩

theorem revoke_not_refused {k : Bytes} {reason why : String} :
    (m.revoke P cfg env k reason).1 ≠ .ok (false, why) := by
  intro h
  simp only [revoke, revokeWith] at h
  cases hput : env.putOk with
  | false =>
      rw [save_of_not_putOk hput] at h
      cases h
  | true =>
      rw [save_of_putOk hput] at h
      cases h

theorem acceptTransfer_of_refused {k sig : Bytes} {grant : Json} {why : String}
    (h : (m.acceptTransfer P cfg env k grant sig).1 = .ok (false, why)) :
    Harmless env (.acceptTransfer k grant sig) m (m.acceptTransfer P cfg env k grant sig).2 := by
  unfold acceptTransfer at h ⊢
  cases hcheck : checkGrant P cfg env (m.record k) k grant sig with
  | error x =>
      simp only [hcheck] at h
      cases h
  | ok answer =>
    rcases answer with reason | ⟨fields, toInstance, w⟩
    · simp only [hcheck]
      exact Harmless.recordDecision (.of_same rfl rfl rfl) ..
    · cases hnonce : Json.lookup fields "nonce" with
      | none =>
        simp only [hcheck, hnonce] at h
        cases h
      | some nonce =>
        simp only [hcheck, hnonce] at h
        cases hput : env.putOk with
        | false =>
            rw [save_of_not_putOk hput] at h
            cases h
        | true =>
            rw [save_of_putOk hput] at h
            cases h

theorem present_of_refused {k ctx exporter : Bytes} {msg : Json} {head : Option Bytes}
    {bundle : Option Json} (hv : v.ok = false)
    (h : (m.present P cfg env k ctx exporter msg head bundle).1 = .ok v) :
    Harmless env (.present k ctx exporter msg head bundle) m
      (m.present P cfg env k ctx exporter msg head bundle).2 := by
  have happ := appraised P cfg env m k ctx exporter msg head bundle
  simp only [present] at h ⊢
  generalize m.appraise P cfg env k ctx exporter msg head bundle = out at happ h ⊢
  cases happ with
  | @admitted inst place pl n hadm =>
      have hok : ∀ v', (m.admitStep env k (sessionKey P k ctx) n pl (m.record k) inst place).1 =
          .ok v' → v'.ok = true := by
        intro v' hv'
        cases inst with
        | none =>
            cases hv'
            rfl
        | some i =>
            cases hput : env.putOk with
            | false =>
                rw [admitStep_of_not_putOk hput] at hv'
                cases hv'
            | true =>
                rw [admitStep_eq hput] at hv'
                cases hv'
                rfl
      generalize m.admitStep env k (sessionKey P k ctx) n pl (m.record k) inst place = out at hok h
      obtain ⟨answer, m'⟩ := out
      cases answer with
      | error x => cases h
      | ok v' =>
          have hverdict := hok v' rfl
          cases h
          rw [hv] at hverdict
          cases hverdict
  | @objected r' why inst hobj =>
      cases hput : env.putOk with
      | false =>
          rw [save_of_not_putOk hput] at h
          cases h
      | true =>
          rw [save_of_putOk hput] at h ⊢
          simp only [refuse] at h ⊢
          cases hc : msg.item "counter" with
          | error x =>
              simp only [hc] at h
              cases h
          | ok c => exact Harmless.recordDecision (.of_noted hobj.noted) ..
  | @turned answer _ =>
      cases answer with
      | error x => cases h
      | ok v' => exact Harmless.recordDecision (.of_same rfl rfl rfl) ..

/-- **A refusal leaves authority untouched.**  In any state, with any arguments and over
any store, a call that returns a refusal is harmless. -/
theorem refused_harmless (m : Mandate) (env : Env) (c : Call) (v : Verdict)
    (h : (m.serve P cfg env c).1 = .decision v) (hv : v.ok = false) :
    Harmless env c m (m.serve P cfg env c).2 := by
  have hanswer : ∀ answer : Except Exn (Bool × String), Reply.ofAnswer answer = .decision v →
      answer = .ok (false, v.why) := by
    intro answer heq
    cases answer with
    | error x => cases heq
    | ok a =>
        cases heq
        rw [← hv]
  have hverdict : ∀ answer : Except Exn Verdict, Reply.ofVerdict answer = .decision v →
      answer = .ok v := by
    intro answer heq
    cases answer with
    | error x => cases heq
    | ok v' => cases heq; rfl
  cases c with
  | challenge nonce => cases h
  | enroll => exact enroll_of_refused (hanswer _ h)
  | revoke => exact absurd (hanswer _ h) revoke_not_refused
  | acceptTransfer => exact acceptTransfer_of_refused (hanswer _ h)
  | present => exact present_of_refused hv (hverdict _ h)

end Refused

section Impostor

open Tee

/-- The second chip shows valid evidence for an identity that lives on the first: it is
refused, and the identity stands as it did. -/
theorem refused_harmless_impostor :
    Harmless (instant 2).env (opening teeB [1] [2] 2).2
      (after .plain twoChips (fun _ => none) (birth none))
      ((after .plain twoChips (fun _ => none) (birth none)).serve .plain twoChips (instant 2).env
        (opening teeB [1] [2] 2).2).2 := by
  have hrecord := record_birth trustsChips none
  generalize after .plain twoChips (fun _ => none) (birth none) = m at hrecord ⊢
  apply refused_harmless m (instant 2).env (opening teeB [1] [2] 2).2
    ⟨false, impostorText, some teeB.inst⟩
  · have hstep := step_impostor .plain twoChips teeB m tik rfl teeB_trusted (by rw [hrecord]; rfl)
      (show (m.record tik).enrolledInstance = some teeA.inst by rw [hrecord]; rfl) (by decide)
      (by decide) (instant 2) [] [1] [2]
    rw [serve_env, opening, hstep]
  · rfl

end Impostor

end Hatls
