import Hatls.Atomicity
import Hatls.Sharing

/-!
# A process whose store may fail it

The ledger of a process that is called, is refused a write now and then, and is restarted.  A
write that is refused ends the call with an exception; what the call did in memory before stays,
and the ledger is what it was.

## Main definitions

* `Mandate.ledger_serve_of_refused`, `Mandate.ledger_step_of_writes`,
  `Mandate.ledger_step_of_quiet` — what a call does to the ledger.
* `Incident`, `Process.endure` — calls, refused writes and restarts.
* `Process.record_endure` — what incidents do to the record of one identity.
* `Process.record_relation` — what changes keep, runs of incidents keep.
-/

namespace Hatls

open Mandate

/-- What a call reads from outside, when the store refuses the write. -/
def Moment.refused (t : Moment) : Env := { t.env with putOk := false }

variable {P : Primitives} {cfg : Config} {m : Mandate} {t : Moment} {k : Bytes} {c : Call}

/-! ## What a call does to the ledger -/

namespace Mandate

/-- A write that is refused is not there. -/
theorem ledger_admitStep_of_refused {env : Env} (hput : env.putOk = false) (k : Bytes)
    (key : Bytes × Bytes) (n : ℕ) (pl : Bytes) (r : Record) (inst place : Option Bytes) :
    (m.admitStep env k key n pl r inst place).2.ledger = m.ledger := by
  cases inst with
  | none => rfl
  | some i => rw [admitStep_of_not_putOk hput]

theorem ledger_appraise_of_refused {env : Env} (hput : env.putOk = false) (k ctx exporter : Bytes)
    (msg : Json) (head : Option Bytes) (bundle : Option Json) :
    (m.appraise P cfg env k ctx exporter msg head bundle).2.ledger = m.ledger := by
  have happ := appraised P cfg env m k ctx exporter msg head bundle
  generalize m.appraise P cfg env k ctx exporter msg head bundle = out at happ
  cases happ with
  | admitted hadm => exact ledger_admitStep_of_refused hput ..
  | objected hobj => rw [save_of_not_putOk hput]
  | turned => rfl

theorem ledger_enrollCore_of_refused {env : Env} (hput : env.putOk = false) (k nonce csrDer : Bytes)
    (evidence : Json) (authority : Option Bytes) (authorisation : Option Json) (sig : Option Bytes) :
    (m.enrollCore P cfg env k evidence nonce csrDer authority authorisation sig).2.ledger = m.ledger := by
  by_cases henr : ∃ anchor, Enrols P cfg env m k evidence nonce csrDer authorisation sig anchor
  · obtain ⟨anchor, henr⟩ := henr
    rw [enrollCore_of_not_putOk hput henr]
  · obtain ⟨challenges, answer, heq, -⟩ := enrollCore_of_not_enrols authority henr
    rw [heq]

/-- **A call over a store that refuses the write** leaves the ledger as it was. -/
theorem ledger_serve_of_refused {env : Env} (hput : env.putOk = false) (c : Call) :
    (m.serve P cfg env c).2.ledger = m.ledger := by
  cases c with
  | challenge nonce => rfl
  | enroll k evidence nonce csrDer authority authorisation sig =>
      have hcore := @ledger_enrollCore_of_refused P cfg m env hput k nonce csrDer evidence authority
        authorisation sig
      simp only [serve, enroll]
      generalize m.enrollCore P cfg env k evidence nonce csrDer authority authorisation sig = out
        at hcore ⊢
      obtain ⟨answer, m'⟩ := out
      cases answer with
      | error x => exact hcore
      | ok v => exact hcore
  | revoke k reason => simp only [serve, revoke, revokeWith, save_of_not_putOk hput, Prod.map_snd, id]
  | acceptTransfer k grant sig =>
      simp only [serve, acceptTransfer]
      rcases checkGrant P cfg env (m.record k) k grant sig with x | why | ⟨fields, toInstance, w⟩
      · rfl
      · rfl
      · cases hnonce : Json.lookup fields "nonce" with
        | none => simp only [hnonce, Prod.map_snd, id]
        | some nonce => simp only [hnonce, save_of_not_putOk hput, Prod.map_snd, id]
  | present k ctx exporter msg head bundle =>
      have happ := @ledger_appraise_of_refused P cfg m env hput k ctx exporter msg head bundle
      simp only [serve, present]
      generalize m.appraise P cfg env k ctx exporter msg head bundle = out at happ ⊢
      obtain ⟨answer, m'⟩ := out
      cases answer with
      | error x => exact happ
      | ok v => exact happ

/-- **A call that writes** puts its record, and nothing else. -/
theorem ledger_step_of_writes {r' : Record} (h : Writes P cfg m t k c r') :
    (m.step P cfg (t, c)).2.ledger = Function.update m.ledger k (some r') := by
  cases h with
  | enrolled h => rw [step_of_enrols m t h, ledger_recordDecision, enrolledAs, put]
  | revoked => rw [step_revoke, ledger_recordDecision, put]
  | transferred h hnonce =>
      rw [step_of_grants m t h hnonce, ledger_recordDecision]
      rfl
  | presented h =>
      rw [step_of_admits m t h, ledger_recordDecision]
      rfl
  | objected h =>
      cases h with
      | @present _ _ msg _ _ _ _ _ h =>
          rw [step_of_objects m t h]
          cases msg.item "counter" with
          | error x => rfl
          | ok _ => rfl

/-- **A call that does not write** leaves the ledger as it was. -/
theorem ledger_step_of_quiet (h : ∀ k r', ¬ Writes P cfg m t k c r') :
    (m.step P cfg (t, c)).2.ledger = m.ledger := by
  cases c with
  | challenge nonce => rfl
  | enroll k evidence nonce csrDer authority authorisation sig =>
      have hno : ¬ ∃ anchor, Enrols P cfg t.env m k evidence nonce csrDer authorisation sig anchor :=
        fun ⟨_, henr⟩ => h _ _ (.enrolled henr)
      obtain ⟨challenges, answer, heq, -⟩ := enrollCore_of_not_enrols authority hno
      simp only [step, enroll, heq]
      cases answer with
      | error x => rfl
      | ok v => rfl
  | revoke k reason => exact absurd .revoked (h k _)
  | acceptTransfer k grant sig =>
      simp only [step, acceptTransfer]
      cases hcheck : checkGrant P cfg t.env (m.record k) k grant sig with
      | error x => rfl
      | ok answer =>
          rcases answer with why | ⟨fields, toInstance, w⟩
          · rfl
          · cases hnonce : Json.lookup fields "nonce" with
            | none => simp only [hnonce, Prod.map_snd, id]
            | some nonce => exact absurd (.transferred (checkGrant_eq_ok.mp hcheck) hnonce) (h _ _)
  | present k ctx exporter msg head bundle =>
      have happ := appraised P cfg t.env m k ctx exporter msg head bundle
      have hledger : (m.appraise P cfg t.env k ctx exporter msg head bundle).2.ledger = m.ledger := by
        generalize m.appraise P cfg t.env k ctx exporter msg head bundle = out at happ
        cases happ with
        | @admitted inst place pl n hadm =>
            cases inst with
            | none => rfl
            | some i => exact absurd (.presented hadm) (h _ _)
        | objected hobj => exact absurd (.objected (.present hobj)) (h _ _)
        | turned => rfl
      simp only [step, present]
      generalize m.appraise P cfg t.env k ctx exporter msg head bundle = out at hledger ⊢
      obtain ⟨answer, m'⟩ := out
      cases answer with
      | error x => exact hledger
      | ok v => exact hledger

end Mandate

/-! ## Incidents -/

/-- What befalls a process. -/
inductive Incident
  | call (i : Moment × Call)
  /-- A call whose write, if it has one, is refused. -/
  | refused (i : Moment × Call)
  | restart (cfg : Config)

namespace Process

variable {P : Primitives}

variable (P) in
/-- A process and what befalls it. -/
def endure (s : Process) : Incident → Option Reply × Process
  | .call i => s.step P (.call i)
  | .refused i =>
    (some (s.mandate.serve P s.cfg i.1.refused i.2).1,
      ⟨s.cfg, (s.mandate.serve P s.cfg i.1.refused i.2).2⟩)
  | .restart cfg => s.step P (.restart cfg)

/-- **What an incident does to the record of one identity**: what a call does, or nothing. -/
theorem record_endure (s : Process) (i : Incident) (k : Bytes) :
    (∃ t c, i = .call (t, c) ∧ Change P s.cfg s.mandate t k c (s.mandate.step P s.cfg (t, c)).1
      ((s.endure P i).2.mandate.record k)) ∨
    (s.endure P i).2.mandate.record k = s.mandate.record k := by
  cases i with
  | call i => exact .inl ⟨i.1, i.2, rfl, s.mandate.step_change P s.cfg i.1 i.2 k⟩
  | refused i =>
      refine .inr ?_
      rw [Mandate.record, Mandate.record, endure, @ledger_serve_of_refused _ _ _ i.1.refused rfl]
  | restart cfg => exact .inr rfl

/-- **What every change keeps**, a run of incidents keeps. -/
theorem record_relation {k : Bytes} {R : Record → Record → Prop} (hrefl : ∀ r, R r r)
    (htrans : ∀ r r' r'', R r r' → R r' r'' → R r r'')
    (hchange : ∀ cfg m t c reply r', Change P cfg m t k c reply r' → R (m.record k) r')
    (s : Process) (incidents : List Incident) :
    R (s.mandate.record k) ((Run.exec (endure P) s incidents).mandate.record k) := by
  refine Run.exec_relation (endure P) (R := fun s s' => R (s.mandate.record k) (s'.mandate.record k))
    (Q := fun _ _ => True) (fun s => hrefl _) (fun s s' s'' => htrans _ _ _) ?_
    ((Run.along_const (endure P)).mpr fun _ _ => trivial)
  intro s i _
  rcases s.record_endure i k with ⟨t, c, -, hch⟩ | heq
  · exact hchange _ _ _ _ _ _ hch
  · rw [heq]
    exact hrefl _

end Process

end Hatls
