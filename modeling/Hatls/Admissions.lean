import Hatls.Atomicity

/-!
# What a call adds to a chain

Sessions are touched by presentations and by transfers only, and so they are over a store
that refuses a write: a presentation that is admitted moves its session on before the
record is saved, and a transfer ends sessions after it.

## Main definitions

* `Moves`, `Mandate.serve_moves` — what a call does to the chain of one session.
* `Mandate.knowsHead_serve` — what a call does to the heads the log knows.
* `Mandate.serve_accepted` — what an accepted presentation was.
* `Mandate.added`, `Mandate.added_cases` — the link a presentation adds.
-/

namespace Hatls

open Mandate

variable {P : Primitives} {cfg : Config}

/-- **What a call does to the chain of one session**, whatever the store does: it leaves
it, ends it, or adds the link of a presentation that is admitted. -/
inductive Moves (P : Primitives) (cfg : Config) (m : Mandate) (key : Bytes × Bytes) :
    Call → Option Session → Prop
  | kept {c : Call} : Moves P cfg m key c (m.sessions key)
  | ended {c : Call} : Moves P cfg m key c none
  | moved {k ctx exporter : Bytes} {msg : Json} {head : Option Bytes} {bundle : Option Json}
      {inst place : Option Bytes} {pl : Bytes} {n : ℕ}
      (h : Admits P cfg m k ctx exporter msg head bundle inst place pl n)
      (hkey : sessionKey P k ctx = key) :
      Moves P cfg m key (.present k ctx exporter msg head bundle) (some ⟨pl, n⟩)

/-- The state a call ends in, before its decision is logged. -/
structure Unlogged (P : Primitives) (cfg : Config) (m : Mandate) (c : Call) (m' : Mandate) :
    Prop where
  moves : ∀ key, Moves P cfg m key c (m'.sessions key)
  roots : m'.roots = m.roots

theorem Unlogged.of_same {m m' : Mandate} {c : Call} (hsessions : m'.sessions = m.sessions)
    (hroots : m'.roots = m.roots) : Unlogged P cfg m c m' := by
  refine ⟨fun key => ?_, hroots⟩
  rw [hsessions]
  exact .kept

/-- A call ends in such a state, or with the decision logged over it. -/
def EndsIn (P : Primitives) (cfg : Config) (env : Env) (m : Mandate) (c : Call) (m' : Mandate) : Prop :=
  ∃ m₀, Unlogged P cfg m c m₀ ∧
    (m' = m₀ ∨ ∃ kind k ok why inst, m' = m₀.recordDecision P cfg env kind k ok why inst)

section EndsIn

variable {m m' : Mandate} {env : Env} {c : Call}

theorem Unlogged.ends (h : Unlogged P cfg m c m') : EndsIn P cfg env m c m' := ⟨m', h, .inl rfl⟩

theorem Unlogged.recorded (h : Unlogged P cfg m c m') (kind : String) (k : Bytes) (ok : Bool)
    (why : String) (inst : Option Bytes) :
    EndsIn P cfg env m c (m'.recordDecision P cfg env kind k ok why inst) :=
  ⟨m', h, .inr ⟨_, _, _, _, _, rfl⟩⟩

/-- A step that is admitted adds its link, also where the store refuses the record. -/
theorem Mandate.memory_admitStep (m : Mandate) (env : Env) (k : Bytes) (key : Bytes × Bytes) (n : ℕ)
    (pl : Bytes) (r : Record) (inst place : Option Bytes) :
    (m.admitStep env k key n pl r inst place).2.sessions =
        Function.update m.sessions key (some ⟨pl, n⟩) ∧
      (m.admitStep env k key n pl r inst place).2.roots = m.roots := by
  cases inst with
  | none => exact ⟨rfl, rfl⟩
  | some i =>
      cases hput : env.putOk with
      | false =>
          rw [admitStep_of_not_putOk hput]
          exact ⟨rfl, rfl⟩
      | true =>
          simp only [admitStep, save_of_putOk hput]
          exact ⟨rfl, rfl⟩

theorem unlogged_admitStep {k ctx exporter pl : Bytes} {msg : Json} {head : Option Bytes}
    {bundle : Option Json} {inst place : Option Bytes} {n : ℕ}
    (h : Admits P cfg m k ctx exporter msg head bundle inst place pl n) :
    Unlogged P cfg m (.present k ctx exporter msg head bundle)
      (m.admitStep env k (sessionKey P k ctx) n pl (m.record k) inst place).2 := by
  obtain ⟨hsessions, hroots⟩ :=
    m.memory_admitStep env k (sessionKey P k ctx) n pl (m.record k) inst place
  refine ⟨fun key => ?_, hroots⟩
  rw [hsessions]
  by_cases hkey : sessionKey P k ctx = key
  · subst hkey
    rw [Function.update_self]
    exact .moved h rfl
  · rw [Function.update_of_ne (Ne.symm hkey)]
    exact .kept

variable (P cfg m env) in
theorem ends_present (k ctx exporter : Bytes) (msg : Json) (head : Option Bytes)
    (bundle : Option Json) :
    EndsIn P cfg env m (.present k ctx exporter msg head bundle)
      (m.serve P cfg env (.present k ctx exporter msg head bundle)).2 := by
  have happ := appraised P cfg env m k ctx exporter msg head bundle
  have hunlogged : Unlogged P cfg m (.present k ctx exporter msg head bundle)
      (m.appraise P cfg env k ctx exporter msg head bundle).2 := by
    generalize m.appraise P cfg env k ctx exporter msg head bundle = out at happ
    cases happ with
    | admitted hadm => exact unlogged_admitStep hadm
    | objected _ =>
        cases hput : env.putOk with
        | false =>
            rw [save_of_not_putOk hput]
            exact .of_same rfl rfl
        | true =>
            rw [save_of_putOk hput, refuse_snd]
            exact .of_same rfl rfl
    | turned _ => exact .of_same rfl rfl
  simp only [serve, present]
  generalize m.appraise P cfg env k ctx exporter msg head bundle = out at hunlogged
  obtain ⟨answer, m'⟩ := out
  cases answer with
  | error x => exact hunlogged.ends
  | ok v => exact hunlogged.recorded _ _ _ _ _

variable (P cfg m env) in
theorem ends_enroll (k : Bytes) (evidence : Json) (nonce csrDer : Bytes) (authority : Option Bytes)
    (authorisation : Option Json) (sig : Option Bytes) :
    EndsIn P cfg env m (.enroll k evidence nonce csrDer authority authorisation sig)
      (m.serve P cfg env (.enroll k evidence nonce csrDer authority authorisation sig)).2 := by
  have hunlogged : Unlogged P cfg m (.enroll k evidence nonce csrDer authority authorisation sig)
      (m.enrollCore P cfg env k evidence nonce csrDer authority authorisation sig).2 := by
    by_cases henr : ∃ anchor, Enrols P cfg env m k evidence nonce csrDer authorisation sig anchor
    · obtain ⟨anchor, henr⟩ := henr
      cases hput : env.putOk with
      | false =>
          rw [enrollCore_of_not_putOk hput henr]
          exact .of_same rfl rfl
      | true =>
          rw [enrollCore_of_enrols hput henr]
          exact .of_same rfl rfl
    · obtain ⟨challenges, answer, heq, -⟩ := enrollCore_of_not_enrols authority henr
      rw [heq]
      exact .of_same rfl rfl
  simp only [serve, enroll]
  generalize m.enrollCore P cfg env k evidence nonce csrDer authority authorisation sig = out
    at hunlogged
  obtain ⟨answer, m'⟩ := out
  cases answer with
  | error x => exact hunlogged.ends
  | ok v => exact hunlogged.recorded _ _ _ _ _

variable (P cfg m env) in
theorem ends_acceptTransfer (k : Bytes) (grant : Json) (sig : Bytes) :
    EndsIn P cfg env m (.acceptTransfer k grant sig)
      (m.serve P cfg env (.acceptTransfer k grant sig)).2 := by
  have hsame : Unlogged P cfg m (.acceptTransfer k grant sig) m := .of_same rfl rfl
  simp only [serve, acceptTransfer]
  cases hcheck : checkGrant P cfg env (m.record k) k grant sig with
  | error x => exact hsame.ends
  | ok answer =>
    rcases answer with reason | ⟨fields, toInstance, w⟩
    · exact hsame.recorded _ _ _ _ _
    · cases hnonce : Json.lookup fields "nonce" with
      | none =>
          simp only [hnonce]
          exact hsame.ends
      | some nonce =>
        simp only [hnonce]
        cases hput : env.putOk with
        | false =>
            rw [save_of_not_putOk hput]
            exact hsame.ends
        | true =>
            have hmoved : Unlogged P cfg m (.acceptTransfer k grant sig)
                (transferred env m k fields toInstance w nonce) := by
              refine ⟨fun key => ?_, rfl⟩
              rw [sessions_transferred]
              by_cases hkey : key.1 = k
              · rw [if_pos hkey]
                exact .ended
              · rw [if_neg hkey]
                exact .kept
            rw [save_of_putOk hput]
            exact hmoved.recorded _ _ _ _ _

variable (P cfg m env c) in
theorem ends_serve : EndsIn P cfg env m c (m.serve P cfg env c).2 := by
  cases c with
  | challenge nonce =>
      have hissued : Unlogged P cfg m (.challenge nonce) (m.challenge cfg env nonce) := .of_same rfl rfl
      exact hissued.ends
  | enroll k evidence nonce csrDer authority authorisation sig =>
      exact ends_enroll P cfg m env k evidence nonce csrDer authority authorisation sig
  | revoke k reason =>
      simp only [serve, revoke, revokeWith]
      cases hput : env.putOk with
      | false =>
          rw [save_of_not_putOk hput]
          exact (Unlogged.of_same rfl rfl).ends
      | true =>
          have hrevoked : Unlogged P cfg m (.revoke k reason)
              (m.put k (revokedFor (m.record k) reason)) := .of_same rfl rfl
          rw [save_of_putOk hput]
          exact hrevoked.recorded _ _ _ _ _
  | acceptTransfer k grant sig => exact ends_acceptTransfer P cfg m env k grant sig
  | present k ctx exporter msg head bundle =>
      exact ends_present P cfg m env k ctx exporter msg head bundle

variable (P cfg m env c) in
theorem Mandate.serve_moves (key : Bytes × Bytes) :
    Moves P cfg m key c ((m.serve P cfg env c).2.sessions key) := by
  obtain ⟨m₀, h, heq | ⟨kind, k, ok, why, inst, heq⟩⟩ := ends_serve P cfg m env c
  · rw [heq]
    exact h.moves key
  · rw [heq]
    exact h.moves key

/-- A head the log comes to know is a hash. -/
theorem Mandate.knowsHead_serve {head : Bytes}
    (h : (m.serve P cfg env c).2.knowsHead head = true) :
    m.knowsHead head = true ∨ head.length = 32 := by
  obtain ⟨m₀, hm₀, heq | ⟨kind, k, ok, why, inst, heq⟩⟩ := ends_serve P cfg m env c
  · rw [heq, knowsHead, hm₀.roots] at h
    exact .inl h
  · rw [heq, knowsHead, roots_recordDecision, hm₀.roots] at h
    by_cases hhead : head = (m₀.recordDecision P cfg env kind k ok why inst).merkle.head P
    · rw [hhead]
      exact .inr (Log.length_root P _)
    · rw [Function.update_of_ne hhead] at h
      exact .inl h

/-- An accepted presentation is admitted, and adds its link. -/
theorem Mandate.serve_accepted {k ctx exporter : Bytes} {msg : Json} {head : Option Bytes}
    {bundle : Option Json} {v : Verdict}
    (h : (m.serve P cfg env (.present k ctx exporter msg head bundle)).1 = .decision v)
    (hok : v.ok = true) :
    ∃ place pl n, Admits P cfg m k ctx exporter msg head bundle v.inst place pl n := by
  have happ := appraised P cfg env m k ctx exporter msg head bundle
  simp only [serve, present] at h
  generalize m.appraise P cfg env k ctx exporter msg head bundle = out at happ h
  cases happ with
  | @admitted inst place pl n hadm =>
      cases inst with
      | none =>
          cases h
          exact ⟨_, _, _, hadm⟩
      | some i =>
          cases hput : env.putOk with
          | false =>
              rw [admitStep_of_not_putOk hput] at h
              cases h
          | true =>
              rw [admitStep_eq hput] at h
              cases h
              exact ⟨_, _, _, hadm⟩
  | objected _ =>
      cases hput : env.putOk with
      | false =>
          rw [save_of_not_putOk hput] at h
          cases h
      | true =>
          rw [save_of_putOk hput] at h
          cases hc : msg.item "counter" with
          | error x =>
              simp only [refuse, hc] at h
              cases h
          | ok c =>
              rw [refuse_of_counted hc] at h
              obtain rfl := Reply.decision.inj h
              cases hok
  | @turned answer hno =>
      cases answer with
      | error x => cases h
      | ok v' =>
          obtain rfl := Reply.decision.inj h
          rw [hno v' rfl] at hok
          cases hok

end EndsIn

/-! ## The link that is added -/

/-- The link a call has added to the chain of a session, if it has. -/
def Mandate.added (P : Primitives) (m m' : Mandate) (tikPub sessionContext : Bytes) : Option Session :=
  match m'.sessions (sessionKey P tikPub sessionContext) with
  | none => none
  | some s =>
    if (m.sessions (sessionKey P tikPub sessionContext)).map Session.counter = some s.counter then none
    else some s

/-- Whatever session there is after another call was there before. -/
theorem Mandate.sessions_serve_other {m : Mandate} {env : Env} {c : Call}
    (hc : ∀ k, ¬ c.Presents k) {key : Bytes × Bytes} {s : Session}
    (h : (m.serve P cfg env c).2.sessions key = some s) : m.sessions key = some s := by
  have hmoves := m.serve_moves P cfg env c key
  generalize (m.serve P cfg env c).2.sessions key = session at h hmoves
  cases hmoves with
  | kept => exact h
  | ended => cases h
  | @moved k => exact absurd rfl (hc k)

section Added

variable {m : Mandate} {env : Env} {k ctx exporter pl : Bytes} {msg : Json} {head : Option Bytes}
  {bundle : Option Json} {inst place : Option Bytes} {n : ℕ}

theorem Mandate.sessions_serve_of_admits
    (h : Admits P cfg m k ctx exporter msg head bundle inst place pl n) :
    (m.serve P cfg env (.present k ctx exporter msg head bundle)).2.sessions =
      Function.update m.sessions (sessionKey P k ctx) (some ⟨pl, n⟩) := by
  have hstep := m.memory_admitStep env k (sessionKey P k ctx) n pl (m.record k) inst place
  rw [← appraise_eq_admitStep h] at hstep
  rw [← hstep.1]
  simp only [serve, present]
  cases m.appraise P cfg env k ctx exporter msg head bundle with
  | mk answer m' => cases answer <;> rfl

/-- The link of an admitted presentation is new in its chain. -/
theorem Mandate.added_of_admits
    (h : Admits P cfg m k ctx exporter msg head bundle inst place pl n) :
    m.added P (m.serve P cfg env (.present k ctx exporter msg head bundle)).2 k ctx =
      some ⟨pl, n⟩ := by
  obtain ⟨base, hexp, -⟩ := h.chain
  have hnew : (m.sessions (sessionKey P k ctx)).map Session.counter ≠ some n := by
    simp only [Expects] at hexp
    cases hs : m.sessions (sessionKey P k ctx) with
    | none => simp
    | some old =>
        simp only [hs] at hexp
        simp [hexp.1]
  simp only [added, sessions_serve_of_admits h, Function.update_self, if_neg hnew]

variable (P cfg m env k ctx exporter msg head bundle) in
/-- **What a presentation adds.**  It is admitted and adds its link to the chain of its
session, or it adds nothing; the other sessions it leaves or ends. -/
theorem Mandate.added_cases :
    let m' := (m.serve P cfg env (.present k ctx exporter msg head bundle)).2
    (∃ inst place pl n, Admits P cfg m k ctx exporter msg head bundle inst place pl n ∧
        ∀ key s, key ≠ sessionKey P k ctx → m'.sessions key = some s → m.sessions key = some s) ∨
      m.added P m' k ctx = none ∧ ∀ key s, m'.sessions key = some s → m.sessions key = some s := by
  intro m'
  by_cases hadm : ∃ inst place pl n, Admits P cfg m k ctx exporter msg head bundle inst place pl n
  · obtain ⟨inst, place, pl, n, hadm⟩ := hadm
    refine .inl ⟨inst, place, pl, n, hadm, fun key s hne hs => ?_⟩
    have hsessions : m'.sessions = _ := sessions_serve_of_admits hadm
    rwa [hsessions, Function.update_of_ne hne] at hs
  · have hold : ∀ key s, m'.sessions key = some s → m.sessions key = some s := by
      intro key s hs
      have hmoves : Moves P cfg m key (.present k ctx exporter msg head bundle) (m'.sessions key) :=
        m.serve_moves P cfg env (.present k ctx exporter msg head bundle) key
      rw [hs] at hmoves
      generalize hsession : some s = session at hmoves
      cases hmoves with
      | kept => rfl
      | ended => cases hsession
      | moved h => exact absurd ⟨_, _, _, _, h⟩ hadm
    refine .inr ⟨?_, hold⟩
    cases hs : m'.sessions (sessionKey P k ctx) with
    | none => simp only [added, hs]
    | some s => simp [added, hs, hold _ _ hs]

end Added

end Hatls
