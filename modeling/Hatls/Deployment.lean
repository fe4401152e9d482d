import Hatls.Crashes
import Hatls.Incidents
import Hatls.Rereading

/-!
# A mandate over its directory

The process of `hatls/protocol.py` over the files of `hatls/store.py`.  A call reads the ledger
from the files, and what it writes goes through a `put`, which returns, raises, or is cut by a
crash after any of its steps.  Whatever happens, the files read back as the ledger of a process
that was called, was refused writes and was restarted, and its callers were told the same.

## Main definitions

* `FileStore.Puts`, `FileStore.Puts.outcome` — a call of `put` from its start to its end.
* `Memory`, `Deployment` — a process with its directory.
* `Deployment.Step`, `Deployment.Runs` — what happens to it.
* `Deployment.disk_refines` — a run on disk is a run of a process over a ledger.
-/

namespace Hatls

open Mandate

/-! ## A call of `put` -/

namespace FileStore

/-- How a call of `put` ends. -/
inductive Ending
  | returned
  | raised
  | cut

/-- The step it ends with. -/
def Ending.last : Ending → Action → Bool
  | .returned, .returns => true
  | .raised, .raises => true
  | .raised, .unlink _ => true
  | .cut, .crash => true
  | _, _ => false

/-- One call of `put`, from its start to its end. -/
def Puts (key : String) (record : LedgerRecord) (ending : Ending) (s s' : FileStore) : Prop :=
  s'.putting = none ∧ ∃ during last, (∀ a ∈ during, a.isPut = false) ∧ ending.last last = true ∧
    Run.steps step s (.put key record :: (during ++ [last])) = some s'

/-- A call over files that mirror `puts`: the record is not in its place yet, or it is, or the
call is over. -/
inductive Underway (puts : List (String × LedgerRecord)) (key : String) (record : LedgerRecord) :
    FileStore → Prop
  | early {files : Directory String String} {p : Putting} (hstage : p.stage ≠ .replaced)
      (h : Mirrored ⟨files, some p⟩ ⟨some (key, record), puts⟩) :
      Underway puts key record ⟨files, some p⟩
  | late {files : Directory String String} {p : Putting} (hstage : p.stage = .replaced)
      (h : Mirrored ⟨files, some p⟩ ⟨some (key, record), puts ++ [(key, record)]⟩) :
      Underway puts key record ⟨files, some p⟩
  | settled {files : Directory String String}
      (h : Mirrors files (.after puts) ∨ Mirrors files (.after (puts ++ [(key, record)]))) :
      Underway puts key record ⟨files, none⟩

section Underway

variable {puts : List (String × LedgerRecord)} {key : String} {record : LedgerRecord}
  {s t : FileStore} {a : Action}

/-- Whatever it is, the files mirror one or the other. -/
theorem Underway.mirrors (h : Underway puts key record s) :
    Mirrors s.files (.after puts) ∨ Mirrors s.files (.after (puts ++ [(key, record)])) := by
  cases h with
  | early _ h => exact .inl h.files
  | late _ h => exact .inr h.files
  | settled h => exact h

theorem Underway.step (h : Underway puts key record s) (ha : a.isPut = false)
    (hstep : s.step a = some t) : Underway puts key record t := by
  cases h with
  | @early files p hstage h =>
      have hnext := mirrored_step h hstep
      cases advances_of_advance hstep with
      | mkstemp => exact .early (by simp) hnext
      | write => exact .early hstage hnext
      | fsync => exact .early (by simp) hnext
      | replace => exact .late rfl hnext
      | handled => exact .early (by simp) hnext
      | removed => exact .settled (.inl hnext.files)
      | returned hreplaced => exact absurd hreplaced hstage
      | raised => exact .settled (.inl hnext.files)
      | left a hleft =>
          rcases hleft with rfl | rfl
          · exact .settled (.inl hnext.files)
          · exact .settled (.inl hnext.files)
  | @late files p hstage h =>
      -- Such a call can only return or stop.
      have hfiles : t = ⟨files, none⟩ := by
        cases a <;> simp [FileStore.step, advance, hstage] at hstep <;> exact hstep.symm
      rw [hfiles]
      exact .settled (.inr h.files)
  | @settled files h =>
      have hfiles : t = ⟨files, none⟩ := by
        cases a <;> simp [FileStore.step, begin, Action.isPut] at hstep ha
        exact hstep.symm
      rw [hfiles]
      exact .settled h

/-- A call that returned has put its record in place. -/
theorem Underway.of_returns (h : Underway puts key record s) (hstep : s.step .returns = some t) :
    Mirrors t.files (.after (puts ++ [(key, record)])) := by
  cases h with
  | early hstage => simp [FileStore.step, advance, hstage] at hstep
  | late hstage h =>
      simp [FileStore.step, advance, hstage] at hstep
      rw [← hstep]
      exact h.files
  | settled => simp [FileStore.step, begin] at hstep

/-- A call that raised has not. -/
theorem Underway.of_raised (h : Underway puts key record s) (ha : Ending.raised.last a = true)
    (hstep : s.step a = some t) : Mirrors t.files (.after puts) := by
  cases h with
  | early _ h =>
      have hnext := (mirrored_step h hstep).files
      cases a <;> simp [Ending.last] at ha <;> exact hnext
  | late hstage h =>
      cases a <;> simp [Ending.last] at ha <;> simp [FileStore.step, advance, hstage] at hstep
  | settled => cases a <;> simp [Ending.last] at ha <;> simp [FileStore.step, begin] at hstep

theorem Underway.steps {during : List Action} (h : Underway puts key record s)
    (hduring : ∀ a ∈ during, a.isPut = false) (hsteps : Run.steps FileStore.step s during = some t) :
    Underway puts key record t := by
  induction during generalizing s with
  | nil =>
      rw [← Option.some.inj hsteps]
      exact h
  | cons a during ih =>
      obtain ⟨ha, hrest⟩ := List.forall_mem_cons.mp hduring
      obtain ⟨u, hstep, hmore⟩ := Option.bind_eq_some_iff.mp hsteps
      exact ih (h.step ha hstep) hrest hmore

/-- It begins. -/
theorem Underway.of_put {files : Directory String String} (h : Mirrors files (.after puts))
    (hkey : isHex key = true) (hstep : FileStore.step ⟨files, none⟩ (.put key record) = some t) :
    Underway puts key record t := by
  have hnext : Mirrored t ⟨some (key, record), puts⟩ :=
    mirrored_step (Mirrored.of_idle (c := { reached := puts }) h) hstep
  simp only [FileStore.step, begin, file_of_hex hkey] at hstep
  rw [← Option.some.inj hstep] at hnext ⊢
  exact .early (by simp) hnext

/-- **What a call of `put` leaves**: the record in its place, unless it raised, or the files that
were there, unless it returned. -/
theorem Puts.outcome {ending : Ending} (h : Puts key record ending s t) (hkey : isHex key = true)
    (hidle : s.putting = none) (hfiles : Mirrors s.files (.after puts)) :
    (ending ≠ .returned ∧ Mirrors t.files (.after puts)) ∨
      (ending ≠ .raised ∧ Mirrors t.files (.after (puts ++ [(key, record)]))) := by
  obtain ⟨-, during, last, hduring, hlast, hsteps⟩ := h
  obtain ⟨files, putting⟩ := s
  obtain rfl : putting = none := hidle
  obtain ⟨u, hput, hrest⟩ := Option.bind_eq_some_iff.mp hsteps
  obtain ⟨v, hmid, hend⟩ := Run.steps_concat hrest
  have hunder := (Underway.of_put hfiles hkey hput).steps hduring hmid
  cases ending with
  | returned =>
      cases last <;> simp [Ending.last] at hlast
      exact .inr ⟨by simp, hunder.of_returns hend⟩
  | raised => exact .inl ⟨by simp, hunder.of_raised hlast hend⟩
  | cut =>
      have hput : last.isPut = false := by
        cases last <;> simp [Ending.last] at hlast
        rfl
      rcases (hunder.step hput hend).mirrors with hold | hnew
      · exact .inl ⟨by simp, hold⟩
      · exact .inr ⟨by simp, hnew⟩

end Underway

/-- Between two calls, one can be made and cut at once. -/
theorem exists_puts_cut {s : FileStore} (hidle : s.putting = none) {key : String}
    (hkey : isHex key = true) (record : LedgerRecord) : Puts key record .cut s s := by
  obtain ⟨files, putting⟩ := s
  obtain rfl : putting = none := hidle
  refine ⟨rfl, [], .crash, fun _ h => (nomatch h), rfl, ?_⟩
  simp [Run.steps, step, begin, advance, file_of_hex hkey]

/-! ## The record of an identity on disk -/

/-- The key of an identity names a file. -/
theorem isHex_hex (b : Bytes) : isHex (Bytes.hex b) = true := by
  have hdigit : ∀ n < 16, Bytes.hexDigit n ∈ "0123456789abcdef".toList := by decide
  rw [isHex, Bytes.hex, String.toList_ofList, Bytes.hexChars, List.all_eq_true]
  intro c hc
  obtain ⟨x, -, hmem⟩ := List.mem_flatMap.mp hc
  have hx := x.toNat_lt
  rw [decide_eq_true_iff]
  rcases List.mem_pair.mp hmem with rfl | rfl
  · exact hdigit _ (by omega)
  · exact hdigit _ (by omega)

/-- What `_rec` makes of the file of an identity, where there is one. -/
def readRecord (s : FileStore) (k : Bytes) : Except Exn (Option Record) := do
  match ← s.get (Bytes.hex k) with
  | some stored => (Record.ofStored (some stored)).map some
  | none => return none

theorem readRecord_of_mirrors {s : FileStore} {m : MemoryStore} (h : Mirrors s.files m) (k : Bytes) :
    s.readRecord k = match m.get (Bytes.hex k) with
      | some record => (Record.ofStored (some record.loaded)).map some
      | none => .ok none := by
  rw [readRecord, h.get_eq (isHex_hex k)]
  cases m.get (Bytes.hex k) with
  | none => rfl
  | some record => rfl

/-- The record that was put is read back settled, and no other record is touched. -/
theorem readRecord_after_put {s t : FileStore} {puts : List (String × LedgerRecord)} {k : Bytes}
    {record : LedgerRecord} {r : Record} (hs : Mirrors s.files (.after puts))
    (ht : Mirrors t.files (.after (puts ++ [(Bytes.hex k, record)]))) (hrecord : record.json = r.dict)
    (k' : Bytes) :
    t.readRecord k' = if k' = k then .ok (some r.settled) else s.readRecord k' := by
  rw [readRecord_of_mirrors ht, readRecord_of_mirrors hs, MemoryStore.after_concat]
  by_cases hk : k' = k
  · rw [if_pos hk, hk, MemoryStore.get_put_self]
    simp only [LedgerRecord.loaded, hrecord, Record.ofStored_loaded]
    rfl
  · have hne : Bytes.hex k' ≠ Bytes.hex k := fun heq => hk (Bytes.hex_injective heq)
    rw [if_neg hk, MemoryStore.get_put_ne _ hne]

end FileStore

/-! ## Deployments -/

/-- What a mandate holds in memory. -/
structure Memory where
  sessions : Bytes × Bytes → Option Session
  challenges : Bytes → Option ℚ
  merkle : MerkleLog
  roots : Bytes → Option ℕ
  lastReceipt : Option Json

def Mandate.memory (m : Mandate) : Memory := ⟨m.sessions, m.challenges, m.merkle, m.roots, m.lastReceipt⟩

/-- The mandate with that memory, over a ledger. -/
def Memory.over (mem : Memory) (ledger : Bytes → Option Record) : Mandate :=
  ⟨ledger, mem.sessions, mem.challenges, mem.merkle, mem.roots, mem.lastReceipt⟩

/-- What a process starts with. -/
def Memory.fresh (P : Primitives) : Memory := (Mandate.new P fun _ => none).memory

/-- A process of a mandate, and the directory of its ledger. -/
structure Deployment where
  cfg : Config
  memory : Memory
  store : FileStore

namespace Deployment

/-- Every record on disk can be read, and this is what it is. -/
def Reads (d : Deployment) (ledger : Bytes → Option Record) : Prop :=
  ∀ k, d.store.readRecord k = .ok (ledger k)

/-- A process on an empty directory. -/
def init (P : Primitives) (cfg : Config) : Deployment := ⟨cfg, .fresh P, {}⟩

/-- What happens to it. -/
inductive Turn
  /-- A call is answered. -/
  | answered (i : Moment × Call) (reply : Reply)
  /-- The process stops within a call, and another is started. -/
  | cut (i : Moment × Call) (cfg : Config)
  /-- It is restarted between two calls. -/
  | restart (cfg : Config)

/-- **What can happen.**  A record that is written is a dictionary whose keys occur once. -/
inductive Step (P : Primitives) (d : Deployment) : Turn → Deployment → Prop
  | quiet {ledger : Bytes → Option Record} {t : Moment} {c : Call} (hreads : d.Reads ledger)
      (hquiet : ∀ k r', ¬ Writes P d.cfg (d.memory.over ledger) t k c r') :
      Step P d (.answered (t, c) ((d.memory.over ledger).step P d.cfg (t, c)).1)
        { d with memory := ((d.memory.over ledger).step P d.cfg (t, c)).2.memory }
  | written {ledger : Bytes → Option Record} {t : Moment} {c : Call} {k : Bytes} {r' : Record}
      {record : LedgerRecord} {store : FileStore} (hreads : d.Reads ledger)
      (hwrites : Writes P d.cfg (d.memory.over ledger) t k c r') (hrecord : record.json = r'.dict)
      (hputs : FileStore.Puts (Bytes.hex k) record .returned d.store store) :
      Step P d (.answered (t, c) ((d.memory.over ledger).step P d.cfg (t, c)).1)
        ⟨d.cfg, ((d.memory.over ledger).step P d.cfg (t, c)).2.memory, store⟩
  | refused {ledger : Bytes → Option Record} {t : Moment} {c : Call} {k : Bytes} {r' : Record}
      {record : LedgerRecord} {store : FileStore} (hreads : d.Reads ledger)
      (hwrites : Writes P d.cfg (d.memory.over ledger) t k c r') (hrecord : record.json = r'.dict)
      (hputs : FileStore.Puts (Bytes.hex k) record .raised d.store store) :
      Step P d (.answered (t, c) ((d.memory.over ledger).serve P d.cfg t.refused c).1)
        ⟨d.cfg, ((d.memory.over ledger).serve P d.cfg t.refused c).2.memory, store⟩
  | cut {ledger : Bytes → Option Record} {t : Moment} {c : Call} {k : Bytes} {r' : Record}
      {record : LedgerRecord} {store : FileStore} {cfg : Config} (hreads : d.Reads ledger)
      (hwrites : Writes P d.cfg (d.memory.over ledger) t k c r') (hrecord : record.json = r'.dict)
      (hputs : FileStore.Puts (Bytes.hex k) record .cut d.store store) :
      Step P d (.cut (t, c) cfg) ⟨cfg, .fresh P, store⟩
  | restart {cfg : Config} : Step P d (.restart cfg) ⟨cfg, .fresh P, d.store⟩

/-- What happens, one turn after the other. -/
inductive Runs (P : Primitives) (d : Deployment) : List Turn → Deployment → Prop
  | nil : Runs P d [] d
  | concat {turns : List Turn} {d' d'' : Deployment} {turn : Turn} (h : Runs P d turns d')
      (hstep : Step P d' turn d'') : Runs P d (turns ++ [turn]) d''

/-! ## As a process over a ledger -/

/-- What a turn is to a process over a ledger, with what the callers are told.  A call that is
cut was never made, or it was, and its answer lost. -/
inductive Turn.Is : Turn → List (Incident × Option Reply) → Prop
  | called {i : Moment × Call} {reply : Reply} : Is (.answered i reply) [(.call i, some reply)]
  | refused {i : Moment × Call} {reply : Reply} : Is (.answered i reply) [(.refused i, some reply)]
  | lost {i : Moment × Call} {cfg : Config} : Is (.cut i cfg) [(.restart cfg, none)]
  | kept {i : Moment × Call} {cfg : Config} {reply : Reply} :
      Is (.cut i cfg) [(.call i, some reply), (.restart cfg, none)]
  | restart {cfg : Config} : Is (.restart cfg) [(.restart cfg, none)]

/-- **A deployment realises a process**: the same memory, and a directory that reads back as the
ledger. -/
structure Realises (d : Deployment) (s : Process) : Prop where
  cfg : s.cfg = d.cfg
  memory : s.mandate.memory = d.memory
  idle : d.store.putting = none
  mirrors : ∃ puts, FileStore.Mirrors d.store.files (.after puts)
  reads : d.Reads fun k => (s.mandate.ledger k).map Record.settled

theorem realises_init (P : Primitives) (cfg : Config) :
    Realises (init P cfg) ⟨cfg, .new P fun _ => none⟩ where
  cfg := rfl
  memory := rfl
  idle := rfl
  mirrors := ⟨[], FileStore.mirrors_empty⟩
  reads k := by
    have hempty : FileStore.Mirrors (init P cfg).store.files {} := FileStore.mirrors_empty
    exact FileStore.readRecord_of_mirrors hempty k

variable {P : Primitives} {d d' : Deployment} {s : Process}

variable (P) in
/-- What the process over the directory answers, the one over the ledger does, whether the store
takes the write or not; and they have the same memory afterwards. -/
theorem Realises.serve (h : Realises d s) {ledger : Bytes → Option Record} (hreads : d.Reads ledger)
    (env : Env) (c : Call) :
    AnswerAlike (s.mandate.serve P d.cfg env c) ((d.memory.over ledger).serve P d.cfg env c) := by
  have hledger : ledger = fun k => (s.mandate.ledger k).map Record.settled :=
    funext fun k => Except.ok.inj ((hreads k).symm.trans (h.reads k))
  have hover : d.memory.over ledger = s.mandate.reread := by
    rw [hledger, ← h.memory]
    rfl
  rw [hover]
  exact s.mandate.rereads_reread.serve P d.cfg env c

theorem memory_eq_of_rereads {m m' : Mandate} (h : m.Rereads m') : m'.memory = m.memory := by
  rw [Mandate.memory, Mandate.memory, h.sessions, h.challenges, h.merkle, h.roots, h.lastReceipt]

/-- A process that did what the other one did, over a directory that reads back as its ledger. -/
theorem Realises.of_alike {A : Type} {out out' : A × Mandate} (halike : AnswerAlike out out')
    {cfg : Config} {store : FileStore} (hidle : store.putting = none)
    (hmirrors : ∃ puts, FileStore.Mirrors store.files (.after puts))
    (hreads : ∀ k, store.readRecord k = .ok ((out'.2.ledger k).map Record.settled)) :
    Realises ⟨cfg, out'.2.memory, store⟩ ⟨cfg, out.2⟩ where
  cfg := rfl
  memory := (memory_eq_of_rereads halike.2).symm
  idle := hidle
  mirrors := hmirrors
  reads k := (hreads k).trans (congrArg Except.ok (halike.2.ledger k))

/-- A restarted one. -/
theorem Realises.restarted {m : Mandate} {cfg : Config} {store : FileStore} (hidle : store.putting = none)
    (hmirrors : ∃ puts, FileStore.Mirrors store.files (.after puts))
    (hreads : ∀ k, store.readRecord k = .ok ((m.ledger k).map Record.settled)) :
    Realises ⟨cfg, .fresh P, store⟩ ⟨cfg, .new P m.ledger⟩ where
  cfg := rfl
  memory := rfl
  idle := hidle
  mirrors := hmirrors
  reads := hreads

section Simulation

variable {ledger : Bytes → Option Record} {t : Moment} {c : Call} {turn : Turn}

/-- What was read is settled. -/
theorem Realises.settled (h : Realises d s) (hreads : d.Reads ledger) (k : Bytes) :
    (ledger k).map Record.settled = ledger k := by
  have hk := Except.ok.inj ((hreads k).symm.trans (h.reads k))
  rw [hk, Option.map_map]
  congr 1
  exact funext Record.settled_settled

/-- A directory with the files that were there reads as it did. -/
theorem Realises.reads_kept (h : Realises d s) (hreads : d.Reads ledger) {store : FileStore}
    {puts : List (String × LedgerRecord)} (hold : FileStore.Mirrors d.store.files (.after puts))
    (hnew : FileStore.Mirrors store.files (.after puts)) (k : Bytes) :
    store.readRecord k = .ok ((ledger k).map Record.settled) := by
  rw [h.settled hreads, ← hreads k, FileStore.readRecord_of_mirrors hold,
    FileStore.readRecord_of_mirrors hnew]

/-- One in which a record was put reads as the ledger with that record. -/
theorem Realises.reads_put (h : Realises d s) (hreads : d.Reads ledger) {store : FileStore}
    {puts : List (String × LedgerRecord)} {k : Bytes} {record : LedgerRecord} {r' : Record}
    (hold : FileStore.Mirrors d.store.files (.after puts))
    (hnew : FileStore.Mirrors store.files (.after (puts ++ [(Bytes.hex k, record)])))
    (hrecord : record.json = r'.dict) (k' : Bytes) :
    store.readRecord k' = .ok ((Function.update ledger k (some r') k').map Record.settled) := by
  rw [FileStore.readRecord_after_put hold hnew hrecord]
  by_cases hk : k' = k
  · rw [if_pos hk, hk, Function.update_self, Option.map_some]
  · rw [if_neg hk, Function.update_of_ne hk, h.settled hreads, hreads k']

/-- A call that does not write. -/
theorem Realises.quiet (h : Realises d s) (hreads : d.Reads ledger)
    (hquiet : ∀ k r', ¬ Writes P d.cfg (d.memory.over ledger) t k c r') :
    ((d.memory.over ledger).step P d.cfg (t, c)).1 = (s.mandate.step P s.cfg (t, c)).1 ∧
      Realises { d with memory := ((d.memory.over ledger).step P d.cfg (t, c)).2.memory }
        (s.step P (.call (t, c))).2 := by
  obtain ⟨puts, hold⟩ := h.mirrors
  obtain ⟨cfg₀, m⟩ := s
  obtain rfl : cfg₀ = d.cfg := h.cfg
  have halike := h.serve P hreads t.env c
  rw [serve_env, serve_env] at halike
  refine ⟨halike.1, Realises.of_alike halike h.idle h.mirrors fun k => ?_⟩
  rw [ledger_step_of_quiet hquiet]
  exact h.reads_kept hreads hold hold k

section Put

variable {k : Bytes} {r' : Record} {record : LedgerRecord} {store : FileStore}

/-- A call whose write succeeds. -/
theorem Realises.written (h : Realises d s) (hreads : d.Reads ledger)
    (hwrites : Writes P d.cfg (d.memory.over ledger) t k c r') (hrecord : record.json = r'.dict)
    (hputs : FileStore.Puts (Bytes.hex k) record .returned d.store store) :
    ((d.memory.over ledger).step P d.cfg (t, c)).1 = (s.mandate.step P s.cfg (t, c)).1 ∧
      Realises ⟨d.cfg, ((d.memory.over ledger).step P d.cfg (t, c)).2.memory, store⟩
        (s.step P (.call (t, c))).2 := by
  obtain ⟨puts, hold⟩ := h.mirrors
  obtain ⟨cfg₀, m⟩ := s
  obtain rfl : cfg₀ = d.cfg := h.cfg
  have halike := h.serve P hreads t.env c
  rw [serve_env, serve_env] at halike
  rcases hputs.outcome (FileStore.isHex_hex k) h.idle hold with ⟨hno, -⟩ | ⟨-, hnew⟩
  · exact absurd rfl hno
  refine ⟨halike.1, Realises.of_alike halike hputs.1 ⟨_, hnew⟩ fun k' => ?_⟩
  rw [ledger_step_of_writes hwrites]
  exact h.reads_put hreads hold hnew hrecord k'

/-- A call whose write is refused. -/
theorem Realises.refused (h : Realises d s) (hreads : d.Reads ledger)
    (hputs : FileStore.Puts (Bytes.hex k) record .raised d.store store) :
    ((d.memory.over ledger).serve P d.cfg t.refused c).1 =
        (s.mandate.serve P s.cfg t.refused c).1 ∧
      Realises ⟨d.cfg, ((d.memory.over ledger).serve P d.cfg t.refused c).2.memory, store⟩
        (s.endure P (.refused (t, c))).2 := by
  obtain ⟨puts, hold⟩ := h.mirrors
  obtain ⟨cfg₀, m⟩ := s
  obtain rfl : cfg₀ = d.cfg := h.cfg
  have halike := h.serve P hreads t.refused c
  rcases hputs.outcome (FileStore.isHex_hex k) h.idle hold with ⟨-, hnew⟩ | ⟨hno, -⟩
  · refine ⟨halike.1, Realises.of_alike halike hputs.1 ⟨_, hnew⟩ fun k' => ?_⟩
    rw [ledger_serve_of_refused rfl]
    exact h.reads_kept hreads hold hnew k'
  · exact absurd rfl hno

/-- A call that is cut: the process starts again over the ledger it had, or over the one with the
record. -/
theorem Realises.cut (h : Realises d s) (hreads : d.Reads ledger)
    (hwrites : Writes P d.cfg (d.memory.over ledger) t k c r') (hrecord : record.json = r'.dict)
    (hputs : FileStore.Puts (Bytes.hex k) record .cut d.store store) (cfg : Config) :
    Realises ⟨cfg, .fresh P, store⟩ ⟨cfg, .new P s.mandate.ledger⟩ ∨
      Realises ⟨cfg, .fresh P, store⟩ ⟨cfg, .new P (s.mandate.step P s.cfg (t, c)).2.ledger⟩ := by
  obtain ⟨puts, hold⟩ := h.mirrors
  obtain ⟨cfg₀, m⟩ := s
  obtain rfl : cfg₀ = d.cfg := h.cfg
  have halike := h.serve P hreads t.env c
  rw [serve_env, serve_env] at halike
  rcases hputs.outcome (FileStore.isHex_hex k) h.idle hold with ⟨-, hnew⟩ | ⟨-, hnew⟩
  · refine .inl (Realises.restarted hputs.1 ⟨_, hnew⟩ fun k' => ?_)
    rw [h.reads_kept hreads hold hnew k', h.settled hreads k', ← hreads k']
    exact h.reads k'
  · have hledger : ((d.memory.over ledger).step P d.cfg (t, c)).2.ledger =
        Function.update ledger k (some r') := ledger_step_of_writes hwrites
    refine .inr (Realises.restarted hputs.1 ⟨_, hnew⟩ fun k' => ?_)
    rw [h.reads_put hreads hold hnew hrecord k', ← hledger, halike.2.ledger k']

end Put

/-- **One turn**: the process over the ledger does the same, and its callers are told the same. -/
theorem Realises.step (h : Realises d s) (hstep : d.Step P turn d') :
    ∃ part, turn.Is part ∧ Run.trace (Process.endure P) s (part.map Prod.fst) = part ∧
      Realises d' (Run.exec (Process.endure P) s (part.map Prod.fst)) := by
  cases hstep with
  | @quiet ledger t c hreads hquiet =>
      obtain ⟨hreply, hnext⟩ := h.quiet hreads hquiet
      exact ⟨[(.call (t, c), _)], .called, by rw [hreply]; rfl, hnext⟩
  | @written ledger t c k r' record store hreads hwrites hrecord hputs =>
      obtain ⟨hreply, hnext⟩ := h.written hreads hwrites hrecord hputs
      exact ⟨[(.call (t, c), _)], .called, by rw [hreply]; rfl, hnext⟩
  | @refused ledger t c k r' record store hreads hwrites hrecord hputs =>
      obtain ⟨hreply, hnext⟩ := h.refused hreads hputs
      exact ⟨[(.refused (t, c), _)], .refused, by rw [hreply]; rfl, hnext⟩
  | @cut ledger t c k r' record store cfg hreads hwrites hrecord hputs =>
      rcases h.cut hreads hwrites hrecord hputs cfg with hnext | hnext
      · exact ⟨[(.restart cfg, none)], .lost, rfl, hnext⟩
      · exact ⟨[(.call (t, c), some (s.mandate.step P s.cfg (t, c)).1), (.restart cfg, none)], .kept,
          rfl, hnext⟩
  | @restart cfg =>
      exact ⟨[(.restart cfg, none)], .restart, rfl, Realises.restarted h.idle h.mirrors h.reads⟩

/-- A run on disk, from any deployment that realises a process. -/
theorem Realises.runs (h : Realises d s) {turns : List Turn} (hruns : d.Runs P turns d') :
    ∃ parts : List (List (Incident × Option Reply)), List.Forall₂ Turn.Is turns parts ∧
      Run.trace (Process.endure P) s (parts.flatten.map Prod.fst) = parts.flatten ∧
      Realises d' (Run.exec (Process.endure P) s (parts.flatten.map Prod.fst)) := by
  induction hruns with
  | nil => exact ⟨[], .nil, rfl, h⟩
  | concat _ hstep ih =>
      obtain ⟨parts, hparts, htrace, hreal⟩ := ih
      obtain ⟨part, hpart, hanswers, hnext⟩ := hreal.step hstep
      refine ⟨parts ++ [part], List.rel_append hparts (.cons hpart .nil), ?_, ?_⟩
      · rw [List.flatten_append, List.flatten_singleton, List.map_append, Run.trace_append, htrace,
          hanswers]
      · rw [List.flatten_append, List.flatten_singleton, List.map_append, Run.exec_append]
        exact hnext

/-- **A mandate over its directory is a mandate over a ledger.**  Let the calls of a process on an
empty directory be answered, their writes succeed or fail, and the process crash within any step
of any write and be restarted with any arguments.  Then it is a process over a ledger that was
called, refused writes and restarted, turn by turn: the callers were told the same, and the
files read back as that ledger, with what either holds in memory the same. -/
theorem disk_refines (cfg : Config) {turns : List Turn} (hruns : (init P cfg).Runs P turns d) :
    ∃ parts : List (List (Incident × Option Reply)), List.Forall₂ Turn.Is turns parts ∧
      Run.trace (Process.endure P) ⟨cfg, .new P fun _ => none⟩ (parts.flatten.map Prod.fst) =
        parts.flatten ∧
      Realises d (Run.exec (Process.endure P) ⟨cfg, .new P fun _ => none⟩
        (parts.flatten.map Prod.fst)) :=
  (realises_init P cfg).runs hruns

/-- A process is stopped within its first write, and started again. -/
theorem runs_cut : ∃ d, (init .plain Tee.twoChips).Runs .plain
    [.cut (Tee.instant 1, .revoke Tee.tik "lost") Tee.twoChips, .restart Tee.twoChips] d := by
  have hkeys : (revokedFor Record.blank "lost").dict.KeysOnce := by
    simp [revokedFor, Record.blank, Record.dict, Record.fields, hexOrNull, textOrNull, Json.KeysOnce,
      Json.KeysOnceFields, Json.KeysOnceList]
  have hwrites : Writes .plain Tee.twoChips ((init .plain Tee.twoChips).memory.over fun _ => none)
      (Tee.instant 1) Tee.tik (.revoke Tee.tik "lost") (revokedFor Record.blank "lost") := .revoked
  have hcut := FileStore.exists_puts_cut (s := {}) rfl (FileStore.isHex_hex Tee.tik)
    ⟨(revokedFor Record.blank "lost").dict, hkeys⟩
  have hreads := (realises_init .plain Tee.twoChips).reads
  have hfirst : Step .plain (init .plain Tee.twoChips)
      (.cut (Tee.instant 1, .revoke Tee.tik "lost") Tee.twoChips) _ := .cut hreads hwrites rfl hcut
  exact ⟨_, (Runs.nil.concat hfirst).concat .restart⟩

theorem disk_refines_cut : ∃ d parts,
    List.Forall₂ Turn.Is
      [.cut (Tee.instant 1, .revoke Tee.tik "lost") Tee.twoChips, .restart Tee.twoChips] parts ∧
    Run.trace (Process.endure .plain) ⟨Tee.twoChips, .new .plain fun _ => none⟩
      (parts.flatten.map Prod.fst) = parts.flatten ∧
    Realises d (Run.exec (Process.endure .plain) ⟨Tee.twoChips, .new .plain fun _ => none⟩
      (parts.flatten.map Prod.fst)) := by
  obtain ⟨d, hruns⟩ := runs_cut
  obtain ⟨parts, h⟩ := disk_refines Tee.twoChips hruns
  exact ⟨d, parts, h⟩

end Simulation

end Deployment

end Hatls
