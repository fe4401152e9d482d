import Hatls.Lib.Pieces
import Hatls.Lib.Run
import Hatls.Transcript

/-!
# Recorded connections

`BioConnection` of `hatls/transcript.py`, of which `tools/guest_probe.py` has a copy: a TLS
connection over memory BIOs, so that the bytes of the handshake pass through the program and can be
recorded.  Two of them talk over a socket.  Each runs on its own, each `recv` of a socket returns as
many bytes as it likes of those that have been sent, and either end may raise at any moment.  A
`WantReadError` that leaves a method is given as an `OSError`.

The TLS engine is a parameter, and nothing is asked of it.  What the two ends record of one
direction are two prefixes of one stream, so that the messages that both find are the same.

## Main definitions

* `Engine`, `BioConnection`, `Connected`, `Connected.step` — two ends and their socket.
* `Recorded` — what the records are, in every state that is reached.
* `Connected.hellos`, `Connected.reportData` — what an end makes of its records.
* `ends_agree` — the two ends make the same of them.
-/

namespace Hatls.Recording

/-! ## Ends -/

/-- What a caller asks of a connection. -/
inductive Op
  | doHandshake
  | recv (n : ℕ)
  | sendall (data : Bytes)
  | shutdown

/-- `handshake` and `recv` go on where the engine wants to read; the others raise. -/
def Op.retries : Op → Bool
  | .doHandshake => true
  | .recv _ => true
  | _ => false

/-- An exception leaves a method, but `shutdown` swallows it. -/
def Op.raises (x : Exn) : Op → Except Exn Bytes
  | .shutdown => .ok []
  | _ => .error x

/-- What a call into the engine comes to: it returns, wants to read first, or fails. -/
inductive Answer
  | returned (data : Bytes)
  | wantRead
  | failed (x : Exn)

/-- A TLS engine over memory BIOs, as `SSL.Connection` is one. -/
structure Engine where
  State : Type
  new : Bool → State
  call : Op → State → Answer × State
  /-- `none` where there is nothing to read. -/
  bioRead : ℕ → State → Option Bytes × State
  bioWrite : Bytes → State → State

/-- Where a connection stands: nothing was asked of it; it is about to call the engine; it is in
`_flush`, and then returns something or feeds the engine; it waits in `_feed`; its socket failed. -/
inductive Stage
  | idle
  | calling (op : Op)
  | flushing (op : Op) (answer : Option Bytes)
  | feeding (op : Op)
  | broken

structure BioConnection (E : Engine) where
  conn : E.State
  sent : Bytes
  received : Bytes
  recording : Bool
  stage : Stage

namespace BioConnection

variable {E : Engine}

/-- `BioConnection(context, sock, server)`. -/
def new (E : Engine) (server : Bool) : BioConnection E where
  conn := E.new server
  sent := []
  received := []
  recording := true
  stage := .idle

/-- The call into the engine. -/
def callEngine (c : BioConnection E) (op : Op) : Option (Except Exn Bytes) × BioConnection E :=
  match E.call op c.conn with
  | (.returned data, conn) => (none, { c with conn, stage := .flushing op (some data) })
  | (.wantRead, conn) =>
    if op.retries then (none, { c with conn, stage := .flushing op none })
    else (some (op.raises .osError), { c with conn, stage := .idle })
  | (.failed x, conn) => (some (op.raises x), { c with conn, stage := .idle })

/-- The end of `_flush`. -/
def flushed (c : BioConnection E) (op : Op) : Option Bytes → Option (Except Exn Bytes) × BioConnection E
  | none => (none, { c with stage := .feeding op })
  | some data =>
    let recording := match op with
      | .doHandshake => false
      | _ => c.recording
    (some (.ok data), { c with recording, stage := .idle })

/-- `if self._recording: self.sent += data`. -/
def recordSent (c : BioConnection E) (data : Bytes) : BioConnection E :=
  { c with sent := if c.recording then c.sent ++ data else c.sent }

/-- The rest of `_feed`, and another call. -/
def fed (c : BioConnection E) (op : Op) (data : Bytes) : BioConnection E where
  conn := E.bioWrite data c.conn
  sent := c.sent
  received := if c.recording then c.received ++ data else c.received
  recording := c.recording
  stage := .calling op

end BioConnection

/-! ## Two ends of a socket -/

/-- An end. -/
inductive Side
  | client
  | server
  deriving DecidableEq

def Side.other : Side → Side
  | client => server
  | server => client

/-- Two connections, and what each has sent. -/
structure Connected (E : Engine) where
  ends : Side → BioConnection E
  pipes : Side → Pipe UInt8

/-- What happens next. -/
inductive Happening
  /-- The caller calls a method. -/
  | ask (s : Side) (op : Op)
  /-- An end goes on by itself. -/
  | goOn (s : Side)
  /-- `sock.recv` returns. -/
  | arrive (s : Side) (n : ℕ)
  /-- `sock.recv` returns nothing, for the peer has closed. -/
  | close (s : Side)
  /-- `sock.sendall` raises after some bytes. -/
  | cut (s : Side) (n : ℕ)

namespace Connected

variable {E : Engine}

/-- Two ends before anything was sent. -/
def new (E : Engine) : Connected E where
  ends s := .new E (s = .server)
  pipes _ := ⟨[], []⟩

/-- The state with an end replaced. -/
def withEnd (net : Connected E) (s : Side) (c : BioConnection E) : Connected E :=
  { net with ends := Function.update net.ends s c }

/-- The state with a pipe replaced. -/
def withPipe (net : Connected E) (s : Side) (p : Pipe UInt8) : Connected E :=
  { net with pipes := Function.update net.pipes s p }

/-- One step, with what the caller of a method is told.  What cannot happen changes nothing. -/
def step (net : Connected E) : Happening → Option (Except Exn Bytes) × Connected E
  | .ask s op =>
    match (net.ends s).stage with
    | .idle => (none, net.withEnd s { net.ends s with stage := .calling op })
    | _ => (none, net)
  | .goOn s =>
    match (net.ends s).stage with
    | .calling op =>
      let (answer, c) := (net.ends s).callEngine op
      (answer, net.withEnd s c)
    | .flushing op answer =>
      match E.bioRead 65536 (net.ends s).conn with
      | (none, conn) =>
        let (answer, c) := { net.ends s with conn }.flushed op answer
        (answer, net.withEnd s c)
      | (some data, conn) =>
        (none, (net.withEnd s ({ net.ends s with conn }.recordSent data)).withPipe s
          ((net.pipes s).write data))
    | _ => (none, net)
  | .arrive s n =>
    match (net.ends s).stage with
    | .feeding op =>
      let (data, pipe) := (net.pipes s.other).read (min n 65536)
      if data = [] then (none, net)
      else (none, (net.withEnd s ((net.ends s).fed op data)).withPipe s.other pipe)
    | _ => (none, net)
  | .close s =>
    match (net.ends s).stage with
    | .feeding op => (some (op.raises .osError), net.withEnd s { net.ends s with stage := .idle })
    | _ => (none, net)
  | .cut s n =>
    match (net.ends s).stage with
    | .flushing op _ =>
      match E.bioRead 65536 (net.ends s).conn with
      | (none, _) => (none, net)
      | (some data, conn) =>
        (some (op.raises .osError), (net.withEnd s { net.ends s with conn, stage := .broken }).withPipe s
          ((net.pipes s).write (data.take n)))
    | _ => (none, net)

end Connected

/-! ## What a step does -/

variable {E : Engine}

namespace Connected

@[simp] theorem ends_withEnd_self (net : Connected E) (s : Side) (c : BioConnection E) :
    (net.withEnd s c).ends s = c := Function.update_self ..

theorem ends_withEnd_of_ne (net : Connected E) {s t : Side} (h : t ≠ s) (c : BioConnection E) :
    (net.withEnd s c).ends t = net.ends t := Function.update_of_ne h ..

@[simp] theorem pipes_withEnd (net : Connected E) (s : Side) (c : BioConnection E) :
    (net.withEnd s c).pipes = net.pipes := rfl

@[simp] theorem ends_withPipe (net : Connected E) (s : Side) (p : Pipe UInt8) :
    (net.withPipe s p).ends = net.ends := rfl

@[simp] theorem pipes_withPipe_self (net : Connected E) (s : Side) (p : Pipe UInt8) :
    (net.withPipe s p).pipes s = p := Function.update_self ..

theorem pipes_withPipe_of_ne (net : Connected E) {s t : Side} (h : t ≠ s) (p : Pipe UInt8) :
    (net.withPipe s p).pipes t = net.pipes t := Function.update_of_ne h ..

end Connected

/-- An end goes on without the socket: its records stay, recording is never resumed, and neither is
a broken connection. -/
structure Quiet (c c' : BioConnection E) : Prop where
  sent : c'.sent = c.sent
  received : c'.received = c.received
  recording : c'.recording = true → c.recording = true
  broken : c.stage = .broken → c'.stage = .broken

/-- **What a step does**: nothing that concerns the socket, or it sends and records what it sends,
or it sends a part and breaks, or it receives and records what it receives. -/
inductive Move (net : Connected E) : Connected E → Prop
  | none : Move net net
  | quiet {s : Side} {c : BioConnection E} (h : Quiet (net.ends s) c) : Move net (net.withEnd s c)
  | sends {s : Side} {conn : E.State} {data : Bytes} (hstage : (net.ends s).stage ≠ .broken) :
      Move net ((net.withEnd s ({ net.ends s with conn }.recordSent data)).withPipe s
        ((net.pipes s).write data))
  | breaks {s : Side} {conn : E.State} {data : Bytes} :
      Move net ((net.withEnd s { net.ends s with conn, stage := .broken }).withPipe s
        ((net.pipes s).write data))
  | receives {s : Side} {op : Op} {n : ℕ} (hstage : (net.ends s).stage ≠ .broken) :
      Move net ((net.withEnd s ((net.ends s).fed op ((net.pipes s.other).read n).1)).withPipe s.other
        ((net.pipes s.other).read n).2)

theorem quiet_callEngine (c : BioConnection E) (op : Op) (h : c.stage ≠ .broken) :
    Quiet c (c.callEngine op).2 := by
  have hquiet : ∀ conn stage, Quiet c { c with conn, stage } := by
    intro conn stage
    exact ⟨rfl, rfl, id, fun hbroken => absurd hbroken h⟩
  rw [BioConnection.callEngine]
  split
  · exact hquiet _ _
  · split_ifs
    · exact hquiet _ _
    · exact hquiet _ _
  · exact hquiet _ _

theorem quiet_flushed (c : BioConnection E) (conn : E.State) (op : Op) (answer : Option Bytes)
    (h : c.stage ≠ .broken) :
    Quiet c (({ c with conn } : BioConnection E).flushed op answer).2 := by
  have hbroken : ∀ stage, c.stage = .broken → stage = Stage.broken := fun _ heq => absurd heq h
  cases answer with
  | none => exact ⟨rfl, rfl, id, hbroken _⟩
  | some data =>
      refine ⟨rfl, rfl, ?_, hbroken _⟩
      cases op with
      | doHandshake =>
          intro hfalse
          cases hfalse
      | _ => exact id

theorem step_move (net : Connected E) (i : Happening) : Move net (net.step i).2 := by
  cases i with
  | ask s op =>
      rw [Connected.step]
      split
      next hstage => exact .quiet ⟨rfl, rfl, id, fun h => absurd (hstage.symm.trans h) (by simp)⟩
      next => exact .none
  | goOn s =>
      rw [Connected.step]
      split
      next op hstage => exact .quiet (quiet_callEngine _ op (by simp [hstage]))
      next op answer hstage =>
        have hgood : (net.ends s).stage ≠ .broken := by simp [hstage]
        split
        · exact .quiet (quiet_flushed _ _ op answer hgood)
        · exact .sends hgood
      next => exact .none
  | arrive s n =>
      rw [Connected.step]
      split
      next op hstage =>
        simp only
        split_ifs
        · exact .none
        · exact .receives (by simp [hstage])
      next => exact .none
  | close s =>
      rw [Connected.step]
      split
      next op hstage => exact .quiet ⟨rfl, rfl, id, fun h => absurd (hstage.symm.trans h) (by simp)⟩
      next => exact .none
  | cut s n =>
      rw [Connected.step]
      split
      next op answer hstage =>
        split
        · exact .none
        · exact .breaks
      next => exact .none

/-! ## What the records are -/

/-- **The records of an end**: of what it sent and of what it received, they are the beginning, and
all of it as long as it records. -/
structure Records (c : BioConnection E) (outward inward : Pipe UInt8) : Prop where
  sent : c.sent <+: outward.written
  sentAll : c.recording = true → c.stage ≠ .broken → c.sent = outward.written
  received : c.received <+: inward.taken
  receivedAll : c.recording = true → c.received = inward.taken

namespace Records

variable {c c' : BioConnection E} {outward inward : Pipe UInt8}

theorem quiet (h : Records c outward inward) (hquiet : Quiet c c') : Records c' outward inward where
  sent := hquiet.sent ▸ h.sent
  sentAll hrecording hstage := by
    rw [hquiet.sent]
    exact h.sentAll (hquiet.recording hrecording) fun hbroken => hstage (hquiet.broken hbroken)
  received := hquiet.received ▸ h.received
  receivedAll hrecording := by
    rw [hquiet.received]
    exact h.receivedAll (hquiet.recording hrecording)

theorem sends (h : Records c outward inward) (hstage : c.stage ≠ .broken) (conn : E.State)
    (data : Bytes) :
    Records (({ c with conn } : BioConnection E).recordSent data) (outward.write data) inward where
  sent := by
    rw [BioConnection.recordSent, Pipe.written_write]
    by_cases hrecording : c.recording = true
    · simp only [hrecording, if_true, h.sentAll hrecording hstage]
      exact List.prefix_refl _
    · simp only [hrecording]
      exact h.sent.trans (List.prefix_append _ _)
  sentAll hrecording _ := by
    have hbefore : c.recording = true := hrecording
    rw [BioConnection.recordSent, Pipe.written_write]
    simp only [hbefore, if_true, h.sentAll hbefore hstage]
  received := h.received
  receivedAll := h.receivedAll

theorem breaks (h : Records c outward inward) (conn : E.State) (data : Bytes) :
    Records { c with conn, stage := .broken } (outward.write data) inward where
  sent := by
    rw [Pipe.written_write]
    exact h.sent.trans (List.prefix_append _ _)
  sentAll _ hstage := absurd rfl hstage
  received := h.received
  receivedAll := h.receivedAll

theorem receives (h : Records c outward inward) (hstage : c.stage ≠ .broken) (op : Op) (n : ℕ) :
    Records (c.fed op (inward.read n).1) outward (inward.read n).2 where
  sent := h.sent
  sentAll hrecording _ := h.sentAll hrecording hstage
  received := by
    rw [BioConnection.fed, Pipe.taken_read]
    by_cases hrecording : c.recording = true
    · simp only [hrecording, if_true, h.receivedAll hrecording]
      exact List.prefix_refl _
    · simp only [hrecording]
      exact h.received.trans (List.prefix_append _ _)
  receivedAll hrecording := by
    have hbefore : c.recording = true := hrecording
    rw [BioConnection.fed, Pipe.taken_read]
    simp only [hbefore, if_true, h.receivedAll hbefore]

/-- What the other end sends is not received yet. -/
theorem otherSends (h : Records c outward inward) (data : Bytes) :
    Records c outward (inward.write data) where
  sent := h.sent
  sentAll := h.sentAll
  received := h.received
  receivedAll := h.receivedAll

/-- What the other end receives has been sent. -/
theorem otherReceives (h : Records c outward inward) (n : ℕ) :
    Records c (outward.read n).2 inward where
  sent := by
    rw [Pipe.written_read]
    exact h.sent
  sentAll hrecording hstage := by
    rw [Pipe.written_read]
    exact h.sentAll hrecording hstage
  received := h.received
  receivedAll := h.receivedAll

end Records

/-- The records of both ends. -/
def Recorded (net : Connected E) : Prop :=
  ∀ s : Side, Records (net.ends s) (net.pipes s) (net.pipes s.other)

theorem recorded_new (E : Engine) : Recorded (Connected.new E) := by
  intro s
  exact ⟨List.prefix_refl _, fun _ _ => rfl, List.prefix_refl _, fun _ => rfl⟩

theorem Side.other_ne (s : Side) : s.other ≠ s := by
  cases s <;> decide

theorem Side.other_other (s : Side) : s.other.other = s := by
  cases s <;> rfl

theorem Side.eq_or_eq_other (s t : Side) : t = s ∨ t = s.other := by
  cases s <;> cases t <;> decide

/-- **A step keeps the records of both ends.** -/
theorem recorded_step {net : Connected E} (h : Recorded net) (i : Happening) :
    Recorded (net.step i).2 := by
  have hmove := step_move net i
  generalize (net.step i).2 = net' at hmove ⊢
  intro t
  cases hmove with
  | none => exact h t
  | @quiet s c hquiet =>
      rw [Connected.pipes_withEnd]
      by_cases ht : t = s
      · subst ht
        rw [Connected.ends_withEnd_self]
        exact (h t).quiet hquiet
      · rw [Connected.ends_withEnd_of_ne _ ht]
        exact h t
  | @sends s conn data hstage =>
      rcases Side.eq_or_eq_other s t with rfl | rfl
      · rw [Connected.ends_withPipe, Connected.ends_withEnd_self, Connected.pipes_withPipe_self,
          Connected.pipes_withPipe_of_ne _ t.other_ne]
        exact (h t).sends hstage conn data
      · have hs := h s.other
        rw [Side.other_other] at hs ⊢
        rw [Connected.ends_withPipe, Connected.ends_withEnd_of_ne _ s.other_ne,
          Connected.pipes_withPipe_of_ne _ s.other_ne, Connected.pipes_withPipe_self]
        exact hs.otherSends data
  | @breaks s conn data =>
      rcases Side.eq_or_eq_other s t with rfl | rfl
      · rw [Connected.ends_withPipe, Connected.ends_withEnd_self, Connected.pipes_withPipe_self,
          Connected.pipes_withPipe_of_ne _ t.other_ne]
        exact (h t).breaks conn data
      · have hs := h s.other
        rw [Side.other_other] at hs ⊢
        rw [Connected.ends_withPipe, Connected.ends_withEnd_of_ne _ s.other_ne,
          Connected.pipes_withPipe_of_ne _ s.other_ne, Connected.pipes_withPipe_self]
        exact hs.otherSends data
  | @receives s op n hstage =>
      rcases Side.eq_or_eq_other s t with rfl | rfl
      · rw [Connected.ends_withPipe, Connected.ends_withEnd_self, Connected.pipes_withPipe_self,
          Connected.pipes_withPipe_of_ne _ t.other_ne.symm]
        exact (h t).receives hstage op n
      · have hs := h s.other
        rw [Side.other_other] at hs ⊢
        rw [Connected.ends_withPipe, Connected.ends_withEnd_of_ne _ s.other_ne,
          Connected.pipes_withPipe_self, Connected.pipes_withPipe_of_ne _ s.other_ne.symm]
        exact hs.otherReceives n

/-- What an end recorded of what an end sent. -/
def Connected.record (net : Connected E) (reader speaker : Side) : Bytes :=
  if reader = speaker then (net.ends reader).sent else (net.ends reader).received

/-- It is the beginning of what was sent. -/
theorem Recorded.record_begins {net : Connected E} (h : Recorded net) (reader speaker : Side) :
    net.record reader speaker <+: (net.pipes speaker).written := by
  rcases Side.eq_or_eq_other speaker reader with rfl | rfl
  · rw [Connected.record, if_pos rfl]
    exact (h reader).sent
  · have hreceived := (h speaker.other).received
    rw [Side.other_other] at hreceived
    rw [Connected.record, if_neg speaker.other_ne]
    exact hreceived.trans (Pipe.taken_prefix _)

/-! ## Records only grow -/

/-- What both pipes carried, and what both ends recorded, is still there. -/
structure Grows (net net' : Connected E) : Prop where
  written : ∀ s, (net.pipes s).written <+: (net'.pipes s).written
  sent : ∀ s, (net.ends s).sent <+: (net'.ends s).sent
  received : ∀ s, (net.ends s).received <+: (net'.ends s).received

theorem Grows.refl (net : Connected E) : Grows net net :=
  ⟨fun _ => List.prefix_refl _, fun _ => List.prefix_refl _, fun _ => List.prefix_refl _⟩

theorem Grows.trans {net₁ net₂ net₃ : Connected E} (h : Grows net₁ net₂) (h' : Grows net₂ net₃) :
    Grows net₁ net₃ :=
  ⟨fun s => (h.written s).trans (h'.written s), fun s => (h.sent s).trans (h'.sent s),
    fun s => (h.received s).trans (h'.received s)⟩

/-- Replacing an end and a pipe by grown ones. -/
theorem grows_of_replaced {net : Connected E} {s t : Side} {c : BioConnection E} {p : Pipe UInt8}
    (hwritten : (net.pipes t).written <+: p.written) (hsent : (net.ends s).sent <+: c.sent)
    (hreceived : (net.ends s).received <+: c.received) :
    Grows net ((net.withEnd s c).withPipe t p) := by
  have hend : ∀ u, (net.ends u).sent <+: (((net.withEnd s c).withPipe t p).ends u).sent ∧
      (net.ends u).received <+: (((net.withEnd s c).withPipe t p).ends u).received := by
    intro u
    rw [Connected.ends_withPipe]
    by_cases hu : u = s
    · subst hu
      rw [Connected.ends_withEnd_self]
      exact ⟨hsent, hreceived⟩
    · rw [Connected.ends_withEnd_of_ne _ hu]
      exact ⟨List.prefix_refl _, List.prefix_refl _⟩
  refine ⟨?_, fun u => (hend u).1, fun u => (hend u).2⟩
  intro u
  by_cases hu : u = t
  · subst hu
    rw [Connected.pipes_withPipe_self]
    exact hwritten
  · rw [Connected.pipes_withPipe_of_ne _ hu]
    exact List.prefix_refl _

theorem grows_step (net : Connected E) (i : Happening) : Grows net (net.step i).2 := by
  have hmove := step_move net i
  generalize (net.step i).2 = net' at hmove ⊢
  cases hmove with
  | none => exact .refl net
  | @quiet s c hquiet =>
      have hsame : net.withEnd s c = (net.withEnd s c).withPipe s (net.pipes s) := by
        rw [Connected.withPipe, Connected.pipes_withEnd, Function.update_eq_self]
        rfl
      rw [hsame]
      exact grows_of_replaced (List.prefix_refl _) (hquiet.sent ▸ List.prefix_refl _)
        (hquiet.received ▸ List.prefix_refl _)
  | @sends s conn data hstage =>
      refine grows_of_replaced ?_ ?_ (List.prefix_refl _)
      · rw [Pipe.written_write]
        exact List.prefix_append _ _
      · rw [BioConnection.recordSent]
        split_ifs
        · exact List.prefix_append _ _
        · exact List.prefix_refl _
  | @breaks s conn data =>
      refine grows_of_replaced ?_ (List.prefix_refl _) (List.prefix_refl _)
      rw [Pipe.written_write]
      exact List.prefix_append _ _
  | @receives s op n hstage =>
      refine grows_of_replaced ?_ (List.prefix_refl _) ?_
      · exact (Pipe.written_read _ n).symm ▸ List.prefix_refl _
      · rw [BioConnection.fed]
        split_ifs
        · exact List.prefix_append _ _
        · exact List.prefix_refl _

theorem Grows.record {net net' : Connected E} (h : Grows net net') (reader speaker : Side) :
    net.record reader speaker <+: net'.record reader speaker := by
  rw [Connected.record, Connected.record]
  split_ifs
  · exact h.sent reader
  · exact h.received reader

/-! ## What the ends make of them -/

open Transcript

/-- `suite_hash`: the hash function of a cipher suite, by its name. -/
def suiteHash (sha384 sha256 : HashAlgorithm) (cipherName : String) : Except Exn HashAlgorithm :=
  if cipherName.endsWith "_SHA384" then .ok sha384
  else if cipherName.endsWith "_SHA256" then .ok sha256
  else .error .valueError

/-- `binder_report_data`: a binder in the 64 bytes a report provides. -/
def binderReportData (binder : Bytes) : Except Exn Bytes :=
  if binder.length ≤ 64 then .ok (binder ++ List.replicate (64 - binder.length) 0)
  else .error .valueError

namespace Connected

/-- `transcript_ch_sh` of what an end recorded. -/
def hellos (net : Connected E) (reader : Side) : Except Exn (Bytes × Bytes) :=
  transcriptChSh (net.record reader .client) (net.record reader .server)

/-- The report data that an end expects, or asks its chip to sign. -/
def reportData (sha384 sha256 : HashAlgorithm) (net : Connected E) (reader : Side)
    (cipherName : String) (spki : Bytes) : Except Exn Bytes := do
  let (ch, sh) ← net.hellos reader
  let H ← suiteHash sha384 sha256 cipherName
  let binder ← draftBinder H ch sh spki
  binderReportData binder

/-- An end finds a message at the beginning of either stream. -/
structure Found (net : Connected E) (reader : Side) (ch sh : Bytes) : Prop where
  ch : firstHandshakeMessage (net.record reader .client) 0x01 = some ch
  sh : firstHandshakeMessage (net.record reader .server) 0x02 = some sh

theorem Found.hellos_eq {net : Connected E} {reader : Side} {ch sh : Bytes}
    (h : net.Found reader ch sh) :
    net.hellos reader = if Bytes.slice sh 6 38 = hrrRandom then .error .valueError else .ok (ch, sh) := by
  simp only [hellos, transcriptChSh, h.ch, h.sh]

end Connected

/-- What is found at the beginning of a stream is found at the beginning of a longer one. -/
theorem found_of_beginning {stream stream' m : Bytes} {t : ℤ} (h : stream <+: stream')
    (hfound : firstHandshakeMessage stream t = some m) : firstHandshakeMessage stream' t = some m := by
  obtain ⟨more, rfl⟩ := h
  exact reassembles.extends_ stream more m t hfound

/-- Two beginnings of one stream hold one message. -/
theorem found_unique {stream stream₁ stream₂ m₁ m₂ : Bytes} {t : ℤ} (h₁ : stream₁ <+: stream)
    (h₂ : stream₂ <+: stream) (hfound₁ : firstHandshakeMessage stream₁ t = some m₁)
    (hfound₂ : firstHandshakeMessage stream₂ t = some m₂) : m₁ = m₂ :=
  Option.some.inj ((found_of_beginning h₁ hfound₁).symm.trans (found_of_beginning h₂ hfound₂))

/-- **The two ends make the same of their records.**  Whatever their engines do, however their steps
interleave, and in whatever pieces the bytes arrive: once an end has found the two Hello messages it
finds them ever after; an end that finds them then or later finds the same; and then both have the
same transcript, or both refuse it, and both derive the same report data from it. -/
theorem ends_agree (E : Engine) (happenings later : List Happening) {reader : Side} {ch sh : Bytes}
    (hfound : (Run.exec Connected.step (.new E) happenings).Found reader ch sh) :
    let net := Run.exec Connected.step (.new E) happenings
    let net' := Run.exec Connected.step net later
    net'.Found reader ch sh ∧
      ∀ reader' ch' sh', net'.Found reader' ch' sh' → ch' = ch ∧ sh' = sh ∧
        net'.hellos reader' = net.hellos reader ∧
        ∀ sha384 sha256 cipherName spki,
          net'.reportData sha384 sha256 reader' cipherName spki =
            net.reportData sha384 sha256 reader cipherName spki := by
  intro net net'
  have hrecorded : Recorded net :=
    Run.exec_invariant' Connected.step Recorded (fun _ i h => recorded_step h i) happenings
      (recorded_new E)
  have hrecorded' : Recorded net' :=
    Run.exec_invariant' Connected.step Recorded (fun _ i h => recorded_step h i) later hrecorded
  have hgrows : Grows net net' :=
    Run.exec_invariant' Connected.step (Grows net) (fun n i h => h.trans (grows_step n i)) later
      (.refl net)
  have hstill : net'.Found reader ch sh :=
    ⟨found_of_beginning (hgrows.record _ _) hfound.ch, found_of_beginning (hgrows.record _ _) hfound.sh⟩
  refine ⟨hstill, ?_⟩
  intro reader' ch' sh' hfound'
  obtain rfl : ch' = ch := found_unique (hrecorded'.record_begins reader' .client)
    ((hrecorded.record_begins reader .client).trans (hgrows.written .client)) hfound'.ch hfound.ch
  obtain rfl : sh' = sh := found_unique (hrecorded'.record_begins reader' .server)
    ((hrecorded.record_begins reader .server).trans (hgrows.written .server)) hfound'.sh hfound.sh
  have hhellos : net'.hellos reader' = net.hellos reader := hfound'.hellos_eq.trans hfound.hellos_eq.symm
  refine ⟨rfl, rfl, hhellos, ?_⟩
  intro sha384 sha256 cipherName spki
  rw [Connected.reportData, Connected.reportData, hhellos]

/-! ## An example -/

/-- A ClientHello without a body, and a ServerHello. -/
def clientHello : TlsRecord := ⟨0x16, 3, 1, [1, 0, 0, 0], by decide⟩

def serverHello : TlsRecord := ⟨0x16, 3, 3, [2, 0, 0, 0], by decide⟩

/-- What an engine holds that does nothing but exchange the two: what it has to write, and what it
has read. -/
structure Exchange where
  server : Bool
  out : Bytes
  got : Bytes

/-- It answers nine bytes with the other message, and then the handshake is over. -/
def exchanging : Engine where
  State := Exchange
  new server := ⟨server, if server then [] else clientHello.encode, []⟩
  call _ e := (if e.got.length < 9 then .wantRead else .returned [], e)
  bioRead n e := if e.out = [] then (none, e) else (some (e.out.take n), { e with out := e.out.drop n })
  bioWrite data e :=
    { e with
      got := e.got ++ data
      out := if e.server && decide ((e.got ++ data).length = 9) then serverHello.encode else e.out }

/-- The client sends its message, of which the server reads three bytes before the rest, and
answers. -/
def answered : List Happening := [.ask .client .doHandshake, .goOn .client, .goOn .client, .goOn .client,
  .ask .server .doHandshake, .goOn .server, .goOn .server, .arrive .server 3, .goOn .server,
  .goOn .server, .arrive .server 9, .goOn .server, .goOn .server]

/-- Then the client reads the answer. -/
def heard : List Happening := [.arrive .client 9, .goOn .client, .goOn .client]

theorem found_hellos : firstHandshakeMessage clientHello.encode 0x01 = some [1, 0, 0, 0] ∧
    firstHandshakeMessage serverHello.encode 0x02 = some [2, 0, 0, 0] := by
  have hnone : ∀ x ∈ ([] : List TlsRecord), x.ctype ≠ 0x16 := by simp
  constructor
  · have hcut : ∀ x ∈ [clientHello], x.ctype = 0x16 := by simp [clientHello]
    exact reassembles.whole ⟨1, [], by decide⟩ [] [] [clientHello] [] hnone hcut rfl
  · have hcut : ∀ x ∈ [serverHello], x.ctype = 0x16 := by simp [serverHello]
    exact reassembles.whole ⟨2, [], by decide⟩ [] [] [serverHello] [] hnone hcut rfl

/-- The client makes the same of what it heard as the server of what it answered. -/
theorem ends_agree_exchanging :
    (Run.exec Connected.step (Run.exec Connected.step (.new exchanging) answered) heard).hellos .client =
      (Run.exec Connected.step (.new exchanging) answered).hellos .server := by
  have hserver : (Run.exec Connected.step (.new exchanging) answered).Found .server [1, 0, 0, 0]
      [2, 0, 0, 0] := ⟨found_hellos.1, found_hellos.2⟩
  have hclient : (Run.exec Connected.step (Run.exec Connected.step (.new exchanging) answered)
      heard).Found .client [1, 0, 0, 0] [2, 0, 0, 0] := ⟨found_hellos.1, found_hellos.2⟩
  exact ((ends_agree exchanging answered heard hserver).2 .client _ _ hclient).2.2.1

end Hatls.Recording
