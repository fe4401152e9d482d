import Hatls.Progress

/-!
# An honest session under interference

An attester keeps its half of a chain and the mandate the other half.  The messages
between them are under way for as long as it takes, and meanwhile anybody calls
anything.  The two halves stay in step: what is under way continues the chain of the
mandate, message by message, up to where the attester stands.

## Main definitions

* `Link`, `Move`, `Link.step` — an attester, the messages under way, and a mandate.
* `Link.Fair` — what may be interleaved.
* `InStep`, `inStep_step` — the invariant.
* `honest_progress` — every message is accepted.
-/

namespace Hatls

open Mandate Binder

variable {P : Primitives} {cfg : Config}

/-- A message under way, with what the relying party presents it with. -/
structure Delivery where
  exporter : Bytes
  head : Option Bytes
  msg : Json

/-- An attester and a mandate, with the messages between them in order. -/
structure Link where
  mandate : Mandate
  attester : Attester
  queue : List Delivery

/-- What happens next: the attester makes a message on its chip, the oldest message
under way is presented, or somebody calls the mandate. -/
inductive Move
  | emit (report : Bytes → Except Exn Json) (exporter : Bytes) (head : Option Bytes)
  | deliver (t : Moment)
  | call (i : Moment × Call)

namespace Link

variable (P cfg) (k ctx : Bytes)

/-- One move, in the session `ctx` of the identity `k`. -/
def step (s : Link) : Move → Option Reply × Link
  | .emit report exporter head =>
    match s.attester.attest P report ctx exporter head with
    | (.ok msg, a) => (none, { s with attester := a, queue := s.queue ++ [⟨exporter, head, msg⟩] })
    | (.error _, a) => (none, { s with attester := a })
  | .deliver t =>
    match s.queue with
    | [] => (none, s)
    | d :: rest =>
      let out := s.mandate.step P cfg (t, .present k ctx d.exporter d.msg d.head none)
      (some out.1, { s with mandate := out.2, queue := rest })
  | .call i =>
    let out := s.mandate.step P cfg i
    (some out.1, { s with mandate := out.2 })

section Step

variable {P cfg k ctx} {s : Link}

theorem step_emit_ok {report : Bytes → Except Exn Json} {exporter : Bytes} {head : Option Bytes}
    {msg : Json} {a : Attester}
    (h : s.attester.attest P report ctx exporter head = (.ok msg, a)) :
    s.step P cfg k ctx (.emit report exporter head) =
      (none, { s with attester := a, queue := s.queue ++ [⟨exporter, head, msg⟩] }) := by
  simp only [step, h]

theorem step_emit_error {report : Bytes → Except Exn Json} {exporter : Bytes} {head : Option Bytes}
    {x : Exn} {a : Attester} (h : s.attester.attest P report ctx exporter head = (.error x, a)) :
    s.step P cfg k ctx (.emit report exporter head) = (none, { s with attester := a }) := by
  simp only [step, h]

theorem step_deliver_nil (h : s.queue = []) (t : Moment) : s.step P cfg k ctx (.deliver t) = (none, s) := by
  simp only [step, h]

theorem step_deliver_cons {d : Delivery} {rest : List Delivery} (h : s.queue = d :: rest) (t : Moment) :
    s.step P cfg k ctx (.deliver t) =
      (some (s.mandate.step P cfg (t, .present k ctx d.exporter d.msg d.head none)).1,
        { s with
          mandate := (s.mandate.step P cfg (t, .present k ctx d.exporter d.msg d.head none)).2
          queue := rest }) := by
  simp only [step, h]

end Step

/-- A presentation for the identity in the session context. -/
def PresentsIn (k ctx : Bytes) : Call → Prop
  | .present k' ctx' .. => k' = k ∧ ctx' = ctx
  | _ => False

/-- The chip is the instance's, a head is one the log has had, and the other calls leave
the identity in force where it is and are not accepted in its session; the keys of
different sessions differ. -/
def Fair (inst : Bytes) (s : Link) : Move → Prop
  | .emit report _ head =>
    ChipOf cfg inst report ∧ ∀ h, head = some h → s.mandate.knowsHead h = true
  | .deliver _ => True
  | .call i =>
    Keeps P cfg k s.mandate i ∧ ¬ Accepted P cfg (PresentsIn k ctx) s.mandate i ∧
      ∀ ctx', PresentsIn k ctx' i.2 → sessionKey P k ctx' = sessionKey P k ctx → ctx' = ctx

/-- A message that is delivered is accepted. -/
def Served (s : Link) (move : Move) : Prop :=
  ∀ t, move = .deliver t → s.queue ≠ [] →
    ∃ reply, (s.step P cfg k ctx move).1 = some reply ∧ reply.accepted = true

end Link

/-- Where the mandate stands in a session: the last link and the next counter. -/
def Stands (P : Primitives) (m : Mandate) (k ctx base : Bytes) (n : ℕ) : Prop :=
  match m.sessions (sessionKey P k ctx) with
  | none => n = 0 ∧ base = firstLink P ctx k
  | some session => n = session.counter + 1 ∧ base = session.prev

theorem Stands.expects {m : Mandate} {k ctx base : Bytes} {n : ℕ} (h : Stands P m k ctx base n)
    (hctx : ctx.length < 256) : m.Expects P k ctx base n := by
  simp only [Stands] at h
  simp only [Expects]
  cases hs : m.sessions (sessionKey P k ctx) with
  | none =>
      simp only [hs] at h
      obtain ⟨rfl, rfl⟩ := h
      exact ⟨rfl, intraLink_eq P hctx k⟩
  | some session =>
      simp only [hs] at h
      exact h

/-- The messages under way continue a chain from where the mandate stands to where the
attester stands. -/
def UnderWay (P : Primitives) (cfg : Config) (inst ctx : Bytes) (a : Attester) :
    Bytes → ℕ → List Delivery → Prop
  | base, n, [] => a.base P ctx = base ∧ a.counter = n
  | base, n, d :: rest =>
    Genuine P cfg inst d.exporter base n d.head d.msg ∧
      UnderWay P cfg inst ctx a (nextLink P d.exporter base n) (n + 1) rest

/-- A new message goes to the end. -/
theorem underWay_concat {inst ctx exporter : Bytes} {a : Attester} {head : Option Bytes} {msg : Json}
    (hmsg : Genuine P cfg inst exporter (a.base P ctx) a.counter head msg) {queue : List Delivery} :
    ∀ {base : Bytes} {n : ℕ}, UnderWay P cfg inst ctx a base n queue →
      UnderWay P cfg inst ctx (a.advance P ctx exporter) base n (queue ++ [⟨exporter, head, msg⟩]) := by
  induction queue with
  | nil =>
      rintro base n ⟨rfl, rfl⟩
      exact ⟨hmsg, rfl, rfl⟩
  | cons d rest ih => exact fun h => ⟨h.1, ih h.2⟩

/-- The two halves of a session are in step. -/
structure InStep (P : Primitives) (cfg : Config) (k ctx inst : Bytes) (s : Link) : Prop where
  coherent : Coherent (s.mandate.record k) inst
  tik : s.attester.tikPub = k
  prev_length : ∀ l, s.attester.prev = some l → l.length = 32
  short : s.queue ≠ [] → ctx.length < 256
  known : ∀ d ∈ s.queue, ∀ h, d.head = some h → s.mandate.knowsHead h = true
  chain : ∃ base n, Stands P s.mandate k ctx base n ∧
    UnderWay P cfg inst ctx s.attester base n s.queue

namespace InStep

variable {k ctx inst : Bytes} {s : Link}

theorem new {m : Mandate} (hco : Coherent (m.record k) inst)
    (hnew : m.sessions (sessionKey P k ctx) = none) :
    InStep P cfg k ctx inst ⟨m, .new k, []⟩ where
  coherent := hco
  tik := rfl
  prev_length := by simp [Attester.new]
  short h := absurd rfl h
  known := by simp
  chain := ⟨firstLink P ctx k, 0, by simp [Stands, hnew], rfl, rfl⟩

/-- The attester makes a message. -/
theorem emit (h : InStep P cfg k ctx inst s) {report : Bytes → Except Exn Json} {exporter : Bytes}
    {head : Option Bytes} (hchip : ChipOf cfg inst report)
    (hhead : ∀ x, head = some x → s.mandate.knowsHead x = true) :
    InStep P cfg k ctx inst (s.step P cfg k ctx (.emit report exporter head)).2 := by
  cases hout : s.attester.attest P report ctx exporter head with
  | mk answer a =>
      cases answer with
      | error x =>
          obtain rfl := Attester.attest_error P hout
          rw [Link.step_emit_error hout]
          exact h
      | ok msg =>
          obtain ⟨hctx, -, -, rfl, -⟩ := Attester.attest_ok h.prev_length hout
          have hmsg := Attester.genuine_of_attest h.prev_length hchip hout
          obtain ⟨base, n, hstands, hunder⟩ := h.chain
          rw [Link.step_emit_ok hout]
          refine ⟨h.coherent, h.tik, ?_, fun _ => hctx, ?_, base, n, hstands,
            underWay_concat hmsg hunder⟩
          · rintro l ⟨⟩
            simp
          · intro d hd
            rcases List.mem_append.mp hd with hd | hd
            · exact h.known d hd
            · obtain rfl := List.mem_singleton.mp hd
              exact hhead

/-- The oldest message meets the conditions of an accepted presentation. -/
theorem admits (h : InStep P cfg k ctx inst s) (hplace : cfg.requirePlace = false) {d : Delivery}
    {rest : List Delivery} (hqueue : s.queue = d :: rest) :
    ∃ place base n, Admits P cfg s.mandate k ctx d.exporter d.msg d.head none (some inst) place
        (nextLink P d.exporter base n) n ∧
      UnderWay P cfg inst ctx s.attester (nextLink P d.exporter base n) (n + 1) rest := by
  obtain ⟨base, n, hstands, hunder⟩ := h.chain
  rw [hqueue] at hunder
  have hctx := h.short (by simp [hqueue])
  have hknown := h.known d (by simp [hqueue])
  obtain ⟨place, hadm⟩ := admits_of_genuine hplace hunder.1 h.coherent.welcome hknown
    (hstands.expects hctx)
  exact ⟨place, base, n, hadm, hunder.2⟩

/-- Its delivery leaves the two in step. -/
theorem deliver (h : InStep P cfg k ctx inst s) (hplace : cfg.requirePlace = false)
    (hne : inst ≠ []) (t : Moment) :
    InStep P cfg k ctx inst (s.step P cfg k ctx (.deliver t)).2 := by
  cases hqueue : s.queue with
  | nil => rwa [Link.step_deliver_nil hqueue]
  | cons d rest =>
      obtain ⟨place, base, n, hadm, hunder⟩ := h.admits hplace hqueue
      rw [Link.step_deliver_cons hqueue]
      refine ⟨coherent_step ⟨id, fun hacc => hacc.1⟩ hne h.coherent, h.tik, h.prev_length,
        fun _ => h.short (by simp [hqueue]), fun d' hd' x hx =>
          knowsHead_step _ (h.known d' (by simp [hqueue, hd']) x hx), _, _, ?_, hunder⟩
      rw [Stands, step_of_admits s.mandate t hadm, sessions_recordDecision, sessions_admitted,
        Function.update_self]
      exact ⟨rfl, rfl⟩

/-- So does a call of somebody else. -/
theorem call (h : InStep P cfg k ctx inst s) (hne : inst ≠ []) {i : Moment × Call}
    (hfair : Link.Fair P cfg k ctx inst s (.call i)) :
    InStep P cfg k ctx inst (s.step P cfg k ctx (.call i)).2 := by
  obtain ⟨hkeep, hother, hkeys⟩ := hfair
  obtain ⟨base, n, hstands, hunder⟩ := h.chain
  refine ⟨coherent_step hkeep hne h.coherent, h.tik, h.prev_length, h.short, fun d hd x hx =>
    knowsHead_step i (h.known d hd x hx), base, n, ?_, hunder⟩
  have hsame : (s.mandate.step P cfg i).2.sessions (sessionKey P k ctx) =
      s.mandate.sessions (sessionKey P k ctx) := by
    obtain ⟨t, c⟩ := i
    obtain ⟨-, hmove⟩ := hkeep
    have hadv := s.mandate.step_advance P cfg t c (sessionKey P k ctx)
    simp only [Accepted] at hmove hother
    generalize (s.mandate.step P cfg (t, c)).1 = reply,
      (s.mandate.step P cfg (t, c)).2.sessions (sessionKey P k ctx) = session at hadv hmove hother ⊢
    cases hadv with
    | ended hkey => exact absurd ⟨hkey.symm, rfl⟩ hmove
    | @moved k' ctx' _ _ _ _ _ _ _ _ _ hkey =>
        obtain rfl : k' = k := congrArg Prod.fst hkey
        exact absurd ⟨⟨rfl, hkeys ctx' ⟨rfl, rfl⟩ hkey⟩, rfl⟩ hother
    | kept _ => rfl
  show Stands P (s.mandate.step P cfg i).2 k ctx base n
  rw [Stands, hsame]
  exact hstands

end InStep

/-- **Every fair move keeps the two in step.** -/
theorem inStep_step (hplace : cfg.requirePlace = false) {k ctx inst : Bytes} (hne : inst ≠ [])
    {s : Link} {move : Move} (hfair : Link.Fair P cfg k ctx inst s move)
    (h : InStep P cfg k ctx inst s) : InStep P cfg k ctx inst (s.step P cfg k ctx move).2 := by
  cases move with
  | emit report exporter head => exact h.emit hfair.1 hfair.2
  | deliver t => exact h.deliver hplace hne t
  | call i => exact h.call hne hfair

/-- **Honest progress under interference.**  An attester on the enrolled instance emits
any number of steps in a new session, and whatever is called meanwhile, short of a
revocation, a transfer or an accepted presentation in that session, each of its
messages is accepted when it is delivered. -/
theorem honest_progress (hplace : cfg.requirePlace = false) {m : Mandate} (hm : Reachable P cfg m)
    {k ctx inst : Bytes} (hco : Coherent (m.record k) inst)
    (hnew : m.sessions (sessionKey P k ctx) = none) {moves : List Move}
    (hfair : Run.Along (Link.step P cfg k ctx) (Link.Fair P cfg k ctx inst) ⟨m, .new k, []⟩ moves) :
    Run.Along (Link.step P cfg k ctx) (Link.Served P cfg k ctx) ⟨m, .new k, []⟩ moves := by
  have hne : inst ≠ [] := fun heq => (usable_of_reachable hm k).1 (by rw [hco.enrolled, heq])
  refine Run.along_of_invariant _ (InStep P cfg k ctx inst)
    (fun s move hf h => inStep_step hplace hne hf h) ?_ hfair (InStep.new hco hnew)
  rintro s move - h t rfl hqueue
  obtain ⟨d, rest, hqueue⟩ := List.exists_cons_of_ne_nil hqueue
  obtain ⟨place, base, n, hadm, -⟩ := h.admits hplace hqueue
  refine ⟨.decision (acceptedVerdict (some inst)), ?_, rfl⟩
  rw [Link.step_deliver_cons hqueue, step_of_admits s.mandate t hadm]

open Tee in
/-- The owner of an enrolled identity emits two steps with an impostor in between, and
both are accepted. -/
theorem honest_progress_twoChips :
    Run.Along (Link.step .plain twoChips tik [3]) (Link.Served .plain twoChips tik [3])
      ⟨after .plain twoChips (fun _ => none) (birth none), .new tik, []⟩
      [.emit (fun rd => .ok (teeA.report .plain [] rd)) [4] none, .call (opening teeB [1] [2] 2),
        .emit (fun rd => .ok (teeA.report .plain [] rd)) [5] none, .deliver (instant 3),
        .deliver (instant 4)] := by
  have hco : Coherent ((after .plain twoChips (fun _ => none) (birth none)).record tik) teeA.inst := by
    rw [record_birth trustsChips]
    exact ⟨rfl, rfl, by rintro o ⟨⟩⟩
  have hemit : ∀ s : Link, Link.Fair .plain twoChips tik [3] teeA.inst s
      (.emit (fun rd => .ok (teeA.report .plain [] rd)) [4] none) := fun s =>
    ⟨MockTEE.chipOf rfl teeA_trusted [], by simp⟩
  refine honest_progress rfl ⟨_, _, .empty, rfl⟩ hco (sessions_birth trustsChips none _)
    ⟨hemit _, ⟨⟨id, fun h => h.1⟩, fun h => absurd h.1.2 (by decide), ?_⟩, hemit _, trivial, trivial,
      trivial⟩
  rintro ctx' ⟨-, rfl⟩ hkey
  exact absurd hkey (by decide +kernel)

end Hatls
