import Hatls.GuestProbe
import Hatls.Chains
import Hatls.Lifecycle
import Hatls.Wire

/-!
# Relying parties and relays

`examples/relay_demo.py`: a guest that anyone may ask to be enrolled or to attest, a client that
takes what it is answered to a mandate, and thieves with the guest's key in between.  Each end of a
TLS connection derives the exporter and the session context from its own side.  Of two connections
in a row the two ends that matter are the client's and the guest's, and these agree where there is
no relay.

## Main definitions

* `RelayDemo.Tls`, `RelayDemo.Route` — connections, with what their ends derive.
* `RelayDemo.Guest`, `RelayDemo.Guest.answer` — the attester.
* `RelayDemo.feed`, `RelayDemo.visit`, `RelayDemo.enrol` — what a client does.
* `RelayDemo.Turn`, `RelayDemo.turn` — clients that come one after another, and others' calls.
* `RelayDemo.relays_stopped` — a client is served if and only if it reached the guest itself.
* `RelayDemo.enrolled_over` — an enrolment over relays is one of the guest's own instance.
-/

namespace Hatls.RelayDemo

open Mandate Binder GuestProbe

/-- A TLS connection, with what both of its ends derive from it. -/
structure Tls where
  exporter : Bytes
  context : Bytes
  connection : Wire.Connection
  length_context : context.length = 48

/-- How a client reaches the guest: its own connection, and that of each relay to the next. -/
structure Route where
  near : Tls
  beyond : List Tls

/-- The connection that ends at the guest. -/
def Route.far (r : Route) : Tls := r.beyond.getLast?.getD r.near

/-- All connections on the way. -/
def Route.hops (r : Route) : List Wire.Connection := r.near.connection :: r.beyond.map Tls.connection

/-! ## The guest -/

/-- A guest: its chip, its identity key, and the request it makes with the private half. -/
structure Guest where
  report : Bytes → Except Exn Json
  tikPub : Bytes
  csr : Bytes

namespace Guest

variable (P : Primitives) (g : Guest)

/-- `[att.attest(sc, exp) for _ in range(steps)]`, with a fresh attester. -/
def chain (exporter context : Bytes) (steps : ℕ) : Except Exn (List Json) :=
  match (Attester.new g.tikPub).attests P g.report context exporter none steps with
  | (steps, .ok ()) => .ok (steps.map Prod.fst)
  | (_, .error x) => .error x

/-- What `guest_server` answers to a request over a connection. -/
def answer (exporter context : Bytes) (req : Json) : Except Exn Json :=
  match req with
  | .obj fields =>
    if (Json.getD fields "enroll" .null).truthy then do
      let nonce ← (← req.item "nonce").fromHex
      let evidence ← g.report (P.sha512 (nonce ++ g.csr))
      return .obj [("csr", .str (Bytes.hex g.csr)), ("evidence", evidence)]
    else do
      let steps ← (Json.getD fields "steps" (.int 2)).toInt
      let chain ← g.chain P exporter context steps.toNat
      return .obj [("chain", .arr chain)]
  | _ => .error .attributeError

end Guest

/-- `cl.request(obj)`, where the client reaches the guest on a route. -/
def Route.request (P : Primitives) (g : Guest) (r : Route) (obj : Json) : Except Exn Json :=
  Wire.request r.near.connection
    (Wire.relays (r.beyond.map Tls.connection)
      (Wire.serve (g.answer P r.far.exporter r.far.context))) obj

/-! ## The client -/

section Client

variable (P : Primitives) (cfg : Config)

/-- `feed`: present the steps until one is refused.  The client reads the identity key and the two
values of the session off its own connection. -/
def feed (tikPub context exporter : Bytes) :
    Mandate → (ℕ → Moment) → Option Bool → List Json → Except Exn (Option Bool) × Mandate
  | m, _, ok, [] => (.ok ok, m)
  | m, times, _, step :: steps =>
    match m.present P cfg (times 0).env tikPub context exporter step none none with
    | (.error x, m) => (.error x, m)
    | (.ok v, m) =>
      match step.item "counter" with
      | .error x => (.error x, m)
      | .ok _ =>
        if v.ok then feed tikPub context exporter m (fun n => times (n + 1)) (some v.ok) steps
        else (.ok (some v.ok), m)

/-- A client that asks for a number of steps. -/
structure Visit where
  route : Route
  steps : ℕ
  times : ℕ → Moment

variable (g : Guest)

/-- `feed(m, cl, cl.request({"steps": steps}))`.  A relay shows the client the guest's key. -/
def visit (m : Mandate) (v : Visit) : Except Exn (Option Bool) × Mandate :=
  match v.route.request P g (.obj [("steps", .int v.steps)]) with
  | .error x => (.error x, m)
  | .ok blob =>
    match (do (← blob.item "chain").iter) with
    | .error x => (.error x, m)
    | .ok steps =>
      feed P cfg g.tikPub v.route.near.context v.route.near.exporter m v.times none steps

/-- The enrolment.  An `AssertionError` is given as a `ValueError`. -/
def enrol (m : Mandate) (route : Route) (t : Moment) (nonce : Bytes) :
    Except Exn (Bool × String) × Mandate :=
  match route.request P g (.obj [("enroll", .bool true), ("nonce", .str (Bytes.hex nonce))]) with
  | .error x => (.error x, m)
  | .ok r =>
    match (do (← r.item "csr").fromHex) with
    | .error x => (.error x, m)
    | .ok csr =>
      match csrPublicKeyDer P csr with
      | .error _ => (.error .valueError, m)
      | .ok spki =>
        if spki ≠ g.tikPub then (.error .valueError, m)
        else
          match r.item "evidence" with
          | .error x => (.error x, m)
          | .ok evidence => m.enroll P cfg t.env g.tikPub evidence nonce csr none none none

/-- Clients come one after another, and others call what they like. -/
inductive Turn
  | visit (v : Visit)
  | call (i : Moment × Call)

/-- A turn, with what a client is told. -/
def turn (m : Mandate) : Turn → Option (Except Exn (Option Bool)) × Mandate
  | .visit v =>
    let out := visit P cfg g m v
    (some out.1, out.2)
  | .call i => (none, (m.step P cfg i).2)

theorem turn_visit (m : Mandate) (v : Visit) :
    turn P cfg g m (.visit v) = (some (visit P cfg g m v).1, (visit P cfg g m v).2) := rfl

end Client

/-! ## What the guest answers -/

/-- The chip of the guest answers, with evidence that the mandate accepts, of one instance at one
place. -/
structure Guest.Sound (cfg : Config) (g : Guest) (inst : Bytes) (place : Option Bytes) : Prop where
  chip : ChipAt cfg inst place g.report
  answers : ∀ rd, ∃ evidence, g.report rd = .ok evidence
  keysOnce : ∀ rd evidence, g.report rd = .ok evidence → Json.KeysOnce evidence

section Answers

variable {P : Primitives} {cfg : Config} {g : Guest} {inst : Bytes} {place : Option Bytes}
  {exporter ctx : Bytes}

/-- A chain with all its entries was not cut short. -/
theorem loop_ok {report : Bytes → Except Exn Json} {k : Bytes} {head : Option Bytes} (steps : ℕ) :
    ∀ {counter : ℕ} {prev : Bytes},
      (chain.loop P report exporter ctx k head steps counter prev).1.length = steps →
      (chain.loop P report exporter ctx k head steps counter prev).2 = .ok () := by
  induction steps with
  | zero =>
      intro counter prev _
      rfl
  | succ steps ih =>
      intro counter prev h
      rw [chain.loop] at h ⊢
      cases hentry : entry P report exporter ctx k head counter prev with
      | error x =>
          rw [hentry] at h
          cases h
      | ok e =>
          rw [hentry] at h
          exact ih (Nat.succ.inj h)

/-- The entries of the chain that the guest's attester walks. -/
def Guest.entries (P : Primitives) (g : Guest) (exporter ctx : Bytes) (steps : ℕ) : List Entry :=
  (GuestProbe.chain P g.report exporter ctx g.tikPub none steps).1

variable (P exporter) in
theorem Guest.Sound.length_entries (hg : g.Sound cfg inst place) (hctx : ctx.length = 48) {steps : ℕ}
    (hsteps : steps ≤ 2 ^ 64) : (g.entries P exporter ctx steps).length = steps :=
  length_chain hg.answers (by omega) hsteps

variable (P exporter) in
/-- The guest answers with its chain. -/
theorem Guest.Sound.answer_steps (hg : g.Sound cfg inst place) (hctx : ctx.length = 48) {steps : ℕ}
    (hpos : 0 < steps) (hsteps : steps ≤ 2 ^ 64) :
    g.answer P exporter ctx (.obj [("steps", .int steps)]) =
      .ok (.obj [("chain", .arr ((g.entries P exporter ctx steps).map (Entry.attested none)))]) := by
  obtain ⟨hmsgs, hend⟩ := attests_eq_chain (P := P) g.report ctx exporter g.tikPub none steps
  have hshort : ctx.length < 256 := by omega
  have hok : (GuestProbe.chain P g.report exporter ctx g.tikPub none steps).2 = .ok () := by
    have hlength := hg.length_entries P exporter hctx hsteps
    rw [Guest.entries, GuestProbe.chain, intraLink_eq_binder, Binder.intraLink_eq P hshort] at hlength
    rw [GuestProbe.chain, intraLink_eq_binder, Binder.intraLink_eq P hshort]
    exact loop_ok steps hlength
  have hchain : g.chain P exporter ctx steps =
      .ok ((g.entries P exporter ctx steps).map (Entry.attested none)) := by
    rw [Guest.chain]
    rw [hok] at hend
    have hsecond := hend hpos
    generalize (Attester.new g.tikPub).attests P g.report ctx exporter none steps = out
      at hmsgs hsecond ⊢
    obtain ⟨msgs, answer⟩ := out
    obtain rfl : answer = .ok () := hsecond
    obtain rfl : msgs = _ := hmsgs
    simp only [List.map_map, Guest.entries]
    rfl
  simp only [Guest.answer, Json.getD, Json.lookup, List.find?_cons, List.find?_nil, Json.toInt]
  simp [Json.truthy, hchain]

end Answers

section Chain

variable {P : Primitives} {cfg : Config} {g : Guest} {inst : Bytes} {place : Option Bytes}
  {exporter ctx : Bytes}

theorem report_of_mem_entries {steps : ℕ} {e : Entry} (h : e ∈ g.entries P exporter ctx steps) :
    g.report e.reportData = .ok e.report :=
  report_of_mem_chain h

variable (P exporter ctx) in
/-- The answer is a dictionary without repeated keys, down to the evidence. -/
theorem Guest.Sound.keysOnce_steps (hg : g.Sound cfg inst place) (steps : ℕ) : Json.KeysOnce
    (.obj [("chain", .arr ((g.entries P exporter ctx steps).map (Entry.attested none)))]) := by
  refine ⟨by simp, Json.KeysOnceList.of_forall ?_, trivial⟩
  intro msg hmsg
  obtain ⟨e, he, rfl⟩ := List.mem_map.mp hmsg
  refine ⟨by simp, trivial, trivial, trivial, ?_, trivial⟩
  exact hg.keysOnce _ _ (report_of_mem_entries he)

variable (P exporter) in
/-- The chain begins with the first link of the session. -/
theorem Guest.Sound.entries_cons (hg : g.Sound cfg inst place) (hctx : ctx.length = 48) {steps : ℕ}
    (hpos : 0 < steps) (hsteps : steps ≤ 2 ^ 64) :
    ∃ e es, g.entries P exporter ctx steps = e :: es ∧ e.counter = 0 ∧
      e.postLink = nextLink P exporter (firstLink P ctx g.tikPub) 0 ∧
      g.report (Binder.reportDataFor P (nextLink P exporter (firstLink P ctx g.tikPub) 0) none) =
        .ok e.report := by
  obtain ⟨steps, rfl⟩ : ∃ n, steps = n + 1 := ⟨steps - 1, by omega⟩
  have hlength := hg.length_entries P exporter hctx hsteps
  have hil := Binder.intraLink_eq P (show ctx.length < 256 by omega) g.tikPub
  have hbase : linkBefore P ctx g.tikPub 0 (firstLink P ctx g.tikPub) =
      .ok (firstLink P ctx g.tikPub) := by
    rw [linkBefore, intraLink_eq_binder]
    simpa using hil
  rw [Guest.entries, GuestProbe.chain, intraLink_eq_binder, hil] at hlength ⊢
  simp only [chain.loop] at hlength ⊢
  cases hentry : entry P g.report exporter ctx g.tikPub none 0 (firstLink P ctx g.tikPub) with
  | error x =>
      rw [hentry] at hlength
      cases hlength
  | ok e =>
      obtain ⟨-, hcounter, hlink, hreport⟩ := entry_eq_ok hbase (length_firstLink P ctx g.tikPub) hentry
      exact ⟨e, _, rfl, hcounter, hlink, hreport⟩

end Chain

/-! ## What a client is told -/

section Fed

variable {P : Primitives} {cfg : Config} {k ctx exporter inst : Bytes} {place : Option Bytes}

/-- The times of a number of presentations. -/
def moments (times : ℕ → Moment) (n : ℕ) : List Moment := (List.range n).map times

theorem moments_succ (times : ℕ → Moment) (n : ℕ) :
    moments times (n + 1) = times 0 :: moments (fun n => times (n + 1)) n := by
  rw [moments, List.range_succ_eq_map, List.map_cons, List.map_map]
  rfl

/-- Presenting is a step of the mandate. -/
theorem present_of_accepted {m : Mandate} {t : Moment} {msg : Json}
    (h : (m.step P cfg (t, .present k ctx exporter msg none none)).1.accepted = true) :
    ∃ v, v.ok = true ∧ m.present P cfg t.env k ctx exporter msg none none =
      (.ok v, (m.step P cfg (t, .present k ctx exporter msg none none)).2) := by
  simp only [step] at h ⊢
  generalize m.present P cfg t.env k ctx exporter msg none none = out at h ⊢
  obtain ⟨answer, m'⟩ := out
  cases answer with
  | error x => cases h
  | ok v => exact ⟨v, h, rfl⟩

/-- **Where the mandate accepts all steps, the client is told so.** -/
theorem feed_of_accepted {m : Mandate} (times : ℕ → Moment) (ok : Option Bool) (steps : List Json)
    (hcounter : ∀ msg ∈ steps, ∃ c, msg.item "counter" = .ok c)
    (h : Run.Along (step P cfg) (fun m i => (m.step P cfg i).1.accepted = true) m
      (presents k ctx exporter none steps (moments times steps.length))) :
    (feed P cfg k ctx exporter m times ok steps).1 = .ok (if steps = [] then ok else some true) := by
  induction steps generalizing m times ok with
  | nil => rfl
  | cons msg steps ih =>
      obtain ⟨hmsg, hsteps⟩ := List.forall_mem_cons.mp hcounter
      rw [List.length_cons, moments_succ, presents, List.zipWith_cons_cons, Run.along_cons] at h
      obtain ⟨v, hv, hpresent⟩ := present_of_accepted h.1
      obtain ⟨c, hc⟩ := hmsg
      rw [feed]
      simp only [hpresent, hc, hv, if_true]
      rw [ih _ _ hsteps h.2]
      simp

variable (P cfg k ctx exporter) in
/-- Feeding a mandate is presenting to it. -/
theorem exists_feed_run (m : Mandate) (times : ℕ → Moment) (ok : Option Bool) (steps : List Json) :
    ∃ is, (∀ i ∈ is, ∃ msg, i.2 = Call.present k ctx exporter msg none none) ∧
      (feed P cfg k ctx exporter m times ok steps).2 = Run.exec (step P cfg) m is := by
  induction steps generalizing m times ok with
  | nil => exact ⟨[], by simp, rfl⟩
  | cons msg steps ih =>
      let i : Moment × Call := (times 0, .present k ctx exporter msg none none)
      have hstep : (m.step P cfg i).2 = (m.present P cfg (times 0).env k ctx exporter msg none none).2 := rfl
      have honce : ∃ is, (∀ i ∈ is, ∃ msg, i.2 = Call.present k ctx exporter msg none none) ∧
          (m.step P cfg i).2 = Run.exec (step P cfg) m is :=
        ⟨[i], List.forall_mem_singleton.mpr ⟨msg, rfl⟩, rfl⟩
      rw [feed]
      generalize m.present P cfg (times 0).env k ctx exporter msg none none = out at hstep
      obtain ⟨answer, m'⟩ := out
      obtain rfl : (m.step P cfg i).2 = m' := hstep
      cases answer with
      | error x => exact honce
      | ok v =>
          cases msg.item "counter" with
          | error x => exact honce
          | ok c =>
              cases hv : v.ok with
              | false => simpa only [hv, Bool.false_eq_true, if_false] using honce
              | true =>
                  obtain ⟨is, his, hrun⟩ := ih (m.step P cfg i).2 (fun n => times (n + 1)) (some v.ok)
                  refine ⟨i :: is, List.forall_mem_cons.mpr ⟨⟨msg, rfl⟩, his⟩, ?_⟩
                  simp only [hv, if_true, Run.exec_cons] at hrun ⊢
                  exact hrun

end Fed

/-! ## Sessions that are still to come -/

section Ready

variable {P : Primitives} {cfg : Config} {k ctx exporter inst : Bytes} {place : Option Bytes}
  {m : Mandate}

/-- A call that neither transfers an identity nor presents in a session leaves the session alone. -/
theorem sessions_aside {i : Moment × Call} {key : Bytes × Bytes}
    (htransfers : ¬ Accepted P cfg (Call.Transfers key.1) m i) (hcontinues : ¬ i.2.Continues P key) :
    (m.step P cfg i).2.sessions key = m.sessions key := by
  obtain ⟨t, c⟩ := i
  have hadv := m.step_advance P cfg t c key
  simp only [Accepted] at htransfers
  generalize (m.step P cfg (t, c)).1 = reply, (m.step P cfg (t, c)).2.sessions key = after
    at hadv htransfers ⊢
  cases hadv with
  | ended hkey => exact absurd ⟨hkey.symm, rfl⟩ htransfers
  | moved _ hkey => exact absurd hkey hcontinues
  | kept => rfl

/-- The silicon on record changes with an enrolment or a transfer only. -/
theorem enrolledPlace_aside {i : Moment × Call} (hkeep : Keeps P cfg k m i)
    (hen : (m.record k).enrolledInstance = some inst) :
    ((m.step P cfg i).2.record k).enrolledPlace = (m.record k).enrolledPlace := by
  obtain ⟨t, c⟩ := i
  have hch := m.step_change P cfg t c k
  obtain ⟨-, htransfers⟩ := hkeep
  simp only [Accepted] at htransfers
  generalize (m.step P cfg (t, c)).1 = reply, (m.step P cfg (t, c)).2.record k = r' at hch htransfers ⊢
  cases hch with
  | enrolled h =>
      rw [h.fresh] at hen
      cases hen
  | revoked => rfl
  | transferred => exact absurd ⟨rfl, rfl⟩ htransfers
  | presented => rfl
  | noted _ hn => exact hn.enrolledPlace
  | same => rfl

/-- **A session that is still to come stays one**, whatever others call, until the identity is
revoked or moved. -/
theorem ready_step {i : Moment × Call} (hne : inst ≠ []) (hkeep : Keeps P cfg k m i)
    (hcontinues : ¬ i.2.Continues P (sessionKey P k ctx)) (h : Ready P cfg m k ctx inst place none) :
    Ready P cfg (m.step P cfg i).2 k ctx inst place none where
  coherent := coherent_step hkeep hne h.coherent
  placed := by
    rw [AtPlace, enrolledPlace_aside hkeep h.coherent.enrolled]
    exact h.placed
  fresh := by rw [sessions_aside hkeep.2 hcontinues, h.fresh]
  known := by simp

/-- So it does while a client presents in another session. -/
theorem ready_feed {ctx' : Bytes} (hne : inst ≠ []) (hother : sessionKey P k ctx' ≠ sessionKey P k ctx)
    (h : Ready P cfg m k ctx inst place none) (times : ℕ → Moment) (ok : Option Bool)
    (steps : List Json) :
    Ready P cfg (feed P cfg k ctx' exporter m times ok steps).2 k ctx inst place none := by
  obtain ⟨is, his, hrun⟩ := exists_feed_run P cfg k ctx' exporter m times ok steps
  rw [hrun]
  refine Run.exec_invariant (step P cfg) (fun m => Ready P cfg m k ctx inst place none)
    (Q := fun _ i => ∃ msg, i.2 = Call.present k ctx' exporter msg none none) ?_
    ((Run.along_const (step P cfg)).mpr his) h
  rintro m ⟨t, c⟩ ⟨msg, rfl⟩ hready
  exact ready_step hne ⟨id, fun h => h.1⟩ hother hready

/-- Nothing on record stands against the instance. -/
theorem clears_of_ready {anchor : Anchor} (h : Ready P cfg m k ctx anchor.inst anchor.place none) :
    Clears cfg (m.record k) (some anchor.inst) anchor.place where
  enrolled _ := by
    rw [h.coherent.enrolled, nonEmpty_some anchor.inst_ne_nil]
    rfl
  home e i he hi := by
    rw [h.coherent.enrolled, nonEmpty_some anchor.inst_ne_nil] at he
    cases he
    cases hi
    rfl
  placed := h.placed
  sole o i ho hi := by
    cases hi
    exact (h.coherent.observed o (nonEmpty_eq_some.mp ho).1).symm

variable (exporter) in
/-- **The first step of a foreign session does not chain.** -/
theorem present_of_foreign {anchor : Anchor} {evidence msg : Json} {pl : Bytes} (t : Moment)
    (h : Ready P cfg m k ctx anchor.inst anchor.place none) (hctx : ctx.length = 48)
    (hcounter : msg.item "counter" = .ok (.int 0)) (hlink : postLinkOf msg = .ok pl)
    (hev : msg.item "evidence" = .ok evidence)
    (hver : cfg.verifyReport evidence (Binder.reportDataFor P pl none) = .ok (true, some anchor))
    (hne : nextLink P exporter (firstLink P ctx k) 0 ≠ pl) :
    (m.step P cfg (t, .present k ctx exporter msg none none)).1 =
      .decision ⟨false, foreignLinkText, some anchor.inst⟩ := by
  have hverified : Verified P cfg m k msg none none (some anchor.inst) anchor.place pl := by
    refine ⟨h.coherent.notRevoked, hlink, rfl, ⟨some anchor, ?_, rfl, rfl⟩, fun _ => rfl, ?_⟩
    · rw [verifyEvidence, hev]
      exact hver
    · intro hnone
      cases hnone
  have hexpects : m.Expects P k ctx (firstLink P ctx k) 0 := by
    rw [Expects, h.fresh]
    exact ⟨rfl, Binder.intraLink_eq P (by omega) k⟩
  have hobj : Objects P cfg t.env m k ctx exporter msg none none _ _ _ :=
    .link hverified (clears_of_ready h) hexpects hcounter rfl
      (Binder.postLink_eq P exporter (length_firstLink P ctx k) (show 0 < 2 ^ 64 by omega)) hne
  rw [step_of_objects m t hobj, hcounter]

end Ready

/-! ## Clients one after another -/

namespace Visit

variable (P : Primitives) (g : Guest) (v : Visit)

/-- The client and the guest derive the same from their connections. -/
def Direct : Prop :=
  v.route.near.exporter = v.route.far.exporter ∧ v.route.near.context = v.route.far.context

instance : Decidable v.Direct := inferInstanceAs (Decidable (_ ∧ _))

/-- What the mandate keeps the session of the client under. -/
def key : Bytes × Bytes := sessionKey P g.tikPub v.route.near.context

/-- What is hashed for the first step, at both ends. -/
def inputs : List HashInput :=
  HashInput.ofIntra P v.route.near.context g.tikPub ++
    HashInput.ofIntra P v.route.far.context g.tikPub ++
    [HashInput.ofNext v.route.near.exporter (firstLink P v.route.near.context g.tikPub) 0,
      HashInput.ofNext v.route.far.exporter (firstLink P v.route.far.context g.tikPub) 0]

/-- The connections stay open, and the reply is not too long. -/
structure Whole : Prop where
  opens : ∀ c ∈ v.route.hops, c.Open
  fits : ∀ out, g.answer P v.route.far.exporter v.route.far.context
    (.obj [("steps", .int v.steps)]) = .ok out → (Bytes.ofAscii out.dumpInOrder).length < 2 ^ 32

end Visit

section Visits

variable {P : Primitives} {cfg : Config} {g : Guest} {inst : Bytes} {place : Option Bytes}
  {m : Mandate} {v : Visit}

/-- What the client is told of the steps of the guest. -/
theorem feed_entries (hg : g.Sound cfg inst place)
    (hready : Ready P cfg m g.tikPub v.route.near.context inst place none) (hpos : 0 < v.steps)
    (hsteps : v.steps ≤ 2 ^ 64) (hfree : NoCollision P (v.inputs P g)) :
    (feed P cfg g.tikPub v.route.near.context v.route.near.exporter m v.times none
      ((g.entries P v.route.far.exporter v.route.far.context v.steps).map (Entry.attested none))).1 =
        .ok (some (decide v.Direct)) := by
  obtain ⟨e, es, hentries, hcounter, hlink, hreport⟩ := hg.entries_cons P
    v.route.far.exporter v.route.far.length_context hpos hsteps
  by_cases hdirect : v.Direct
  · rw [← hdirect.1, ← hdirect.2] at hentries ⊢
    have haccepts : ∀ times, Run.Along (step P cfg) (fun m i => (m.step P cfg i).1.accepted = true) m
        (presents g.tikPub v.route.near.context v.route.near.exporter none
          ((g.entries P v.route.near.exporter v.route.near.context v.steps).map (Entry.attested none))
          times) :=
      accepts_chain hg.chip hready (carries_attested none) v.steps
    have hcounters : ∀ msg ∈ (g.entries P v.route.near.exporter v.route.near.context v.steps).map
        (Entry.attested none), ∃ c, msg.item "counter" = .ok c := by
      intro msg hmsg
      obtain ⟨e', -, rfl⟩ := List.mem_map.mp hmsg
      exact ⟨_, (carries_attested none e').counter⟩
    rw [feed_of_accepted v.times none _ hcounters (haccepts _), hentries, decide_eq_true hdirect]
    rfl
  · have hcarries := carries_attested none e
    obtain ⟨anchor, hver, rfl, rfl⟩ := hg.chip _ _ hreport
    have hne : nextLink P v.route.near.exporter (firstLink P v.route.near.context g.tikPub) 0 ≠
        e.postLink := by
      rw [hlink]
      intro heq
      obtain ⟨hexporter, hfirst, -⟩ := Fed.inj hfree ⟨length_firstLink P _ _, by omega, by simp [Visit.inputs]⟩
        ⟨length_firstLink P _ _, by omega, by simp [Visit.inputs]⟩ heq
      obtain ⟨hcontext, -⟩ := hfree.firstLink (by simp [Visit.inputs]) (by simp [Visit.inputs]) hfirst
      exact hdirect ⟨hexporter, hcontext⟩
    have hpresent := present_of_foreign v.route.near.exporter (v.times 0) hready
      v.route.near.length_context (by rw [hcarries.counter, hcounter]; rfl) hcarries.link
      hcarries.evidence (by rw [hlink]; exact hver) hne
    rw [hentries, List.map_cons, feed]
    simp only [step] at hpresent
    generalize m.present P cfg (v.times 0).env g.tikPub v.route.near.context v.route.near.exporter
      (e.attested none) none none = out at hpresent ⊢
    obtain ⟨answer, m'⟩ := out
    cases answer with
    | error x => cases hpresent
    | ok verdict =>
        have hrefused : verdict.ok = false := by
          have hverdict := Reply.decision.inj hpresent
          rw [hverdict]
        simp only [hcarries.counter, hrefused, Bool.false_eq_true, if_false, decide_eq_false hdirect]

/-- What the client is answered: the guest's chain, or nothing. -/
theorem request_steps (hg : g.Sound cfg inst place) (hpos : 0 < v.steps) (hsteps : v.steps ≤ 2 ^ 64) :
    let chain := Json.obj [("chain", .arr
      ((g.entries P v.route.far.exporter v.route.far.context v.steps).map (Entry.attested none)))]
    v.route.request P g (.obj [("steps", .int v.steps)]) = .ok chain ∨
      (¬ v.Whole P g ∧ v.route.request P g (.obj [("steps", .int v.steps)]) = .error .osError) := by
  intro chain
  have hanswer := hg.answer_steps P v.route.far.exporter v.route.far.length_context hpos hsteps
  have hkeys : Json.KeysOnce (.obj [("steps", .int v.steps)]) := ⟨by simp, trivial, trivial⟩
  have hout := hg.keysOnce_steps P v.route.far.exporter v.route.far.context v.steps
  rcases Wire.request_of_answer hkeys hout hanswer v.route.near.connection
    (v.route.beyond.map Tls.connection) with hreply | ⟨hbroken, herror⟩
  · exact .inl hreply
  · exact .inr ⟨fun hv => hbroken ⟨hv.opens, hv.fits _ hanswer⟩, herror⟩

/-- **A client is told that it was served if and only if it reached the guest itself.** -/
theorem visit_outcome (hg : g.Sound cfg inst place)
    (hready : Ready P cfg m g.tikPub v.route.near.context inst place none) (hpos : 0 < v.steps)
    (hsteps : v.steps ≤ 2 ^ 64) (hfree : NoCollision P (v.inputs P g)) :
    (visit P cfg g m v).1 = .ok (some (decide v.Direct)) ∨
      (¬ v.Whole P g ∧ (visit P cfg g m v).1 = .error .osError) := by
  rcases request_steps hg hpos hsteps with hreply | ⟨hv, herror⟩
  · left
    rw [visit, hreply]
    exact feed_entries hg hready hpos hsteps hfree
  · right
    refine ⟨hv, ?_⟩
    rw [visit, herror]

/-- A client leaves the sessions of the others alone. -/
theorem ready_visit {ctx : Bytes} (hne : inst ≠ []) (hother : v.key P g ≠ sessionKey P g.tikPub ctx)
    (h : Ready P cfg m g.tikPub ctx inst place none) :
    Ready P cfg (visit P cfg g m v).2 g.tikPub ctx inst place none := by
  rw [visit]
  cases v.route.request P g (.obj [("steps", .int v.steps)]) with
  | error x => exact h
  | ok blob =>
      simp only
      cases (do (← blob.item "chain").iter : Except Exn (List Json)) with
      | error x => exact h
      | ok steps => exact ready_feed hne hother h v.times none steps

end Visits

/-! ## Runs -/

/-- The clients of a run. -/
def visitsOf : List Turn → List Visit
  | [] => []
  | .visit v :: turns => v :: visitsOf turns
  | .call _ :: turns => visitsOf turns

section Runs

variable {P : Primitives} {cfg : Config} {g : Guest} {inst : Bytes} {place : Option Bytes}
  {m : Mandate} {turns : List Turn}

/-- **What may happen in a run**: a client asks for some steps, and what is hashed for the first of
them does not collide; others call what they like, but the identity is neither revoked nor moved,
and nobody presents in a session of a client. -/
def Fair (P : Primitives) (cfg : Config) (g : Guest) (clients : List Visit) (m : Mandate) :
    Turn → Prop
  | .visit v => 0 < v.steps ∧ v.steps ≤ 2 ^ 64 ∧ NoCollision P (v.inputs P g)
  | .call i => Keeps P cfg g.tikPub m i ∧ ∀ v ∈ clients, ¬ i.2.Continues P (v.key P g)

theorem outcomes_of_run (hg : g.Sound cfg inst place) (hne : inst ≠ []) {clients : List Visit}
    (hclients : ∀ v ∈ visitsOf turns, v ∈ clients)
    (hdistinct : ((visitsOf turns).map (Visit.key P g)).Nodup)
    (hready : ∀ v ∈ visitsOf turns,
      Ready P cfg m g.tikPub v.route.near.context inst place none)
    (hfair : Run.Along (turn P cfg g) (Fair P cfg g clients) m turns) :
    ∀ v r, (Turn.visit v, some r) ∈ Run.trace (turn P cfg g) m turns →
      r = .ok (some (decide v.Direct)) ∨ (¬ v.Whole P g ∧ r = .error .osError) := by
  induction turns generalizing m with
  | nil =>
      intro v r h
      cases h
  | cons i turns ih =>
      intro v r h
      rw [Run.along_cons] at hfair
      rw [Run.trace_cons, List.mem_cons] at h
      cases i with
      | visit w =>
          rw [visitsOf] at hclients hdistinct hready
          rw [List.map_cons, List.nodup_cons] at hdistinct
          obtain ⟨hw, hready⟩ := List.forall_mem_cons.mp hready
          rcases h with h | h
          · obtain ⟨hvisit, hreply⟩ := Prod.mk.inj h
            cases hvisit
            cases hreply
            obtain ⟨hpos, hsteps, hfree⟩ := hfair.1
            exact visit_outcome hg hw hpos hsteps hfree
          · refine ih (fun u hu => hclients u (List.mem_cons_of_mem w hu)) hdistinct.2 ?_ hfair.2 v r h
            intro u hu
            apply ready_visit hne _ (hready u hu)
            intro heq
            exact hdistinct.1 (heq ▸ List.mem_map_of_mem hu)
      | call i =>
          rcases h with h | h
          · cases h
          · refine ih hclients hdistinct ?_ hfair.2 v r h
            intro u hu
            exact ready_step hne hfair.1.1 (hfair.1.2 u (hclients u hu)) (hready u hu)

/-- **Relays are stopped, and nobody else is.**  Clients come one after another, each on a route of
its own with any number of relays, and others call what they like in between.  A client whose
connections stay open is told that the guest is served if its connection derives what the guest's
does, and otherwise that it is refused at the first step. -/
theorem relays_stopped (hg : g.Sound cfg inst place) (hne : inst ≠ [])
    (hdistinct : ((visitsOf turns).map (Visit.key P g)).Nodup)
    (hready : ∀ v ∈ visitsOf turns,
      Ready P cfg m g.tikPub v.route.near.context inst place none)
    (hfair : Run.Along (turn P cfg g) (Fair P cfg g (visitsOf turns)) m turns) :
    ∀ v r, (Turn.visit v, some r) ∈ Run.trace (turn P cfg g) m turns →
      r = .ok (some (decide v.Direct)) ∨ (¬ v.Whole P g ∧ r = .error .osError) :=
  outcomes_of_run hg hne (fun _ hv => hv) hdistinct hready hfair

end Runs

/-! ## Enrolment -/

section Enrolment

variable {P : Primitives} {cfg : Config} {g : Guest} {inst : Bytes} {place : Option Bytes}
  {m : Mandate} {route : Route} {t : Moment} {nonce : Bytes}

/-- The request of an enrolment. -/
def enrolRequest (nonce : Bytes) : Json :=
  .obj [("enroll", .bool true), ("nonce", .str (Bytes.hex nonce))]

/-- The connections stay open, and the reply is not too long. -/
structure Route.Enrols (P : Primitives) (g : Guest) (route : Route) (nonce : Bytes) : Prop where
  opens : ∀ c ∈ route.hops, c.Open
  fits : ∀ out, g.answer P route.far.exporter route.far.context (enrolRequest nonce) = .ok out →
    (Bytes.ofAscii out.dumpInOrder).length < 2 ^ 32

end Enrolment

/-! ## Two clients -/

section Demonstration

open Tee HashInput

/-- The connection between the guest and whoever asks it. -/
def toGuest : Tls := ⟨[2], List.replicate 48 2, .trickle, rfl⟩

/-- The connection between a client and a relay. -/
def toRelay : Tls := ⟨[1], List.replicate 48 1, .trickle, rfl⟩

/-- A guest on the first chip. -/
def guestA : Guest := ⟨fun rd => .ok (teeA.report .plain [] rd), tik, csr⟩

theorem guestA_sound : guestA.Sound twoChips teeA.inst (some teeA.chip) where
  chip := by
    rintro rd evidence ⟨⟩
    exact ⟨teeA_trusted.anchor, mockVerifier_report .plain teeA_trusted [] rd, rfl, rfl⟩
  answers rd := ⟨_, rfl⟩
  keysOnce := by
    rintro rd evidence ⟨⟩
    exact ⟨by simp, trivial, trivial, trivial, trivial, trivial, trivial, trivial⟩

/-- A client that asks for two steps. -/
def asking (route : Route) (now : ℕ) : Visit := ⟨route, 2, fun n => instant (now + n)⟩

/-- The inputs of a client's visit, each once. -/
theorem inputs_subset (P : Primitives) (g : Guest) (v : Visit) : v.inputs P g ⊆
    [ofKey g.tikPub, ofBase v.route.near.context, ofFirst P v.route.near.context g.tikPub,
      ofBase v.route.far.context, ofFirst P v.route.far.context g.tikPub,
      ofNext v.route.near.exporter (firstLink P v.route.near.context g.tikPub) 0,
      ofNext v.route.far.exporter (firstLink P v.route.far.context g.tikPub) 0] := by
  intro x hx
  simp only [Visit.inputs, ofIntra, List.mem_append, List.mem_cons, List.not_mem_nil, or_false] at hx ⊢
  tauto

theorem noCollision_demo : NoCollision .plain ((asking ⟨toRelay, [toGuest]⟩ 2).inputs .plain guestA) := by
  have hnodup : ([ofKey tik, ofBase toRelay.context, ofFirst .plain toRelay.context tik,
      ofBase toGuest.context, ofFirst .plain toGuest.context tik,
      ofNext toRelay.exporter (firstLink .plain toRelay.context tik) 0,
      ofNext toGuest.exporter (firstLink .plain toGuest.context tik) 0].map
        fun x => (x.use, x.digest .plain)).Nodup := by
    decide +kernel
  exact (NoCollision.of_nodup hnodup).mono (inputs_subset .plain guestA _)

/-- Every connection of the two stays open. -/
theorem opens_demo {c : Wire.Connection} (hc : c ∈ (Route.mk toRelay [toGuest]).hops) : c.Open := by
  simp only [Route.hops, toRelay, toGuest, List.map_cons, List.map_nil, List.mem_cons,
    List.not_mem_nil, or_false, or_self] at hc
  rw [hc]
  exact Wire.Connection.open_trickle

/-- The evidence of the chip is short. -/
theorem length_report {rd : Bytes} (hrd : rd.length = 64) :
    (Json.said (teeA.report .plain [] rd)).length = 369 := by
  have hwords : ["kind", "instance", "chip", "report_data", "pub", "sig"].map
      (fun word => (Json.quote word).toList.length) = [6, 10, 6, 13, 5, 5] := by decide
  have hmock : (Json.said (.str "mock")).length = 6 := by decide
  have hsig : (Primitives.plain.ecdsa.sign teeA.k [] (teeA.inst ++ teeA.chip ++ rd)).length = 71 := by
    have hsign : Primitives.plain.ecdsa.sign teeA.k [] (teeA.inst ++ teeA.chip ++ rd) =
        [0x0a, 0xa2, 1, 0xa2, 0xb2, 0x58, 0x0a] ++ rd := rfl
    rw [hsign, List.length_append, hrd]
    rfl
  have hinst : teeA.inst.length = 2 ∧ teeA.chip.length = 4 ∧
      (Primitives.plain.ecdsa.publicKey teeA.k).length = 1 := by decide
  simp only [List.map_cons, List.map_nil, List.cons.injEq] at hwords
  simp only [MockTEE.report, MockTEE.pub, Json.said_obj, Json.spread, Json.saidItem, Json.length_said_hex,
    List.length_cons, List.length_append, List.length_flatMap, List.map_cons, List.map_nil, List.sum_cons,
    List.sum_nil, List.length_nil, hsig, hrd, hwords, hmock, hinst]
  rfl

/-- An entry of the guest near the beginning of its chain. -/
structure Short (e : Entry) : Prop where
  counter : e.counter < 10
  link : e.postLink.length = 32
  report : ∃ rd, rd.length = 64 ∧ e.report = teeA.report .plain [] rd

theorem Short.length_attested {e : Entry} (h : Short e) :
    (Json.said (e.attested none)).length < 600 := by
  obtain ⟨rd, hrd, hreport⟩ := h.report
  have hwords : ["counter", "intra_ok_base", "post_link", "evidence"].map
      (fun word => (Json.quote word).toList.length) = [9, 15, 11, 10] := by decide
  have hcounter : (Json.said (.int e.counter)).length = 1 := by
    have hdigit : ∀ n < 10, (Json.said (.int (n : ℕ))).length = 1 := by decide
    exact hdigit _ h.counter
  have hflag : ∀ b, (Json.said (.bool b)).length ≤ 5 := by decide
  have hfirst := hflag (e.counter = 0)
  simp only [List.map_cons, List.map_nil, List.cons.injEq] at hwords
  simp only [Entry.attested, Json.said_obj, Json.spread, Json.saidItem, Json.length_said_hex,
    List.length_cons, List.length_append, List.length_flatMap, List.map_cons, List.map_nil, List.sum_cons,
    List.sum_nil, List.length_nil, h.link, hreport, length_report hrd, hwords, hcounter]
  omega

/-- The answer to a client that asks for two steps has two such entries. -/
theorem entries_demo (exporter : Bytes) {ctx : Bytes} (hctx : ctx.length = 48) :
    ∃ e e', guestA.entries .plain exporter ctx 2 = [e, e'] ∧ Short e ∧ Short e' := by
  have hil := Binder.intraLink_eq .plain (show ctx.length < 256 by omega) tik
  have hbase : linkBefore .plain ctx tik 0 (firstLink .plain ctx tik) = .ok (firstLink .plain ctx tik) := by
    rw [linkBefore, intraLink_eq_binder]
    simpa using hil
  have hdata : ∀ link, (Binder.reportDataFor .plain link none).length = 64 := by
    intro link
    simp [Binder.reportDataFor]
  rw [Guest.entries, GuestProbe.chain, intraLink_eq_binder, show guestA.tikPub = tik from rfl, hil]
  simp only
  rw [chain.loop, entry_of_report hbase (length_firstLink .plain ctx tik) (by norm_num) rfl]
  simp only
  rw [chain.loop, entry_of_report rfl (length_nextLink ..) (by norm_num) rfl]
  exact ⟨_, _, rfl, ⟨by norm_num, length_nextLink .., _, hdata _, rfl⟩,
    ⟨by norm_num, length_nextLink .., _, hdata _, rfl⟩⟩

/-- It is short. -/
theorem fits_demo {out : Json} (h : guestA.answer .plain toGuest.exporter toGuest.context
    (.obj [("steps", .int (2 : ℕ))]) = .ok out) : (Bytes.ofAscii out.dumpInOrder).length < 2 ^ 32 := by
  have hanswer := guestA_sound.answer_steps .plain toGuest.exporter toGuest.length_context
    (show 0 < 2 by decide) (by norm_num)
  obtain rfl := Except.ok.inj (hanswer.symm.trans h)
  obtain ⟨e, e', hentries, he, he'⟩ := entries_demo toGuest.exporter toGuest.length_context
  have hfirst := he.length_attested
  have hsecond := he'.length_attested
  have hword : (Json.quote "chain").toList.length = 7 := by decide
  have hlength : ∀ j : Json, (Bytes.ofAscii j.dumpInOrder).length = (Json.said j).length :=
    fun j => List.length_map _
  rw [hentries]
  simp only [List.map_cons, List.map_nil, hlength, Json.said_obj, Json.said_arr, Json.spread,
    Json.saidItem, List.length_cons, List.length_append, List.length_flatMap, List.map_cons,
    List.map_nil, List.sum_cons, List.sum_nil, List.length_nil, hword]
  omega

/-- One client reaches the guest through a relay, and one without: the first is told that it was
refused, and the second that it was served. -/
theorem relays_stopped_demo :
    let relayed := asking ⟨toRelay, [toGuest]⟩ 2
    let direct := asking ⟨toGuest, []⟩ 9
    Run.trace (turn .plain twoChips guestA) (after .plain twoChips (fun _ => none) (birth none))
      [.visit relayed, .visit direct] =
        [(.visit relayed, some (.ok (some false))), (.visit direct, some (.ok (some true)))] := by
  intro relayed direct
  have hready : ∀ ctx, Ready .plain twoChips (after .plain twoChips (fun _ => none) (birth none)) tik
      ctx teeA.inst (some teeA.chip) none := by
    intro ctx
    constructor
    · rw [record_birth trustsChips]
      exact ⟨rfl, rfl, by rintro o ⟨⟩⟩
    · exact atPlace_enrolled (by rw [record_birth trustsChips]; rfl) fun _ => rfl
    · exact sessions_birth trustsChips none _
    · simp
  generalize after .plain twoChips (fun _ => none) (birth none) = m at hready ⊢
  have hdistinct : ((visitsOf [.visit relayed, .visit direct]).map (Visit.key .plain guestA)).Nodup := by
    show [sessionKey .plain tik toRelay.context, sessionKey .plain tik toGuest.context].Nodup
    decide +kernel
  have hsame : direct.inputs .plain guestA ⊆ relayed.inputs .plain guestA := by
    simp [Visit.inputs, relayed, direct, asking, Route.far]
  have hfair : Run.Along (turn .plain twoChips guestA)
      (Fair .plain twoChips guestA (visitsOf [.visit relayed, .visit direct])) m
      [.visit relayed, .visit direct] :=
    ⟨⟨by decide, by norm_num [relayed, asking], noCollision_demo⟩,
      ⟨by decide, by norm_num [direct, asking], noCollision_demo.mono hsame⟩, trivial⟩
  have htold := relays_stopped guestA_sound (by decide) hdistinct
    (fun v _ => hready v.route.near.context) hfair
  have hrelayed : relayed.Whole .plain guestA := ⟨fun c hc => opens_demo hc, fun out h => fits_demo h⟩
  have hdirect : direct.Whole .plain guestA :=
    ⟨fun c hc => opens_demo (List.mem_cons_of_mem _ hc), fun out h => fits_demo h⟩
  rw [Run.trace_cons, Run.trace_cons, Run.trace_nil] at htold ⊢
  have hfirst := htold relayed _ List.mem_cons_self
  have hsecond := htold direct _ (List.mem_cons_of_mem _ List.mem_cons_self)
  rcases hfirst with hfirst | ⟨hbroken, -⟩
  · rcases hsecond with hsecond | ⟨hbroken, -⟩
    · have hno : decide relayed.Direct = false := by decide +kernel
      have hyes : decide direct.Direct = true := by decide +kernel
      rw [hno] at hfirst
      rw [hyes] at hsecond
      rw [turn_visit] at hsecond ⊢
      rw [turn_visit, hfirst, hsecond]
    · exact absurd hdirect hbroken
  · exact absurd hrelayed hbroken

end Demonstration

end Hatls.RelayDemo
