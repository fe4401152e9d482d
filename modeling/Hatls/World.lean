import Hatls.Chains
import Hatls.Admissions

/-!
# Attesters, chips and a mandate

Attesters on many chips, chips that are asked for reports, and one mandate, in any order.
An attester and the mandate each keep the last link of a chain and a counter.

The world records what has happened: the steps of each attester, the requests to the
chips, the links the mandate has added to its chains, and the inputs of the hash
functions in these steps.

## Main definitions

* `World`, `Happening`, `World.step` — the attesters, the chips and the mandate.
* `Ran` — a chain that was run, on either side.
* `Chained`, `Chained.next` — where an attester stands, and its next step.
* `Tracked`, `Tracked.admit` — where the mandate stands, and the link it adds.
-/

namespace Hatls

open Mandate Binder HashInput

/-! ## The world -/

/-- The link `attest` derives. -/
def Attester.derive (P : Primitives) (a : Attester) (transcriptHash exporter : Bytes) :
    Except Exn Bytes := do
  let il ← intraLink P transcriptHash a.tikPub
  postLink P exporter (a.prev.getD il) a.counter

/-- A link of a chain, with the arguments of the step it was derived in. -/
structure Linked where
  sessionContext : Bytes
  exporter : Bytes
  counter : ℕ
  link : Bytes

/-- A step of an attester. -/
structure Attested extends Linked where
  head : Option Bytes

/-- An attester, with the steps it has completed. -/
structure Guest where
  attester : Attester
  done : List Attested

/-- What a chip was asked to sign: the link of an attester that had completed some steps
before, or an enrolment. -/
inductive Request (I : Type)
  | link (who : I) (earlier : List Attested) (now : Attested)
  | enrolment (inst nonce csrDer : Bytes)

/-- The chip that was asked. -/
def Request.inst {I : Type} (host : I → Bytes) : Request I → Bytes
  | .link who _ _ => host who
  | .enrolment inst _ _ => inst

/-- The report data it was asked to sign. -/
def Request.reportData {I : Type} (P : Primitives) : Request I → Bytes
  | .link _ _ now => reportDataFor P now.link now.head
  | .enrolment _ nonce csrDer => P.sha512 (nonce ++ csrDer)

/-- The text they are the hash of. -/
def Request.text {I : Type} : Request I → Bytes
  | .link _ _ now => reportText now.link now.head
  | .enrolment _ nonce csrDer => nonce ++ csrDer

theorem Request.reportData_eq {I : Type} (P : Primitives) (r : Request I) :
    r.reportData P = P.sha512 r.text := by
  cases r with
  | link who earlier now => exact reportDataFor_eq P now.link now.head
  | enrolment => rfl

/-- A link the mandate has added to a chain. -/
structure Admission extends Linked where
  tikPub : Bytes

/-- The state of all parties, and what has happened, oldest first. -/
structure World (I : Type) where
  mandate : Mandate
  guests : I → Guest
  requests : List (Request I)
  admissions : List Admission
  hashed : List HashInput

/-- An attester makes a step on its chip, which answers with whatever it does; a chip is
asked for an enrolment report; or somebody calls the mandate. -/
inductive Happening (I : Type)
  | attest (who : I) (report : Bytes → Except Exn Json) (transcriptHash exporter : Bytes)
      (head : Option Bytes)
  | enrolmentReport (inst nonce csrDer : Bytes)
  | call (env : Env) (c : Call)

/-- What a presentation hashes on its way to a new link. -/
def presentInputs (P : Primitives) (m : Mandate) (tikPub sessionContext exporter : Bytes)
    (head : Option Bytes) (s : Session) : List HashInput :=
  let chain := match m.sessions (sessionKey P tikPub sessionContext) with
    | none =>
      ofIntra P sessionContext tikPub ++ [ofNext exporter (firstLink P sessionContext tikPub) s.counter]
    | some old => [ofNext exporter old.prev s.counter]
  [ofContext sessionContext, ofReport (reportText s.prev head)] ++ chain

namespace World

variable {I : Type} [DecidableEq I] (P : Primitives) (cfg : Config)

/-- One step of an attester.  A derivation that raises asks nothing of the chip; a chip
that raises has been asked. -/
def attest (w : World I) (who : I) (report : Bytes → Except Exn Json)
    (transcriptHash exporter : Bytes) (head : Option Bytes) : World I :=
  let a := (w.guests who).attester
  let done := (w.guests who).done
  match a.derive P transcriptHash exporter with
  | .error _ => w
  | .ok link =>
    let now : Attested := ⟨⟨transcriptHash, exporter, a.counter, link⟩, head⟩
    let guest : Guest := match a.attest P report transcriptHash exporter head with
      | (.ok _, a) => ⟨a, done ++ [now]⟩
      | (.error _, a) => ⟨a, done⟩
    { w with
      guests := Function.update w.guests who guest
      requests := w.requests ++ [.link who done now]
      hashed := w.hashed ++ (ofIntra P transcriptHash a.tikPub ++
        [ofNext exporter (a.base P transcriptHash) a.counter, ofReport (reportText link head)]) }

/-- One call of the mandate. -/
def call (w : World I) (env : Env) (c : Call) : Reply × World I :=
  let out := w.mandate.serve P cfg env c
  let w' := { w with mandate := out.2 }
  match c with
  | .present k ctx exporter _ head _ =>
    match w.mandate.added P out.2 k ctx with
    | none => (out.1, w')
    | some s =>
      (out.1, { w' with
        admissions := w.admissions ++ [⟨⟨ctx, exporter, s.counter, s.prev⟩, k⟩]
        hashed := w.hashed ++ presentInputs P w.mandate k ctx exporter head s })
  | _ => (out.1, w')

/-- What happens next. -/
def step (w : World I) : Happening I → Option Reply × World I
  | .attest who report ctx exporter head => (none, w.attest P who report ctx exporter head)
  | .enrolmentReport inst nonce csrDer =>
    (none, { w with
      requests := w.requests ++ [.enrolment inst nonce csrDer]
      hashed := w.hashed ++ [ofReport (nonce ++ csrDer)] })
  | .call env c => (some (w.call P cfg env c).1, (w.call P cfg env c).2)

/-- A mandate over a store, and attesters that have not begun. -/
def new (ledger : Bytes → Option Record) (tik : I → Bytes) : World I where
  mandate := .new P ledger
  guests who := ⟨.new (tik who), []⟩
  requests := []
  admissions := []
  hashed := []

end World

variable {P : Primitives} {cfg : Config}

/-! ## Chains that were run -/

/-- The steps are a chain of the identity: the first was made in the session context, and
each link is derived from the one before. -/
structure Ran (P : Primitives) (inputs : List HashInput) (ctx k : Bytes) (steps : List Linked) :
    Prop where
  first : ∀ s, steps.head? = some s → s.sessionContext = ctx
  counters : steps.map Linked.counter = List.range steps.length
  chain : ChainFrom P inputs ctx k (steps.map Linked.exporter) (steps.map Linked.link)

namespace Ran

variable {inputs more : List HashInput} {ctx k : Bytes} {steps : List Linked}

theorem nil (h : ofIntra P ctx k ⊆ inputs) : Ran P inputs ctx k [] where
  first s hs := by cases hs
  counters := rfl
  chain := .nil h

theorem mono (h : Ran P inputs ctx k steps) (hsub : inputs ⊆ more) : Ran P more ctx k steps :=
  ⟨h.first, h.counters, h.chain.mono hsub⟩

/-- One step more. -/
theorem concat (h : Ran P inputs ctx k steps) {c exporter : Bytes} (hctx : steps = [] → c = ctx)
    (hshort : steps.length < 2 ^ 64)
    (hmem : ofNext exporter (lastLink P ctx k (steps.map Linked.exporter)) steps.length ∈ inputs) :
    Ran P inputs ctx k (steps ++ [⟨c, exporter, steps.length,
      nextLink P exporter (lastLink P ctx k (steps.map Linked.exporter)) steps.length⟩]) where
  first s hs := by
    cases steps with
    | nil =>
        cases hs
        exact hctx rfl
    | cons s' rest => exact h.first s hs
  counters := by simp [h.counters, List.range_succ]
  chain := by
    have hchain : ChainFrom P inputs ctx k (steps.map Linked.exporter ++ [exporter]) _ :=
      h.chain.concat (by simpa using hshort) (by simpa using hmem)
    simpa using hchain

/-- The counters before the last step, and its own. -/
theorem counters_concat {s : Linked} (h : Ran P inputs ctx k (steps ++ [s])) :
    steps.map Linked.counter = List.range steps.length ∧ s.counter = steps.length := by
  have hcounters := h.counters
  simp only [List.map_append, List.map_singleton, List.length_append, List.length_singleton,
    List.range_succ] at hcounters
  obtain ⟨hsteps, hlast⟩ := List.append_inj' hcounters rfl
  exact ⟨hsteps, (List.cons.inj hlast).1⟩

/-- **Two chains with one last link are one chain.** -/
theorem eq_of_last {ctx' k' : Bytes} {steps' : List Linked} {s s' : Linked}
    (hfree : NoCollision P inputs) (h : Ran P inputs ctx k (steps ++ [s]))
    (h' : Ran P inputs ctx' k' (steps' ++ [s'])) (heq : s.link = s'.link) :
    ctx = ctx' ∧ k = k' ∧ s.exporter = s'.exporter ∧
      steps.map Linked.exporter = steps'.map Linked.exporter ∧
      steps.map Linked.link = steps'.map Linked.link := by
  have hchain := h.chain
  have hchain' := h'.chain
  simp only [List.map_append, List.map_singleton] at hchain hchain'
  have hlast : lastLink P ctx k (steps.map Linked.exporter ++ [s.exporter]) =
      lastLink P ctx' k' (steps'.map Linked.exporter ++ [s'.exporter]) := by
    rw [← hchain.last, ← hchain'.last, heq]
  obtain ⟨hctx, hk, hexporters, hlinks⟩ :=
    hchain.eq_of_last hfree hchain' (by simp) (by simp) hlast
  obtain ⟨hexporters, hexporter⟩ := List.append_inj' hexporters rfl
  obtain ⟨hlinks, -⟩ := List.append_inj' hlinks rfl
  exact ⟨hctx, hk, (List.cons.inj hexporter).1, hexporters, hlinks⟩

end Ran

/-! ## Attesters -/

namespace Attester

variable {a : Attester} {ctx exporter link : Bytes}

/-- What a derivation that returns has derived. -/
theorem derive_eq_ok (hprev : ∀ l, a.prev = some l → l.length = 32)
    (h : a.derive P ctx exporter = .ok link) :
    a.counter < 2 ^ 64 ∧ link = nextLink P exporter (a.base P ctx) a.counter := by
  have hbase : (a.base P ctx).length = 32 := by
    cases hp : a.prev with
    | none => simp [Attester.base, hp]
    | some l =>
        simp only [Attester.base, hp, Option.getD_some]
        exact hprev l hp
  by_cases hctx : ctx.length < 256
  · by_cases hn : a.counter < 2 ^ 64
    · have hlink := postLink_eq P exporter hbase hn
      simp only [Attester.base] at hlink
      simp only [derive, intraLink_eq P hctx, Exn.ok_bind, hlink] at h
      exact ⟨hn, (Except.ok.inj h).symm⟩
    · have hlink := postLink_error P exporter (a.prev.getD (firstLink P ctx a.tikPub)) (not_lt.mp hn)
      simp [derive, intraLink_eq P hctx, hlink] at h
  · simp [derive, intraLink_error P (not_lt.mp hctx)] at h

/-- The attester moves on when its chip returns. -/
theorem attest_of_derive (h : a.derive P ctx exporter = .ok link) (report : Bytes → Except Exn Json)
    (head : Option Bytes) :
    (∃ x, a.attest P report ctx exporter head = (.error x, a)) ∨
      ∃ msg, a.attest P report ctx exporter head =
        (.ok msg, { a with prev := some link, counter := a.counter + 1 }) := by
  obtain ⟨il, hil, hlink⟩ := Exn.bind_eq_ok h
  simp only [attest, hil, hlink, Exn.ok_bind]
  cases report (reportDataFor P link head) with
  | error x => exact .inl ⟨x, rfl⟩
  | ok evidence => exact .inr ⟨_, rfl⟩

end Attester

/-- An attester stands where the steps it has completed have led. -/
inductive Chained (P : Primitives) (inputs : List HashInput) (k : Bytes) : Guest → Prop
  | fresh : Chained P inputs k ⟨.new k, []⟩
  | running {ctx : Bytes} {done : List Attested} (hne : done ≠ [])
      (h : Ran P inputs ctx k (done.map Attested.toLinked)) :
      Chained P inputs k
        ⟨⟨k, some (lastLink P ctx k ((done.map Attested.toLinked).map Linked.exporter)), done.length⟩, done⟩

namespace Chained

variable {inputs more : List HashInput} {k : Bytes} {g : Guest}

theorem mono (h : Chained P inputs k g) (hsub : inputs ⊆ more) : Chained P more k g := by
  cases h with
  | fresh => exact .fresh
  | running hne h => exact .running hne (h.mono hsub)

/-- Where the attester stands before a step in a session context. -/
theorem stands (h : Chained P inputs k g) {c : Bytes} (hsub : inputs ⊆ more)
    (hintra : ofIntra P c k ⊆ more) :
    g.attester.tikPub = k ∧ (∀ l, g.attester.prev = some l → l.length = 32) ∧
      g.attester.counter = g.done.length ∧
      ∃ ctx, (g.done = [] → c = ctx) ∧ Ran P more ctx k (g.done.map Attested.toLinked) ∧
        g.attester.base P c =
          lastLink P ctx k ((g.done.map Attested.toLinked).map Linked.exporter) := by
  cases h with
  | fresh => exact ⟨rfl, fun l hl => (by cases hl), rfl, c, fun _ => rfl, .nil hintra, rfl⟩
  | @running ctx done hne h =>
      refine ⟨rfl, fun l hl => ?_, rfl, ctx, fun hnil => absurd hnil hne, h.mono hsub, rfl⟩
      obtain rfl := Option.some.inj hl
      exact length_lastLink P _ _ _

/-- **The link of the next step continues the chain**, and so does the attester if it
moves on. -/
theorem next (h : Chained P inputs k g) {c exporter link : Bytes} (head : Option Bytes)
    (hsub : inputs ⊆ more) (hintra : ofIntra P c k ⊆ more)
    (hmem : ofNext exporter (g.attester.base P c) g.attester.counter ∈ more)
    (hderive : g.attester.derive P c exporter = .ok link) :
    let now : Attested := ⟨⟨c, exporter, g.attester.counter, link⟩, head⟩
    link.length = 32 ∧
      (∃ ctx, Ran P more ctx k (g.done.map Attested.toLinked ++ [now.toLinked])) ∧
      Chained P more k
        ⟨{ g.attester with prev := some link, counter := g.attester.counter + 1 }, g.done ++ [now]⟩ := by
  intro now
  obtain ⟨htik, hprev, hcounter, ctx, hctx, hran, hbase⟩ := h.stands hsub hintra
  obtain ⟨hshort, hlink⟩ := g.attester.derive_eq_ok hprev hderive
  rw [hcounter, hbase] at hmem
  have hnext : Ran P more ctx k (g.done.map Attested.toLinked ++ [now.toLinked]) := by
    have hconcat : Ran P more ctx k (g.done.map Attested.toLinked ++ [⟨c, exporter, _, _⟩]) :=
      hran.concat (by simpa using hctx) (by simpa [← hcounter] using hshort)
        (by rwa [List.length_map])
    rwa [List.length_map, ← hcounter, ← hbase, ← hlink] at hconcat
  refine ⟨by rw [hlink, length_nextLink], ⟨ctx, hnext⟩, ?_⟩
  have hsteps : (g.done ++ [now]).map Attested.toLinked =
      g.done.map Attested.toLinked ++ [now.toLinked] := by simp
  have hlast : lastLink P ctx k (((g.done ++ [now]).map Attested.toLinked).map Linked.exporter) =
      link := by
    have hchain := hnext.chain
    rw [List.map_append, List.map_append] at hchain
    rw [hsteps, List.map_append]
    exact hchain.last.symm
  subst htik
  have hrunning : Chained P more g.attester.tikPub _ := .running (by simp) (hsteps ▸ hnext)
  rw [hlast, List.length_append, List.length_singleton, ← hcounter] at hrunning
  exact hrunning

end Chained

/-! ## The mandate -/

/-- The links of one chain of the mandate, as they were added. -/
structure ChainHeld (P : Primitives) (inputs : List HashInput) (key : Bytes × Bytes) (ctx : Bytes)
    (ps : List Admission) : Prop where
  ran : Ran P inputs ctx key.1 (ps.map Admission.toLinked)
  own : ∀ p ∈ ps, p.tikPub = key.1 ∧ sessionKey P key.1 p.sessionContext = key ∧
    ofContext p.sessionContext ∈ inputs

theorem ChainHeld.mono {inputs more : List HashInput} {key : Bytes × Bytes} {ctx : Bytes}
    {ps : List Admission} (h : ChainHeld P inputs key ctx ps) (hsub : inputs ⊆ more) :
    ChainHeld P more key ctx ps where
  ran := h.ran.mono hsub
  own p hp := by
    obtain ⟨htik, hkey, hin⟩ := h.own p hp
    exact ⟨htik, hkey, hsub hin⟩

/-- Every session of the mandate is the end of a chain it has added link by link. -/
def Tracked (P : Primitives) (inputs : List HashInput) (admissions : List Admission) (m : Mandate) :
    Prop :=
  ∀ key s, m.sessions key = some s → ∃ ctx ps, ps.Sublist admissions ∧ ChainHeld P inputs key ctx ps ∧
    s.counter + 1 = ps.length ∧
    s.prev = lastLink P ctx key.1 ((ps.map Admission.toLinked).map Linked.exporter)

section Tracked

variable {inputs more : List HashInput} {admissions : List Admission} {m : Mandate}
  {k ctx exporter pl base : Bytes} {msg : Json} {head : Option Bytes} {bundle : Option Json}
  {inst place : Option Bytes} {n : ℕ}

/-- Where the mandate stands before it adds a link. -/
theorem Tracked.stands (h : Tracked P inputs admissions m) (hexp : m.Expects P k ctx base n)
    (hsub : inputs ⊆ more) (hnew : presentInputs P m k ctx exporter head ⟨pl, n⟩ ⊆ more) :
    ∃ ctx₀ ps, ps.Sublist admissions ∧ ChainHeld P more (sessionKey P k ctx) ctx₀ ps ∧
      (ps = [] → ctx = ctx₀) ∧ ps.length = n ∧ ofNext exporter base n ∈ more ∧
      base = lastLink P ctx₀ k ((ps.map Admission.toLinked).map Linked.exporter) := by
  simp only [Expects] at hexp
  simp only [presentInputs] at hnew
  cases hs : m.sessions (sessionKey P k ctx) with
  | none =>
      simp only [hs] at hexp hnew
      obtain ⟨rfl, hbase⟩ := hexp
      have hctx : ctx.length < 256 := by
        by_contra hlong
        rw [intraLink_error P (not_lt.mp hlong)] at hbase
        cases hbase
      rw [intraLink_eq P hctx] at hbase
      obtain rfl := Except.ok.inj hbase
      have hintra : ofIntra P ctx k ⊆ more := fun x hx => hnew (by simp [hx])
      exact ⟨ctx, [], List.nil_sublist _, ⟨.nil hintra, by simp⟩, fun _ => rfl, rfl,
        hnew (by simp), rfl⟩
  | some old =>
      simp only [hs] at hexp hnew
      obtain ⟨rfl, rfl⟩ := hexp
      obtain ⟨ctx₀, ps, hps, hheld, hcounter, hprev⟩ := h _ _ hs
      refine ⟨ctx₀, ps, hps, hheld.mono hsub, fun hnil => ?_, hcounter.symm, hnew (by simp), hprev⟩
      rw [hnil] at hcounter
      cases hcounter

/-- **What an admitted presentation adds** continues the chain of its session. -/
theorem Tracked.admit (h : Tracked P inputs admissions m)
    (hadm : Admits P cfg m k ctx exporter msg head bundle inst place pl n) (hsub : inputs ⊆ more)
    (hnew : presentInputs P m k ctx exporter head ⟨pl, n⟩ ⊆ more) :
    ∃ ctx₀ ps, ps.Sublist admissions ∧ ps.length = n ∧ pl.length = 32 ∧
      ChainHeld P more (sessionKey P k ctx) ctx₀ (ps ++ [⟨⟨ctx, exporter, n, pl⟩, k⟩]) := by
  obtain ⟨base, hexp, hlink⟩ := hadm.chain
  obtain ⟨ctx₀, ps, hps, hheld, hnil, hlength, hmem, hbase⟩ := h.stands hexp hsub hnew
  have hshort : n < 2 ^ 64 := by
    by_contra hlong
    rw [postLink_error P exporter base (not_lt.mp hlong)] at hlink
    cases hlink
  have hbaseLength : base.length = 32 := by rw [hbase, length_lastLink]
  rw [postLink_eq P exporter hbaseLength hshort] at hlink
  obtain rfl := Except.ok.inj hlink
  refine ⟨ctx₀, ps, hps, hlength, length_nextLink P _ _ _, ?_, ?_⟩
  · rw [hbase] at hmem ⊢
    have hran : Ran P more ctx₀ k (ps.map Admission.toLinked ++ [⟨ctx, exporter, _, _⟩]) :=
      hheld.ran.concat (by simpa using hnil) (by simpa [hlength] using hshort)
        (by rwa [List.length_map, hlength])
    rw [List.length_map, hlength] at hran
    rw [List.map_append]
    exact hran
  · intro p hp
    rcases List.mem_append.mp hp with hp | hp
    · exact hheld.own p hp
    · obtain rfl := List.mem_singleton.mp hp
      exact ⟨rfl, rfl, hnew (by simp [presentInputs])⟩

end Tracked

end Hatls
