import Hatls.Process

/-!
# An honest attester in front of the mandate

What a message is that `attest` built, and that the mandate accepts it wherever the
record and the chain of its connection stand as the attester left them.  The
attester and the mandate derive the same link from the same place; everything else
an appraisal asks is a question to the ledger.

## Main definitions

* `Genuine` — a message an honest attester on an instance sends at a position.
* `Attester.genuine_of_attest` — what `attest` returns is one.
* `Welcome` — the ledger has nothing against an instance.
* `admits_of_genuine` — a genuine message at the expected position is accepted.
-/

namespace Hatls

open Mandate Binder

variable {P : Primitives} {cfg : Config}

/-- The chip answers with evidence that `verify_report` accepts, from the instance
`inst`. -/
def ChipOf (cfg : Config) (inst : Bytes) (report : Bytes → Except Exn Json) : Prop :=
  ∀ rd evidence, report rd = .ok evidence →
    ∃ anchor : Anchor, cfg.verifyReport evidence rd = .ok (true, some anchor) ∧ anchor.inst = inst

/-- A message of an honest attester on `inst`, at position `n` of a chain whose last
link is `base`. -/
structure Genuine (P : Primitives) (cfg : Config) (inst exporter base : Bytes) (n : ℕ)
    (head : Option Bytes) (msg : Json) : Prop where
  counter : msg.item "counter" = .ok (.int n)
  link : postLinkOf msg = .ok (nextLink P exporter base n)
  evidence : ∃ anchor : Anchor,
    verifyEvidence cfg msg (reportDataFor P (nextLink P exporter base n) head) =
      .ok (true, some anchor) ∧ anchor.inst = inst
  base_length : base.length = 32
  counter_lt : n < 2 ^ 64

namespace Attester

/-- The link an attester continues from. -/
def base (P : Primitives) (a : Attester) (ctx : Bytes) : Bytes :=
  a.prev.getD (firstLink P ctx a.tikPub)

/-- The attester after a step. -/
def advance (P : Primitives) (a : Attester) (ctx exporter : Bytes) : Attester :=
  { a with prev := some (nextLink P exporter (a.base P ctx) a.counter), counter := a.counter + 1 }

variable {a : Attester} {report : Bytes → Except Exn Json} {ctx exporter : Bytes}
  {head : Option Bytes} {msg : Json} {a' : Attester}

/-- A step that returns has derived its links: nothing was too long for a length byte,
and the counter fits. -/
theorem attest_ok (hprev : ∀ l, a.prev = some l → l.length = 32)
    (h : a.attest P report ctx exporter head = (.ok msg, a')) :
    ctx.length < 256 ∧ a.counter < 2 ^ 64 ∧ (a.base P ctx).length = 32 ∧
      a' = a.advance P ctx exporter ∧
      msg.item "counter" = .ok (.int a.counter) ∧
      msg.item "post_link" =
        .ok (.str (Bytes.hex (nextLink P exporter (a.base P ctx) a.counter))) ∧
      ∃ evidence, msg.item "evidence" = .ok evidence ∧
        report (reportDataFor P (nextLink P exporter (a.base P ctx) a.counter) head) =
          .ok evidence := by
  have hbase : (a.base P ctx).length = 32 := by
    simp only [base]
    cases hp : a.prev with
    | none => simp
    | some l => exact hprev l hp
  by_cases hctx : ctx.length < 256
  · by_cases hn : a.counter < 2 ^ 64
    · have hlink := postLink_eq P exporter hbase hn
      simp only [base] at hlink hbase ⊢
      simp only [attest, intraLink_eq P hctx, hlink, Exn.ok_bind] at h
      cases hrep : report (reportDataFor P
          (nextLink P exporter (a.prev.getD (firstLink P ctx a.tikPub)) a.counter) head) with
      | error x => simp [hrep] at h
      | ok evidence =>
          simp only [hrep, Exn.ok_bind, Exn.pure_eq_ok, Prod.mk.injEq, Except.ok.injEq] at h
          obtain ⟨rfl, rfl⟩ := h
          refine ⟨hctx, hn, hbase, rfl, ?_, ?_, evidence, ?_, rfl⟩ <;> cases head <;> rfl
    · have hlink := postLink_error P exporter (a.prev.getD (firstLink P ctx a.tikPub))
        (not_lt.mp hn)
      simp [attest, intraLink_eq P hctx, hlink] at h
  · simp [attest, intraLink_error P (not_lt.mp hctx)] at h

/-- **What `attest` returns on a chip is a genuine message.** -/
theorem genuine_of_attest {inst : Bytes} (hprev : ∀ l, a.prev = some l → l.length = 32)
    (hchip : ChipOf cfg inst report) (h : a.attest P report ctx exporter head = (.ok msg, a')) :
    Genuine P cfg inst exporter (a.base P ctx) a.counter head msg := by
  obtain ⟨-, hn, hlen, -, hcounter, hlink, evidence, hev, hrep⟩ := attest_ok hprev h
  obtain ⟨anchor, hver, hinst⟩ := hchip _ _ hrep
  refine ⟨hcounter, ?_, ⟨anchor, ?_, hinst⟩, hlen, hn⟩
  · simp [postLinkOf, hlink, Json.fromHex]
  · simp [verifyEvidence, hev, hver]

end Attester

/-- The ledger has nothing against presentations for the identity from `inst`. -/
structure Welcome (cfg : Config) (r : Record) (inst : Bytes) : Prop where
  notRevoked : r.revoked = false
  enrolled : cfg.requireEnrolment = true → r.enrolledInstance.isSome
  home : ∀ e, r.enrolledInstance = some e → e = inst
  observed : ∀ o, r.observedInstance = some o → o = inst

/-- An unknown identity is welcome from anywhere, where no enrolment is required. -/
theorem welcome_blank (hreq : cfg.requireEnrolment = false) (inst : Bytes) :
    Welcome cfg .blank inst :=
  ⟨rfl, by simp [hreq], by simp [Record.blank], by simp [Record.blank]⟩

/-- **A message with the link of the expected position is accepted**, where its evidence is
valid and neither the record nor the silicon stands against it. -/
theorem admits_of_anchor {m : Mandate} {k ctx exporter base : Bytes} {n : ℕ} {head : Option Bytes}
    {bundle : Option Json} {msg : Json} {anchor : Anchor}
    (hcounter : msg.item "counter" = .ok (.int n))
    (hlink : postLinkOf msg = .ok (nextLink P exporter base n))
    (hver : verifyEvidence cfg msg (reportDataFor P (nextLink P exporter base n) head) =
      .ok (true, some anchor))
    (hlength : base.length = 32) (hn : n < 2 ^ 64) (hrec : Welcome cfg (m.record k) anchor.inst)
    (hplaced : cfg.requirePlace = true → anchor.place.isSome ∧
      ((nonEmpty (m.record k).enrolledPlace).isSome →
        anchor.place = nonEmpty (m.record k).enrolledPlace))
    (hknown : m.checkHead P cfg head bundle = .ok none) (hexp : m.Expects P k ctx base n) :
    Admits P cfg m k ctx exporter msg head bundle (some anchor.inst) anchor.place
      (nextLink P exporter base n) n := by
  refine ⟨hrec.notRevoked, hlink, hknown, ⟨some anchor, hver, rfl, rfl⟩, fun _ => rfl,
    fun hreq => ?_, fun e i he hi => ?_, hplaced, fun o i ho hi => ?_,
    ⟨_, hcounter, by simp [Json.eqInt, Json.asInt?]⟩, ⟨base, hexp, postLink_eq P exporter hlength hn⟩⟩
  · obtain ⟨e, he⟩ := Option.isSome_iff_exists.mp (hrec.enrolled hreq)
    rw [he, nonEmpty_some (hrec.home e he ▸ anchor.inst_ne_nil)]
    rfl
  · rw [← Option.some.inj hi, hrec.home e (nonEmpty_eq_some.mp he).1]
  · rw [← Option.some.inj hi, hrec.observed o (nonEmpty_eq_some.mp ho).1]

/-- **A genuine message at the expected position is accepted**, by a mandate that does
not ask for a place and knows the head it comes with. -/
theorem admits_of_known (hplace : cfg.requirePlace = false) {m : Mandate}
    {k ctx exporter base inst : Bytes} {n : ℕ} {head : Option Bytes} {bundle : Option Json} {msg : Json}
    (hmsg : Genuine P cfg inst exporter base n head msg) (hrec : Welcome cfg (m.record k) inst)
    (hknown : m.checkHead P cfg head bundle = .ok none) (hexp : m.Expects P k ctx base n) :
    ∃ place, Admits P cfg m k ctx exporter msg head bundle (some inst) place
      (nextLink P exporter base n) n := by
  obtain ⟨anchor, hver, rfl⟩ := hmsg.evidence
  refine ⟨anchor.place, admits_of_anchor hmsg.counter hmsg.link hver hmsg.base_length
    hmsg.counter_lt hrec (fun h => ?_) hknown hexp⟩
  rw [hplace] at h
  cases h

/-- So it is without a bundle, where the head is one the log has had. -/
theorem admits_of_genuine (hplace : cfg.requirePlace = false) {m : Mandate}
    {k ctx exporter base inst : Bytes} {n : ℕ} {head : Option Bytes} {msg : Json}
    (hmsg : Genuine P cfg inst exporter base n head msg) (hrec : Welcome cfg (m.record k) inst)
    (hhead : ∀ h, head = some h → m.knowsHead h = true) (hexp : m.Expects P k ctx base n) :
    ∃ place, Admits P cfg m k ctx exporter msg head none (some inst) place
      (nextLink P exporter base n) n := by
  apply admits_of_known hplace hmsg hrec _ hexp
  cases head with
  | none => rfl
  | some h => simp [checkHead, hhead h rfl]

end Hatls
