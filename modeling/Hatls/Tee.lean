import Hatls.Honest

/-!
# The mock chip

`hatls/tee.py`: the chip that stands in for real hardware in the tests and the demo,
and the verifier of its reports.  It is the one verifier of the repository that
needs no vendor certificate, and it computes.

## Main definitions

* `Tee.MockTEE`, `Tee.MockTEE.report` — a guest on a chip.
* `Tee.mockVerifier` — the anchor rule over its reports.
* `Tee.MockTEE.hello` — the first message of an attester on it.
-/

namespace Hatls.Tee

variable (P : Primitives)

/-- `None` for an absent or masked identifier, otherwise the identifier itself. -/
def present (v : Bytes) : Option Bytes := if v.any (· ≠ 0) then some v else none

/-- A stand-in for one guest on one chip. -/
structure MockTEE where
  chip : Bytes
  inst : Bytes
  k : Bytes

namespace MockTEE

def pub (tee : MockTEE) : Bytes := P.ecdsa.publicKey tee.k

/-- Evidence for 64 bytes of report data; `rnd` is what the signature draws. -/
def report (tee : MockTEE) (rnd reportData : Bytes) : Json :=
  .obj [
    ("kind", .str "mock"),
    ("instance", .str (Bytes.hex tee.inst)),
    ("chip", .str (Bytes.hex tee.chip)),
    ("report_data", .str (Bytes.hex reportData)),
    ("pub", .str (Bytes.hex (tee.pub P))),
    ("sig", .str (Bytes.hex (P.ecdsa.sign tee.k rnd (tee.inst ++ tee.chip ++ reportData))))]

end MockTEE

/-- `ev["pub"] in trusted_pubs`: a list or a dictionary cannot be looked up in a set. -/
def trusts (trustedPubs : List String) (pub : Json) : Except Exn Bool :=
  match pub with
  | .str s => .ok (s ∈ trustedPubs)
  | .arr _ => .error .typeError
  | .obj _ => .error .typeError
  | _ => .ok false

/-- The verifier that trusts the given chip keys. -/
def mockVerifier (trustedPubs : List String) (ev : Json) (expectedRd : Bytes) :
    Except Exn (Bool × Option Anchor) :=
  match ev with
  | .obj fields =>
    if !(Json.getD fields "kind" .null).eqStr "mock" then .ok (false, none)
    else do
      let pub ← ev.item "pub"
      if !(← trusts trustedPubs pub) then return (false, none)
      let reportData ← (← ev.item "report_data").fromHex
      if reportData ≠ expectedRd then return (false, none)
      let spki ← pub.fromHex
      P.ecdsa.loadPublicKey spki
      let chip ← (← ev.item "chip").fromHex
      let inst ← (← ev.item "instance").fromHex
      match (do P.ecdsa.verify spki (← (← ev.item "sig").fromHex) (inst ++ chip ++ reportData)) with
      | .error _ => return (false, none)
      | .ok () =>
        if h : inst.any (· ≠ 0) = true then return (true, some ⟨inst, present chip, h⟩)
        else return (true, none)
  | _ => .error .attributeError

/-- The verifier trusts the chip, and its guest has an instance identifier. -/
structure MockTEE.Trusted (trustedPubs : List String) (tee : MockTEE) : Prop where
  pub : Bytes.hex (tee.pub P) ∈ trustedPubs
  usable : tee.inst.any (· ≠ 0) = true

/-- The anchor of a guest. -/
def MockTEE.Trusted.anchor {P : Primitives} {trustedPubs : List String} {tee : MockTEE}
    (h : tee.Trusted P trustedPubs) : Anchor :=
  ⟨tee.inst, present tee.chip, h.usable⟩

/-- **The report of a trusted chip verifies**, with the anchor of its guest. -/
theorem mockVerifier_report {trustedPubs : List String} {tee : MockTEE}
    (htee : tee.Trusted P trustedPubs) (rnd rd : Bytes) :
    mockVerifier P trustedPubs (tee.report P rnd rd) rd = .ok (true, some htee.anchor) := by
  have htrust' : Bytes.hex (P.ecdsa.publicKey tee.k) ∈ trustedPubs := htee.pub
  have husable' : ∃ x ∈ tee.inst, ¬ x = 0 := by simpa using htee.usable
  simp [mockVerifier, MockTEE.report, MockTEE.pub, Json.getD, Json.item, Json.lookup, Json.eqStr,
    Json.fromHex, trusts, htrust', husable', MockTEE.Trusted.anchor]

/-- It verifies for no other report data. -/
theorem mockVerifier_report_eq {trustedPubs : List String} {tee : MockTEE} {rnd rd rd' : Bytes}
    {anchor : Option Anchor}
    (h : mockVerifier P trustedPubs (tee.report P rnd rd) rd' = .ok (true, anchor)) : rd' = rd := by
  by_contra hne
  have hdata : rd ≠ rd' := fun heq => hne heq.symm
  by_cases htrust : Bytes.hex (P.ecdsa.publicKey tee.k) ∈ trustedPubs
  · simp [mockVerifier, MockTEE.report, MockTEE.pub, Json.getD, Json.item, Json.lookup, Json.eqStr,
      Json.fromHex, trusts, htrust, hdata] at h
  · simp [mockVerifier, MockTEE.report, MockTEE.pub, Json.getD, Json.item, Json.lookup, Json.eqStr,
      trusts, htrust] at h

namespace MockTEE

open Mandate Binder

variable {P} {trustedPubs : List String} {cfg : Config} {tee : MockTEE}

/-- A trusted chip is a chip of its guest's instance. -/
theorem chipOf (hcfg : cfg.verifyReport = mockVerifier P trustedPubs)
    (htee : tee.Trusted P trustedPubs) (rnd : Bytes) : ChipOf cfg tee.inst fun rd => .ok (tee.report P rnd rd) := by
  intro rd evidence h
  obtain rfl := Except.ok.inj h
  exact ⟨_, by rw [hcfg]; exact mockVerifier_report P htee rnd rd, rfl⟩

variable (P tee) in
/-- The first message of an attester on the chip. -/
def hello (rnd k ctx exporter : Bytes) : Json :=
  let link := nextLink P exporter (firstLink P ctx k) 0
  .obj [
    ("counter", .int 0),
    ("intra_ok_base", .bool true),
    ("post_link", .str (Bytes.hex link)),
    ("evidence", tee.report P rnd (reportDataFor P link none))]

variable (P tee) in
theorem attest_hello {ctx : Bytes} (hctx : ctx.length < 256) (rnd k exporter : Bytes) :
    (Attester.new k).attest P (fun rd => .ok (tee.report P rnd rd)) ctx exporter none =
      (.ok (tee.hello P rnd k ctx exporter), (Attester.new k).advance P ctx exporter) := by
  have hlink := postLink_eq P exporter (length_firstLink P ctx k)
    (show 0 < 2 ^ 64 by omega)
  simp only [Attester.attest, Attester.new, intraLink_eq P hctx, Option.getD_none, hlink, Exn.ok_bind,
    Exn.pure_eq_ok]
  rfl

variable (P tee) in
/-- The first message of an attester on the chip that is shown a head. -/
def helloOver (rnd k ctx exporter head : Bytes) : Json :=
  let link := nextLink P exporter (firstLink P ctx k) 0
  .obj [
    ("counter", .int 0),
    ("intra_ok_base", .bool true),
    ("post_link", .str (Bytes.hex link)),
    ("evidence", tee.report P rnd (reportDataFor P link (some head))),
    ("head", .str (Bytes.hex head))]

variable (P tee) in
theorem attest_helloOver {ctx : Bytes} (hctx : ctx.length < 256) (rnd k exporter head : Bytes) :
    (Attester.new k).attest P (fun rd => .ok (tee.report P rnd rd)) ctx exporter (some head) =
      (.ok (tee.helloOver P rnd k ctx exporter head), (Attester.new k).advance P ctx exporter) := by
  have hlink := postLink_eq P exporter (length_firstLink P ctx k)
    (show 0 < 2 ^ 64 by omega)
  simp only [Attester.attest, Attester.new, intraLink_eq P hctx, Option.getD_none, hlink, Exn.ok_bind,
    Exn.pure_eq_ok]
  rfl

/-- It is a genuine message. -/
theorem genuine_helloOver (hcfg : cfg.verifyReport = mockVerifier P trustedPubs)
    (htee : tee.Trusted P trustedPubs) {ctx : Bytes} (hctx : ctx.length < 256)
    (rnd k exporter head : Bytes) :
    Genuine P cfg tee.inst exporter (firstLink P ctx k) 0 (some head)
      (tee.helloOver P rnd k ctx exporter head) :=
  Attester.genuine_of_attest (a := Attester.new k) (by simp [Attester.new]) (chipOf hcfg htee rnd)
    (attest_helloOver P tee hctx rnd k exporter head)

/-! What the mandate reads in it. -/

section Hello

variable {k ctx exporter : Bytes}

variable (tee) in
theorem counter_hello (rnd k ctx exporter : Bytes) :
    (tee.hello P rnd k ctx exporter).item "counter" = .ok (.int 0) := rfl

variable (tee) in
theorem evidence_hello (rnd k ctx exporter : Bytes) :
    (tee.hello P rnd k ctx exporter).item "evidence" =
      .ok (tee.report P rnd (reportDataFor P (nextLink P exporter (firstLink P ctx k) 0) none)) := by
  simp [hello, Json.item, Json.lookup]

theorem verified_hello (hcfg : cfg.verifyReport = mockVerifier P trustedPubs)
    (htee : tee.Trusted P trustedPubs) {m : Mandate} (k : Bytes) (hrev : (m.record k).revoked = false)
    (rnd ctx exporter : Bytes) :
    Verified P cfg m k (tee.hello P rnd k ctx exporter) none none (some tee.inst) (present tee.chip)
      (nextLink P exporter (firstLink P ctx k) 0) := by
  refine ⟨hrev, ?_, rfl, ⟨some htee.anchor, ?_, rfl, rfl⟩, fun _ => rfl, by simp⟩
  · simp [postLinkOf, hello, Json.item, Json.lookup, Json.fromHex]
  · rw [verifyEvidence, evidence_hello, hcfg]
    exact mockVerifier_report P htee rnd _

end Hello

end MockTEE

/-! ## A mandate in front of mock chips -/

section Steps

open Mandate Binder MockTEE

variable {trustedPubs : List String} (cfg : Config) (tee : MockTEE) (m : Mandate) (k : Bytes)
  {ctx : Bytes}

/-- What an attester on a trusted chip opens a session with is admitted, where the record
of its identity has nothing against it or its chip. -/
theorem admits_hello (hcfg : cfg.verifyReport = mockVerifier P trustedPubs)
    (htee : tee.Trusted P trustedPubs) (hctx : ctx.length < 256)
    (hrec : Welcome cfg (m.record k) tee.inst)
    (hplaced : cfg.requirePlace = true → (present tee.chip).isSome ∧
      ((nonEmpty (m.record k).enrolledPlace).isSome →
        present tee.chip = nonEmpty (m.record k).enrolledPlace))
    (hnew : m.sessions (sessionKey P k ctx) = none) (rnd exporter : Bytes) :
    Admits P cfg m k ctx exporter (tee.hello P rnd k ctx exporter) none none (some tee.inst)
      (present tee.chip) (nextLink P exporter (firstLink P ctx k) 0) 0 := by
  have hinst : tee.inst ≠ [] := htee.anchor.inst_ne_nil
  have hclear : Clears cfg (m.record k) (some tee.inst) (present tee.chip) := by
    refine ⟨fun hreq => ?_, fun e i he hi => ?_, hplaced, fun o i ho hi => ?_⟩
    · obtain ⟨e, he⟩ := Option.isSome_iff_exists.mp (hrec.enrolled hreq)
      rw [he, nonEmpty_some (hrec.home e he ▸ hinst)]
      rfl
    · rw [← Option.some.inj hi, hrec.home e (nonEmpty_eq_some.mp he).1]
    · rw [← Option.some.inj hi, hrec.observed o (nonEmpty_eq_some.mp ho).1]
  have hexp : m.Expects P k ctx (firstLink P ctx k) 0 := by
    simp [Expects, hnew, intraLink_eq P hctx]
  exact .of_gates (verified_hello hcfg htee k hrec.notRevoked rnd ctx exporter) hclear
    ⟨_, counter_hello tee rnd k ctx exporter, rfl⟩
    ⟨_, hexp, postLink_eq P exporter (length_firstLink P ctx k) (by omega)⟩

/-- So the session is opened. -/
theorem step_hello (hcfg : cfg.verifyReport = mockVerifier P trustedPubs)
    (htee : tee.Trusted P trustedPubs) (hctx : ctx.length < 256)
    (hrec : Welcome cfg (m.record k) tee.inst)
    (hplaced : cfg.requirePlace = true → (present tee.chip).isSome ∧
      ((nonEmpty (m.record k).enrolledPlace).isSome →
        present tee.chip = nonEmpty (m.record k).enrolledPlace))
    (hnew : m.sessions (sessionKey P k ctx) = none) (t : Moment) (rnd exporter : Bytes) :
    m.step P cfg (t, .present k ctx exporter (tee.hello P rnd k ctx exporter) none none) =
      (.decision (acceptedVerdict (some tee.inst)),
        (m.admitted k (sessionKey P k ctx) 0 (nextLink P exporter (firstLink P ctx k) 0)
          (some tee.inst) (present tee.chip)).recordDecision P cfg t.env "present" k true
            "accepted; continuity intact" (some tee.inst)) :=
  step_of_admits m t (admits_hello P cfg tee m k hcfg htee hctx hrec hplaced hnew rnd exporter)

/-- What an impostor is told. -/
def impostorText : String := "rejected: key presented from an instance it was not enrolled on"

/-- An attester on a trusted chip that is not the enrolled one is refused, and seen. -/
theorem step_impostor (hcfg : cfg.verifyReport = mockVerifier P trustedPubs)
    (htee : tee.Trusted P trustedPubs) (hrev : (m.record k).revoked = false) {e : Bytes}
    (hen : (m.record k).enrolledInstance = some e) (he : e ≠ []) (hne : tee.inst ≠ e)
    (t : Moment) (rnd ctx exporter : Bytes) :
    m.step P cfg (t, .present k ctx exporter (tee.hello P rnd k ctx exporter) none none) =
      (.decision ⟨false, impostorText, some tee.inst⟩,
        (m.put k (((m.record k).witness cfg t.env tee.inst (present tee.chip)).dispute t.env
          "evidence from a non-enrolled instance")).recordDecision P cfg t.env "present" k false
            impostorText (some tee.inst)) := by
  have hobj : Objects P cfg t.env m k ctx exporter (tee.hello P rnd k ctx exporter) none none _ _ _ :=
    .impostor (verified_hello hcfg htee k hrev rnd ctx exporter) (by rw [hen, nonEmpty_some he]) hne
  rw [step_of_objects m t hobj, counter_hello]
  rfl

/-- Evidence of a trusted chip enrols an identity on its guest. -/
theorem step_enroll (hcfg : cfg.verifyReport = mockVerifier P trustedPubs)
    (hplace : cfg.requirePlace = true → (present tee.chip).isSome)
    (hauth : cfg.enrolmentAuthority = none) (htee : tee.Trusted P trustedPubs) {t : Moment} {nonce csrDer : Bytes} {expiry : ℚ} (hissued : m.challenges nonce = some expiry)
    (hnow : t.now < expiry) (hfresh : (m.record k).enrolledInstance = none)
    (hcsr : csrPublicKeyDer P csrDer = .ok k) (rnd : Bytes) (authority : Option Bytes) :
    m.step P cfg (t, .enroll k (tee.report P rnd (P.sha512 (nonce ++ csrDer))) nonce csrDer
        authority none none) =
      (.decision ⟨true, "enrolled", none⟩,
        (m.enrolledAs k nonce htee.anchor authority).recordDecision P cfg
          t.env "enroll" k true "enrolled" (nonEmpty (some tee.inst))) := by
  refine step_of_enrols m t ⟨⟨expiry, hissued, hnow⟩, ⟨"", ?_⟩, hfresh, hcsr, ?_, hplace⟩ authority
  · simp [permitted, hauth]
  · rw [hcfg]
    exact mockVerifier_report P htee rnd _

end Steps

/-! ## Two chips -/

/-- `Mandate(mock_verifier(trusted))`, with the defaults of its constructor. -/
def mockMandate (trustedPubs : List String) (signingKey : Bytes) : Config where
  verifyReport := mockVerifier P trustedPubs
  requireAnchor := true
  requireEnrolment := false
  requirePlace := false
  challengeTtl := 300
  witnessTtl := 3600
  signingKey := signingKey
  enrolmentAuthority := none

def teeA : MockTEE := ⟨[0xa2, 0xb2, 0x58, 0x0a], [0xa2, 1], [0x0a]⟩

def teeB : MockTEE := ⟨[0x76, 0x10, 0x22, 0xd0], [0x76, 1], [0x0b]⟩

/-- A mandate that trusts the two chips. -/
def twoChips : Config := mockMandate .plain ["0a", "0b"] [0x5e]

/-- The identity the two chips contend for, and a request that carries it. -/
def tik : Bytes := [0x30, 0x59]

def csr : Bytes := [2] ++ tik ++ List.replicate 84 0

/-- A call at a time of the clock. -/
def instant (now : ℕ) : Moment := ⟨now, []⟩

/-- The first message of an attester on a chip, presented as it was made. -/
def opening (tee : MockTEE) (ctx exporter : Bytes) (now : ℕ) : Moment × Call :=
  (instant now, .present tik ctx exporter (tee.hello .plain [] tik ctx exporter) none none)

/-- The enrolment of the identity on the guest of a chip, for a challenge. -/
def enrolment (tee : MockTEE) (nonce : Bytes) (authority : Option Bytes) (now : ℕ) : Moment × Call :=
  (instant now, .enroll tik (tee.report .plain [] (Primitives.plain.sha512 (nonce ++ csr))) nonce csr
    authority none none)

theorem teeA_trusted : teeA.Trusted .plain ["0a", "0b"] := ⟨by decide, by decide⟩

theorem teeB_trusted : teeB.Trusted .plain ["0a", "0b"] := ⟨by decide, by decide⟩

theorem csr_possession : Mandate.csrPublicKeyDer .plain csr = .ok tik := rfl

/-- A challenge, and the enrolment of the identity on the first chip. -/
def birth (authority : Option Bytes) : List (Moment × Call) :=
  [(instant 0, .challenge [9]), enrolment teeA [9] authority 1]

/-- The record of the identity then. -/
def bornOnA (authority : Option Bytes) : Record :=
  { Record.blank with
    enrolledInstance := some teeA.inst
    enrolledPlace := some teeA.chip
    transferAuthority := authority }

/-- A mandate that trusts the two chips, and lets anyone enrol who answers a challenge
within a second. -/
structure TrustsChips (cfg : Config) : Prop where
  verifies : cfg.verifyReport = mockVerifier .plain ["0a", "0b"]
  anyone : cfg.enrolmentAuthority = none
  patient : 1 < cfg.challengeTtl

theorem trustsChips : TrustsChips twoChips := ⟨rfl, rfl, by norm_num [twoChips, mockMandate]⟩

section Birth

open Mandate

variable {cfg : Config} (hcfg : TrustsChips cfg) (authority : Option Bytes)
include hcfg

theorem step_birth :
    (after .plain cfg (fun _ => none) [(instant 0, .challenge [9])]).step .plain cfg
        (enrolment teeA [9] authority 1) =
      (.decision ⟨true, "enrolled", none⟩,
        ((after .plain cfg (fun _ => none) [(instant 0, .challenge [9])]).enrolledAs tik [9]
          teeA_trusted.anchor authority).recordDecision .plain cfg (instant 1).env "enroll" tik
            true "enrolled" (nonEmpty (some teeA.inst))) := by
  have hissued : (after .plain cfg (fun _ => none) [(instant 0, .challenge [9])]).challenges [9] =
      some (((0 : ℕ) : ℚ) + cfg.challengeTtl) := by
    simp [after, step_challenge, challenge, instant]
  have hnow : (instant 1).now < ((0 : ℕ) : ℚ) + cfg.challengeTtl := by
    simpa [instant] using hcfg.patient
  exact step_enroll .plain cfg teeA _ tik hcfg.verifies (fun _ => rfl) hcfg.anyone teeA_trusted
    hissued hnow rfl csr_possession [] authority

theorem after_birth :
    after .plain cfg (fun _ => none) (birth authority) =
      ((after .plain cfg (fun _ => none) [(instant 0, .challenge [9])]).enrolledAs tik [9]
        teeA_trusted.anchor authority).recordDecision .plain cfg (instant 1).env "enroll" tik
          true "enrolled" (nonEmpty (some teeA.inst)) := by
  have h := after_concat .plain cfg (fun _ => none) [(instant 0, .challenge [9])]
    (enrolment teeA [9] authority 1)
  rw [step_birth hcfg] at h
  exact h

theorem record_birth :
    (after .plain cfg (fun _ => none) (birth authority)).record tik = bornOnA authority := by
  rw [after_birth hcfg, record_recordDecision, record_enrolledAs_self]
  cases authority <;> rfl

theorem sessions_birth (key : Bytes × Bytes) :
    (after .plain cfg (fun _ => none) (birth authority)).sessions key = none := by
  rw [after_birth hcfg, sessions_recordDecision, sessions_enrolledAs]
  rfl

/-- The guest of the first chip is then served. -/
theorem accepted_opening {ctx : Bytes} (hctx : ctx.length < 256) (exporter : Bytes) (now : ℕ) :
    ((after .plain cfg (fun _ => none) (birth authority)).step .plain cfg
      (opening teeA ctx exporter now)).1.accepted = true := by
  have hrec := record_birth hcfg authority
  have hwelcome : Welcome cfg ((after .plain cfg (fun _ => none) (birth authority)).record tik)
      teeA.inst := by
    rw [hrec]
    exact ⟨rfl, fun _ => rfl, fun _ he => (Option.some.inj he).symm, fun _ ho => nomatch ho⟩
  have hplaced : (present teeA.chip).isSome ∧ ((nonEmpty ((after .plain cfg (fun _ => none)
      (birth authority)).record tik).enrolledPlace).isSome → present teeA.chip =
        nonEmpty ((after .plain cfg (fun _ => none) (birth authority)).record tik).enrolledPlace) := by
    rw [hrec]
    exact ⟨rfl, fun _ => rfl⟩
  rw [opening, step_hello .plain cfg teeA _ tik hcfg.verifies teeA_trusted hctx hwelcome
    (fun _ => hplaced) (sessions_birth hcfg authority _)]
  rfl

end Birth

/-! ## Moves between the chips -/

/-- The key of the transfer authority. -/
def owner : Bytes := [0xee]

/-- A grant of the owner, presented when it was made. -/
def move (tee : MockTEE) (fromInstance : Option Bytes) (anyOrigin : Bool) (nonce : Bytes) (now : ℕ) :
    Moment × Call :=
  let grant : Json := .obj
    (Transfer.grantFields tik tee.inst fromInstance anyOrigin now 900 nonce)
  (instant now, .acceptTransfer tik grant (Primitives.plain.ecdsa.sign owner [] grant.canonical))

@[simp] theorem time_instant (now : ℕ) : (instant now).env.time = now := by
  simp [Env.time, instant]

/-- The identity lives on an instance, and the owner may move it. -/
structure Movable (r : Record) (e : Bytes) : Prop where
  notRevoked : r.revoked = false
  enrolled : r.enrolledInstance = some e
  ne_nil : e ≠ []
  authority : r.transferAuthority = some (Primitives.plain.ecdsa.publicKey owner)

/-- A note does not change that. -/
theorem Movable.noted {cfg : Config} {env : Env} {r r' : Record} {e : Bytes} (h : Movable r e)
    (hn : Noted cfg env r r') : Movable r' e where
  notRevoked := hn.revoked.trans h.notRevoked
  enrolled := hn.enrolledInstance.trans h.enrolled
  ne_nil := h.ne_nil
  authority := hn.transferAuthority.trans h.authority

/-- The instance an identity lives on is welcome, where nothing else was observed. -/
theorem Movable.welcome {cfg : Config} {r : Record} {e : Bytes} (h : Movable r e)
    (hobs : ∀ o, r.observedInstance = some o → o = e) : Welcome cfg r e where
  notRevoked := h.notRevoked
  enrolled _ := by rw [h.enrolled]; rfl
  home e' he := by rw [h.enrolled] at he; exact (Option.some.inj he).symm
  observed := hobs

theorem movable_bornOnA : Movable (bornOnA (some owner)) teeA.inst := ⟨rfl, rfl, by decide, rfl⟩

theorem movable_birth {cfg : Config} (hcfg : TrustsChips cfg) :
    Movable ((Mandate.after .plain cfg (fun _ => none) (birth (some owner))).record tik)
      teeA.inst := by
  rw [record_birth hcfg]
  exact movable_bornOnA

section Moves

open Mandate

variable (cfg : Config) {m : Mandate} (tee : MockTEE) {e : Bytes} (nonce : Bytes) {w : Witness}

/-- The record after the first message of a chip on which the identity does not live. -/
def noticed (r : Record) (now : ℕ) : Record :=
  (r.witness cfg (instant now).env tee.inst (present tee.chip)).dispute (instant now).env
    "evidence from a non-enrolled instance"

/-- Such a chip is refused, and may be moved to. -/
theorem step_elsewhere (hcfg : cfg.verifyReport = mockVerifier .plain ["0a", "0b"])
    (htee : tee.Trusted .plain ["0a", "0b"]) (h : Movable (m.record tik) e) (hne : tee.inst ≠ e)
    (ctx exporter : Bytes) (now : ℕ) :
    ∃ m', m.step .plain cfg (opening tee ctx exporter now) =
        (.decision ⟨false, impostorText, some tee.inst⟩, m') ∧
      m'.record tik = noticed cfg tee (m.record tik) now ∧ m'.sessions = m.sessions := by
  refine ⟨_, step_impostor .plain cfg tee m tik hcfg htee h.notRevoked h.enrolled h.ne_nil hne
    (instant now) [] ctx exporter, ?_, ?_⟩
  · rw [record_recordDecision, record_put_self, noticed]
  · rw [sessions_recordDecision, sessions_put]

theorem movable_noticed {r : Record} (h : Movable r e) (now : ℕ) :
    Movable (noticed cfg tee r now) e :=
  h.noted (.witness _ _ _)

variable {cfg tee} in
/-- So is one that presents where the identity was born on the first. -/
theorem record_elsewhere (hcfg : TrustsChips cfg) (htee : tee.Trusted .plain ["0a", "0b"])
    (hne : tee.inst ≠ teeA.inst) (ctx exporter : Bytes) (now : ℕ) :
    (after .plain cfg (fun _ => none) (birth (some owner) ++ [opening tee ctx exporter now])).record
      tik = noticed cfg tee (bornOnA (some owner)) now := by
  obtain ⟨m', hstep, hm', -⟩ :=
    step_elsewhere cfg tee hcfg.verifies htee (movable_birth hcfg) hne ctx exporter now
  rw [after_concat, hstep, hm', record_birth hcfg]

/-- It can be moved to while the witness lives. -/
theorem find_noticed (r : Record) (now later : ℕ)
    (hfresh : (((later : ℤ) - now : ℤ) : ℚ) < cfg.witnessTtl) :
    ((noticed cfg tee r now).witnessed.find? fun w => Bytes.hex w.inst = Bytes.hex tee.inst &&
      decide ((((instant later).env.time - w.at_ : ℤ) : ℚ) < cfg.witnessTtl)) =
        some ⟨tee.inst, nonEmpty (present tee.chip), now⟩ := by
  have h := find_witness cfg (instant now).env (instant later).env r tee.inst (present tee.chip)
    (by simpa only [time_instant] using hfresh)
  rw [time_instant now] at h
  exact h

/-- The owner's grant is accepted, onto a witnessed instance. -/
theorem step_move (h : Movable (m.record tik) e) (fromInstance : Option Bytes) (anyOrigin : Bool)
    (horigin : (fromInstance = none ∧ anyOrigin = true) ∨ fromInstance = some e) (now : ℕ)
    (hunspent : Json.pyMem (.str (Bytes.hex nonce)) (m.record tik).consumedGrants = false)
    (husable : tee.inst.any (· ≠ 0) = true)
    (hdest : ((m.record tik).witnessed.find? fun w => Bytes.hex w.inst = Bytes.hex tee.inst &&
      decide ((((instant now).env.time - w.at_ : ℤ) : ℚ) < cfg.witnessTtl)) = some w) :
    m.step .plain cfg (move tee fromInstance anyOrigin nonce now) =
      (.decision ⟨true, transferredText, none⟩,
        (transferred (instant now).env m tik
          (Transfer.grantFields tik tee.inst fromInstance anyOrigin now 900 nonce) tee.inst w
          (.str (Bytes.hex nonce))).recordDecision .plain cfg (instant now).env "transfer" tik true
            transferredText (some tee.inst)) := by
  have hmade : Transfer.makeGrant .plain owner [] tik tee.inst fromInstance anyOrigin now 900 nonce =
      .ok (.obj (Transfer.grantFields tik tee.inst fromInstance anyOrigin now 900 nonce),
        Primitives.plain.ecdsa.sign owner []
          (Json.obj (Transfer.grantFields tik tee.inst fromInstance anyOrigin now 900 nonce)).canonical)
      := by
    rw [Transfer.makeGrant, if_neg]
    rcases horigin with ⟨-, rfl⟩ | rfl <;> simp
  have hgrants : Grants .plain cfg (instant now).env (m.record tik) tik _ _ _ tee.inst w :=
    .of_makeGrant h.notRevoked h.enrolled h.ne_nil h.authority hmade horigin (by simp) (by simp)
      hunspent husable hdest
  exact step_of_grants m _ hgrants rfl

/-- The record then. -/
theorem movable_moved (h : Movable (m.record tik) e) (hw : tee.inst ≠ []) (env : Env)
    (fields : List (String × Json)) (n : Json) :
    Movable (moved env (m.record tik) fields tee.inst w n) tee.inst :=
  ⟨h.notRevoked, rfl, hw, h.authority⟩

end Moves

end Hatls.Tee
