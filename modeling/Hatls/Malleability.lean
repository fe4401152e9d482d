import Hatls.Admissions
import Hatls.Sevsnp

/-!
# Two signatures over one report body

An ECDSA signature can be turned into another one over the same bytes by anybody.  What a
mandate decides about a report is read off the part that is signed: two reports with one body
are one report to the verifier, so one presentation to the mandate, and the second of them is
a replay.

## Main definitions

* `SameBut` — dictionaries that differ in one entry.
* `Tee.parseSnp_eq` — the fields of a report are read off its signed body.
* `Tee.Conjugate` — two pieces of evidence for one body.
* `Reads` — messages in which a mandate reads the same; `Mandate.present_eq_of_reads`.
* `Mandate.replayed` — what is presented after it was accepted.
-/

namespace Hatls

/-! ## Dictionaries -/

/-- Dictionaries that hold the same under every key but one. -/
def SameBut (key : String) (j j' : Json) : Prop :=
  ∃ fields fields', j = .obj fields ∧ j' = .obj fields' ∧
    ∀ name, name ≠ key → Json.lookup fields name = Json.lookup fields' name

theorem SameBut.symm {key : String} {j j' : Json} (h : SameBut key j j') : SameBut key j' j := by
  obtain ⟨fields, fields', hj, hj', hsame⟩ := h
  exact ⟨fields', fields, hj', hj, fun name hne => (hsame name hne).symm⟩

theorem SameBut.item {key : String} {j j' : Json} (h : SameBut key j j') {name : String}
    (hne : name ≠ key) : j.item name = j'.item name := by
  obtain ⟨fields, fields', rfl, rfl, hsame⟩ := h
  simp only [Json.item, hsame name hne]

/-! ## What is read off a report -/

namespace Tee

/-- The part of a report that is signed: what stands before the signature. -/
def signedBody (b : Bytes) : Bytes := b.take 0x2A0

section Fields

variable {b b' : Bytes} (hbody : signedBody b = signedBody b')
include hbody

/-- A field that ends within the signed body. -/
theorem slice_congr (i : ℕ) {j : ℕ} (hj : j ≤ 0x2A0) : b.slice i j = b'.slice i j := by
  have hcut : ∀ b : Bytes, (signedBody b).slice i j = b.slice i j := by
    intro b
    rw [Bytes.slice, Bytes.slice, signedBody, List.take_take, Nat.min_eq_left hj]
  rw [← hcut b, hbody, hcut b']

theorem unpackFrom_congr {offset width : ℕ} (h : offset + width ≤ 0x2A0) :
    unpackFrom b offset width = unpackFrom b' offset width := by
  rw [unpackFrom, slice_congr hbody offset h, unpackFrom]

/-- **Every field of a report is read off the signed body.** -/
theorem parseSnp_congr (hlen : b.length = 1184) (hlen' : b'.length = 1184) :
    parseSnp b = parseSnp b' := by
  have hone : unpackFrom b 0x188 1 = unpackFrom b' 0x188 1 := unpackFrom_congr hbody (by decide)
  have hmodel : unpackFrom b 0x189 1 = unpackFrom b' 0x189 1 := unpackFrom_congr hbody (by decide)
  simp only [parseSnp, hlen, hlen', hone, hmodel,
    unpackFrom_congr hbody (show 0x00 + 4 ≤ 0x2A0 by decide),
    unpackFrom_congr hbody (show 0x08 + 8 ≤ 0x2A0 by decide),
    unpackFrom_congr hbody (show 0x48 + 4 ≤ 0x2A0 by decide),
    unpackFrom_congr hbody (show 0x180 + 8 ≤ 0x2A0 by decide),
    slice_congr hbody 0x50 (show 0x50 + 64 ≤ 0x2A0 by decide),
    slice_congr hbody 0x90 (show 0x90 + 48 ≤ 0x2A0 by decide),
    slice_congr hbody 0xC0 (show 0xC0 + 32 ≤ 0x2A0 by decide),
    slice_congr hbody 0x140 (show 0x140 + 32 ≤ 0x2A0 by decide),
    slice_congr hbody 0x1A0 (show 0x1A0 + 64 ≤ 0x2A0 by decide)]

end Fields

section Conjugate

variable {Cert X509 : Type} (P : Primitives) (V : Vendor Cert X509)

/-- Evidence carries a report, and the signature of it verifies under the certificate of the
leaf, if there is one to be had. -/
structure Carries (ev : Json) (b : Bytes) : Prop where
  report : ∃ j, ev.item "report" = .ok j ∧ b64decode j = .ok b
  length : b.length = 1184
  signed : ∀ f cert der, parseSnp b = .ok f → leafOf P V ev f = .ok (cert, der) →
    verifySignature V cert b = .ok ()

/-- **Two pieces of evidence for one body**: they differ in the report only, the reports
agree on what is signed, and the signatures of both verify. -/
structure Conjugate (ev ev' : Json) (b b' : Bytes) : Prop where
  rest : SameBut "report" ev ev'
  body : signedBody b = signedBody b'
  carries : Carries P V ev b
  carries' : Carries P V ev' b'

variable {P V} {ev ev' : Json} {b b' : Bytes}

theorem Conjugate.parsed (h : Conjugate P V ev ev' b b') : parseSnp b = parseSnp b' :=
  parseSnp_congr h.body h.carries.length h.carries'.length

/-- What `verify` reads. -/
theorem Carries.read (h : Carries P V ev b) :
    (do let b ← b64decode (← ev.item "report"); return (b, ← parseSnp b) : Except Exn (Bytes × Snp)) =
      (parseSnp b).map fun f => (b, f) := by
  obtain ⟨j, hj, hb⟩ := h.report
  simp only [hj, hb, Exn.ok_bind]
  cases parseSnp b <;> rfl

/-- The certificate is not taken from the report. -/
theorem leafOf_congr (h : SameBut "report" ev ev') (f : Snp) : leafOf P V ev f = leafOf P V ev' f := by
  obtain ⟨fields, fields', rfl, rfl, hsame⟩ := h
  have hpem : suppliedPem (.obj fields) = suppliedPem (.obj fields') := by
    simp only [suppliedPem, Json.getD, hsame "leaf_pem" (by decide)]
    rfl
  rw [leafOf, leafOf, hpem]

/-- What certifies the one report certifies the other. -/
theorem Conjugate.certified_eq (h : Conjugate P V ev ev' b b') (requireChain : Bool)
    (arkSha256 : Option String) {f : Snp} (hf : parseSnp b = .ok f) :
    certified P V requireChain arkSha256 ev b f = certified P V requireChain arkSha256 ev' b' f := by
  rw [certified, certified, ← leafOf_congr h.rest]
  cases hleaf : leafOf P V ev f with
  | error x => rfl
  | ok leaf =>
      obtain ⟨cert, der⟩ := leaf
      have hsigned := h.carries.signed f cert der hf hleaf
      have hsigned' := h.carries'.signed f cert der (h.parsed ▸ hf) (leafOf_congr h.rest f ▸ hleaf)
      simp only [Exn.ok_bind, hsigned, hsigned']

/-- **The verifier does not tell the two apart**, whatever its options and whatever report
data are expected. -/
theorem Conjugate.sevsnp_eq (h : Conjugate P V ev ev' b b') (requireChain allowDebug : Bool)
    (measurement : Option Bytes) (arkSha256 : Option String) (expectedRd : Bytes) :
    sevsnp P V requireChain allowDebug measurement arkSha256 ev expectedRd =
      sevsnp P V requireChain allowDebug measurement arkSha256 ev' expectedRd := by
  have hread := h.carries.read
  have hread' := h.carries'.read
  have hcertified := fun f => h.certified_eq requireChain arkSha256 (f := f)
  rw [← h.parsed] at hread'
  obtain ⟨fields, fields', rfl, rfl, hsame⟩ := h.rest
  simp only [sevsnp, sevsnpVerifier, hread, hread', Json.getD, hsame "kind" (by decide)]
  cases hf : parseSnp b with
  | error x => rfl
  | ok f => simp only [Except.map, hcertified f hf]

end Conjugate

end Tee

/-! ## What a mandate reads in a message -/

open Mandate

/-- Messages in which a mandate reads the same. -/
structure Reads (cfg : Config) (msg msg' : Json) : Prop where
  counter : msg.item "counter" = msg'.item "counter"
  link : postLinkOf msg = postLinkOf msg'
  verified : ∀ rd, verifyEvidence cfg msg rd = verifyEvidence cfg msg' rd

variable {P : Primitives} {cfg : Config} {msg msg' : Json}

/-- Messages that differ in their evidence, where the verifier does not tell it apart. -/
theorem Reads.of_evidence (h : SameBut "evidence" msg msg') {ev ev' : Json}
    (hev : msg.item "evidence" = .ok ev) (hev' : msg'.item "evidence" = .ok ev')
    (hverify : ∀ rd, cfg.verifyReport ev rd = cfg.verifyReport ev' rd) : Reads cfg msg msg' where
  counter := h.item (by decide)
  link := by rw [postLinkOf, postLinkOf, h.item (by decide)]
  verified rd := by simp only [verifyEvidence, hev, hev', Exn.ok_bind, hverify]

/-- **A mandate decides the same about them**, and is left in the same state. -/
theorem Reads.serve_eq (h : Reads cfg msg msg') (m : Mandate) (env : Env) (k ctx exporter : Bytes)
    (head : Option Bytes) (bundle : Option Json) :
    m.serve P cfg env (.present k ctx exporter msg head bundle) =
      m.serve P cfg env (.present k ctx exporter msg' head bundle) := by
  have happraise : m.appraise P cfg env k ctx exporter msg head bundle =
      m.appraise P cfg env k ctx exporter msg' head bundle := by
    simp only [appraise, appraiseWith, appraiseInstance, appraiseChain, appraiseLink, refuse, h.counter,
      h.link, h.verified]
  simp only [serve, present, happraise]

/-! ## What is presented again -/

section Replayed

variable {m : Mandate} {env : Env} {k ctx exporter : Bytes} {head : Option Bytes}
  {bundle : Option Json} {v : Verdict}

/-- A head that is good for a mandate is good for one that knows more. -/
theorem checkHead_mono {m' : Mandate} (hmore : ∀ x, m.knowsHead x = true → m'.knowsHead x = true)
    (h : m.checkHead P cfg head bundle = .ok none) : m'.checkHead P cfg head bundle = .ok none := by
  cases head with
  | none => rfl
  | some head =>
      cases bundle with
      | none =>
          simp only [checkHead] at h ⊢
          by_cases hknown : m.knowsHead head = true
          · rw [if_pos (hmore head hknown)]
          · rw [if_neg hknown] at h
            cases h
      | some bundle =>
          simp only [checkHead] at h ⊢
          by_cases hbundle : (!Federation.verifyBundle P head bundle) = true
          · rw [if_pos hbundle] at h
            cases h
          rw [if_neg hbundle] at h ⊢
          rcases hentry : Federation.entryFor P bundle (publicKey P cfg) with x | _ | mine
          · rw [hentry] at h
            cases h
          · rw [hentry] at h
            cases h
          · simp only [hentry] at h ⊢
            cases hroot : (do (← mine.item "root").fromHex : Except Exn Bytes) with
            | error x =>
                simp only [hroot] at h
                cases h
            | ok root =>
                simp only [hroot] at h ⊢
                by_cases hknown : m.knowsHead root = true
                · rw [if_pos (hmore root hknown)]
                · rw [if_neg hknown] at h
                  cases h

/-- The state an accepted presentation leaves. -/
theorem Mandate.serve_of_accepted
    (h : (m.serve P cfg env (.present k ctx exporter msg head bundle)).1 = .decision v)
    (hok : v.ok = true) :
    ∃ place pl n, Admits P cfg m k ctx exporter msg head bundle v.inst place pl n ∧
      (m.serve P cfg env (.present k ctx exporter msg head bundle)).2 =
        (m.admitted k (sessionKey P k ctx) n pl v.inst place).recordDecision P cfg env "present" k
          true "accepted; continuity intact" v.inst := by
  obtain ⟨place, pl, n, hadm⟩ := serve_accepted h hok
  have happraise : m.appraise P cfg env k ctx exporter msg head bundle = _ :=
    appraise_eq_admitStep hadm
  refine ⟨place, pl, n, hadm, ?_⟩
  cases hput : env.putOk with
  | true =>
      rw [admitStep_eq hput] at happraise
      simp only [serve, present, happraise]
      rfl
  | false =>
      cases hinst : v.inst with
      | none =>
          rw [hinst] at happraise
          simp only [serve, present, happraise]
          rfl
      | some i =>
          rw [hinst, admitStep_of_not_putOk hput] at happraise
          simp only [serve, present, happraise] at h
          cases h

theorem roots_admitted (m : Mandate) (k : Bytes) (key : Bytes × Bytes) (n : ℕ) (pl : Bytes)
    (inst place : Option Bytes) : (m.admitted k key n pl inst place).roots = m.roots := by
  cases inst <;> rfl

/-- What an accepted presentation leaves of the record. -/
theorem record_admitted (m : Mandate) (k : Bytes) (key : Bytes × Bytes) (n : ℕ) (pl : Bytes)
    (inst place : Option Bytes) :
    ∃ observed place', (inst = none → observed = (m.record k).observedInstance) ∧
      (∀ i, inst = some i → observed = some i) ∧
      (m.admitted k key n pl inst place).record k =
        { m.record k with observedInstance := observed, observedPlace := place' } := by
  cases inst with
  | none => exact ⟨_, _, fun _ => rfl, fun _ h => (nomatch h), record_admitted_none m k k key n pl place⟩
  | some i =>
      refine ⟨some i, nonEmpty place, fun h => (nomatch h), fun j hj => ?_, ?_⟩
      · rw [Option.some.inj hj]
      · exact record_admitted_self m k key n pl i place

/-- **What was accepted does not have the next counter.**  Presented again in its session, by
whatever call, it is not accepted. -/
theorem Mandate.not_accepted_again
    (h : (m.serve P cfg env (.present k ctx exporter msg head bundle)).1 = .decision v)
    (hok : v.ok = true) (env' : Env) (exporter' : Bytes) (head' : Option Bytes)
    (bundle' : Option Json) :
    (((m.serve P cfg env (.present k ctx exporter msg head bundle)).2.serve P cfg env'
      (.present k ctx exporter' msg head' bundle')).1).accepted = false := by
  obtain ⟨place, pl, n, hadm⟩ := serve_accepted h hok
  have hsessions : (m.serve P cfg env (.present k ctx exporter msg head bundle)).2.sessions = _ :=
    sessions_serve_of_admits hadm
  generalize (m.serve P cfg env (.present k ctx exporter msg head bundle)).2 = m' at hsessions
  by_contra hagain
  rw [Bool.not_eq_false] at hagain
  cases hreply : (m'.serve P cfg env' (.present k ctx exporter' msg head' bundle')).1 with
  | nonce =>
      rw [hreply] at hagain
      cases hagain
  | raised x =>
      rw [hreply] at hagain
      cases hagain
  | decision v' =>
      rw [hreply] at hagain
      obtain ⟨place', pl', n', hadm'⟩ := serve_accepted hreply hagain
      obtain ⟨base, hexp, -⟩ := hadm'.chain
      obtain ⟨c, hc, hcn⟩ := hadm.counter
      obtain ⟨c', hc', hcn'⟩ := hadm'.counter
      obtain rfl := Except.ok.inj (hc.symm.trans hc')
      simp only [Expects, hsessions, Function.update_self] at hexp
      have hsame : (n : ℤ) = n' := by
        rw [Json.eqInt, decide_eq_true_eq] at hcn hcn'
        exact Option.some.inj (hcn.symm.trans hcn')
      omega

/-- **It is refused as a replay**, where the same call is made again. -/
theorem Mandate.refused_again
    (h : (m.serve P cfg env (.present k ctx exporter msg head bundle)).1 = .decision v)
    (hok : v.ok = true) {env' : Env} (hput : env'.putOk = true) :
    ((m.serve P cfg env (.present k ctx exporter msg head bundle)).2.serve P cfg env'
      (.present k ctx exporter msg head bundle)).1 =
        .decision ⟨false, "counter did not advance by one (replay or reorder)", v.inst⟩ := by
  obtain ⟨place, pl, n, hadm, hstate⟩ := serve_of_accepted h hok
  obtain ⟨observed, place', hnone, hsome, hrecord⟩ :=
    record_admitted m k (sessionKey P k ctx) n pl v.inst place
  obtain ⟨c, hc, hcn⟩ := hadm.counter
  rw [hstate]
  generalize hm' : (m.admitted k (sessionKey P k ctx) n pl v.inst place).recordDecision P cfg env
    "present" k true "accepted; continuity intact" v.inst = m'
  have hrecord' : m'.record k =
      { m.record k with observedInstance := observed, observedPlace := place' } := by
    rw [← hm', record_recordDecision, hrecord]
  have hsession : m'.sessions (sessionKey P k ctx) = some ⟨pl, n⟩ := by
    rw [← hm', sessions_recordDecision, sessions_admitted, Function.update_self]
  have hmore : ∀ x, m.knowsHead x = true → m'.knowsHead x = true := by
    intro x hx
    rw [knowsHead, ← hm', roots_recordDecision, roots_admitted]
    by_cases hhead : x = (recordDecision P cfg env
        (m.admitted k (sessionKey P k ctx) n pl v.inst place) "present" k true
          "accepted; continuity intact" v.inst).merkle.head P
    · rw [hhead, Function.update_self]
      rfl
    · rw [Function.update_of_ne hhead]
      exact hx
  have hverified : Verified P cfg m' k msg head bundle v.inst place pl := by
    refine ⟨?_, hadm.link, checkHead_mono hmore hadm.known, hadm.verified, hadm.anchored,
      fun _ => ⟨c, hc⟩⟩
    rw [hrecord']
    exact hadm.notRevoked
  have hclear : Clears cfg (m'.record k) v.inst place := by
    rw [hrecord']
    refine ⟨hadm.enrolled, hadm.home, hadm.placed, ?_⟩
    intro o i ho hi
    obtain rfl := hsome i hi
    exact (Option.some.inj ((nonEmpty_eq_some.mp ho).1))
  have hnext : c.eqInt (n + 1 : ℕ) = false := by
    rw [Json.eqInt, decide_eq_true_eq] at hcn
    rw [Json.eqInt, decide_eq_false_iff_not, hcn]
    intro heq
    have := Option.some.inj heq
    omega
  have hobjects : Objects P cfg env' m' k ctx exporter msg head bundle _ _ v.inst :=
    .counter hverified hclear hsession hc hnext
  simp only [serve, present, appraise_of_objects hobjects, save_of_putOk hput,
    refuse_of_counted hc]
  rfl

end Replayed

/-! ## The two signatures -/

open Tee

/-- **Which of the signatures a report carries is invisible.**  Let two pieces of evidence
differ in the report only, the two reports agree on what is signed, and both signatures verify.
The verifier answers the same about both, whatever its options, the report data it expects and
the certificates.  So a mandate with this verifier, in any state and in any environment, gives
one answer to two messages that differ in this evidence and is left in one state; and where it
accepted either, it accepts neither again in that session, by whatever call, and refuses as a
replay the call that was made. -/
theorem malleability_invisible {Cert X509 : Type} {P : Primitives} {V : Vendor Cert X509}
    {ev ev' : Json} {b b' : Bytes} (h : Conjugate P V ev ev' b b') (requireChain allowDebug : Bool)
    (measurement : Option Bytes) (arkSha256 : Option String) :
    (∀ expectedRd,
      sevsnp P V requireChain allowDebug measurement arkSha256 ev expectedRd =
        sevsnp P V requireChain allowDebug measurement arkSha256 ev' expectedRd) ∧
    ∀ (cfg : Config) (msg msg' : Json),
      cfg.verifyReport = anchored (sevsnp P V requireChain allowDebug measurement arkSha256) →
      SameBut "evidence" msg msg' → msg.item "evidence" = .ok ev →
      msg'.item "evidence" = .ok ev' →
      ∀ (m : Mandate) (env : Env) (k ctx exporter : Bytes) (head : Option Bytes)
        (bundle : Option Json),
        m.serve P cfg env (.present k ctx exporter msg head bundle) =
            m.serve P cfg env (.present k ctx exporter msg' head bundle) ∧
          ∀ first ∈ [msg, msg'], ∀ second ∈ [msg, msg'], ∀ (v : Verdict) (m₁ : Mandate),
            m.serve P cfg env (.present k ctx exporter first head bundle) = (.decision v, m₁) →
            v.ok = true →
            (∀ env' exporter' head' bundle',
              (m₁.serve P cfg env' (.present k ctx exporter' second head' bundle')).1.accepted =
                false) ∧
            ∀ env', env'.putOk = true →
              (m₁.serve P cfg env' (.present k ctx exporter second head bundle)).1 =
                .decision ⟨false, "counter did not advance by one (replay or reorder)", v.inst⟩ := by
  have hverify := h.sevsnp_eq requireChain allowDebug measurement arkSha256
  refine ⟨hverify, ?_⟩
  intro cfg msg msg' hcfg hmsg hev hev' m env k ctx exporter head bundle
  have hreads : Reads cfg msg msg' := by
    apply Reads.of_evidence hmsg hev hev'
    intro rd
    rw [hcfg, anchored, anchored, hverify rd]
  have hone : ∀ x ∈ [msg, msg'], Reads cfg msg x := by
    intro x hx
    rcases List.mem_pair.mp hx with rfl | rfl
    · exact ⟨rfl, rfl, fun _ => rfl⟩
    · exact hreads
  refine ⟨hreads.serve_eq m env k ctx exporter head bundle, ?_⟩
  intro first hfirst second hsecond v m₁ hserve hok
  rw [← (hone first hfirst).serve_eq] at hserve
  have hdecision : (m.serve P cfg env (.present k ctx exporter msg head bundle)).1 = .decision v := by
    rw [hserve]
  have hstate : m₁ = (m.serve P cfg env (.present k ctx exporter msg head bundle)).2 := by
    rw [hserve]
  constructor
  · intro env' exporter' head' bundle'
    rw [← (hone second hsecond).serve_eq, hstate]
    exact not_accepted_again hdecision hok env' exporter' head' bundle'
  · intro env' hput
    rw [← (hone second hsecond).serve_eq, hstate]
    exact refused_again hdecision hok hput

namespace Tee

/-- The first fields of a report that a provider's key signs. -/
def reportHead : Bytes := [2, 0, 0, 0] ++ List.replicate 68 0 ++ [4, 0, 0, 0, 0, 0, 0, 0]

/-- What is signed of a report with report data and a report identifier, and otherwise zeros. -/
def bodyOf (rd id : Bytes) : Bytes :=
  reportHead ++ (rd ++ (List.replicate 176 0 ++ (id ++ (List.replicate 64 0 ++
    (List.replicate 64 0 ++ List.replicate 192 0)))))

/-- The report with a signature whose first number is `1`. -/
def reportOf (rd id : Bytes) (s : ℕ) : Bytes :=
  bodyOf rd id ++ (Bytes.toLittle 48 1 ++ (List.replicate 24 0 ++
    (Bytes.toLittle 48 s ++ List.replicate 392 0)))

/-- The order of the group of P-384. -/
def order : ℕ :=
  0xffffffffffffffffffffffffffffffffffffffffffffffffc7634d81f4372ddf581a0db248b0a77aecec196accc52973

/-- A vendor without a network, and one certificate, under which the signature of `7` verifies
and with it the one of the opposite number. -/
def offline : Vendor ℕ Bytes where
  get _ _ := .error .osError
  derOfPem pem := .ok pem
  loadDer _ := .ok 7
  verify n r s _ := if r = 1 ∧ (s = n ∨ s + n = order) then .ok () else .error .invalidSignature
  loadPem block := .ok block
  loadAsn1 der := .ok der
  dumpAsn1 cert := cert
  verifyCertificate _ _ _ := .error "unable to get local issuer certificate"

def evidenceOf (rd id : Bytes) (s : ℕ) : Json :=
  .obj [
    ("kind", .str "sev-snp"),
    ("report", .str (Base64.encode (reportOf rd id s))),
    ("leaf_pem", .str "leaf")]

/-- Some fields of a report. -/
theorem exists_parseSnp {b : Bytes} (hlen : b.length = 1184) : ∃ f, parseSnp b = .ok f ∧
    f.reportData = b.slice 0x50 (0x50 + 64) ∧ f.reportId = b.slice 0x140 (0x140 + 32) ∧
      f.policy = unpackFrom b 0x08 8 ∧
        f.signingKey = signingKey ((unpackFrom b 0x48 4 >>> 2) &&& 7) ∧
          f.chipIdZero = decide (b.slice 0x1A0 (0x1A0 + 64) = List.replicate 64 0) :=
  ⟨_, if_neg (not_not.mpr hlen), rfl, rfl, rfl, rfl, rfl⟩

/-- A number in a signature. -/
theorem unpackFrom_middle {a : Bytes} {i n : ℕ} (ha : a.length = i) (hn : n < 256 ^ 48)
    (c : Bytes) : unpackFrom (a ++ (Bytes.toLittle 48 n ++ c)) i 48 = n := by
  rw [unpackFrom, Bytes.slice_middle ha (Bytes.length_toLittle 48 n), Bytes.fromBytes_toLittle hn]

/-- A number in the first fields. -/
theorem unpackFrom_head {offset width : ℕ} (h : offset + width ≤ 0x50) (rest : Bytes) :
    unpackFrom (reportHead ++ rest) offset width = unpackFrom reportHead offset width := by
  rw [unpackFrom, Bytes.slice_append_left h, unpackFrom]

section Report

variable {rd id : Bytes} (hrd : rd.length = 64) (hid : id.length = 32)
include hrd hid

theorem length_bodyOf : (bodyOf rd id).length = 0x2A0 := by
  have hhead : reportHead.length = 0x50 := rfl
  simp only [bodyOf, List.length_append, List.length_replicate, hhead, hrd, hid]

theorem length_reportOf (s : ℕ) : (reportOf rd id s).length = 1184 := by
  simp only [reportOf, List.length_append, length_bodyOf hrd hid, List.length_replicate,
    Bytes.length_toLittle]

theorem signedBody_reportOf (s : ℕ) : signedBody (reportOf rd id s) = bodyOf rd id := by
  rw [signedBody, reportOf, List.take_left' (length_bodyOf hrd hid)]

theorem verifySignature_reportOf {s : ℕ} (hs : s = 7 ∨ s + 7 = order) :
    verifySignature offline 7 (reportOf rd id s) = .ok () := by
  have hbody := length_bodyOf hrd hid
  have hshort : s < 256 ^ 48 := by
    have horder : order < 256 ^ 48 := by decide
    have hseven : 7 < 256 ^ 48 := by decide
    omega
  have hr : unpackFrom (reportOf rd id s) 0x2A0 48 = 1 :=
    unpackFrom_middle hbody (Nat.one_lt_pow (by decide) (by decide)) _
  have hsplit : reportOf rd id s = (bodyOf rd id ++ (Bytes.toLittle 48 1 ++ List.replicate 24 0)) ++
      (Bytes.toLittle 48 s ++ List.replicate 392 0) := by
    simp only [reportOf, List.append_assoc]
  have hs' : unpackFrom (reportOf rd id s) (0x2A0 + 72) 48 = s := by
    rw [hsplit]
    apply unpackFrom_middle _ hshort
    simp only [List.length_append, hbody, Bytes.length_toLittle, List.length_replicate]
  rw [verifySignature, hr, hs']
  exact if_pos ⟨rfl, hs⟩

/-- The fields that are not zero. -/
theorem slices_reportOf (s : ℕ) :
    (reportOf rd id s).slice 0x50 (0x50 + 64) = rd ∧
      (reportOf rd id s).slice 0x140 (0x140 + 32) = id ∧
      (reportOf rd id s).slice 0x1A0 (0x1A0 + 64) = List.replicate 64 0 := by
  have hhead : reportHead.length = 0x50 := rfl
  refine ⟨?_, ?_, ?_⟩
  · rw [reportOf, bodyOf, List.append_assoc, List.append_assoc]
    exact Bytes.slice_middle hhead hrd _
  · have hsplit : bodyOf rd id = (reportHead ++ (rd ++ List.replicate 176 0)) ++
        (id ++ (List.replicate 64 0 ++ (List.replicate 64 0 ++ List.replicate 192 0))) := by
      simp only [bodyOf, List.append_assoc]
    rw [reportOf, hsplit, List.append_assoc, List.append_assoc id]
    apply Bytes.slice_middle _ hid
    simp only [List.length_append, List.length_replicate, hhead, hrd]
  · have hsplit : bodyOf rd id = (reportHead ++ (rd ++ (List.replicate 176 0 ++ (id ++
        List.replicate 64 0)))) ++ (List.replicate 64 0 ++ List.replicate 192 0) := by
      simp only [bodyOf, List.append_assoc]
    rw [reportOf, hsplit, List.append_assoc, List.append_assoc (List.replicate 64 0)]
    apply Bytes.slice_middle _ List.length_replicate
    simp only [List.length_append, List.length_replicate, hhead, hrd, hid]

theorem parseSnp_reportOf (s : ℕ) : ∃ f, parseSnp (reportOf rd id s) = .ok f ∧ f.reportData = rd ∧
    f.reportId = id ∧ f.policy = 0 ∧ f.signingKey = .inl "VLEK" ∧ f.chipIdZero = true := by
  obtain ⟨hdata, hident, hchip⟩ := slices_reportOf hrd hid s
  have hpolicy : unpackFrom (reportOf rd id s) 0x08 8 = 0 := by
    rw [reportOf, bodyOf, List.append_assoc, unpackFrom_head (by decide)]
    decide
  have hflags : unpackFrom (reportOf rd id s) 0x48 4 = 4 := by
    rw [reportOf, bodyOf, List.append_assoc, unpackFrom_head (by decide)]
    decide
  obtain ⟨f, hf, hfdata, hfident, hfpolicy, hfkey, hfchip⟩ :=
    exists_parseSnp (length_reportOf hrd hid s)
  refine ⟨f, hf, hfdata.trans hdata, hfident.trans hident, hfpolicy.trans hpolicy, ?_, ?_⟩
  · rw [hfkey, hflags]
    rfl
  · rw [hfchip, hchip, decide_eq_true rfl]

omit hrd hid in
theorem leafOf_evidenceOf (P : Primitives) (s : ℕ) {f : Snp} (hkey : f.signingKey = .inl "VLEK") :
    leafOf P offline (evidenceOf rd id s) f = .ok (7, encodeText "leaf") := by
  simp [leafOf, evidenceOf, suppliedPem, Json.getD, Json.lookup, Json.truthy, leafCert, hkey, offline]

theorem carries_evidenceOf (P : Primitives) {s : ℕ} (hs : s = 7 ∨ s + 7 = order) :
    Carries P offline (evidenceOf rd id s) (reportOf rd id s) := by
  obtain ⟨f, hf, -, -, -, hkey, -⟩ := parseSnp_reportOf hrd hid s
  refine ⟨⟨_, rfl, by simp [b64decode]⟩, length_reportOf hrd hid s, ?_⟩
  intro f' cert der hf' hleaf
  obtain rfl := Except.ok.inj (hf.symm.trans hf')
  rw [leafOf_evidenceOf P s hkey] at hleaf
  obtain ⟨rfl, -⟩ := Prod.mk.inj (Except.ok.inj hleaf)
  exact verifySignature_reportOf hrd hid hs

theorem conjugate_evidenceOf (P : Primitives) {s s' : ℕ} (hs : s = 7 ∨ s + 7 = order)
    (hs' : s' = 7 ∨ s' + 7 = order) :
    Conjugate P offline (evidenceOf rd id s) (evidenceOf rd id s') (reportOf rd id s)
      (reportOf rd id s') := by
  refine ⟨⟨_, _, rfl, rfl, ?_⟩, ?_, carries_evidenceOf hrd hid P hs, carries_evidenceOf hrd hid P hs'⟩
  · intro name hne
    simp [Json.lookup, List.find?_cons, Ne.symm hne]
  · rw [signedBody_reportOf hrd hid, signedBody_reportOf hrd hid]

/-- Its evidence is valid. -/
theorem sevsnp_evidenceOf (P : Primitives) (hpresent : id.any (· ≠ 0) = true) {s : ℕ}
    (hs : s = 7 ∨ s + 7 = order) :
    sevsnp P offline false false none none (evidenceOf rd id s) rd = .ok (true, some ⟨id, none⟩) := by
  obtain ⟨f, hf, hdata, hident, hpolicy, hkey, hchip⟩ := parseSnp_reportOf hrd hid s
  have hcertified : certified P offline false none (evidenceOf rd id s) (reportOf rd id s) f = true := by
    rw [certified, leafOf_evidenceOf P s hkey]
    simp only [Exn.ok_bind, verifySignature_reportOf hrd hid hs]
    rfl
  have hanchor : snpAnchor f = some ⟨id, none⟩ := by
    rw [snpAnchor, hident, present_eq_some.mpr ⟨rfl, hpresent⟩]
    simp [hchip]
  have hread := (carries_evidenceOf hrd hid P hs).read
  rw [hf] at hread
  have hkind : (Json.getD [
      ("kind", .str "sev-snp"),
      ("report", .str (Base64.encode (reportOf rd id s))),
      ("leaf_pem", .str "leaf")] "kind" .null).eqStr "sev-snp" = true := rfl
  rw [evidenceOf] at hread hcertified ⊢
  simp only [sevsnp, sevsnpVerifier, hread, Except.map, hkind, hcertified, hdata, hpolicy, hanchor]
  simp

end Report

end Tee

section Flipped

open Binder

variable (P : Primitives) (id k ctx exporter : Bytes)

/-- The first message of an attester with such a report. -/
def flippedHello (s : ℕ) : Json :=
  .obj [
    ("counter", .int 0),
    ("intra_ok_base", .bool true),
    ("post_link", .str (Bytes.hex (nextLink P exporter (firstLink P ctx k) 0))),
    ("evidence",
      evidenceOf (reportDataFor P (nextLink P exporter (firstLink P ctx k) 0) none) id s)]

/-- A mandate that takes the leaf from the evidence and asks for no chain. -/
def snpMandate : Config :=
  { mockMandate P [] [0x5e] with verifyReport := anchored (sevsnp P offline false false none none) }

variable {id k ctx}

theorem serve_flippedHello (hid : id.length = 32) (hpresent : id.any (· ≠ 0) = true)
    (hctx : ctx.length < 256) (ledger : Bytes → Option Record) (hnew : ledger k = none) {s : ℕ}
    (hs : s = 7 ∨ s + 7 = order) (t : Moment) :
    ∃ m₁, (Mandate.new P ledger).serve P (snpMandate P) t.env
      (.present k ctx exporter (flippedHello P id k ctx exporter s) none none) =
        (.decision (acceptedVerdict (some id)), m₁) := by
  have hver : verifyEvidence (snpMandate P) (flippedHello P id k ctx exporter s)
      (reportDataFor P (nextLink P exporter (firstLink P ctx k) 0) none) =
        .ok (true, some ⟨id, none, hpresent⟩) := by
    have hrd : (reportDataFor P (nextLink P exporter (firstLink P ctx k) 0) none).length = 64 := by
      rw [reportDataFor, P.length_sha512]
    have hev := sevsnp_evidenceOf hrd hid P hpresent hs
    have hanchor : Claims.anchor ⟨id, none⟩ = some ⟨id, none, hpresent⟩ := dif_pos hpresent
    simp only [verifyEvidence, flippedHello, Json.item, Json.lookup, snpMandate, anchored]
    simp [hev, Except.map, hanchor]
  have hadm : Admits P (snpMandate P) (.new P ledger) k ctx exporter
      (flippedHello P id k ctx exporter s) none none (some id) none
        (nextLink P exporter (firstLink P ctx k) 0) 0 := by
    have hblank : (Mandate.new P ledger).record k = .blank := by
      have hrecord : (Mandate.new P ledger).record k = (ledger k).getD .blank := rfl
      rw [hrecord, hnew]
      rfl
    have hlink : postLinkOf (flippedHello P id k ctx exporter s) =
        .ok (nextLink P exporter (firstLink P ctx k) 0) := by
      simp [postLinkOf, flippedHello, Json.item, Json.lookup, Json.fromHex]
    refine admits_of_anchor rfl hlink hver (length_firstLink P ctx k) (by omega) ?_ ?_ rfl
      ⟨rfl, intraLink_eq P hctx k⟩
    · rw [hblank]
      exact welcome_blank rfl id
    · intro hplace
      cases hplace
  rw [serve_env, step_of_admits _ t hadm]
  exact ⟨_, rfl⟩

theorem order_pos : order - 7 + 7 = order := by decide

/-- A mandate accepts a report under one signature and refuses it, as a replay, under the
other. -/
theorem malleability_invisible_flipped :
    ∃ m₁, (Mandate.new .plain fun _ => none).serve .plain (snpMandate .plain) (instant 0).env
        (.present tik [1] [2] (flippedHello .plain (List.replicate 32 1) tik [1] [2] 7) none none) =
          (.decision (acceptedVerdict (some (List.replicate 32 1))), m₁) ∧
      (m₁.serve .plain (snpMandate .plain) (instant 1).env
        (.present tik [1] [2] (flippedHello .plain (List.replicate 32 1) tik [1] [2] (order - 7)) none
          none)).1 = .decision ⟨false, "counter did not advance by one (replay or reorder)",
            some (List.replicate 32 1)⟩ := by
  have hid : (List.replicate 32 1 : Bytes).length = 32 := List.length_replicate
  have hrd : (reportDataFor .plain (nextLink .plain [2] (firstLink .plain [1] tik) 0) none).length =
      64 := by
    rw [reportDataFor, Primitives.plain.length_sha512]
  have hctx : ([1] : Bytes).length < 256 := by decide
  obtain ⟨m₁, hserve⟩ := serve_flippedHello .plain [2] hid (by decide) hctx (fun _ => none)
    (show (fun _ => none : Bytes → Option Record) tik = none from rfl) (.inl rfl) (instant 0)
  refine ⟨m₁, hserve, ?_⟩
  have hmsg : SameBut "evidence" (flippedHello .plain (List.replicate 32 1) tik [1] [2] 7)
      (flippedHello .plain (List.replicate 32 1) tik [1] [2] (order - 7)) := by
    refine ⟨_, _, rfl, rfl, ?_⟩
    intro name hne
    simp [Json.lookup, List.find?_cons, Ne.symm hne]
  have h := malleability_invisible
    (conjugate_evidenceOf hrd hid .plain (.inl rfl) (.inr order_pos)) false false none none
  obtain ⟨-, hagain⟩ := h.2 (snpMandate .plain) _ _ rfl hmsg rfl rfl (.new .plain fun _ => none)
    (instant 0).env tik [1] [2] none none
  exact (hagain _ (by simp) _ (by simp) _ m₁ hserve rfl).2 (instant 1).env rfl

end Flipped

end Hatls
