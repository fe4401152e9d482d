import Hatls.MandateSpec

/-!
# What a presentation does

An appraisal passes gates in a fixed order and ends in one of three ways: the step is
admitted, or the ledger objects and notes its objection in the record, or the message
is turned away and nothing is written.  Each outcome comes with its conditions, and the
conditions determine the outcome, whether or not the store takes the write.

## Main definitions

* `Verified`, `Clears` — the gates about the evidence, and those about the record.
* `Admits` — the conditions on an accepted presentation; `Mandate.admitted` — the
  state it leaves.
* `Objects` — the five refusals that leave a note, with the record they leave.
* `Appraised`, `Mandate.appraised` — the three outcomes, and that there are no others.
* `Mandate.appraise_cases` — the same over a working store.
-/

namespace Hatls

open Mandate

/-- What a refused presentation may write into the record it is about: a dispute, and
before it the instance that was seen. -/
inductive Noted (cfg : Config) (env : Env) (r : Record) : Record → Prop
  | dispute (why : String) : Noted cfg env r (r.dispute env why)
  | witness (i : Bytes) (place : Option Bytes) (why : String) :
    Noted cfg env r ((r.witness cfg env i place).dispute env why)

namespace Noted

variable {cfg : Config} {env : Env} {r r' : Record}

/-- A note leaves the authority over the identity alone. -/
theorem fields_eq (h : Noted cfg env r r') :
    r'.enrolledInstance = r.enrolledInstance ∧ r'.enrolledPlace = r.enrolledPlace ∧
      r'.observedInstance = r.observedInstance ∧ r'.observedPlace = r.observedPlace ∧
      r'.revoked = r.revoked ∧ r'.reason = r.reason ∧
      r'.transferAuthority = r.transferAuthority ∧ r'.transfers = r.transfers ∧
      r'.consumedGrants = r.consumedGrants := by
  cases h <;> exact ⟨rfl, rfl, rfl, rfl, rfl, rfl, rfl, rfl, rfl⟩

theorem enrolledInstance (h : Noted cfg env r r') : r'.enrolledInstance = r.enrolledInstance :=
  h.fields_eq.1

theorem enrolledPlace (h : Noted cfg env r r') : r'.enrolledPlace = r.enrolledPlace := h.fields_eq.2.1

theorem observedInstance (h : Noted cfg env r r') : r'.observedInstance = r.observedInstance :=
  h.fields_eq.2.2.1

theorem revoked (h : Noted cfg env r r') : r'.revoked = r.revoked := h.fields_eq.2.2.2.2.1

theorem transferAuthority (h : Noted cfg env r r') : r'.transferAuthority = r.transferAuthority :=
  h.fields_eq.2.2.2.2.2.2.1

theorem transfers (h : Noted cfg env r r') : r'.transfers = r.transfers :=
  h.fields_eq.2.2.2.2.2.2.2.1

theorem consumedGrants (h : Noted cfg env r r') : r'.consumedGrants = r.consumedGrants :=
  h.fields_eq.2.2.2.2.2.2.2.2

end Noted

/-- Where the chain of a connection stands: the link before the next one, and the
counter of the next one. -/
def Mandate.Expects (P : Primitives) (m : Mandate) (tikPub sessionContext base : Bytes) (n : ℕ) :
    Prop :=
  match m.sessions (Mandate.sessionKey P tikPub sessionContext) with
  | none => n = 0 ∧ Binder.intraLink P sessionContext tikPub = .ok base
  | some session => n = session.counter + 1 ∧ base = session.prev

/-- The conditions on an accepted presentation, with the instance and the place the
evidence names, the link of the message, and the position in the chain. -/
structure Admits (P : Primitives) (cfg : Config) (m : Mandate)
    (tikPub sessionContext exporter : Bytes) (msg : Json) (head : Option Bytes)
    (bundle : Option Json) (inst place : Option Bytes) (pl : Bytes) (n : ℕ) : Prop where
  notRevoked : (m.record tikPub).revoked = false
  link : Mandate.postLinkOf msg = .ok pl
  known : m.checkHead P cfg head bundle = .ok none
  verified : ∃ anchor, Mandate.verifyEvidence cfg msg (Binder.reportDataFor P pl head) =
    .ok (true, anchor) ∧ inst = anchor.map Anchor.inst ∧ place = anchor.bind Anchor.place
  anchored : cfg.requireAnchor = true → inst.isSome
  enrolled : cfg.requireEnrolment = true → (nonEmpty (m.record tikPub).enrolledInstance).isSome
  home : ∀ e i, nonEmpty (m.record tikPub).enrolledInstance = some e → inst = some i → i = e
  placed : cfg.requirePlace = true → place.isSome ∧
    ((nonEmpty (m.record tikPub).enrolledPlace).isSome →
      place = nonEmpty (m.record tikPub).enrolledPlace)
  sole : ∀ o i, nonEmpty (m.record tikPub).observedInstance = some o → inst = some i → i = o
  counter : ∃ c, msg.item "counter" = .ok c ∧ c.eqInt n = true
  chain : ∃ base, m.Expects P tikPub sessionContext base n ∧
    Binder.postLink P exporter base n = .ok pl

/-- The gates about the message and its evidence: what the evidence names, and the link
it is for. -/
structure Verified (P : Primitives) (cfg : Config) (m : Mandate) (tikPub : Bytes) (msg : Json)
    (head : Option Bytes) (bundle : Option Json) (inst place : Option Bytes) (pl : Bytes) :
    Prop where
  notRevoked : (m.record tikPub).revoked = false
  link : Mandate.postLinkOf msg = .ok pl
  known : m.checkHead P cfg head bundle = .ok none
  verified : ∃ anchor, Mandate.verifyEvidence cfg msg (Binder.reportDataFor P pl head) =
    .ok (true, anchor) ∧ inst = anchor.map Anchor.inst ∧ place = anchor.bind Anchor.place
  anchored : cfg.requireAnchor = true → inst.isSome
  counted : inst = none → ∃ c, msg.item "counter" = .ok c

/-- An instance comes with an anchor of valid evidence. -/
theorem Verified.exists_anchor {P : Primitives} {cfg : Config} {m : Mandate} {k i pl : Bytes}
    {msg : Json} {head : Option Bytes} {bundle : Option Json} {place : Option Bytes}
    (h : Verified P cfg m k msg head bundle (some i) place pl) :
    ∃ evidence anchor, msg.item "evidence" = .ok evidence ∧
      cfg.verifyReport evidence (Binder.reportDataFor P pl head) = .ok (true, some anchor) ∧
      anchor.inst = i ∧ anchor.place = place := by
  obtain ⟨anchor, hverified, hinst, rfl⟩ := h.verified
  cases anchor with
  | none => cases hinst
  | some anchor =>
      obtain ⟨evidence, hevidence, hverified⟩ := Exn.bind_eq_ok hverified
      exact ⟨evidence, anchor, hevidence, hverified, (Option.some.inj hinst).symm, rfl⟩

/-- The gates about the record: it has nothing against the instance and the place. -/
structure Clears (cfg : Config) (r : Record) (inst place : Option Bytes) : Prop where
  enrolled : cfg.requireEnrolment = true → (nonEmpty r.enrolledInstance).isSome
  home : ∀ e i, nonEmpty r.enrolledInstance = some e → inst = some i → i = e
  placed : cfg.requirePlace = true → place.isSome ∧
    ((nonEmpty r.enrolledPlace).isSome → place = nonEmpty r.enrolledPlace)
  sole : ∀ o i, nonEmpty r.observedInstance = some o → inst = some i → i = o

namespace Admits

variable {P : Primitives} {cfg : Config} {m : Mandate} {k ctx exporter pl : Bytes} {msg : Json}
  {head : Option Bytes} {bundle : Option Json} {inst place : Option Bytes} {n : ℕ}

theorem toVerified (h : Admits P cfg m k ctx exporter msg head bundle inst place pl n) :
    Verified P cfg m k msg head bundle inst place pl where
  notRevoked := h.notRevoked
  link := h.link
  known := h.known
  verified := h.verified
  anchored := h.anchored
  counted _ := h.counter.imp fun _ hc => hc.1

theorem clears (h : Admits P cfg m k ctx exporter msg head bundle inst place pl n) :
    Clears cfg (m.record k) inst place where
  enrolled := h.enrolled
  home := h.home
  placed := h.placed
  sole := h.sole

theorem of_gates (hver : Verified P cfg m k msg head bundle inst place pl)
    (hclear : Clears cfg (m.record k) inst place)
    (hcounter : ∃ c, msg.item "counter" = .ok c ∧ c.eqInt n = true)
    (hchain : ∃ base, m.Expects P k ctx base n ∧ Binder.postLink P exporter base n = .ok pl) :
    Admits P cfg m k ctx exporter msg head bundle inst place pl n where
  notRevoked := hver.notRevoked
  link := hver.link
  known := hver.known
  verified := hver.verified
  anchored := hver.anchored
  enrolled := hclear.enrolled
  home := hclear.home
  placed := hclear.placed
  sole := hclear.sole
  counter := hcounter
  chain := hchain

end Admits

/-- What the presenter of a link of another chain is told. -/
def foreignLinkText : String := "link does not chain (relay, replay or a foreign session)"

/-- **The refusals that leave a note**, with the record they leave, what the presenter is
told, and the instance in the log. -/
inductive Objects (P : Primitives) (cfg : Config) (env : Env) (m : Mandate)
    (k ctx exporter : Bytes) (msg : Json) (head : Option Bytes) (bundle : Option Json) :
    Record → String → Option Bytes → Prop
  | impostor {i : Bytes} {place : Option Bytes} {pl e : Bytes}
      (h : Verified P cfg m k msg head bundle (some i) place pl)
      (hen : nonEmpty (m.record k).enrolledInstance = some e) (hne : i ≠ e) :
      Objects P cfg env m k ctx exporter msg head bundle
        (((m.record k).witness cfg env i place).dispute env "evidence from a non-enrolled instance")
        "rejected: key presented from an instance it was not enrolled on" (some i)
  | silicon {inst place : Option Bytes} {pl p : Bytes}
      (h : Verified P cfg m k msg head bundle inst place pl)
      (henrolled : cfg.requireEnrolment = true → (nonEmpty (m.record k).enrolledInstance).isSome)
      (hhome : ∀ e i, nonEmpty (m.record k).enrolledInstance = some e → inst = some i → i = e)
      (hreq : cfg.requirePlace = true) (hplace : place.isSome)
      (hen : nonEmpty (m.record k).enrolledPlace = some p) (hne : place ≠ some p) :
      Objects P cfg env m k ctx exporter msg head bundle
        ((m.record k).dispute env "instance moved to different silicon")
        "the enrolled instance is reporting from different silicon" inst
  | contention {i : Bytes} {place : Option Bytes} {pl o : Bytes}
      (h : Verified P cfg m k msg head bundle (some i) place pl)
      (henrolled : cfg.requireEnrolment = true → (nonEmpty (m.record k).enrolledInstance).isSome)
      (hhome : ∀ e, nonEmpty (m.record k).enrolledInstance = some e → i = e)
      (hplaced : cfg.requirePlace = true → place.isSome ∧
        ((nonEmpty (m.record k).enrolledPlace).isSome → place = nonEmpty (m.record k).enrolledPlace))
      (hob : nonEmpty (m.record k).observedInstance = some o) (hne : i ≠ o) :
      Objects P cfg env m k ctx exporter msg head bundle
        (((m.record k).witness cfg env i place).dispute env "second instance under one identity")
        ("continuity contention: a second instance claims this identity " ++
          "(no enrolment on record, so the mandate refuses to pick a winner)") (some i)
  | counter {inst place : Option Bytes} {pl : Bytes} {session : Session} {c : Json}
      (h : Verified P cfg m k msg head bundle inst place pl)
      (hclear : Clears cfg (m.record k) inst place)
      (hs : m.sessions (Mandate.sessionKey P k ctx) = some session)
      (hc : msg.item "counter" = .ok c) (hne : c.eqInt (session.counter + 1 : ℕ) = false) :
      Objects P cfg env m k ctx exporter msg head bundle
        ((m.record k).dispute env "counter did not advance")
        "counter did not advance by one (replay or reorder)" inst
  | link {inst place : Option Bytes} {pl base link : Bytes} {n : ℕ} {c : Json}
      (h : Verified P cfg m k msg head bundle inst place pl)
      (hclear : Clears cfg (m.record k) inst place) (hexp : m.Expects P k ctx base n)
      (hc : msg.item "counter" = .ok c) (hcn : c.eqInt n = true)
      (hlink : Binder.postLink P exporter base n = .ok link) (hne : link ≠ pl) :
      Objects P cfg env m k ctx exporter msg head bundle
        ((m.record k).dispute env "link does not chain") foreignLinkText inst

/-- An objection is a note. -/
theorem Objects.noted {P : Primitives} {cfg : Config} {env : Env} {m : Mandate}
    {k ctx exporter : Bytes} {msg : Json} {head : Option Bytes} {bundle : Option Json} {r' : Record}
    {why : String} {inst : Option Bytes}
    (h : Objects P cfg env m k ctx exporter msg head bundle r' why inst) :
    Noted cfg env (m.record k) r' := by
  cases h with
  | impostor => exact .witness _ _ _
  | silicon => exact .dispute _
  | contention => exact .witness _ _ _
  | counter => exact .dispute _
  | link => exact .dispute _

/-- Nothing is objected to about a revoked identity: it is turned away before. -/
theorem Objects.notRevoked {P : Primitives} {cfg : Config} {env : Env} {m : Mandate}
    {k ctx exporter : Bytes} {msg : Json} {head : Option Bytes} {bundle : Option Json} {r' : Record}
    {why : String} {inst : Option Bytes}
    (h : Objects P cfg env m k ctx exporter msg head bundle r' why inst) :
    (m.record k).revoked = false := by
  cases h with
  | impostor h | silicon h | contention h | counter h | link h => exact h.notRevoked

/-- The state an accepted presentation leaves. -/
def Mandate.admitted (m : Mandate) (tikPub : Bytes) (key : Bytes × Bytes) (n : ℕ) (pl : Bytes)
    (inst place : Option Bytes) : Mandate :=
  let m' := { m with sessions := Function.update m.sessions key (some ⟨pl, n⟩) }
  match inst with
  | none => m'
  | some i =>
    m'.put tikPub
      { m.record tikPub with observedInstance := some i, observedPlace := nonEmpty place }

namespace Mandate

variable (P : Primitives) (cfg : Config) {env : Env}

@[simp] theorem sessions_admitted (m : Mandate) (k : Bytes) (key : Bytes × Bytes) (n : ℕ) (pl : Bytes)
    (inst place : Option Bytes) :
    (m.admitted k key n pl inst place).sessions = Function.update m.sessions key (some ⟨pl, n⟩) := by
  cases inst <;> rfl

@[simp] theorem merkle_admitted (m : Mandate) (k : Bytes) (key : Bytes × Bytes) (n : ℕ) (pl : Bytes)
    (inst place : Option Bytes) : (m.admitted k key n pl inst place).merkle = m.merkle := by
  cases inst <;> rfl

@[simp] theorem challenges_admitted (m : Mandate) (k : Bytes) (key : Bytes × Bytes) (n : ℕ)
    (pl : Bytes) (inst place : Option Bytes) :
    (m.admitted k key n pl inst place).challenges = m.challenges := by
  cases inst <;> rfl

theorem record_admitted_of_ne {m : Mandate} {k k' : Bytes} (h : k' ≠ k) (key : Bytes × Bytes) (n : ℕ)
    (pl : Bytes) (inst place : Option Bytes) :
    (m.admitted k key n pl inst place).record k' = m.record k' := by
  cases inst with
  | none => rfl
  | some i => exact record_put_of_ne h _

theorem record_admitted_self (m : Mandate) (k : Bytes) (key : Bytes × Bytes) (n : ℕ)
    (pl i : Bytes) (place : Option Bytes) :
    (m.admitted k key n pl (some i) place).record k =
      { m.record k with observedInstance := some i, observedPlace := nonEmpty place } :=
  record_put_self _ _ _

theorem record_admitted_none (m : Mandate) (k k' : Bytes) (key : Bytes × Bytes) (n : ℕ)
    (pl : Bytes) (place : Option Bytes) :
    (m.admitted k key n pl none place).record k' = m.record k' := rfl

/-- The text of an accepted verdict. -/
def acceptedVerdict (inst : Option Bytes) : Verdict := ⟨true, "accepted; continuity intact", inst⟩

/-- **The outcomes of an appraisal**: the answer with the state it leaves. -/
inductive Appraised (P : Primitives) (cfg : Config) (env : Env) (m : Mandate)
    (k ctx exporter : Bytes) (msg : Json) (head : Option Bytes) (bundle : Option Json) :
    Except Exn Verdict × Mandate → Prop
  | admitted {inst place : Option Bytes} {pl : Bytes} {n : ℕ}
      (h : Admits P cfg m k ctx exporter msg head bundle inst place pl n) :
      Appraised P cfg env m k ctx exporter msg head bundle
        (m.admitStep env k (sessionKey P k ctx) n pl (m.record k) inst place)
  | objected {r' : Record} {why : String} {inst : Option Bytes}
      (h : Objects P cfg env m k ctx exporter msg head bundle r' why inst) :
      Appraised P cfg env m k ctx exporter msg head bundle
        (m.save env k r' fun m => m.refuse msg why inst)
  | turned {answer : Except Exn Verdict} (h : ∀ v, answer = .ok v → v.ok = false) :
      Appraised P cfg env m k ctx exporter msg head bundle (answer, m)

section Outcomes

variable {P cfg} {m : Mandate} {k ctx exporter pl : Bytes} {msg : Json} {inst place : Option Bytes}
  {head : Option Bytes} {bundle : Option Json} {r : Record} {first : Except Exn Bytes}

theorem refuse_fst (m : Mandate) (msg : Json) (why : String) (inst : Option Bytes) :
    ∀ v, (m.refuse msg why inst).1 = .ok v → v.ok = false := by
  intro v hv
  simp only [refuse] at hv
  split at hv
  · cases hv
  · cases hv
    rfl

@[simp] theorem refuse_snd (m : Mandate) (msg : Json) (why : String) (inst : Option Bytes) :
    (m.refuse msg why inst).2 = m := by
  simp only [refuse]
  split <;> rfl

theorem refuse_of_counted {c : Json} (hc : msg.item "counter" = .ok c) (m : Mandate) (why : String)
    (inst : Option Bytes) : m.refuse msg why inst = (.ok ⟨false, why, inst⟩, m) := by
  simp only [refuse, hc]

namespace Appraised

theorem error (x : Exn) : Appraised P cfg env m k ctx exporter msg head bundle (.error x, m) :=
  .turned fun _ h => nomatch h

theorem no (why : String) (inst : Option Bytes) :
    Appraised P cfg env m k ctx exporter msg head bundle (.ok ⟨false, why, inst⟩, m) :=
  .turned fun v h => by cases h; rfl

theorem refuse (why : String) (inst : Option Bytes) :
    Appraised P cfg env m k ctx exporter msg head bundle (m.refuse msg why inst) := by
  have h : m.refuse msg why inst = ((m.refuse msg why inst).1, m) :=
    Prod.ext rfl (refuse_snd m msg why inst)
  rw [h]
  exact .turned (refuse_fst m msg why inst)

end Appraised

/-! ### Gate by gate -/

/-- The link that continues the chain is admitted. -/
theorem appraiseLink_of_eq {base : Bytes} {n : ℕ} (hlink : Binder.postLink P exporter base n = .ok pl) :
    m.appraiseLink P env k ctx exporter msg pl r inst place base n =
      m.admitStep env k (sessionKey P k ctx) n pl r inst place := by
  simp only [appraiseLink, hlink, ne_eq, not_true_eq_false, if_false]

theorem appraiseChain_of_expects {base : Bytes} {n : ℕ} {c : Json} (hexp : m.Expects P k ctx base n)
    (hfirst : m.sessions (sessionKey P k ctx) = none → first = Binder.intraLink P ctx k)
    (hc : msg.item "counter" = .ok c) (hcn : c.eqInt n = true) :
    m.appraiseChain P env first k ctx exporter msg pl r inst place =
      m.appraiseLink P env k ctx exporter msg pl r inst place base n := by
  simp only [appraiseChain]
  simp only [Expects] at hexp
  cases hs : m.sessions (sessionKey P k ctx) with
  | none =>
      simp only [hs] at hexp
      obtain ⟨rfl, hbase⟩ := hexp
      have h0 : c.eqInt 0 = true := hcn
      simp only [hc, h0, Bool.not_true, Bool.false_eq_true, if_false, hfirst hs, hbase]
  | some session =>
      simp only [hs] at hexp
      obtain ⟨rfl, rfl⟩ := hexp
      simp only [hc, hcn, Bool.not_true, Bool.false_eq_true, if_false]

theorem enrolled_gate (h : cfg.requireEnrolment = true → (nonEmpty r.enrolledInstance).isSome) :
    ((nonEmpty r.enrolledInstance).isNone && cfg.requireEnrolment) = false := by
  cases hreq : cfg.requireEnrolment with
  | false => simp
  | true => simpa using h hreq

theorem placed_gates (h : cfg.requirePlace = true → place.isSome ∧
      ((nonEmpty r.enrolledPlace).isSome → place = nonEmpty r.enrolledPlace)) :
    (cfg.requirePlace && place.isNone) = false ∧
      (cfg.requirePlace && (nonEmpty r.enrolledPlace).isSome &&
        decide (place ≠ nonEmpty r.enrolledPlace)) = false := by
  cases hreq : cfg.requirePlace with
  | false => simp
  | true => exact ⟨by simpa using (h hreq).1, by simpa using (h hreq).2⟩

theorem appraiseInstance_of_clears (h : Clears cfg r inst place) :
    m.appraiseInstance P cfg env first k ctx exporter msg pl r inst place =
      m.appraiseChain P env first k ctx exporter msg pl r inst place := by
  simp only [appraiseInstance, enrolled_gate h.enrolled, foreign_eq_none.mpr h.home,
    placed_gates h.placed, Bool.false_eq_true, if_false, foreign_eq_none.mpr h.sole]

theorem appraiseWith_of_verified (h : Verified P cfg m k msg head bundle inst place pl) :
    m.appraiseWith P cfg env first k ctx exporter msg head bundle =
      m.appraiseInstance P cfg env first k ctx exporter msg pl (m.record k) inst place := by
  obtain ⟨anchor, hver, rfl, rfl⟩ := h.verified
  simp only [appraiseWith]
  simp only [h.notRevoked, Bool.false_eq_true, if_false, h.link, h.known, hver]
  cases anchor with
  | some a => rfl
  | none =>
      have hreq : cfg.requireAnchor = false := by
        rw [← Bool.not_eq_true]
        exact fun hreq => by simpa using h.anchored hreq
      obtain ⟨c, hc⟩ := h.counted rfl
      simp only [hreq, Bool.false_eq_true, if_false, hc]
      rfl

/-! ### The conditions suffice -/

/-- **Under the conditions of `Admits` the step is admitted**, where the first link is what it is or
is not needed. -/
theorem appraiseWith_eq_admitStep {n : ℕ}
    (h : Admits P cfg m k ctx exporter msg head bundle inst place pl n)
    (hfirst : m.sessions (sessionKey P k ctx) = none → first = Binder.intraLink P ctx k) :
    m.appraiseWith P cfg env first k ctx exporter msg head bundle =
      m.admitStep env k (sessionKey P k ctx) n pl (m.record k) inst place := by
  obtain ⟨c, hc, hcn⟩ := h.counter
  obtain ⟨base, hexp, hlink⟩ := h.chain
  rw [appraiseWith_of_verified h.toVerified, appraiseInstance_of_clears h.clears,
    appraiseChain_of_expects hexp hfirst hc hcn, appraiseLink_of_eq hlink]

theorem appraise_eq_admitStep {n : ℕ}
    (h : Admits P cfg m k ctx exporter msg head bundle inst place pl n) :
    m.appraise P cfg env k ctx exporter msg head bundle =
      m.admitStep env k (sessionKey P k ctx) n pl (m.record k) inst place :=
  appraiseWith_eq_admitStep h fun _ => rfl

theorem admitStep_eq (hput : env.putOk = true) (key : Bytes × Bytes) (n : ℕ) :
    m.admitStep env k key n pl (m.record k) inst place =
      (.ok (acceptedVerdict inst), m.admitted k key n pl inst place) := by
  cases inst with
  | none => rfl
  | some i =>
      simp only [admitStep, hput, save_of_putOk]
      rfl

theorem appraise_of_admits (hput : env.putOk = true) {n : ℕ}
    (h : Admits P cfg m k ctx exporter msg head bundle inst place pl n) :
    m.appraise P cfg env k ctx exporter msg head bundle =
      (.ok (acceptedVerdict inst), m.admitted k (sessionKey P k ctx) n pl inst place) := by
  rw [appraise_eq_admitStep h, admitStep_eq hput]

/-- **Under the conditions of an objection it is noted**, and the message is refused; the first
link is needed to object to the link in a new session. -/
theorem appraiseWith_of_objects {r' : Record} {why : String}
    (h : Objects P cfg env m k ctx exporter msg head bundle r' why inst)
    (hfirst : m.sessions (sessionKey P k ctx) = none → why = foreignLinkText →
      first = Binder.intraLink P ctx k) :
    m.appraiseWith P cfg env first k ctx exporter msg head bundle =
      m.save env k r' fun m => m.refuse msg why inst := by
  cases h with
  | impostor h hen hne =>
      have hfor := foreign_eq_some.mpr ⟨rfl, _, hen, hne⟩
      have hgate : ((nonEmpty (m.record k).enrolledInstance).isNone && cfg.requireEnrolment) = false := by
        simp [hen]
      rw [appraiseWith_of_verified h]
      simp only [appraiseInstance, hgate, hfor, Bool.false_eq_true, if_false]
  | @silicon _ place _ p h henrolled hhome hreq hplace hen hne =>
      have hpl : (cfg.requirePlace && place.isNone) = false := by simpa [hreq] using hplace
      have hsi : (cfg.requirePlace && (nonEmpty (m.record k).enrolledPlace).isSome &&
          decide (place ≠ nonEmpty (m.record k).enrolledPlace)) = true := by
        simpa [hreq, hen] using hne
      rw [appraiseWith_of_verified h]
      simp only [appraiseInstance, enrolled_gate henrolled, foreign_eq_none.mpr hhome, hpl, hsi,
        Bool.false_eq_true, if_false, if_true]
  | contention h henrolled hhome hplaced hob hne =>
      have hfor := foreign_eq_some.mpr ⟨rfl, _, hob, hne⟩
      have hhome' := foreign_eq_none.mpr fun e i he hi => Option.some.inj hi ▸ hhome e he
      rw [appraiseWith_of_verified h]
      simp only [appraiseInstance, enrolled_gate henrolled, hhome', placed_gates hplaced, hfor,
        Bool.false_eq_true, if_false]
  | counter h hclear hs hc hne =>
      rw [appraiseWith_of_verified h, appraiseInstance_of_clears hclear]
      simp only [appraiseChain, hs, hc, hne, Bool.not_false, if_true, refuse_of_counted hc]
  | link h hclear hexp hc hcn hlink hne =>
      rw [appraiseWith_of_verified h, appraiseInstance_of_clears hclear,
        appraiseChain_of_expects hexp (fun hs => hfirst hs rfl) hc hcn]
      simp only [appraiseLink, hlink, ne_eq, hne, not_false_eq_true, if_true, foreignLinkText]

theorem appraise_of_objects {r' : Record} {why : String}
    (h : Objects P cfg env m k ctx exporter msg head bundle r' why inst) :
    m.appraise P cfg env k ctx exporter msg head bundle =
      m.save env k r' fun m => m.refuse msg why inst :=
  appraiseWith_of_objects h fun _ _ => rfl

/-! ### There are no other outcomes -/

/-- The link, from a given position. -/
theorem appraiseLink_appraised (h : Verified P cfg m k msg head bundle inst place pl)
    (hclear : Clears cfg (m.record k) inst place) {base : Bytes} {n : ℕ} {c : Json}
    (hexp : m.Expects P k ctx base n) (hc : msg.item "counter" = .ok c) (hcn : c.eqInt n = true) :
    Appraised P cfg env m k ctx exporter msg head bundle
      (m.appraiseLink P env k ctx exporter msg pl (m.record k) inst place base n) := by
  cases hlink : Binder.postLink P exporter base n with
  | error x =>
      simp only [appraiseLink, hlink]
      exact .error x
  | ok link =>
      by_cases heq : link = pl
      · subst heq
        rw [appraiseLink_of_eq hlink]
        exact .admitted (.of_gates h hclear ⟨c, hc, hcn⟩ ⟨base, hexp, hlink⟩)
      · simp only [appraiseLink, hlink, ne_eq, heq, not_false_eq_true, if_true]
        exact .objected (.link h hclear hexp hc hcn hlink heq)

/-- The chain, wherever it stands. -/
theorem appraiseChain_appraised (h : Verified P cfg m k msg head bundle inst place pl)
    (hclear : Clears cfg (m.record k) inst place)
    (hfirst : ∀ base, first = .ok base → Binder.intraLink P ctx k = .ok base) :
    Appraised P cfg env m k ctx exporter msg head bundle
      (m.appraiseChain P env first k ctx exporter msg pl (m.record k) inst place) := by
  simp only [appraiseChain]
  cases hs : m.sessions (sessionKey P k ctx) with
  | none =>
      cases hc : msg.item "counter" with
      | error x => exact .error x
      | ok c =>
          cases h0 : c.eqInt 0 with
          | false =>
              simp only [h0, Bool.not_false, if_true]
              exact .no _ _
          | true =>
              simp only [h0, Bool.not_true, Bool.false_eq_true, if_false]
              cases hbase : first with
              | error x => exact .error x
              | ok base =>
                  have hlink := hfirst base hbase
                  exact appraiseLink_appraised h hclear (by simp [Expects, hs, hlink]) hc h0
  | some session =>
      cases hc : msg.item "counter" with
      | error x => exact .error x
      | ok c =>
          cases h0 : c.eqInt (session.counter + 1 : ℕ) with
          | false =>
              have hobj : Objects P cfg env m k ctx exporter msg head bundle _ _ _ :=
                .counter h hclear hs hc h0
              simp only [h0, Bool.not_false, if_true]
              simpa only [refuse_of_counted hc] using Appraised.objected hobj
          | true =>
              simp only [h0, Bool.not_true, Bool.false_eq_true, if_false]
              exact appraiseLink_appraised h hclear (by simp [Expects, hs]) hc h0

/-- The gates before the chain, for an instance whose evidence is valid. -/
theorem appraiseInstance_appraised (h : Verified P cfg m k msg head bundle inst place pl)
    (hfirst : ∀ base, first = .ok base → Binder.intraLink P ctx k = .ok base) :
    Appraised P cfg env m k ctx exporter msg head bundle
      (m.appraiseInstance P cfg env first k ctx exporter msg pl (m.record k) inst place) := by
  simp only [appraiseInstance]
  by_cases hen : ((nonEmpty (m.record k).enrolledInstance).isNone && cfg.requireEnrolment) = true
  · rw [if_pos hen]
    exact .refuse _ _
  rw [if_neg hen]
  have henrolled : cfg.requireEnrolment = true → (nonEmpty (m.record k).enrolledInstance).isSome := by
    intro hreq
    simpa [hreq, Option.isNone_iff_eq_none, ← Option.isSome_iff_ne_none] using hen
  cases hhome : appraiseInstance.foreign (nonEmpty (m.record k).enrolledInstance) inst with
  | some i =>
      obtain ⟨rfl, e, he, hne⟩ := foreign_eq_some.mp hhome
      exact .objected (.impostor h he hne)
  | none =>
      have hhome := foreign_eq_none.mp hhome
      by_cases hpl : (cfg.requirePlace && place.isNone) = true
      · simp only [hpl, if_true]
        exact .refuse _ _
      by_cases hsi : (cfg.requirePlace && (nonEmpty (m.record k).enrolledPlace).isSome &&
          decide (place ≠ nonEmpty (m.record k).enrolledPlace)) = true
      · simp only [hpl, hsi, if_true]
        simp only [Bool.and_eq_true, decide_eq_true_eq, Option.isSome_iff_exists] at hsi
        obtain ⟨⟨hreq, p, hp⟩, hne⟩ := hsi
        refine .objected (.silicon h henrolled hhome hreq ?_ hp (hp ▸ hne))
        simpa [hreq, Option.isSome_iff_ne_none] using hpl
      have hplaced : cfg.requirePlace = true → place.isSome ∧
          ((nonEmpty (m.record k).enrolledPlace).isSome →
            place = nonEmpty (m.record k).enrolledPlace) := by
        intro hreq
        simp only [hreq, Bool.true_and, Option.isNone_iff_eq_none, ← Option.isSome_iff_ne_none,
          Bool.and_eq_true, decide_eq_true_eq, not_and, not_not] at hpl hsi
        exact ⟨by simpa [Option.isSome_iff_ne_none] using hpl, hsi⟩
      simp only [hpl, hsi]
      cases hsole : appraiseInstance.foreign (nonEmpty (m.record k).observedInstance) inst with
      | some i =>
          obtain ⟨rfl, o, ho, hne⟩ := foreign_eq_some.mp hsole
          exact .objected (.contention h henrolled (fun e he => hhome e i he rfl) hplaced ho hne)
      | none =>
          exact appraiseChain_appraised h ⟨henrolled, hhome, hplaced, foreign_eq_none.mp hsole⟩ hfirst

/-- **An appraisal ends in one of the three ways**, also where the first link cannot be had. -/
theorem appraisedWith (hfirst : ∀ base, first = .ok base → Binder.intraLink P ctx k = .ok base) :
    Appraised P cfg env m k ctx exporter msg head bundle
      (m.appraiseWith P cfg env first k ctx exporter msg head bundle) := by
  unfold appraiseWith
  by_cases hrev : (m.record k).revoked = true
  · simp only [hrev, if_true]
    exact .refuse _ _
  dsimp only
  rw [if_neg hrev]
  cases hpl : postLinkOf msg with
  | error x => exact .error x
  | ok pl =>
    dsimp only
    cases hhead : m.checkHead P cfg head bundle with
    | error x => exact .error x
    | ok refusal =>
      cases refusal with
      | some why => exact .no _ _
      | none =>
        dsimp only
        cases hver : verifyEvidence cfg msg (Binder.reportDataFor P pl head) with
        | error x => exact .error x
        | ok answer =>
          obtain ⟨ok, anchor⟩ := answer
          have hverified (hok : ok = true) (hanch : cfg.requireAnchor = true → anchor.isSome)
              (hcount : anchor = none → ∃ c, msg.item "counter" = .ok c) :
              Verified P cfg m k msg head bundle (anchor.map Anchor.inst) (anchor.bind Anchor.place)
                pl := by
            subst hok
            exact ⟨by simpa using hrev, hpl, hhead, ⟨anchor, hver, rfl, rfl⟩, by simpa using hanch,
              fun hnone => hcount (Option.map_eq_none_iff.mp hnone)⟩
          cases ok with
          | false => exact .refuse _ _
          | true =>
            cases anchor with
            | some a => exact appraiseInstance_appraised (hverified rfl (fun _ => rfl) (by simp)) hfirst
            | none =>
              dsimp only
              by_cases hreq : cfg.requireAnchor = true
              · rw [if_pos hreq]
                exact .refuse _ _
              rw [if_neg hreq]
              cases hc : msg.item "counter" with
              | error x => exact .error x
              | ok c =>
                exact appraiseInstance_appraised
                  (hverified rfl (fun h => absurd h hreq) fun _ => ⟨c, hc⟩) hfirst

variable (P cfg env m k ctx exporter msg head bundle) in
theorem appraised : Appraised P cfg env m k ctx exporter msg head bundle
    (m.appraise P cfg env k ctx exporter msg head bundle) :=
  appraisedWith fun _ h => h

variable (P cfg m k ctx exporter msg) in
/-- **What an appraisal does over a working store.**  It accepts under the conditions of
`Admits`, or it changes at most a note in the record. -/
theorem appraise_cases (hput : env.putOk = true) (head : Option Bytes) (bundle : Option Json) :
    (∃ inst place pl n, Admits P cfg m k ctx exporter msg head bundle inst place pl n ∧
      m.appraise P cfg env k ctx exporter msg head bundle =
        (.ok (acceptedVerdict inst), m.admitted k (sessionKey P k ctx) n pl inst place)) ∨
    (∀ v, (m.appraise P cfg env k ctx exporter msg head bundle).1 = .ok v → v.ok = false) ∧
      ((m.appraise P cfg env k ctx exporter msg head bundle).2 = m ∨
        ∃ r' why inst, Objects P cfg env m k ctx exporter msg head bundle r' why inst ∧
          (m.appraise P cfg env k ctx exporter msg head bundle).2 = m.put k r') := by
  have happ := appraised P cfg env m k ctx exporter msg head bundle
  generalize m.appraise P cfg env k ctx exporter msg head bundle = out at happ
  cases happ with
  | admitted h => exact .inl ⟨_, _, _, _, h, admitStep_eq hput _ _⟩
  | objected h =>
      rw [save_of_putOk hput]
      exact .inr ⟨refuse_fst _ _ _ _, .inr ⟨_, _, _, h, refuse_snd _ _ _ _⟩⟩
  | turned h => exact .inr ⟨h, .inl rfl⟩

end Outcomes

end Mandate

end Hatls
