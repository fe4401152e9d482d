import Mathlib.Data.Rat.Floor
import Mathlib.Logic.Function.Basic
import Hatls.Binder
import Hatls.Federation
import Hatls.Transfer

/-!
# The mandate

The second part of `hatls/protocol.py`: the authority that admits one continuous,
ordered, anchor-consistent chain per identity.  Its ledger is durable; its session
chains, challenges and Merkle log live in the process.

Every operation returns what the source returns, or the exception it raises, with
the state it leaves behind: a write that precedes an exception has happened.  The
hexadecimal texts the source keys its tables by and keeps in its records are held
as the byte strings they spell.  The list of audit events is left out, except that
building an event subscripts the message, which raises on a message without a
counter.

## Main definitions

* `Anchor`, `Config`, `Record`, `Mandate` — the data.
* `Env` — what one call reads from outside: the clock, randomness, the store.
* `Mandate.challenge`, `Mandate.enroll`, `Mandate.revoke`, `Mandate.acceptTransfer`,
  `Mandate.present` — the operations.
* `Mandate.sth`, `Mandate.proveExtension`, `Mandate.receipt` — the transparency side.
-/

namespace Hatls

/-- The two claims of a verified report.  A platform that exposes no usable instance
identifier has no anchor at all: an absent identifier is one without a nonzero byte. -/
structure Anchor where
  inst : Bytes
  place : Option Bytes
  usable : inst.any (· ≠ 0) = true

theorem Anchor.inst_ne_nil (a : Anchor) : a.inst ≠ [] := by
  intro h
  have := a.usable
  simp [h] at this

/-- The arguments a mandate is built with. -/
structure Config where
  verifyReport : Json → Bytes → Except Exn (Bool × Option Anchor)
  requireAnchor : Bool
  requireEnrolment : Bool
  requirePlace : Bool
  challengeTtl : ℚ
  witnessTtl : ℚ
  signingKey : Bytes
  enrolmentAuthority : Option Bytes

/-- An instance whose evidence was actually verified, and when. -/
structure Witness where
  inst : Bytes
  place : Option Bytes
  at_ : ℤ
  deriving DecidableEq

/-- A dispute with its time. -/
structure Dispute where
  at_ : ℤ
  why : String
  deriving DecidableEq

/-- A move of an identity. -/
structure TransferRecord where
  at_ : ℤ
  from_ : Option Bytes
  to_ : Bytes
  nonce : Json
  anyOrigin : Bool

/-- What the ledger holds about one identity. -/
structure Record where
  enrolledInstance : Option Bytes
  enrolledPlace : Option Bytes
  observedInstance : Option Bytes
  observedPlace : Option Bytes
  revoked : Bool
  reason : Option String
  contention : List Dispute
  transferAuthority : Option Bytes
  transfers : List TransferRecord
  consumedGrants : List Json
  witnessed : List Witness

def Record.blank : Record where
  enrolledInstance := none
  enrolledPlace := none
  observedInstance := none
  observedPlace := none
  revoked := false
  reason := none
  contention := []
  transferAuthority := none
  transfers := []
  consumedGrants := []
  witnessed := []

/-- The chain of one connection. -/
structure Session where
  prev : Bytes
  counter : ℕ

/-- What one call reads from outside: the clock, the random value of the signature it
makes, and whether the store takes a write. -/
structure Env where
  now : ℚ
  rnd : Bytes
  putOk : Bool

/-- `int(time.time())`. -/
def Env.time (env : Env) : ℤ := ⌊env.now⌋

/-- The state of a mandate. -/
structure Mandate where
  ledger : Bytes → Option Record
  sessions : Bytes × Bytes → Option Session
  challenges : Bytes → Option ℚ
  merkle : MerkleLog
  roots : Bytes → Option ℕ
  lastReceipt : Option Json

/-- `xs[-n:]`. -/
def lastN {A : Type} (n : ℕ) (xs : List A) : List A := xs.drop (xs.length - n)

/-- A byte string the source tests for truth: an empty one counts as absent. -/
def nonEmpty (b : Option Bytes) : Option Bytes := b.filter (· ≠ [])

/-- What `appraise` decides about a presentation. -/
structure Verdict where
  ok : Bool
  why : String
  inst : Option Bytes
  deriving DecidableEq

namespace Record

variable (cfg : Config) (env : Env)

/-- Record an instance whose evidence was actually verified. -/
def witness (r : Record) (inst : Bytes) (place : Option Bytes) : Record :=
  let now := env.time
  let seen := r.witnessed.filter fun w => w.inst ≠ inst && decide ((now - w.at_ : ℤ) < cfg.witnessTtl)
  { r with witnessed := lastN 32 (seen ++ [⟨inst, nonEmpty place, now⟩]) }

/-- Record a dispute with a timestamp. -/
def dispute (r : Record) (reason : String) : Record :=
  { r with contention := lastN 64 (r.contention ++ [⟨env.time, reason⟩]) }

/-- `j == rec["enrolled_instance"]`, for a value that is not `None`. -/
def enrolledOn (r : Record) (j : Json) : Bool :=
  match r.enrolledInstance with
  | some e => j.eqStr (Bytes.hex e)
  | none => false

end Record

namespace Mandate

variable (P : Primitives) (cfg : Config) (env : Env)

/-- A mandate over a store: nothing but the ledger outlives the process. -/
def new (ledger : Bytes → Option Record) : Mandate where
  ledger := ledger
  sessions := fun _ => none
  challenges := fun _ => none
  merkle := ⟨[]⟩
  roots := Function.update (fun _ => none) (MerkleLog.head P ⟨[]⟩) (some 0)
  lastReceipt := none

/-! ## The ledger -/

/-- The record of an identity. -/
def record (m : Mandate) (k : Bytes) : Record := (m.ledger k).getD .blank

/-- The state after the store has taken a record. -/
def put (m : Mandate) (k : Bytes) (r : Record) : Mandate :=
  { m with ledger := Function.update m.ledger k (some r) }

/-- Save a record and go on, unless the store raises. -/
def save {A : Type} (m : Mandate) (k : Bytes) (r : Record)
    (next : Mandate → Except Exn A × Mandate) : Except Exn A × Mandate :=
  if env.putOk then next (m.put k r) else (.error .osError, m)

/-! ## The transparency side -/

/-- The key a verifier needs to check a receipt. -/
def publicKey : Bytes := P.ecdsa.publicKey cfg.signingKey

/-- The head to hand an attester. -/
def headForAttestation (m : Mandate) : Bytes := m.merkle.head P

/-- True if this log genuinely had that head. -/
def knowsHead (m : Mandate) (head : Bytes) : Bool := (m.roots head).isSome

/-- The mandate's signed word about its whole log, right now. -/
def sth (m : Mandate) : Json :=
  Receipt.signSth P cfg.signingKey env.rnd m.merkle.size (m.merkle.head P) env.time

def hexList (p : List Bytes) : Json := .arr (p.map fun b => .str (Bytes.hex b))

/-- A consistency proof that the log today extends the log at `oldSize`. -/
def proveExtension (m : Mandate) (oldSize : ℤ) : Except Exn Json :=
  (m.merkle.proveConsistency P oldSize).map hexList

def receipt (m : Mandate) (index : ℕ) : Except Exn Json :=
  match m.merkle.entries[index]? with
  | none => .error .indexError
  | some entry =>
    (m.merkle.proveInclusion P index).map fun proof =>
      .obj [
        ("entry", .str (Bytes.hex entry)),
        ("index", .int index),
        ("proof", hexList proof),
        ("sth", sth P cfg env m)]

/-- Log a decision; the receipt for it is kept in `lastReceipt`. -/
def recordDecision (m : Mandate) (kind : String) (tikPub : Bytes) (accepted : Bool)
    (reason : String) (inst : Option Bytes) : Mandate :=
  let entry := Receipt.makeEntry P kind tikPub accepted reason inst env.time m.merkle.size
  let merkle := m.merkle.append entry
  let m := { m with merkle, roots := Function.update m.roots (merkle.head P) (some merkle.size) }
  { m with lastReceipt := (m.receipt P cfg env (merkle.size - 1)).toOption }

/-! ## Challenges and enrolment -/

/-- Issue a nonce and drop the stale ones. -/
def challenge (m : Mandate) (nonce : Bytes) : Mandate :=
  { m with
    challenges := Function.update (fun x => (m.challenges x).filter (· > env.now)) nonce
      (some (env.now + cfg.challengeTtl)) }

/-- `csr_public_key_der`: the key a request carries, if the request is signed by it. -/
def csrPublicKeyDer (csrDer : Bytes) : Except String Bytes :=
  match P.loadCsr csrDer with
  | .error e => .error e
  | .ok csr =>
    if csr.isSignatureValid then .ok csr.spki
    else .error "CSR signature invalid: no proof of possession"

/-- Whether the enrolment authority, where there is one, permits the enrolment. -/
def permitted (tikPub nonce : Bytes) (authorisation : Option Json)
    (authorisationSig : Option Bytes) : Except Exn (Bool × String) :=
  match cfg.enrolmentAuthority with
  | none => .ok (true, "")
  | some authority =>
    match authorisation, authorisationSig with
    | some body, some sig =>
      Transfer.verifyEnrolmentAuthorisation P authority body sig tikPub nonce env.time
    | _, _ =>
      .ok (false, "this mandate enrols only what its enrolment authority has " ++
        "permitted, and no authorisation was offered")

/-- `_enroll`, where `transfer_authority.hex()` comes out as it does: it is taken when the challenge
has been struck off, and raises on a value of another type. -/
def enrollWith (m : Mandate) (tikPub : Bytes) (enrollEvidence : Json) (nonce csrDer : Bytes)
    (authorityHex : Except Exn (Option Bytes)) (authorisation : Option Json)
    (authorisationSig : Option Bytes) : Except Exn (Bool × String) × Mandate :=
  match m.challenges nonce with
  | none => (.ok (false, "nonce was not issued by this mandate (replay)"), m)
  | some expiry =>
    if expiry ≤ env.now then
      (.ok (false, "nonce expired"),
        { m with challenges := Function.update m.challenges nonce none })
    else
      match permitted P cfg env tikPub nonce authorisation authorisationSig with
      | .error x => (.error x, m)
      | .ok (false, why) => (.ok (false, why), m)
      | .ok (true, _) =>
        let r := m.record tikPub
        if r.enrolledInstance.isSome then
          (.ok (false, "identity already enrolled; re-enrolment is an operator action"), m)
        else
          match csrPublicKeyDer P csrDer with
          | .error e => (.ok (false, "CSR unusable: " ++ e), m)
          | .ok csrSpki =>
            if csrSpki ≠ tikPub then
              (.ok (false, "CSR does not carry the key being enrolled"), m)
            else
              match cfg.verifyReport enrollEvidence (P.sha512 (nonce ++ csrDer)) with
              | .error x => (.error x, m)
              | .ok (false, _) => (.ok (false, "enrolment evidence invalid"), m)
              | .ok (true, none) =>
                (.ok (false, "platform exposes no usable instance claim: " ++
                  "continuity-to-an-instance cannot be enrolled here"), m)
              | .ok (true, some anchor) =>
                if cfg.requirePlace && anchor.place.isNone then
                  (.ok (false, "platform exposes no place claim and this mandate requires one"), m)
                else
                  let m := { m with challenges := Function.update m.challenges nonce none }
                  match authorityHex with
                  | .error x => (.error x, m)
                  | .ok transferAuthority =>
                    let r := { r with
                      enrolledInstance := some anchor.inst
                      enrolledPlace := nonEmpty anchor.place
                      transferAuthority := transferAuthority.or r.transferAuthority }
                    m.save env tikPub r fun m => (.ok (true, "enrolled"), m)

/-- `_enroll`: bind an identity key to the instance it was born on. -/
def enrollCore (m : Mandate) (tikPub : Bytes) (enrollEvidence : Json) (nonce csrDer : Bytes)
    (transferAuthority : Option Bytes) (authorisation : Option Json)
    (authorisationSig : Option Bytes) : Except Exn (Bool × String) × Mandate :=
  m.enrollWith P cfg env tikPub enrollEvidence nonce csrDer (.ok transferAuthority) authorisation
    authorisationSig

/-- Bind an identity to its instance, and record the decision. -/
def enroll (m : Mandate) (tikPub : Bytes) (enrollEvidence : Json) (nonce csrDer : Bytes)
    (transferAuthority : Option Bytes) (authorisation : Option Json)
    (authorisationSig : Option Bytes) : Except Exn (Bool × String) × Mandate :=
  match m.enrollCore P cfg env tikPub enrollEvidence nonce csrDer transferAuthority authorisation
    authorisationSig with
  | (.error x, m) => (.error x, m)
  | (.ok (ok, why), m) =>
    let inst := if ok then nonEmpty (m.record tikPub).enrolledInstance else none
    (.ok (ok, why), m.recordDecision P cfg env "enroll" tikPub ok why inst)

/-! ## Revocation -/

/-- Revocation for a text, or for a value that JSON cannot write, which a record holds as none: the
log does not take it when the record has been saved. -/
def revokeWith (m : Mandate) (tikPub : Bytes) (reason : Option String) :
    Except Exn (Bool × String) × Mandate :=
  m.save env tikPub { m.record tikPub with revoked := true, reason := reason } fun m =>
    match reason with
    | none => (.error .typeError, m)
    | some reason =>
      (.ok (true, "identity revoked: " ++ reason),
        m.recordDecision P cfg env "revoke" tikPub true reason none)

/-- Explicit, deliberate revocation. -/
def revoke (m : Mandate) (tikPub : Bytes) (reason : String) : Except Exn (Bool × String) × Mandate :=
  m.revokeWith P cfg env tikPub (some reason)

/-! ## Transfer -/

/-- The checks on a grant that need nothing but the record, the grant and the clock:
the reason it is refused, or the destination with the witness of it.  The order is
the source's; what is wrong with a grant first is what the caller is told. -/
def checkGrant (r : Record) (k : Bytes) (grant : Json) (signature : Bytes) :
    Except Exn (Except String (List (String × Json) × Bytes × Witness)) :=
  if r.revoked then .ok (.error "identity revoked")
  else if r.enrolledInstance.isNone then
    .ok (.error "identity is not enrolled; there is nothing to transfer")
  else
    match r.transferAuthority with
    | none =>
      .ok (.error "identity named no transfer authority at enrolment and cannot be moved")
    | some authority =>
      match grant with
      | .obj fields =>
        if !(Json.getD fields "v" .null).eqInt Transfer.grantVersion then
          .ok (.error "unsupported grant version")
        else if !(Json.getD fields "tik" .null).eqStr (Bytes.hex k) then
          .ok (.error "grant is for a different identity")
        else
          match Transfer.verifyGrant P authority grant signature with
          | .error _ =>
            .ok (.error "grant is not signed by this identity's transfer authority")
          | .ok () =>
            match Transfer.withinWindow fields env.time with
            | .error x => .error x
            | .ok false =>
              .ok (.error ("grant is outside its validity window " ++
                "(times are the issuer's clock; allow for skew)"))
            | .ok true =>
              if (Json.getD fields "nonce" .null).pyMem r.consumedGrants then
                .ok (.error "grant has already been used")
              else
                .ok (checkRoute r fields)
      | _ => .ok (.error "unsupported grant version")
where
  /-- The instance being left, and the instance moved to. -/
  checkRoute (r : Record) (fields : List (String × Json)) :
      Except String (List (String × Json) × Bytes × Witness) :=
    let from_ := Json.getD fields "from" .null
    if from_.isNull && !(Json.getD fields "any_origin" .null).truthy then
      .error "grant does not name the instance being left"
    else if !from_.isNull && !r.enrolledOn from_ then
      .error "grant was issued for a different current instance"
    else
      match Json.getD fields "to" .null with
      | .str toHex =>
        match Bytes.fromHex toHex with
        | none => .error "grant carries an unreadable destination"
        | some toInstance =>
          if !toInstance.any (· ≠ 0) then
            .error "cannot transfer to a platform with no instance claim"
          else
            match r.witnessed.find? fun w =>
              Bytes.hex w.inst = toHex && decide ((env.time - w.at_ : ℤ) < cfg.witnessTtl) with
            | none =>
              .error ("destination instance has not presented valid evidence to this mandate " ++
                "(let it attest first, then issue the grant)")
            | some w => .ok (fields, toInstance, w)
      | _ => .error "grant carries an unreadable destination"

/-- The record after a move. -/
def moved (r : Record) (fields : List (String × Json)) (toInstance : Bytes) (w : Witness)
    (nonce : Json) : Record :=
  { r with
    enrolledInstance := some toInstance
    enrolledPlace := w.place
    observedInstance := none
    observedPlace := none
    transfers := lastN 64 (r.transfers ++ [{
      at_ := env.time
      from_ := r.enrolledInstance
      to_ := toInstance
      nonce := nonce
      anyOrigin := (Json.getD fields "any_origin" .null).truthy }])
    consumedGrants := lastN 256 (r.consumedGrants ++ [nonce]) }

/-- The live chains of an identity end. -/
def dropSessions (m : Mandate) (k : Bytes) : Mandate :=
  { m with sessions := fun key => if key.1 = k then none else m.sessions key }

/-- Move an enrolled identity to another instance, on the authority named at
enrolment. -/
def acceptTransfer (m : Mandate) (tikPub : Bytes) (grant : Json) (signature : Bytes) :
    Except Exn (Bool × String) × Mandate :=
  let r := m.record tikPub
  match checkGrant P cfg env r tikPub grant signature with
  | .error x => (.error x, m)
  | .ok (.error reason) =>
    (.ok (false, reason), m.recordDecision P cfg env "transfer" tikPub false reason none)
  | .ok (.ok (fields, toInstance, w)) =>
    match Json.lookup fields "nonce" with
    | none => (.error .keyError, m)
    | some nonce =>
      m.save env tikPub (moved env r fields toInstance w nonce) fun m =>
        (.ok (true, "transferred to the authorised instance"),
          (m.dropSessions tikPub).recordDecision P cfg env "transfer" tikPub true
            "transferred to the authorised instance" (some toInstance))

/-! ## Presentation -/

/-- The key a session chain is kept under: the session context, hashed and cut. -/
def sessionKey (tikPub sessionContext : Bytes) : Bytes × Bytes :=
  (tikPub, (P.sha256 sessionContext).take 16)

/-- Refuse, with an audit event that names the counter of the message. -/
def refuse (m : Mandate) (msg : Json) (why : String) (inst : Option Bytes) :
    Except Exn Verdict × Mandate :=
  match msg.item "counter" with
  | .error x => (.error x, m)
  | .ok _ => (.ok ⟨false, why, inst⟩, m)

/-- The witnessed head, or the bundle of heads: why it is not one this log had. -/
def checkHead (m : Mandate) (head : Option Bytes) (bundle : Option Json) :
    Except Exn (Option String) :=
  match head, bundle with
  | none, _ => .ok none
  | some head, some bundle =>
    if !Federation.verifyBundle P head bundle then
      .ok (some "the witnessed bundle does not match what was bound")
    else
      match Federation.entryFor P bundle (publicKey P cfg) with
      | .error x => .error x
      | .ok none => .ok (some "this mandate is not named in the bundle the attester witnessed")
      | .ok (some mine) =>
        match (do (← mine.item "root").fromHex) with
        | .error x => .error x
        | .ok root =>
          if m.knowsHead root then .ok none
          else .ok (some "the bundle names a head for this mandate that its log never had")
  | some head, none =>
    if m.knowsHead head then .ok none
    else .ok (some "the ledger head offered for this attestation is not one this log had")

/-- The link is the one we compute: advance the chain, and note the instance. -/
def admitStep (m : Mandate) (tikPub : Bytes) (key : Bytes × Bytes) (counter : ℕ)
    (pl : Bytes) (r : Record) (inst place : Option Bytes) : Except Exn Verdict × Mandate :=
  let m := { m with sessions := Function.update m.sessions key (some ⟨pl, counter⟩) }
  let accepted : Verdict := ⟨true, "accepted; continuity intact", inst⟩
  match inst with
  | none => (.ok accepted, m)
  | some i =>
    m.save env tikPub { r with observedInstance := some i, observedPlace := nonEmpty place }
      fun m => (.ok accepted, m)

/-- Recompute the link from values we derived. -/
def appraiseLink (m : Mandate) (tikPub sessionContext exporter : Bytes) (msg : Json) (pl : Bytes)
    (r : Record) (inst place : Option Bytes) (base : Bytes) (counter : ℕ) :
    Except Exn Verdict × Mandate :=
  match Binder.postLink P exporter base counter with
  | .error x => (.error x, m)
  | .ok link =>
    if link ≠ pl then
      m.save env tikPub (r.dispute env "link does not chain") fun m =>
        m.refuse msg "link does not chain (relay, replay or a foreign session)" inst
    else m.admitStep env tikPub (sessionKey P tikPub sessionContext) counter pl r inst place

/-- The chain of this connection: a session we have not seen starts at counter 0, one
we have seen advances by exactly one. -/
def appraiseChain (m : Mandate) (first : Except Exn Bytes) (tikPub sessionContext exporter : Bytes)
    (msg : Json) (pl : Bytes) (r : Record) (inst place : Option Bytes) :
    Except Exn Verdict × Mandate :=
  match m.sessions (sessionKey P tikPub sessionContext) with
  | none =>
    match msg.item "counter" with
    | .error x => (.error x, m)
    | .ok counter =>
      if !counter.eqInt 0 then (.ok ⟨false, "a session's first link must be counter 0", inst⟩, m)
      else
        match first with
        | .error x => (.error x, m)
        | .ok base =>
          m.appraiseLink P env tikPub sessionContext exporter msg pl r inst place base 0
  | some session =>
    match msg.item "counter" with
    | .error x => (.error x, m)
    | .ok counter =>
      if !counter.eqInt (session.counter + 1 : ℕ) then
        m.save env tikPub (r.dispute env "counter did not advance") fun m =>
          (.ok ⟨false, "counter did not advance by one (replay or reorder)", inst⟩, m)
      else
        m.appraiseLink P env tikPub sessionContext exporter msg pl r inst place session.prev
          (session.counter + 1)

/-- What the ledger says about an instance whose evidence is valid. -/
def appraiseInstance (m : Mandate) (first : Except Exn Bytes)
    (tikPub sessionContext exporter : Bytes) (msg : Json) (pl : Bytes) (r : Record)
    (inst place : Option Bytes) : Except Exn Verdict × Mandate :=
  -- no silent downgrade
  if (nonEmpty r.enrolledInstance).isNone && cfg.requireEnrolment then
    m.refuse msg ("identity has no enrolment on record and this mandate requires one " ++
      "(a lost ledger must not silently downgrade the guarantee)") inst
  else
    match foreign (nonEmpty r.enrolledInstance) inst with
    | some i =>
      m.save env tikPub ((r.witness cfg env i place).dispute env
          "evidence from a non-enrolled instance") fun m =>
        m.refuse msg "rejected: key presented from an instance it was not enrolled on" inst
    | none =>
      if cfg.requirePlace && place.isNone then
        m.refuse msg "platform exposes no place claim and this mandate requires one" inst
      else if cfg.requirePlace && (nonEmpty r.enrolledPlace).isSome &&
          decide (place ≠ nonEmpty r.enrolledPlace) then
        m.save env tikPub (r.dispute env "instance moved to different silicon") fun m =>
          m.refuse msg "the enrolled instance is reporting from different silicon" inst
      else
        match foreign (nonEmpty r.observedInstance) inst with
        | some i =>
          m.save env tikPub ((r.witness cfg env i place).dispute env
              "second instance under one identity") fun m =>
            m.refuse msg ("continuity contention: a second instance claims this identity " ++
              "(no enrolment on record, so the mandate refuses to pick a winner)") inst
        | none => m.appraiseChain P env first tikPub sessionContext exporter msg pl r inst place
where
  /-- The presenting instance, where both are known and differ. -/
  foreign (known inst : Option Bytes) : Option Bytes :=
    match known, inst with
    | some k, some i => if i ≠ k then some i else none
    | _, _ => none

/-- `bytes.fromhex(msg["post_link"])`. -/
def postLinkOf (msg : Json) : Except Exn Bytes := do (← msg.item "post_link").fromHex

/-- `self.verify_report(msg["evidence"], rd)`. -/
def verifyEvidence (msg : Json) (rd : Bytes) : Except Exn (Bool × Option Anchor) := do
  cfg.verifyReport (← msg.item "evidence") rd

/-- `_appraise`, where the first link of a session comes out as it does: the identity is hashed for
it, which raises on a value of another type. -/
def appraiseWith (m : Mandate) (first : Except Exn Bytes) (tikPub sessionContext exporter : Bytes)
    (msg : Json) (head : Option Bytes) (bundle : Option Json) : Except Exn Verdict × Mandate :=
  let r := m.record tikPub
  if r.revoked then m.refuse msg "identity revoked" none
  else
    match postLinkOf msg with
    | .error x => (.error x, m)
    | .ok pl =>
      match m.checkHead P cfg head bundle with
      | .error x => (.error x, m)
      | .ok (some why) => (.ok ⟨false, why, none⟩, m)
      | .ok none =>
        match verifyEvidence cfg msg (Binder.reportDataFor P pl head) with
        | .error x => (.error x, m)
        | .ok (false, _) => m.refuse msg "evidence invalid or does not bind the link" none
        | .ok (true, none) =>
          if cfg.requireAnchor then
            m.refuse msg ("platform exposes no usable instance claim: re-hosting is " ++
              "undecidable here (set require_anchor=False to accept that)") none
          else
            -- the audit event of the downgrade names the counter
            match msg.item "counter" with
            | .error x => (.error x, m)
            | .ok _ =>
              m.appraiseInstance P cfg env first tikPub sessionContext exporter msg pl r none none
        | .ok (true, some anchor) =>
          m.appraiseInstance P cfg env first tikPub sessionContext exporter msg pl r
            (some anchor.inst) anchor.place

/-- `_appraise`: appraise one attestation step.  `sessionContext` and `exporter` are
the relying party's own. -/
def appraise (m : Mandate) (tikPub sessionContext exporter : Bytes) (msg : Json)
    (head : Option Bytes) (bundle : Option Json) : Except Exn Verdict × Mandate :=
  m.appraiseWith P cfg env (Binder.intraLink P sessionContext tikPub) tikPub sessionContext exporter
    msg head bundle

/-- Appraise one step and record the decision in the log. -/
def present (m : Mandate) (tikPub sessionContext exporter : Bytes) (msg : Json)
    (head : Option Bytes) (bundle : Option Json) : Except Exn Verdict × Mandate :=
  match m.appraise P cfg env tikPub sessionContext exporter msg head bundle with
  | (.error x, m) => (.error x, m)
  | (.ok v, m) => (.ok v, m.recordDecision P cfg env "present" tikPub v.ok v.why v.inst)

end Mandate

end Hatls
