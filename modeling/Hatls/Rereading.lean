import Hatls.Atomicity
import Hatls.LedgerFormat

/-!
# A ledger that is read back

A mandate over a store of files never sees the records it wrote, only what is read back of
them, whose nonces are in order.  Nothing it does depends on that: two mandates with one memory
whose records read back alike answer every call alike, over a store that takes the write or one
that refuses it, and their records go on reading back alike.

## Main definitions

* `Mandate.Rereads` — one memory, and records that read back alike.
* `Mandate.reread` — a mandate over what is read back of its records.
* `Mandate.Rereads.serve` — every call keeps it.
-/

namespace Hatls

/-- Two mandates with one memory, whose records read back alike. -/
structure Mandate.Rereads (m m' : Mandate) : Prop where
  ledger : ∀ k, (m'.ledger k).map Record.settled = (m.ledger k).map Record.settled
  sessions : m'.sessions = m.sessions
  challenges : m'.challenges = m.challenges
  merkle : m'.merkle = m.merkle
  roots : m'.roots = m.roots
  lastReceipt : m'.lastReceipt = m.lastReceipt

/-- A mandate over what is read back of its records. -/
def Mandate.reread (m : Mandate) : Mandate :=
  { m with ledger := fun k => (m.ledger k).map Record.settled }

theorem Mandate.rereads_reread (m : Mandate) : m.Rereads m.reread where
  ledger k := by
    rw [reread, Option.map_map]
    congr 1
    exact funext Record.settled_settled
  sessions := rfl
  challenges := rfl
  merkle := rfl
  roots := rfl
  lastReceipt := rfl

/-! ## Records that read back alike -/

theorem map_lastN {A B : Type} (f : A → B) (n : ℕ) (xs : List A) :
    (lastN n xs).map f = lastN n (xs.map f) := by
  rw [lastN, lastN, List.map_drop, List.length_map]

namespace Record

variable {cfg : Config} {env : Env} {r r' : Record}

/-- **They differ in the order of nonces** and in nothing else. -/
theorem eq_of_settled_eq (h : r'.settled = r.settled) :
    ∃ transfers grants, r' = { r with transfers := transfers, consumedGrants := grants } ∧
      transfers.map TransferRecord.settled = r.transfers.map TransferRecord.settled ∧
      grants.map Json.normal = r.consumedGrants.map Json.normal := by
  obtain ⟨⟩ := r
  obtain ⟨⟩ := r'
  simp only [settled, Record.mk.injEq] at h
  obtain ⟨rfl, rfl, rfl, rfl, rfl, rfl, rfl, rfl, htransfers, hgrants, rfl⟩ := h
  exact ⟨_, _, rfl, htransfers, hgrants⟩

/-- Whether a grant was used does not depend on it. -/
theorem pyMem_of_map_normal {j : Json} {xs ys : List Json} (h : ys.map Json.normal = xs.map Json.normal) :
    j.pyMem ys = j.pyMem xs := by
  have hmap : ∀ zs : List Json, j.pyMem (zs.map Json.normal) = j.pyMem zs := by
    intro zs
    simp only [Json.pyMem, List.any_map]
    congr 1
    exact funext fun z => Json.pyEq_normal_left z j
  rw [← hmap ys, h, hmap xs]

theorem settled_dispute (h : r'.settled = r.settled) (why : String) :
    (r'.dispute env why).settled = (r.dispute env why).settled := by
  obtain ⟨transfers, grants, rfl, htransfers, hgrants⟩ := eq_of_settled_eq h
  simp only [dispute, settled, htransfers, hgrants]

theorem settled_witness (h : r'.settled = r.settled) (i : Bytes) (place : Option Bytes) :
    (r'.witness cfg env i place).settled = (r.witness cfg env i place).settled := by
  obtain ⟨transfers, grants, rfl, htransfers, hgrants⟩ := eq_of_settled_eq h
  simp only [witness, settled, htransfers, hgrants]

theorem settled_moved (h : r'.settled = r.settled) (fields : List (String × Json)) (to_ : Bytes)
    (w : Witness) (nonce : Json) :
    (Mandate.moved env r' fields to_ w nonce).settled =
      (Mandate.moved env r fields to_ w nonce).settled := by
  obtain ⟨transfers, grants, rfl, htransfers, hgrants⟩ := eq_of_settled_eq h
  simp only [Mandate.moved, settled, map_lastN, List.map_append, htransfers, hgrants]

theorem settled_born (h : r'.settled = r.settled) (inst : Bytes) (place authority : Option Bytes) :
    { r' with
      enrolledInstance := some inst
      enrolledPlace := place
      transferAuthority := authority.or r'.transferAuthority }.settled =
    { r with
      enrolledInstance := some inst
      enrolledPlace := place
      transferAuthority := authority.or r.transferAuthority }.settled := by
  obtain ⟨transfers, grants, rfl, htransfers, hgrants⟩ := eq_of_settled_eq h
  simp only [settled, htransfers, hgrants]

theorem settled_observed (h : r'.settled = r.settled) (inst place : Option Bytes) :
    { r' with observedInstance := inst, observedPlace := place }.settled =
      { r with observedInstance := inst, observedPlace := place }.settled := by
  obtain ⟨transfers, grants, rfl, htransfers, hgrants⟩ := eq_of_settled_eq h
  simp only [settled, htransfers, hgrants]

theorem settled_revokedFor (h : r'.settled = r.settled) (reason : String) :
    { r' with revoked := true, reason := some reason }.settled =
      { r with revoked := true, reason := some reason }.settled := by
  obtain ⟨transfers, grants, rfl, htransfers, hgrants⟩ := eq_of_settled_eq h
  simp only [settled, htransfers, hgrants]

end Record

/-- A grant is checked alike. -/
theorem Mandate.checkGrant_of_settled (P : Primitives) (cfg : Config) (env : Env) {r r' : Record}
    (h : r'.settled = r.settled) (k : Bytes) (grant : Json) (sig : Bytes) :
    checkGrant P cfg env r' k grant sig = checkGrant P cfg env r k grant sig := by
  obtain ⟨transfers, grants, rfl, htransfers, hgrants⟩ := Record.eq_of_settled_eq h
  have hmem : ∀ j : Json, j.pyMem grants = j.pyMem r.consumedGrants :=
    fun j => Record.pyMem_of_map_normal hgrants
  simp only [checkGrant, hmem]
  rfl

/-! ## Operations -/

/-- Two mandates answer the same, and their records read back alike afterwards. -/
def AnswerAlike {A : Type} (out out' : A × Mandate) : Prop := out'.1 = out.1 ∧ out.2.Rereads out'.2

theorem AnswerAlike.map {A B : Type} {out out' : A × Mandate} (h : AnswerAlike out out') (f : A → B) :
    AnswerAlike (out.map f id) (out'.map f id) := ⟨congrArg f h.1, h.2⟩

/-- Both take the same branch. -/
theorem AnswerAlike.ite {A : Type} {c : Prop} [Decidable c] {a a' b b' : A × Mandate}
    (ha : AnswerAlike a a') (hb : AnswerAlike b b') :
    AnswerAlike (if c then a else b) (if c then a' else b') := by
  by_cases hc : c
  · rw [if_pos hc, if_pos hc]
    exact ha
  · rw [if_neg hc, if_neg hc]
    exact hb

namespace Mandate.Rereads

variable {P : Primitives} {cfg : Config} {env : Env} {m m' : Mandate}

theorem answer {A : Type} (h : m.Rereads m') (a : A) : AnswerAlike (a, m) (a, m') := ⟨rfl, h⟩

theorem record (h : m.Rereads m') (k : Bytes) : (m'.record k).settled = (m.record k).settled := by
  have hk := h.ledger k
  rw [Mandate.record, Mandate.record]
  cases hm : m.ledger k with
  | none =>
      rw [hm, Option.map_none, Option.map_eq_none_iff] at hk
      rw [hk]
  | some r =>
      rw [hm, Option.map_some] at hk
      obtain ⟨r', hr', hsettled⟩ := Option.map_eq_some_iff.mp hk
      rw [hr']
      exact hsettled

theorem put (h : m.Rereads m') (k : Bytes) {r r' : Record} (hr : r'.settled = r.settled) :
    (m.put k r).Rereads (m'.put k r') where
  ledger k' := by
    by_cases hk : k' = k
    · simp [Mandate.put, hk, hr]
    · simp [Mandate.put, hk, h.ledger k']
  sessions := h.sessions
  challenges := h.challenges
  merkle := h.merkle
  roots := h.roots
  lastReceipt := h.lastReceipt

theorem save {A : Type} (h : m.Rereads m') (k : Bytes) {r r' : Record} (hr : r'.settled = r.settled)
    {next next' : Mandate → Except Exn A × Mandate}
    (hnext : ∀ n n' : Mandate, n.Rereads n' → AnswerAlike (next n) (next' n')) :
    AnswerAlike (m.save env k r next) (m'.save env k r' next') := by
  rw [Mandate.save, Mandate.save]
  exact AnswerAlike.ite (hnext _ _ (h.put k hr)) (h.answer _)

theorem recordDecision (h : m.Rereads m') (kind : String) (k : Bytes) (accepted : Bool)
    (why : String) (inst : Option Bytes) :
    (m.recordDecision P cfg env kind k accepted why inst).Rereads
      (m'.recordDecision P cfg env kind k accepted why inst) where
  ledger := h.ledger
  sessions := h.sessions
  challenges := h.challenges
  merkle := by simp only [Mandate.recordDecision, h.merkle]
  roots := by simp only [Mandate.recordDecision, h.merkle, h.roots]
  lastReceipt := by
    simp only [Mandate.recordDecision, Mandate.receipt, Mandate.sth, h.merkle]

theorem refuse (h : m.Rereads m') (msg : Json) (why : String) (inst : Option Bytes) :
    AnswerAlike (m.refuse msg why inst) (m'.refuse msg why inst) := by
  rw [Mandate.refuse, Mandate.refuse]
  cases msg.item "counter" with
  | error x => exact h.answer _
  | ok _ => exact h.answer _

/-- A challenge struck out. -/
theorem strike (h : m.Rereads m') (nonce : Bytes) :
    Mandate.Rereads { m with challenges := Function.update m.challenges nonce none }
      { m' with challenges := Function.update m'.challenges nonce none } where
  ledger := h.ledger
  sessions := h.sessions
  challenges := by simp only [h.challenges]
  merkle := h.merkle
  roots := h.roots
  lastReceipt := h.lastReceipt

/-- A chain moved on. -/
theorem advance (h : m.Rereads m') (key : Bytes × Bytes) (s : Option Session) :
    Mandate.Rereads { m with sessions := Function.update m.sessions key s }
      { m' with sessions := Function.update m'.sessions key s } where
  ledger := h.ledger
  sessions := by simp only [h.sessions]
  challenges := h.challenges
  merkle := h.merkle
  roots := h.roots
  lastReceipt := h.lastReceipt

theorem dropSessions (h : m.Rereads m') (k : Bytes) : (m.dropSessions k).Rereads (m'.dropSessions k) where
  ledger := h.ledger
  sessions := by simp only [Mandate.dropSessions, h.sessions]
  challenges := h.challenges
  merkle := h.merkle
  roots := h.roots
  lastReceipt := h.lastReceipt

theorem challenge (h : m.Rereads m') (nonce : Bytes) :
    (m.challenge cfg env nonce).Rereads (m'.challenge cfg env nonce) where
  ledger := h.ledger
  sessions := h.sessions
  challenges := by simp only [Mandate.challenge, h.challenges]
  merkle := h.merkle
  roots := h.roots
  lastReceipt := h.lastReceipt

theorem enrollCore (h : m.Rereads m') (k nonce csrDer : Bytes) (evidence : Json)
    (authority : Option Bytes) (authorisation : Option Json) (sig : Option Bytes) :
    AnswerAlike (m.enrollCore P cfg env k evidence nonce csrDer authority authorisation sig)
      (m'.enrollCore P cfg env k evidence nonce csrDer authority authorisation sig) := by
  have hrecord := h.record k
  obtain ⟨_, _, hfields, -⟩ := Record.eq_of_settled_eq hrecord
  have henrolled : (m'.record k).enrolledInstance = (m.record k).enrolledInstance := by rw [hfields]
  have hchallenges : m'.challenges nonce = m.challenges nonce := by rw [h.challenges]
  simp only [Mandate.enrollCore, Mandate.enrollWith]
  rw [hchallenges, henrolled]
  cases m.challenges nonce with
  | none => exact h.answer _
  | some expiry =>
      apply AnswerAlike.ite ((h.strike nonce).answer _)
      rcases permitted P cfg env k nonce authorisation sig with x | ⟨_ | _, why⟩
      · exact h.answer _
      · exact h.answer _
      apply AnswerAlike.ite (h.answer _)
      rcases csrPublicKeyDer P csrDer with e | spki
      · exact h.answer _
      apply AnswerAlike.ite (h.answer _)
      rcases cfg.verifyReport evidence (P.sha512 (nonce ++ csrDer)) with x | ⟨_ | _, _ | anchor⟩
      · exact h.answer _
      · exact h.answer _
      · exact h.answer _
      · exact h.answer _
      apply AnswerAlike.ite (h.answer _)
      have hborn := Record.settled_born hrecord anchor.inst (nonEmpty anchor.place) authority
      exact (h.strike nonce).save k hborn fun n n' hn => hn.answer _

theorem revoke (h : m.Rereads m') (k : Bytes) (reason : String) :
    AnswerAlike (m.revoke P cfg env k reason) (m'.revoke P cfg env k reason) :=
  h.save k (Record.settled_revokedFor (h.record k) reason) fun _ _ hn => ⟨rfl, hn.recordDecision ..⟩

theorem acceptTransfer (h : m.Rereads m') (k : Bytes) (grant : Json) (sig : Bytes) :
    AnswerAlike (m.acceptTransfer P cfg env k grant sig) (m'.acceptTransfer P cfg env k grant sig) := by
  have hrecord := h.record k
  simp only [Mandate.acceptTransfer, checkGrant_of_settled P cfg env hrecord]
  rcases checkGrant P cfg env (m.record k) k grant sig with x | why | ⟨fields, toInstance, w⟩
  · exact h.answer _
  · exact ⟨rfl, h.recordDecision ..⟩
  · cases hnonce : Json.lookup fields "nonce" with
    | none =>
        simp only [hnonce]
        exact h.answer _
    | some nonce =>
        simp only [hnonce]
        exact h.save k (Record.settled_moved hrecord fields toInstance w nonce)
          fun n n' hn => ⟨rfl, (hn.dropSessions k).recordDecision ..⟩

/-- The heads of both are the same. -/
theorem checkHead (h : m.Rereads m') (head : Option Bytes) (bundle : Option Json) :
    m'.checkHead P cfg head bundle = m.checkHead P cfg head bundle := by
  have hknows : m'.knowsHead = m.knowsHead := by
    funext x
    rw [knowsHead, knowsHead, h.roots]
  simp only [Mandate.checkHead, hknows]

section Appraise

variable {k ctx exporter : Bytes} {msg : Json} {pl : Bytes} {r r' : Record} {inst place : Option Bytes}
  {first : Except Exn Bytes}

theorem admitStep (h : m.Rereads m') (hr : r'.settled = r.settled) (key : Bytes × Bytes)
    (counter : ℕ) :
    AnswerAlike (m.admitStep env k key counter pl r inst place)
      (m'.admitStep env k key counter pl r' inst place) := by
  have hadv := h.advance key (some ⟨pl, counter⟩)
  cases inst with
  | none => exact hadv.answer _
  | some i =>
      exact hadv.save k (Record.settled_observed hr (some i) (nonEmpty place))
        fun n n' hn => hn.answer _

theorem appraiseLink (h : m.Rereads m') (hr : r'.settled = r.settled) (base : Bytes) (counter : ℕ) :
    AnswerAlike (m.appraiseLink P env k ctx exporter msg pl r inst place base counter)
      (m'.appraiseLink P env k ctx exporter msg pl r' inst place base counter) := by
  simp only [Mandate.appraiseLink]
  cases Binder.postLink P exporter base counter with
  | error x => exact h.answer _
  | ok link =>
      apply AnswerAlike.ite
      · exact h.save k (Record.settled_dispute hr _) fun n n' hn => hn.refuse ..
      · exact h.admitStep hr _ counter

theorem appraiseChain (h : m.Rereads m') (hr : r'.settled = r.settled) :
    AnswerAlike (m.appraiseChain P env first k ctx exporter msg pl r inst place)
      (m'.appraiseChain P env first k ctx exporter msg pl r' inst place) := by
  simp only [Mandate.appraiseChain]
  rw [h.sessions]
  cases m.sessions (sessionKey P k ctx) with
  | none =>
      cases msg.item "counter" with
      | error x => exact h.answer _
      | ok counter =>
          apply AnswerAlike.ite (h.answer _)
          cases first with
          | error x => exact h.answer _
          | ok base => exact h.appraiseLink hr base 0
  | some session =>
      cases msg.item "counter" with
      | error x => exact h.answer _
      | ok counter =>
          apply AnswerAlike.ite
          · exact h.save k (Record.settled_dispute hr _) fun n n' hn => hn.answer _
          · exact h.appraiseLink hr session.prev (session.counter + 1)

theorem appraiseInstance (h : m.Rereads m') (hr : r'.settled = r.settled) :
    AnswerAlike (m.appraiseInstance P cfg env first k ctx exporter msg pl r inst place)
      (m'.appraiseInstance P cfg env first k ctx exporter msg pl r' inst place) := by
  obtain ⟨_, _, hfields, -⟩ := Record.eq_of_settled_eq hr
  have henrolled : r'.enrolledInstance = r.enrolledInstance := by rw [hfields]
  have hplace : r'.enrolledPlace = r.enrolledPlace := by rw [hfields]
  have hobserved : r'.observedInstance = r.observedInstance := by rw [hfields]
  simp only [Mandate.appraiseInstance, henrolled, hplace, hobserved]
  apply AnswerAlike.ite (h.refuse ..)
  rcases appraiseInstance.foreign (nonEmpty r.enrolledInstance) inst with _ | i
  · apply AnswerAlike.ite (h.refuse ..)
    apply AnswerAlike.ite
    · exact h.save k (Record.settled_dispute hr _) fun n n' hn => hn.refuse ..
    rcases appraiseInstance.foreign (nonEmpty r.observedInstance) inst with _ | i
    · exact h.appraiseChain hr
    · exact h.save k (Record.settled_dispute (Record.settled_witness hr i place) _)
        fun n n' hn => hn.refuse ..
  · exact h.save k (Record.settled_dispute (Record.settled_witness hr i place) _)
      fun n n' hn => hn.refuse ..

theorem appraise (h : m.Rereads m') (k ctx exporter : Bytes) (msg : Json) (head : Option Bytes)
    (bundle : Option Json) :
    AnswerAlike (m.appraise P cfg env k ctx exporter msg head bundle)
      (m'.appraise P cfg env k ctx exporter msg head bundle) := by
  have hrecord := h.record k
  obtain ⟨_, _, hfields, -⟩ := Record.eq_of_settled_eq hrecord
  have hrevoked : (m'.record k).revoked = (m.record k).revoked := by rw [hfields]
  simp only [Mandate.appraise, appraiseWith, hrevoked, h.checkHead]
  apply AnswerAlike.ite (h.refuse ..)
  cases postLinkOf msg with
  | error x => exact h.answer _
  | ok pl =>
      dsimp only
      rcases m.checkHead P cfg head bundle with x | _ | why
      · exact h.answer _
      · rcases verifyEvidence cfg msg (Binder.reportDataFor P pl head) with x | ⟨_ | _, _ | anchor⟩
        · exact h.answer _
        · exact h.refuse ..
        · exact h.refuse ..
        · apply AnswerAlike.ite (h.refuse ..)
          cases msg.item "counter" with
          | error x => exact h.answer _
          | ok _ => exact h.appraiseInstance hrecord
        · exact h.appraiseInstance hrecord
      · exact h.answer _

end Appraise

/-! ## A call -/

theorem enroll (h : m.Rereads m') (k nonce csrDer : Bytes) (evidence : Json) (authority : Option Bytes)
    (authorisation : Option Json) (sig : Option Bytes) :
    AnswerAlike (m.enroll P cfg env k evidence nonce csrDer authority authorisation sig)
      (m'.enroll P cfg env k evidence nonce csrDer authority authorisation sig) := by
  have hcore : AnswerAlike (m.enrollCore P cfg env k evidence nonce csrDer authority authorisation sig)
      (m'.enrollCore P cfg env k evidence nonce csrDer authority authorisation sig) :=
    h.enrollCore k nonce csrDer evidence authority authorisation sig
  simp only [Mandate.enroll]
  generalize m.enrollCore P cfg env k evidence nonce csrDer authority authorisation sig = out,
    m'.enrollCore P cfg env k evidence nonce csrDer authority authorisation sig = out' at hcore
  obtain ⟨answer, n⟩ := out
  obtain ⟨answer', n'⟩ := out'
  obtain ⟨heq, hrereads⟩ := hcore
  simp only at heq hrereads
  subst heq
  cases answer' with
  | error x => exact hrereads.answer _
  | ok v =>
      obtain ⟨_, _, hfields, -⟩ := Record.eq_of_settled_eq (hrereads.record k)
      have henrolled : (n'.record k).enrolledInstance = (n.record k).enrolledInstance := by rw [hfields]
      simp only [henrolled]
      exact ⟨rfl, hrereads.recordDecision ..⟩

theorem present (h : m.Rereads m') (k ctx exporter : Bytes) (msg : Json) (head : Option Bytes)
    (bundle : Option Json) :
    AnswerAlike (m.present P cfg env k ctx exporter msg head bundle)
      (m'.present P cfg env k ctx exporter msg head bundle) := by
  have happ : AnswerAlike (m.appraise P cfg env k ctx exporter msg head bundle)
      (m'.appraise P cfg env k ctx exporter msg head bundle) := h.appraise k ctx exporter msg head bundle
  simp only [Mandate.present]
  generalize m.appraise P cfg env k ctx exporter msg head bundle = out,
    m'.appraise P cfg env k ctx exporter msg head bundle = out' at happ
  obtain ⟨answer, n⟩ := out
  obtain ⟨answer', n'⟩ := out'
  obtain ⟨heq, hrereads⟩ := happ
  simp only at heq hrereads
  subst heq
  cases answer' with
  | error x => exact hrereads.answer _
  | ok v => exact ⟨rfl, hrereads.recordDecision ..⟩

/-- **Every call is answered alike**, over a store that takes the write or one that does not,
and the records go on reading back alike. -/
theorem serve (h : m.Rereads m') (P : Primitives) (cfg : Config) (env : Env) (c : Call) :
    AnswerAlike (m.serve P cfg env c) (m'.serve P cfg env c) := by
  cases c with
  | challenge nonce => exact ⟨rfl, h.challenge nonce⟩
  | enroll k evidence nonce csrDer authority authorisation sig =>
      exact (h.enroll k nonce csrDer evidence authority authorisation sig).map Reply.ofAnswer
  | revoke k reason => exact (h.revoke k reason).map Reply.ofAnswer
  | acceptTransfer k grant sig => exact (h.acceptTransfer k grant sig).map Reply.ofAnswer
  | present k ctx exporter msg head bundle =>
      exact (h.present k ctx exporter msg head bundle).map Reply.ofVerdict

end Mandate.Rereads

end Hatls
