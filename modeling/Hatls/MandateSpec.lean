import Hatls.Mandate

/-!
# What enrolments and transfers do

One lemma for each operation, from which everything about runs is derived: the
conditions under which it accepts, with the state it then leaves, and what it may
change when it does not.

## Main definitions

* `Enrols` — the conditions on an accepted enrolment; `Mandate.enrolledAs` — the state
  it leaves; `Mandate.enrollCore_cases`.
* `Grants` — the conditions on an accepted grant; `Mandate.transferred` — the state it
  leaves; `Mandate.acceptTransfer_cases`.
-/

namespace Hatls

/-! ## Frames -/

namespace Mandate

variable (P : Primitives) (cfg : Config) (env : Env)

@[simp] theorem save_of_putOk {A : Type} {env : Env} (h : env.putOk = true) (m : Mandate) (k : Bytes)
    (r : Record) (next : Mandate → Except Exn A × Mandate) :
    m.save env k r next = next (m.put k r) := by
  simp [save, h]

@[simp] theorem record_put_self (m : Mandate) (k : Bytes) (r : Record) : (m.put k r).record k = r := by
  simp [record, put]

theorem record_put_of_ne {m : Mandate} {k k' : Bytes} (h : k' ≠ k) (r : Record) :
    (m.put k r).record k' = m.record k' := by
  simp [record, put, h]

theorem record_put (m : Mandate) (k k' : Bytes) (r : Record) :
    (m.put k r).record k' = if k' = k then r else m.record k' := by
  by_cases h : k' = k
  · subst h; simp
  · rw [record_put_of_ne h, if_neg h]

@[simp] theorem sessions_put (m : Mandate) (k : Bytes) (r : Record) :
    (m.put k r).sessions = m.sessions := rfl

@[simp] theorem merkle_put (m : Mandate) (k : Bytes) (r : Record) : (m.put k r).merkle = m.merkle := rfl

@[simp] theorem roots_put (m : Mandate) (k : Bytes) (r : Record) : (m.put k r).roots = m.roots := rfl

section RecordDecision

variable (m : Mandate) (kind : String) (k : Bytes) (ok : Bool) (why : String) (inst : Option Bytes)

@[simp] theorem ledger_recordDecision :
    (m.recordDecision P cfg env kind k ok why inst).ledger = m.ledger := rfl

@[simp] theorem sessions_recordDecision :
    (m.recordDecision P cfg env kind k ok why inst).sessions = m.sessions := rfl

@[simp] theorem challenges_recordDecision :
    (m.recordDecision P cfg env kind k ok why inst).challenges = m.challenges := rfl

@[simp] theorem record_recordDecision (k' : Bytes) :
    (m.recordDecision P cfg env kind k ok why inst).record k' = m.record k' := rfl

@[simp] theorem merkle_recordDecision :
    (m.recordDecision P cfg env kind k ok why inst).merkle =
      m.merkle.append (Receipt.makeEntry P kind k ok why inst env.time m.merkle.size) := rfl

@[simp] theorem roots_recordDecision :
    (m.recordDecision P cfg env kind k ok why inst).roots =
      Function.update m.roots ((m.recordDecision P cfg env kind k ok why inst).merkle.head P)
        (some (m.recordDecision P cfg env kind k ok why inst).merkle.size) := rfl

end RecordDecision

@[simp] theorem record_dropSessions (m : Mandate) (k k' : Bytes) :
    (m.dropSessions k).record k' = m.record k' := rfl

theorem sessions_dropSessions (m : Mandate) (k : Bytes) (key : Bytes × Bytes) :
    (m.dropSessions k).sessions key = if key.1 = k then none else m.sessions key := rfl

@[simp] theorem merkle_dropSessions (m : Mandate) (k : Bytes) :
    (m.dropSessions k).merkle = m.merkle := rfl

@[simp] theorem challenges_dropSessions (m : Mandate) (k : Bytes) :
    (m.dropSessions k).challenges = m.challenges := rfl

@[simp] theorem record_challenge (m : Mandate) (nonce k : Bytes) :
    (m.challenge cfg env nonce).record k = m.record k := rfl

@[simp] theorem sessions_challenge (m : Mandate) (nonce : Bytes) :
    (m.challenge cfg env nonce).sessions = m.sessions := rfl

theorem challenges_challenge (m : Mandate) (nonce : Bytes) :
    (m.challenge cfg env nonce).challenges =
      Function.update (fun x => (m.challenges x).filter (· > env.now)) nonce
        (some (env.now + cfg.challengeTtl)) := rfl

@[simp] theorem merkle_challenge (m : Mandate) (nonce : Bytes) :
    (m.challenge cfg env nonce).merkle = m.merkle := rfl

@[simp] theorem sessions_new (ledger : Bytes → Option Record) (key : Bytes × Bytes) :
    (new P ledger).sessions key = none := rfl

@[simp] theorem entries_new (ledger : Bytes → Option Record) : (new P ledger).merkle.entries = [] := rfl

@[simp] theorem record_new (m : Mandate) (k : Bytes) : (new P m.ledger).record k = m.record k := rfl

end Mandate

/-! ## Small values -/

/-- The last of a list stays among its last `n`. -/
theorem lastN_append_singleton {A : Type} {n : ℕ} (hn : 0 < n) (xs : List A) (x : A) :
    lastN n (xs ++ [x]) = xs.drop (xs.length + 1 - n) ++ [x] := by
  rw [lastN, List.length_append, List.length_singleton, List.drop_append_of_le_length (by omega)]

@[simp] theorem nonEmpty_none : nonEmpty none = none := rfl

theorem nonEmpty_some {b : Bytes} (h : b ≠ []) : nonEmpty (some b) = some b := by
  simp [nonEmpty, Option.filter, h]

theorem nonEmpty_eq_some {o : Option Bytes} {b : Bytes} : nonEmpty o = some b ↔ o = some b ∧ b ≠ [] := by
  cases o with
  | none => simp
  | some c =>
      by_cases hc : c = []
      · subst hc
        simp [nonEmpty, Option.filter]
      · rw [nonEmpty_some hc]
        constructor
        · rintro ⟨⟩; exact ⟨rfl, hc⟩
        · rintro ⟨⟨⟩, -⟩; rfl

open Mandate.appraiseInstance in
theorem foreign_eq_none {known inst : Option Bytes} :
    foreign known inst = none ↔ ∀ k i, known = some k → inst = some i → i = k := by
  simp only [foreign]
  cases known with
  | none => simp
  | some k =>
      cases inst with
      | none => simp
      | some i => by_cases h : i = k <;> simp [h]

open Mandate.appraiseInstance in
theorem foreign_eq_some {known inst : Option Bytes} {i : Bytes} :
    foreign known inst = some i ↔ inst = some i ∧ ∃ k, known = some k ∧ i ≠ k := by
  simp only [foreign]
  cases known with
  | none => simp
  | some k =>
      cases inst with
      | none => simp
      | some j =>
          by_cases h : j = k
          · simp [h]; rintro rfl; simp
          · simp only [if_pos h, Option.some.injEq, ne_eq, exists_eq_left']
            constructor
            · rintro rfl; exact ⟨rfl, h⟩
            · exact fun hj => hj.1

namespace Mandate

variable (P : Primitives) (cfg : Config) {env : Env}

/-! ## Enrolment -/

/-- The conditions on an accepted enrolment. -/
structure Enrols (P : Primitives) (cfg : Config) (env : Env) (m : Mandate) (k : Bytes)
    (evidence : Json) (nonce csrDer : Bytes) (authorisation : Option Json)
    (authorisationSig : Option Bytes) (anchor : Anchor) : Prop where
  issued : ∃ expiry, m.challenges nonce = some expiry ∧ env.now < expiry
  permitted : ∃ why, Mandate.permitted P cfg env k nonce authorisation authorisationSig =
    .ok (true, why)
  fresh : (m.record k).enrolledInstance = none
  possession : csrPublicKeyDer P csrDer = .ok k
  verified : cfg.verifyReport evidence (P.sha512 (nonce ++ csrDer)) = .ok (true, some anchor)
  placed : cfg.requirePlace = true → anchor.place.isSome

/-- The state an accepted enrolment leaves, before it is logged. -/
def enrolledAs (m : Mandate) (k nonce : Bytes) (anchor : Anchor) (transferAuthority : Option Bytes) :
    Mandate :=
  { m with challenges := Function.update m.challenges nonce none }.put k
    { m.record k with
      enrolledInstance := some anchor.inst
      enrolledPlace := nonEmpty anchor.place
      transferAuthority := transferAuthority.or (m.record k).transferAuthority }

@[simp] theorem sessions_enrolledAs (m : Mandate) (k nonce : Bytes) (anchor : Anchor)
    (transferAuthority : Option Bytes) :
    (m.enrolledAs k nonce anchor transferAuthority).sessions = m.sessions := rfl

theorem challenges_enrolledAs (m : Mandate) (k nonce : Bytes) (anchor : Anchor)
    (transferAuthority : Option Bytes) :
    (m.enrolledAs k nonce anchor transferAuthority).challenges =
      Function.update m.challenges nonce none := rfl

@[simp] theorem merkle_enrolledAs (m : Mandate) (k nonce : Bytes) (anchor : Anchor)
    (transferAuthority : Option Bytes) :
    (m.enrolledAs k nonce anchor transferAuthority).merkle = m.merkle := rfl

theorem record_enrolledAs_self (m : Mandate) (k nonce : Bytes) (anchor : Anchor)
    (transferAuthority : Option Bytes) :
    (m.enrolledAs k nonce anchor transferAuthority).record k =
      { m.record k with
        enrolledInstance := some anchor.inst
        enrolledPlace := nonEmpty anchor.place
        transferAuthority := transferAuthority.or (m.record k).transferAuthority } :=
  record_put_self _ _ _

theorem record_enrolledAs_of_ne {m : Mandate} {k k' : Bytes} (h : k' ≠ k) (nonce : Bytes)
    (anchor : Anchor) (transferAuthority : Option Bytes) :
    (m.enrolledAs k nonce anchor transferAuthority).record k' = m.record k' :=
  record_put_of_ne h _

section Enrolment

variable {P cfg} {m : Mandate} {k nonce csrDer : Bytes} {evidence : Json}
  {transferAuthority : Option Bytes} {authorisation : Option Json} {authorisationSig : Option Bytes}

/-- Where the conditions hold, the challenge is struck off and the record goes to the store. -/
theorem enrollCore_eq_save {anchor : Anchor}
    (h : Enrols P cfg env m k evidence nonce csrDer authorisation authorisationSig anchor) :
    m.enrollCore P cfg env k evidence nonce csrDer transferAuthority authorisation authorisationSig =
      { m with challenges := Function.update m.challenges nonce none }.save env k
        { m.record k with
          enrolledInstance := some anchor.inst
          enrolledPlace := nonEmpty anchor.place
          transferAuthority := transferAuthority.or (m.record k).transferAuthority }
        fun m => (.ok (true, "enrolled"), m) := by
  obtain ⟨expiry, hexp, hnow⟩ := h.issued
  obtain ⟨why, hperm⟩ := h.permitted
  have hplace : (cfg.requirePlace && anchor.place.isNone) = false := by
    cases hreq : cfg.requirePlace with
    | false => simp
    | true => simpa using h.placed hreq
  simp only [enrollCore, enrollWith, hexp, not_le.mpr hnow, if_false, hperm, h.fresh, Option.isSome_none,
    Bool.false_eq_true, h.possession, ne_eq, not_true_eq_false, h.verified, hplace]

theorem enrollCore_of_enrols (hput : env.putOk = true) {anchor : Anchor}
    (h : Enrols P cfg env m k evidence nonce csrDer authorisation authorisationSig anchor) :
    m.enrollCore P cfg env k evidence nonce csrDer transferAuthority authorisation authorisationSig =
      (.ok (true, "enrolled"), m.enrolledAs k nonce anchor transferAuthority) := by
  rw [enrollCore_eq_save h, save_of_putOk hput]
  rfl

/-- Where the conditions do not hold, an enrolment is not accepted, and it changes at most
the challenges: an expired one is dropped. -/
theorem enrollWith_of_not_enrols (authorityHex : Except Exn (Option Bytes))
    (h : ¬ ∃ anchor, Enrols P cfg env m k evidence nonce csrDer authorisation authorisationSig anchor) :
    ∃ challenges answer,
      m.enrollWith P cfg env k evidence nonce csrDer authorityHex authorisation
        authorisationSig = (answer, { m with challenges := challenges }) ∧
      (challenges = m.challenges ∨
        challenges = Function.update m.challenges nonce none ∧
          (∃ expiry, m.challenges nonce = some expiry ∧ expiry ≤ env.now) ∧
          ∃ why, answer = .ok (false, why)) ∧
      ∀ why, answer ≠ .ok (true, why) := by
  simp only [enrollWith]
  cases hexp : m.challenges nonce with
  | none => exact ⟨m.challenges, _, rfl, .inl rfl, by simp⟩
  | some expiry =>
    by_cases hnow : expiry ≤ env.now
    · simp only [hnow, if_true]
      exact ⟨_, _, rfl, .inr ⟨rfl, ⟨expiry, rfl, hnow⟩, _, rfl⟩, by simp⟩
    simp only [hnow, if_false]
    cases hperm : permitted P cfg env k nonce authorisation authorisationSig with
    | error x => exact ⟨m.challenges, _, rfl, .inl rfl, by simp⟩
    | ok answer =>
      obtain ⟨ok, why⟩ := answer
      cases ok with
      | false => exact ⟨m.challenges, _, rfl, .inl rfl, by simp⟩
      | true =>
        cases hen : (m.record k).enrolledInstance with
        | some e =>
            simp only [Option.isSome_some, if_true]
            exact ⟨m.challenges, _, rfl, .inl rfl, by simp⟩
        | none =>
          simp only [Option.isSome_none, Bool.false_eq_true, if_false]
          cases hcsr : csrPublicKeyDer P csrDer with
          | error e => exact ⟨m.challenges, _, rfl, .inl rfl, by simp⟩
          | ok spki =>
            by_cases hspki : spki = k
            · subst hspki
              simp only [ne_eq, not_true_eq_false, if_false]
              cases hver : cfg.verifyReport evidence (P.sha512 (nonce ++ csrDer)) with
              | error x => exact ⟨m.challenges, _, rfl, .inl rfl, by simp⟩
              | ok answer =>
                obtain ⟨ok, anchor⟩ := answer
                cases ok with
                | false => exact ⟨m.challenges, _, rfl, .inl rfl, by simp⟩
                | true =>
                  cases anchor with
                  | none => exact ⟨m.challenges, _, rfl, .inl rfl, by simp⟩
                  | some anchor =>
                    by_cases hplace : (cfg.requirePlace && anchor.place.isNone) = true
                    · simp only [hplace, if_true]
                      exact ⟨m.challenges, _, rfl, .inl rfl, by simp⟩
                    · refine absurd ⟨anchor, ⟨⟨expiry, hexp, not_le.mp hnow⟩, ⟨why, hperm⟩, hen,
                        hcsr, hver, fun hreq => ?_⟩⟩ h
                      simpa [hreq, Option.isSome_iff_ne_none] using hplace
            · simp only [ne_eq, hspki, not_false_eq_true, if_true]
              exact ⟨m.challenges, _, rfl, .inl rfl, by simp⟩

variable (transferAuthority) in
theorem enrollCore_of_not_enrols
    (h : ¬ ∃ anchor, Enrols P cfg env m k evidence nonce csrDer authorisation authorisationSig anchor) :
    ∃ challenges answer,
      m.enrollCore P cfg env k evidence nonce csrDer transferAuthority authorisation
        authorisationSig = (answer, { m with challenges := challenges }) ∧
      (challenges = m.challenges ∨
        challenges = Function.update m.challenges nonce none ∧
          (∃ expiry, m.challenges nonce = some expiry ∧ expiry ≤ env.now) ∧
          ∃ why, answer = .ok (false, why)) ∧
      ∀ why, answer ≠ .ok (true, why) :=
  enrollWith_of_not_enrols (.ok transferAuthority) h

variable (P cfg m k nonce csrDer evidence transferAuthority authorisation authorisationSig) in
/-- **What an enrolment does.**  It enrols under the conditions of `Enrols`, or it
changes at most the challenges. -/
theorem enrollCore_cases (hput : env.putOk = true) :
    (∃ anchor,
      Enrols P cfg env m k evidence nonce csrDer authorisation authorisationSig anchor ∧
      m.enrollCore P cfg env k evidence nonce csrDer transferAuthority authorisation
        authorisationSig = (.ok (true, "enrolled"), m.enrolledAs k nonce anchor transferAuthority)) ∨
    ∃ challenges answer,
      m.enrollCore P cfg env k evidence nonce csrDer transferAuthority authorisation
        authorisationSig = (answer, { m with challenges := challenges }) ∧
      (challenges = m.challenges ∨
        challenges = Function.update m.challenges nonce none ∧
          (∃ expiry, m.challenges nonce = some expiry ∧ expiry ≤ env.now) ∧
          ∃ why, answer = .ok (false, why)) ∧
      ∀ why, answer ≠ .ok (true, why) := by
  by_cases h : ∃ anchor,
      Enrols P cfg env m k evidence nonce csrDer authorisation authorisationSig anchor
  · obtain ⟨anchor, h⟩ := h
    exact .inl ⟨anchor, h, enrollCore_of_enrols hput h⟩
  · exact .inr (enrollCore_of_not_enrols transferAuthority h)

end Enrolment

/-! ## Transfer -/

/-- The conditions on an accepted grant, with its fields, the destination and the
witness of it. -/
structure Grants (P : Primitives) (cfg : Config) (env : Env) (r : Record) (k : Bytes) (grant : Json)
    (signature : Bytes) (fields : List (String × Json)) (toInstance : Bytes) (w : Witness) :
    Prop where
  notRevoked : r.revoked = false
  enrolled : r.enrolledInstance.isSome
  object : grant = .obj fields
  version : (Json.getD fields "v" .null).eqInt Transfer.grantVersion = true
  identity : (Json.getD fields "tik" .null).eqStr (Bytes.hex k) = true
  signed : ∃ authority, r.transferAuthority = some authority ∧
    Transfer.verifyGrant P authority grant signature = .ok ()
  window : Transfer.withinWindow fields env.time = .ok true
  unspent : (Json.getD fields "nonce" .null).pyMem r.consumedGrants = false
  origin : ((Json.getD fields "from" .null).isNull = true ∧
      (Json.getD fields "any_origin" .null).truthy = true) ∨
    (Json.getD fields "from" .null).isNull = false ∧
      r.enrolledOn (Json.getD fields "from" .null) = true
  usable : toInstance.any (· ≠ 0) = true
  destination : ∃ toHex, Json.getD fields "to" .null = .str toHex ∧
    Bytes.fromHex toHex = some toInstance ∧
    (r.witnessed.find? fun w => Bytes.hex w.inst = toHex &&
      decide ((env.time - w.at_ : ℤ) < cfg.witnessTtl)) = some w

section Granted

variable {P cfg} {r : Record} {k signature : Bytes} {grant : Json}
  {fields : List (String × Json)} {toInstance : Bytes} {w : Witness}

/-- The destination of an accepted grant is an instance witnessed not long ago. -/
theorem Grants.inst_eq (h : Grants P cfg env r k grant signature fields toInstance w) :
    w.inst = toInstance := by
  obtain ⟨toHex, -, hto, hw⟩ := h.destination
  have := List.find?_some hw
  simp only [Bool.and_eq_true, decide_eq_true_eq] at this
  rw [← this.1, Bytes.fromHex_hex] at hto
  exact Option.some.inj hto

theorem Grants.toInstance_ne_nil
    (h : Grants P cfg env r k grant signature fields toInstance w) : toInstance ≠ [] := by
  rintro rfl
  simpa using h.usable

theorem checkRoute_eq_ok {fields' : List (String × Json)} :
    checkGrant.checkRoute cfg env r fields = .ok (fields', toInstance, w) ↔
      fields' = fields ∧ (((Json.getD fields "from" .null).isNull = true ∧
          (Json.getD fields "any_origin" .null).truthy = true) ∨
        (Json.getD fields "from" .null).isNull = false ∧
          r.enrolledOn (Json.getD fields "from" .null) = true) ∧
      toInstance.any (· ≠ 0) = true ∧
      ∃ toHex, Json.getD fields "to" .null = .str toHex ∧ Bytes.fromHex toHex = some toInstance ∧
        (r.witnessed.find? fun w => Bytes.hex w.inst = toHex &&
          decide ((env.time - w.at_ : ℤ) < cfg.witnessTtl)) = some w := by
  unfold checkGrant.checkRoute
  generalize Json.getD fields "from" .null = from_
  generalize Json.getD fields "to" .null = to_
  generalize (Json.getD fields "any_origin" .null).truthy = any
  constructor
  · intro h
    dsimp only at h
    split at h
    · cases h
    next h1 =>
    split at h
    · cases h
    next h2 =>
    split at h
    next toHex =>
      split at h
      · cases h
      next toI hti =>
      split at h
      · cases h
      next h3 =>
      split at h
      · cases h
      next w' hw =>
      simp only [Except.ok.injEq, Prod.mk.injEq] at h
      obtain ⟨rfl, rfl, rfl⟩ := h
      refine ⟨rfl, ?_, by simpa using h3, toHex, rfl, hti, hw⟩
      cases hn : from_.isNull with
      | true => exact .inl ⟨rfl, by simpa [hn] using h1⟩
      | false => exact .inr ⟨rfl, by simpa [hn] using h2⟩
    · cases h
  · rintro ⟨rfl, horigin, husable, toHex, rfl, hti, hw⟩
    have h1 : (from_.isNull && !any) = false := by
      rcases horigin with ⟨-, ha⟩ | ⟨hn, -⟩
      · simp [ha]
      · simp [hn]
    have h2 : (!from_.isNull && !r.enrolledOn from_) = false := by
      rcases horigin with ⟨hn, -⟩ | ⟨-, hf⟩
      · simp [hn]
      · simp [hf]
    simp only [h1, h2, hti, husable, hw, Bool.false_eq_true, if_false, Bool.not_true]

/-- **The checks on a grant accept under the conditions of `Grants`, and no others.** -/
theorem checkGrant_eq_ok :
    checkGrant P cfg env r k grant signature = .ok (.ok (fields, toInstance, w)) ↔
      Grants P cfg env r k grant signature fields toInstance w := by
  constructor
  · intro h
    simp only [checkGrant] at h
    split at h
    · cases h
    next hrev =>
    split at h
    · cases h
    next hen =>
    split at h
    · cases h
    next authority hauth =>
    split at h
    next fields' =>
      split at h
      · cases h
      next hv =>
      split at h
      · cases h
      next hk =>
      split at h
      · cases h
      next hsig =>
      split at h
      · cases h
      · cases h
      next hwin =>
      split at h
      · cases h
      next hnonce =>
      obtain ⟨rfl, horigin, husable, hdest⟩ := checkRoute_eq_ok.mp (Except.ok.inj h)
      exact ⟨by simpa using hrev, by simpa [Option.isSome_iff_ne_none] using hen, rfl, by simpa using hv,
        by simpa using hk, ⟨authority, hauth, hsig⟩, hwin, by simpa using hnonce, horigin, husable,
        hdest⟩
    · cases h
  · intro h
    obtain ⟨authority, hauth, hsig⟩ := h.signed
    have hen : r.enrolledInstance.isNone = false := by simpa [Option.isSome_iff_ne_none] using h.enrolled
    obtain rfl := h.object
    simp only [checkGrant, h.notRevoked, hen, hauth, h.version, h.identity, hsig, h.window, h.unspent,
      Bool.false_eq_true, if_false, Bool.not_true]
    rw [checkRoute_eq_ok.mpr ⟨rfl, h.origin, h.usable, h.destination⟩]

variable (cfg) in
/-- An instance is a destination from the moment it is witnessed. -/
theorem find_witness (env env' : Env) (r : Record) (inst : Bytes) (place : Option Bytes)
    (hfresh : ((env'.time - env.time : ℤ) : ℚ) < cfg.witnessTtl) :
    ((r.witness cfg env inst place).witnessed.find? fun w =>
      Bytes.hex w.inst = Bytes.hex inst && decide (((env'.time - w.at_ : ℤ) : ℚ) < cfg.witnessTtl)) =
        some ⟨inst, nonEmpty place, env.time⟩ := by
  set seen := r.witnessed.filter fun w =>
    w.inst ≠ inst && decide (((env.time - w.at_ : ℤ) : ℚ) < cfg.witnessTtl) with hseen
  have hlast : (r.witness cfg env inst place).witnessed =
      seen.drop (seen.length + 1 - 32) ++ [⟨inst, nonEmpty place, env.time⟩] := by
    simp only [Record.witness, ← hseen]
    exact lastN_append_singleton (by omega) _ _
  have hothers : ∀ w ∈ seen.drop (seen.length + 1 - 32), w.inst ≠ inst := by
    intro w hw
    have := List.mem_of_mem_drop hw
    simp only [hseen, List.mem_filter, Bool.and_eq_true, decide_eq_true_eq] at this
    exact this.2.1
  rw [hlast, List.find?_append, List.find?_eq_none.mpr, Option.none_or]
  · simpa using hfresh
  · intro w hw
    simp [hothers w hw]

/-- **A grant its authority made is accepted** on the record it was made for. -/
theorem Grants.of_makeGrant {key rnd e nonce : Bytes} {fromInstance : Option Bytes}
    {anyOrigin : Bool} {now validFor : ℤ} (hrev : r.revoked = false)
    (hen : r.enrolledInstance = some e) (he : e ≠ [])
    (hauth : r.transferAuthority = some (P.ecdsa.publicKey key))
    (hmade : Transfer.makeGrant P key rnd k toInstance fromInstance anyOrigin now validFor nonce =
      .ok (grant, signature))
    (horigin : (fromInstance = none ∧ anyOrigin = true) ∨ fromInstance = some e)
    (hnbf : now ≤ env.time) (hexp : env.time ≤ now + validFor)
    (hunspent : Json.pyMem (.str (Bytes.hex nonce)) r.consumedGrants = false)
    (husable : toInstance.any (· ≠ 0) = true)
    (hdest : (r.witnessed.find? fun w => Bytes.hex w.inst = Bytes.hex toInstance &&
      decide (((env.time - w.at_ : ℤ) : ℚ) < cfg.witnessTtl)) = some w) :
    Grants P cfg env r k grant signature
      (Transfer.grantFields k toInstance fromInstance anyOrigin now validFor nonce) toInstance w := by
  simp only [Transfer.makeGrant] at hmade
  split at hmade
  · cases hmade
  obtain ⟨rfl, rfl⟩ := Prod.mk.inj (Except.ok.inj hmade)
  refine ⟨hrev, by rw [hen]; rfl, rfl, rfl, ?_, ⟨_, hauth, Transfer.verifyGrant_sign P key rnd _⟩, ?_,
    hunspent, ?_, husable, _, rfl, Bytes.fromHex_hex toInstance, hdest⟩
  · simp [Transfer.grantFields, Json.getD, Json.lookup, Json.eqStr]
  · simp [Transfer.withinWindow, Transfer.grantFields, Json.getD, Json.lookup, Json.toInt, hnbf, hexp]
  · rcases horigin with ⟨rfl, rfl⟩ | rfl
    · exact .inl ⟨rfl, rfl⟩
    · right
      simp [Transfer.grantFields, Json.getD, Json.lookup, he, Json.isNull, Record.enrolledOn, hen,
        Json.eqStr]

variable {m : Mandate}

/-- The state an accepted transfer leaves, before it is logged. -/
def transferred (env : Env) (m : Mandate) (k : Bytes) (fields : List (String × Json))
    (toInstance : Bytes) (w : Witness) (nonce : Json) : Mandate :=
  (m.put k (moved env (m.record k) fields toInstance w nonce)).dropSessions k

theorem consumedGrants_moved (r : Record) (nonce : Json) :
    (moved env r fields toInstance w nonce).consumedGrants =
      lastN 256 (r.consumedGrants ++ [nonce]) := by
  unfold moved
  with_reducible rfl

@[simp] theorem record_transferred_self (nonce : Json) :
    (transferred env m k fields toInstance w nonce).record k =
      moved env (m.record k) fields toInstance w nonce :=
  record_put_self _ _ _

theorem record_transferred_of_ne {k' : Bytes} (h : k' ≠ k) (nonce : Json) :
    (transferred env m k fields toInstance w nonce).record k' = m.record k' :=
  record_put_of_ne h _

theorem sessions_transferred (nonce : Json) (key : Bytes × Bytes) :
    (transferred env m k fields toInstance w nonce).sessions key =
      if key.1 = k then none else m.sessions key := rfl

@[simp] theorem challenges_transferred (nonce : Json) :
    (transferred env m k fields toInstance w nonce).challenges = m.challenges := rfl

@[simp] theorem merkle_transferred (nonce : Json) :
    (transferred env m k fields toInstance w nonce).merkle = m.merkle := rfl

/-- What is said of an accepted transfer. -/
def transferredText : String := "transferred to the authorised instance"

theorem acceptTransfer_of_grants (hput : env.putOk = true) {nonce : Json}
    (h : Grants P cfg env (m.record k) k grant signature fields toInstance w)
    (hnonce : Json.lookup fields "nonce" = some nonce) :
    m.acceptTransfer P cfg env k grant signature =
      (.ok (true, transferredText),
        (transferred env m k fields toInstance w nonce).recordDecision P cfg env "transfer" k true
          transferredText (some toInstance)) := by
  simp only [acceptTransfer, checkGrant_eq_ok.mpr h, hnonce, hput, save_of_putOk]
  rfl

variable (P cfg k signature grant m) in
/-- **What a transfer does.**  It moves the identity under the conditions of `Grants`,
or it changes nothing but the log. -/
theorem acceptTransfer_cases (hput : env.putOk = true) :
    (∃ fields toInstance w nonce,
      Grants P cfg env (m.record k) k grant signature fields toInstance w ∧
      Json.lookup fields "nonce" = some nonce ∧
      m.acceptTransfer P cfg env k grant signature =
        (.ok (true, transferredText),
          (transferred env m k fields toInstance w nonce).recordDecision P cfg env "transfer" k true
            transferredText (some toInstance))) ∨
    (∃ x, m.acceptTransfer P cfg env k grant signature = (.error x, m)) ∨
    ∃ reason, m.acceptTransfer P cfg env k grant signature =
      (.ok (false, reason), m.recordDecision P cfg env "transfer" k false reason none) := by
  cases hcheck : checkGrant P cfg env (m.record k) k grant signature with
  | error x => exact .inr (.inl ⟨x, by simp only [acceptTransfer, hcheck]⟩)
  | ok answer =>
    rcases answer with reason | ⟨fields, toInstance, w⟩
    · exact .inr (.inr ⟨reason, by simp only [acceptTransfer, hcheck]⟩)
    · have h := checkGrant_eq_ok.mp hcheck
      cases hnonce : Json.lookup fields "nonce" with
      | none => exact .inr (.inl ⟨.keyError, by simp only [acceptTransfer, hcheck, hnonce]⟩)
      | some nonce =>
        exact .inl ⟨fields, toInstance, w, nonce, h, hnonce, acceptTransfer_of_grants hput h hnonce⟩

end Granted

end Mandate

end Hatls
