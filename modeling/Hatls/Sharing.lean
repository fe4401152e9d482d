import Hatls.Lib.SharedCell
import Hatls.Finality

/-!
# Two mandates over one ledger

A store has no locks.  An operation reads the record of an identity at its start and, if
it writes, puts the whole record back at its end; whatever another mandate has put there
in between is gone.  So a presentation that was under way when the identity was revoked,
moved or enrolled elsewhere undoes that, and one that ends first loses the dispute it
noted.  Where one operation has ended before the other begins, nothing is lost.

## Main definitions

* `Writes` — what a call puts into the store.
* `Party`, `Party.Ends` — a mandate with one call to serve, as a client of the store.
* `EffectKept`, `NoLostUpdate` — what is to be left of the effect of a call.
* `no_lost_update_iff` — the orders of messages in which it is.
-/

namespace Hatls

open Mandate SharedCell

variable {P : Primitives} {cfg : Config} {m : Mandate} {t : Moment} {k : Bytes} {c : Call}
  {r' : Record}

/-! ## What a call writes -/

/-- **What a call puts into the store** under an identity. -/
inductive Writes (P : Primitives) (cfg : Config) (m : Mandate) (t : Moment) (k : Bytes) :
    Call → Record → Prop
  | enrolled {evidence : Json} {nonce csrDer : Bytes} {authority : Option Bytes}
      {authorisation : Option Json} {sig : Option Bytes} {anchor : Anchor}
      (h : Enrols P cfg t.env m k evidence nonce csrDer authorisation sig anchor) :
      Writes P cfg m t k (.enroll k evidence nonce csrDer authority authorisation sig)
        { m.record k with
          enrolledInstance := some anchor.inst
          enrolledPlace := nonEmpty anchor.place
          transferAuthority := authority.or (m.record k).transferAuthority }
  | revoked {reason : String} : Writes P cfg m t k (.revoke k reason) (revokedFor (m.record k) reason)
  | transferred {grant : Json} {sig : Bytes} {fields : List (String × Json)} {toInstance : Bytes}
      {w : Witness} {nonce : Json}
      (h : Grants P cfg t.env (m.record k) k grant sig fields toInstance w)
      (hnonce : Json.lookup fields "nonce" = some nonce) :
      Writes P cfg m t k (.acceptTransfer k grant sig)
        (moved t.env (m.record k) fields toInstance w nonce)
  | presented {ctx exporter : Bytes} {msg : Json} {head : Option Bytes} {bundle : Option Json}
      {i : Bytes} {place : Option Bytes} {pl : Bytes} {n : ℕ}
      (h : Admits P cfg m k ctx exporter msg head bundle (some i) place pl n) :
      Writes P cfg m t k (.present k ctx exporter msg head bundle)
        { m.record k with observedInstance := some i, observedPlace := nonEmpty place }
  | objected {c : Call} {r' : Record} (h : Objected P cfg m t k c r') : Writes P cfg m t k c r'

/-- What a call writes is the record it leaves. -/
theorem record_of_writes (h : Writes P cfg m t k c r') : (m.step P cfg (t, c)).2.record k = r' := by
  cases h with
  | enrolled h =>
      rw [step_of_enrols m t h, record_recordDecision, record_enrolledAs_self]
  | revoked =>
      rw [step_revoke, record_recordDecision, record_put_self]
  | transferred h hnonce =>
      rw [step_of_grants m t h hnonce, record_recordDecision, record_transferred_self]
  | presented h =>
      rw [step_of_admits m t h, record_recordDecision, record_admitted_self]
  | objected h =>
      cases h with
      | @present _ _ msg _ _ _ _ _ h =>
          rw [step_of_objects m t h]
          cases msg.item "counter" with
          | error x => exact record_put_self m k r'
          | ok _ => exact record_put_self m k r'

/-- A presentation writes only for an identity that is not revoked, and keeps what its
record allows. -/
theorem Writes.retains (h : Writes P cfg m t k c r') (hc : c.Presents k) :
    (m.record k).revoked = false ∧ r'.revoked = false ∧ Retains (m.record k) r' := by
  cases h with
  | enrolled => cases hc
  | revoked => cases hc
  | transferred => cases hc
  | presented h => exact ⟨h.notRevoked, h.notRevoked, rfl, rfl, rfl, rfl, rfl⟩
  | objected h =>
      have hn := h.noted
      have hrev : (m.record k).revoked = false := by
        cases h with
        | present h => exact h.notRevoked
      exact ⟨hrev, hn.revoked.trans hrev, hn.enrolledInstance, hn.enrolledPlace, hn.transferAuthority,
        hn.transfers, hn.consumedGrants⟩

/-- A call that decides about an identity: a revocation, a transfer or an enrolment. -/
def Call.Decides (k : Bytes) (c : Call) : Prop := c.Revokes k ∨ c.Transfers k ∨ c.Enrolls k

/-- Such a call notes nothing. -/
theorem Writes.notes_nothing (h : Writes P cfg m t k c r') (hc : c.Decides k) :
    r'.contention = (m.record k).contention ∧ r'.witnessed = (m.record k).witnessed := by
  cases h with
  | enrolled => exact ⟨rfl, rfl⟩
  | revoked => exact ⟨rfl, rfl⟩
  | transferred => exact ⟨rfl, rfl⟩
  | presented => obtain h | h | h := hc <;> cases h
  | objected h =>
      cases h
      obtain h | h | h := hc <;> cases h

/-! ## What is to be left of it -/

/-- What is left of a call that read a record `got` and wrote `r'`, when the ledger holds
`final`: the notes it made, and the revocation, the move with the spent nonce, or the
enrolment. -/
structure EffectKept (k : Bytes) (c : Call) (got r' final : Record) : Prop where
  disputes : ∀ d ∈ r'.contention, d ∉ got.contention → d ∈ final.contention
  witnesses : ∀ w ∈ r'.witnessed, w ∉ got.witnessed → w ∈ final.witnessed
  revocation : c.Revokes k → final.revoked = true
  transfer : c.Transfers k → final.enrolledInstance = r'.enrolledInstance ∧
    ∀ nonce, c.Spends k nonce → nonce ∈ final.consumedGrants
  enrolment : c.Enrolls k → final.enrolledInstance = r'.enrolledInstance ∧
    final.enrolledPlace = r'.enrolledPlace ∧ final.transferAuthority = r'.transferAuthority

/-- The record a call wrote says what the call did. -/
theorem Writes.kept (h : Writes P cfg m t k c r') : EffectKept k c (m.record k) r' r' where
  disputes d hd _ := hd
  witnesses w hw _ := hw
  revocation hc := by
    cases h with
    | revoked => rfl
    | objected h => cases h; cases hc
    | _ => cases hc
  transfer hc := by
    refine ⟨rfl, fun nonce hspends => ?_⟩
    cases h with
    | transferred h hnonce =>
        obtain rfl := h.object
        rw [hspends.2] at hnonce
        rw [consumedGrants_moved, lastN_append_singleton (by omega), Option.some.inj hnonce]
        exact List.mem_concat_self
    | objected h => cases h; cases hc
    | _ => cases hc
  enrolment _ := ⟨rfl, rfl, rfl⟩

/-- What a presentation has noted, a decision that has read it leaves there. -/
theorem EffectKept.of_decides {d : Call} {got : Record} (h : Writes P cfg m t k c r') (hc : c.Decides k)
    (hd : d.Presents k) : EffectKept k d got (m.record k) r' := by
  obtain ⟨hcont, hwit⟩ := h.notes_nothing hc
  cases d with
  | present =>
      refine ⟨fun x hx _ => hcont ▸ hx, fun x hx _ => hwit ▸ hx, ?_, ?_, ?_⟩ <;> intro hno <;> cases hno
  | _ => cases hd

/-- What a call has decided, a presentation that has read it leaves in force. -/
theorem EffectKept.of_presents {d : Call} {got : Record} (h : Writes P cfg m t k c r') (hc : c.Presents k)
    (hd : EffectKept k d got (m.record k) (m.record k)) (hcont : (m.record k).contention = got.contention)
    (hwit : (m.record k).witnessed = got.witnessed) : EffectKept k d got (m.record k) r' := by
  obtain ⟨hrev, -, hret⟩ := h.retains hc
  constructor
  · intro x hx hno
    exact absurd (hcont ▸ hx) hno
  · intro w hw hno
    exact absurd (hwit ▸ hw) hno
  · intro hrevokes
    rw [hd.revocation hrevokes] at hrev
    cases hrev
  · intro htransfers
    refine ⟨hret.enrolledInstance, fun nonce hspends => ?_⟩
    rw [hret.consumedGrants]
    exact (hd.transfer htransfers).2 nonce hspends
  · intro _
    exact ⟨hret.enrolledInstance, hret.enrolledPlace, hret.transferAuthority⟩

/-- A presentation that has not read what a call decided undoes it.  A nonce is a value
that is equal to itself. -/
theorem not_kept_of_presents {P' : Primitives} {cfg' : Config} {m' : Mandate} {t' : Moment} {d : Call}
    {r'' : Record} (hd : Writes P' cfg' m' t' k d r'') (hdecides : d.Decides k)
    (hnonce : ∀ nonce, d.Spends k nonce → nonce.pyEq nonce = true)
    (hread : m'.record k = m.record k) (h : Writes P cfg m t k c r') (hc : c.Presents k) :
    ¬ EffectKept k d (m.record k) r'' r' := by
  intro hkept
  obtain ⟨-, hrev, hret⟩ := h.retains hc
  cases hd with
  | enrolled henr =>
      have hlost := (hkept.enrolment rfl).1
      rw [hret.enrolledInstance, ← hread, henr.fresh] at hlost
      cases hlost
  | revoked =>
      rw [hkept.revocation rfl] at hrev
      cases hrev
  | @transferred grant sig fields _ _ nonce hg hlookup =>
      have hspends : (Call.acceptTransfer k grant sig).Spends k nonce := by
        rw [hg.object]
        exact ⟨rfl, hlookup⟩
      have hmem := (hkept.transfer rfl).2 nonce hspends
      rw [hret.consumedGrants, ← hread] at hmem
      have hunspent := hg.unspent
      rw [Json.getD, hlookup, Option.getD_some, Json.pyMem, List.any_eq_false] at hunspent
      exact hunspent nonce hmem (hnonce nonce hspends)
  | presented => obtain hno | hno | hno := hdecides <;> cases hno
  | objected h =>
      cases h
      obtain hno | hno | hno := hdecides <;> cases hno

/-! ## Two mandates -/

/-- A mandate with one call to serve. -/
structure Party where
  cfg : Config
  mandate : Mandate
  time : Moment
  call : Call

/-- As a client of the store: it reads a record, and ends with what the call writes, or
without writing. -/
def Party.Ends (P : Primitives) (k : Bytes) (p : Party) (got : Record) : Option Record → Prop
  | some r' => Writes P p.cfg (p.mandate.put k got) p.time k p.call r'
  | none => ∀ r', ¬ Writes P p.cfg (p.mandate.put k got) p.time k p.call r'

/-- **What is promised of two calls**: the ledger still says what each of them wrote. -/
def NoLostUpdate (k : Bytes) (parties : Side → Party) (c : Cell Record) : Prop :=
  ∀ a got r', c.phase a = .returned got (some r') → EffectKept k (parties a).call got r' c.value

/-- A dispute or a witness that is new. -/
def Notes (r r' : Record) : Prop :=
  (∃ d ∈ r'.contention, d ∉ r.contention) ∨ ∃ w ∈ r'.witnessed, w ∉ r.witnessed

/-- Both read the record the ledger had, and both wrote: the presentation last, or first
and with something new to note. -/
def Overwritten (first : Record) (msgs : List (Message Record)) : Prop :=
  ∃ b a r r', msgs = [.get b, .get b.other, .ends a (some r), .ends a.other (some r')] ∧
    (a = .right ∨ Notes first r)

section Interleaved

variable {parties : Side → Party} {v : Record} {cell : Cell Record} {msgs : List (Message Record)}

theorem Party.Ends.kept {p : Party} {got r' : Record} (h : p.Ends P k got (some r')) :
    EffectKept k p.call got r' r' := by
  have hkept := Writes.kept h
  rwa [record_put_self] at hkept

/-- The promise, side by side. -/
theorem noLostUpdate_iff_of_outcome {a : Side} {put put' : Option Record} {got' : Record}
    (h : Outcome (fun a => (parties a).Ends P k) v msgs cell a put got' put') :
    NoLostUpdate k parties cell ↔ ∀ r, put = some r → EffectKept k (parties a).call v r cell.value := by
  constructor
  · intro hno r hr
    exact hno a v r (by rw [h.phase, hr])
  · intro hfirst b got r hb
    by_cases hba : b = a
    · subst hba
      rw [h.phase] at hb
      cases hb
      exact hfirst r rfl
    · obtain rfl := Side.eq_other hba
      rw [h.phase_other] at hb
      cases hb
      rw [h.value]
      exact h.second.kept

/-- Where the second to end had read what the first one wrote, both are kept. -/
theorem kept_of_serial {a : Side} {got r r' : Record} (hleft : (parties .left).call.Presents k)
    (hright : (parties .right).call.Decides k) (h : (parties a).Ends P k got (some r))
    (h' : (parties a.other).Ends P k r (some r')) : EffectKept k (parties a).call got r r' := by
  have hlast : Writes P (parties a.other).cfg ((parties a.other).mandate.put k r)
    (parties a.other).time k (parties a.other).call r' := h'
  have hrecord : ((parties a.other).mandate.put k r).record k = r := record_put_self _ _ _
  cases a with
  | left =>
      have hkept := @EffectKept.of_decides _ _ _ _ _ _ _ _ got hlast hright hleft
      rwa [hrecord] at hkept
  | right =>
      obtain ⟨hcont, hwit⟩ := Writes.notes_nothing h hright
      rw [record_put_self] at hcont hwit
      have hkept := EffectKept.of_presents hlast hleft (by rw [hrecord]; exact h.kept)
        (by rw [hrecord, hcont]) (by rw [hrecord, hwit])
      rwa [hrecord] at hkept

/-- Where both had read the same record, what was written first is kept if it was the
presentation and it noted nothing new. -/
theorem kept_of_overlap_iff {a : Side} {r r' : Record} (hleft : (parties .left).call.Presents k)
    (hright : (parties .right).call.Decides k)
    (hnonce : ∀ nonce, (parties .right).call.Spends k nonce → nonce.pyEq nonce = true)
    (h : (parties a).Ends P k v (some r)) (h' : (parties a.other).Ends P k v (some r')) :
    EffectKept k (parties a).call v r r' ↔ ¬ (a = .right ∨ Notes v r) := by
  cases a with
  | left =>
      obtain ⟨hcont, hwit⟩ := Writes.notes_nothing h' hright
      rw [record_put_self] at hcont hwit
      constructor
      · rintro hkept (hno | ⟨d, hd, hnew⟩ | ⟨w, hw, hnew⟩)
        · cases hno
        · exact hnew (hcont ▸ hkept.disputes d hd hnew)
        · exact hnew (hwit ▸ hkept.witnesses w hw hnew)
      · intro hno
        have hpresents := hleft
        generalize (parties .left).call = d at hpresents ⊢
        cases d with
        | present =>
            refine ⟨fun d hd hnew => absurd (.inr (.inl ⟨d, hd, hnew⟩)) hno,
              fun w hw hnew => absurd (.inr (.inr ⟨w, hw, hnew⟩)) hno, ?_, ?_, ?_⟩ <;>
              intro hdecides <;> cases hdecides
        | _ => cases hpresents
  | right =>
      constructor
      · intro hkept
        have hlost := not_kept_of_presents h hright hnonce (by rw [record_put_self, record_put_self])
          h' hleft
        rw [record_put_self] at hlost
        exact absurd hkept hlost
      · intro hno
        exact absurd (.inl rfl) hno

/-- **When no update is lost.**  Of a presentation of `k` at one mandate and a revocation,
a transfer or an enrolment of `k` at another one over the same ledger, in any order of
their messages, the ledger keeps what both wrote if and only if it is not the case that
both read before either wrote, both wrote, and the presentation wrote last or had
something new to note. -/
theorem no_lost_update_iff (hleft : (parties .left).call.Presents k)
    (hright : (parties .right).call.Decides k)
    (hnonce : ∀ nonce, (parties .right).call.Spends k nonce → nonce.pyEq nonce = true)
    (hruns : Runs (fun a => (parties a).Ends P k) (start v) msgs cell) (hdone : Done cell) :
    NoLostUpdate k parties cell ↔ ¬ Overwritten v msgs := by
  obtain ⟨a, put, got', put', hout⟩ := hruns.outcome hdone
  rw [noLostUpdate_iff_of_outcome hout, hout.value]
  have hfirst := hout.first
  have hsecond := hout.second
  rcases hout.order with ⟨rfl, hmsgs⟩ | ⟨rfl, b, hmsgs⟩
  · have hserial : ¬ Overwritten v msgs := by
      rintro ⟨b, a', r, r', heq, -⟩
      rw [hmsgs] at heq
      cases heq
    refine ⟨fun _ => hserial, fun _ => ?_⟩
    rintro r rfl
    cases put' with
    | none => exact hfirst.kept
    | some r' => exact kept_of_serial hleft hright hfirst hsecond
  · have hcovers : Overwritten got' msgs ↔ ∃ r r', put = some r ∧ put' = some r' ∧
        (a = .right ∨ Notes got' r) := by
      rw [hmsgs]
      constructor
      · rintro ⟨b', a', r, r', heq, hlost⟩
        simp only [List.cons.injEq, Message.get.injEq, Message.ends.injEq] at heq
        obtain ⟨-, -, ⟨rfl, rfl⟩, ⟨-, rfl⟩, -⟩ := heq
        exact ⟨r, r', rfl, rfl, hlost⟩
      · rintro ⟨r, r', rfl, rfl, hlost⟩
        exact ⟨b, a, r, r', rfl, hlost⟩
    rw [hcovers]
    cases put with
    | none =>
        refine ⟨fun _ => ?_, fun _ r hr => nomatch hr⟩
        rintro ⟨r, r', hr, -⟩
        cases hr
    | some r =>
        cases put' with
        | none =>
            refine ⟨fun _ => ?_, ?_⟩
            · rintro ⟨_, r', -, hr', -⟩
              cases hr'
            · rintro _ _ ⟨⟩
              exact hfirst.kept
        | some r' =>
            have hiff := kept_of_overlap_iff hleft hright hnonce hfirst hsecond
            constructor
            · rintro hkept ⟨_, _, ⟨⟩, -, hlost⟩
              exact hiff.mp (hkept r rfl) hlost
            · rintro hno _ ⟨⟩
              exact hiff.mpr fun hlost => hno ⟨r, r', rfl, rfl, hlost⟩

end Interleaved

section Stale

open Tee

/-- The owner's attester presents itself at one mandate while the identity is revoked at
another one. -/
def staleParties : Side → Party
  | .left => ⟨twoChips, new .plain fun _ => none, instant 2, (opening teeA [1] [2] 2).2⟩
  | .right => ⟨twoChips, new .plain fun _ => none, instant 2, .revoke tik "compromised"⟩

/-- What each of them writes, having read the record of an identity born on the chip. -/
theorem ends_stale :
    (staleParties .right).Ends .plain tik (bornOnA none)
      (some (revokedFor (bornOnA none) "compromised")) ∧
    (staleParties .left).Ends .plain tik (bornOnA none)
      (some { bornOnA none with
        observedInstance := some teeA.inst
        observedPlace := nonEmpty (Tee.present teeA.chip) }) := by
  constructor
  · have h : Writes .plain twoChips ((new .plain fun _ => none).put tik (bornOnA none)) (instant 2) tik
      (.revoke tik "compromised") _ := .revoked
    rwa [record_put_self] at h
  · have hwelcome : Welcome twoChips (((new .plain fun _ => none).put tik (bornOnA none)).record tik)
        teeA.inst := by
      rw [record_put_self]
      exact ⟨rfl, fun _ => rfl, fun e he => (Option.some.inj he).symm, fun o ho => nomatch ho⟩
    have h : Writes .plain twoChips ((new .plain fun _ => none).put tik (bornOnA none)) (instant 2) tik
      (opening teeA [1] [2] 2).2 _ :=
      .presented (admits_hello .plain twoChips teeA _ tik rfl teeA_trusted (by decide) hwelcome
        (fun h => nomatch h) rfl [] [2])
    rwa [record_put_self] at h

/-- **A revocation that is undone**: a presentation that was under way writes the record it
had read. -/
theorem revocation_overwritten : ∃ msgs cell,
    Runs (fun a => (staleParties a).Ends .plain tik) (start (bornOnA none)) msgs cell ∧ Done cell ∧
      ¬ NoLostUpdate tik staleParties cell := by
  obtain ⟨cell, hruns, hdone, hvalue, hphase⟩ := exists_overlap
    (fun a => (staleParties a).Ends .plain tik) ends_stale.1 ends_stale.2
  refine ⟨_, cell, hruns, hdone, fun hno => ?_⟩
  have hrevoked := (hno .right _ _ hphase).revocation rfl
  rw [hvalue] at hrevoked
  cases hrevoked

/-- The same run, in which the promise is not kept because both had read. -/
theorem no_lost_update_iff_stale : ∃ msgs cell,
    Runs (fun a => (staleParties a).Ends .plain tik) (start (bornOnA none)) msgs cell ∧ Done cell ∧
      (NoLostUpdate tik staleParties cell ↔ ¬ Overwritten (bornOnA none) msgs) := by
  obtain ⟨cell, hruns, hdone, -⟩ := exists_overlap
    (fun a => (staleParties a).Ends .plain tik) ends_stale.1 ends_stale.2
  have hleft : (staleParties .left).call.Presents tik := rfl
  have hright : (staleParties .right).call.Decides tik := .inl rfl
  have hnonce : ∀ nonce, (staleParties .right).call.Spends tik nonce → nonce.pyEq nonce = true :=
    fun _ h => nomatch h
  exact ⟨_, cell, hruns, hdone, no_lost_update_iff hleft hright hnonce hruns hdone⟩

end Stale

end Hatls
