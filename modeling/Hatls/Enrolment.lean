import Hatls.Tee

/-!
# Enrolment over whole histories

What stands behind an identity on the ledger, over any order of challenges, failed
attempts, competing enrolments and restarts.

The table of challenges lives in the process and the record in the store.  An entry
of the table was made by a challenge of this very process, and nothing but an accepted
enrolment spends it without a refusal; the record knows that it has an instance, and
no call makes it forget.

## Main definitions

* `Call.Redeems` — the enrolments for one challenge.
* `draws` — the nonces drawn in a history.
* `Enrolment`, `EnrolmentSound`, `enrolment_sound` — the guarantee.
-/

namespace Hatls

open Mandate

variable {P : Primitives} {cfg : Config}

/-- An enrolment for a challenge. -/
def Call.Redeems (nonce : Bytes) : Call → Prop
  | .enroll _ _ nonce' .. => nonce' = nonce
  | _ => False

/-- The nonce an event draws. -/
def Event.drawn : Event → Option Bytes
  | .call (_, .challenge nonce) => some nonce
  | _ => none

/-- The nonces drawn in a history. -/
def draws (events : List Event) : List Bytes := events.filterMap Event.drawn

theorem mem_draws (pre post : List Event) (t : Moment) (nonce : Bytes) :
    nonce ∈ draws (pre ++ .call (t, .challenge nonce) :: post) := by
  simp [draws, Event.drawn]

/-! ## Challenges -/

/-- **An outstanding challenge** was issued by this call, or was outstanding before and
has not been redeemed by it. -/
theorem challenges_step {m : Mandate} {i : Moment × Call} {nonce : Bytes} {expiry : ℚ}
    (h : (m.step P cfg i).2.challenges nonce = some expiry) :
    (i.2 = .challenge nonce ∧ expiry = i.1.now + cfg.challengeTtl) ∨
      m.challenges nonce = some expiry ∧ ¬ Accepted P cfg (Call.Redeems nonce) m i := by
  obtain ⟨t, c⟩ := i
  cases c with
  | challenge nonce' =>
      rw [step_challenge, challenges_challenge] at h
      by_cases heq : nonce = nonce'
      · subst heq
        rw [Function.update_self] at h
        exact .inl ⟨rfl, (Option.some.inj h).symm⟩
      · rw [Function.update_of_ne heq, Option.filter_eq_some_iff] at h
        exact .inr ⟨h.1, fun hacc => hacc.1⟩
  | enroll k evidence nonce' csrDer authority authorisation sig =>
      right
      rcases enrollCore_cases P cfg m k nonce' csrDer evidence authority authorisation sig
        t.env_putOk with ⟨anchor, henr, -⟩ | ⟨challenges, answer, heq, hch, hno⟩
      · rw [step_of_enrols m t henr, challenges_recordDecision, challenges_enrolledAs] at h
        by_cases hn : nonce = nonce'
        · simp [hn] at h
        · rw [Function.update_of_ne hn] at h
          exact ⟨h, fun hacc => hn hacc.1.symm⟩
      · have hkept : m.challenges nonce = some expiry := by
          have hout : challenges nonce = some expiry := by
            rw [← h]
            rcases answer with x | ⟨ok, why⟩ <;> simp only [step, enroll, heq] <;> rfl
          rcases hch with rfl | ⟨rfl, -⟩
          · exact hout
          · by_cases hn : nonce = nonce'
            · simp [hn] at hout
            · rwa [Function.update_of_ne hn] at hout
        refine ⟨hkept, fun hacc => ?_⟩
        have hrefused := hacc.2
        rcases answer with x | ⟨ok, why⟩
        · simp [step, enroll, heq, Reply.ofAnswer, Reply.accepted] at hrefused
        · cases ok with
          | true => exact hno why rfl
          | false => simp [step, enroll, heq, Reply.ofAnswer, Reply.accepted] at hrefused
  | revoke k reason =>
      rw [step_revoke] at h
      exact .inr ⟨h, fun hacc => hacc.1⟩
  | acceptTransfer k grant sig =>
      refine .inr ⟨?_, fun hacc => hacc.1⟩
      rcases acceptTransfer_cases P cfg k sig grant m t.env_putOk with
        ⟨fields, to_, w, n, hg, hn, -⟩ | ⟨x, heq⟩ | ⟨reason, heq⟩
      · rwa [step_of_grants m t hg hn, challenges_recordDecision, challenges_transferred] at h
      · simpa only [step, heq, Prod.map, id] using h
      · simpa only [step, heq, Prod.map, id, challenges_recordDecision] using h
  | present k ctx exporter msg head bundle =>
      refine .inr ⟨?_, fun hacc => hacc.1⟩
      rw [← h]
      rcases appraise_cases P cfg m k ctx exporter msg t.env_putOk head bundle with
        ⟨inst, place, pl, n, hadm, -⟩ | ⟨-, hst⟩
      · rw [step_of_admits m t hadm, challenges_recordDecision, challenges_admitted]
      · have hsame : (m.appraise P cfg t.env k ctx exporter msg head bundle).2.challenges =
            m.challenges := by
          rcases hst with hst | ⟨r', _, _, -, hst⟩ <;> rw [hst]
          rfl
        simp only [step, present]
        generalize m.appraise P cfg t.env k ctx exporter msg head bundle = out at hsame
        obtain ⟨answer, m'⟩ := out
        cases answer with
        | error x => exact (congrFun hsame nonce).symm
        | ok v => exact (congrFun hsame nonce).symm

/-- A call that leaves a challenge to be redeemed. -/
def Spares (P : Primitives) (nonce : Bytes) (s : Process) (e : Event) : Prop :=
  (∃ i, e = .call i) ∧ ¬ s.Accepted P (Call.Redeems nonce) e

/-- **An outstanding challenge was issued by this process**, and has not been redeemed
since. -/
theorem issued_of_outstanding {ledger : Bytes → Option Record} {events : List Event} {nonce : Bytes}
    {expiry : ℚ}
    (h : (Process.after P cfg ledger events).mandate.challenges nonce = some expiry) :
    ∃ pre t post, events = pre ++ .call (t, .challenge nonce) :: post ∧
      expiry = t.now + (Process.after P cfg ledger events).cfg.challengeTtl ∧
      Run.Along (Process.step P) (Spares P nonce)
        ((Process.after P cfg ledger pre).step P (.call (t, .challenge nonce))).2 post := by
  generalize hcfg : (Process.after P cfg ledger events).cfg = cfg'
  have hstep : ∀ (s : Process) (e : Event),
      (s.step P e).2.mandate.challenges nonce = some expiry ∧ (s.step P e).2.cfg = cfg' →
      (∃ t, e = .call (t, .challenge nonce) ∧ expiry = t.now + cfg'.challengeTtl) ∨
        (s.mandate.challenges nonce = some expiry ∧ s.cfg = cfg') ∧ Spares P nonce s e := by
    intro s e hs
    cases e with
    | restart cfg'' => cases hs.1
    | call i =>
        obtain ⟨hch, rfl⟩ := hs
        rcases challenges_step hch with ⟨hc, hexp⟩ | ⟨hkept, hno⟩
        · exact .inl ⟨i.1, by rw [← hc], hexp⟩
        · refine .inr ⟨⟨hkept, rfl⟩, ⟨i, rfl⟩, ?_⟩
          intro hacc
          obtain ⟨i', hi, hacc⟩ := hacc
          obtain rfl := Event.call.inj hi
          exact hno hacc
  rcases Run.origin (Process.step P)
      (fun s => s.mandate.challenges nonce = some expiry ∧ s.cfg = cfg')
      (fun _ e => ∃ t, e = .call (t, .challenge nonce) ∧ expiry = t.now + cfg'.challengeTtl)
      (Spares P nonce) hstep ⟨h, hcfg⟩ with
    ⟨⟨hnone, -⟩, -⟩ | ⟨pre, e, post, heq, ⟨t, rfl, hexp⟩, halong⟩
  · cases hnone
  · exact ⟨pre, t, post, heq, hexp, halong⟩

/-! ## Records -/

/-- An enrolled identity stays enrolled, under the authority it was enrolled with. -/
theorem Change.enrolled_stays {m : Mandate} {t : Moment} {k : Bytes} {c : Call} {reply : Reply}
    {r' : Record} (hch : Change P cfg m t k c reply r')
    (h : (m.record k).enrolledInstance.isSome) :
    r'.enrolledInstance.isSome ∧ r'.transferAuthority = (m.record k).transferAuthority := by
  cases hch with
  | enrolled henr => simp [henr.fresh] at h
  | revoked => exact ⟨h, rfl⟩
  | transferred => exact ⟨rfl, rfl⟩
  | presented => exact ⟨h, rfl⟩
  | noted _ hn => exact ⟨by rwa [hn.enrolledInstance], hn.transferAuthority⟩
  | same => exact ⟨h, rfl⟩

/-- Who is not enrolled has named no authority. -/
theorem Change.unowned {m : Mandate} {t : Moment} {k : Bytes} {c : Call} {reply : Reply}
    {r' : Record} (hch : Change P cfg m t k c reply r')
    (h : (m.record k).enrolledInstance = none → (m.record k).transferAuthority = none) :
    r'.enrolledInstance = none → r'.transferAuthority = none := by
  cases hch with
  | enrolled => intro hnone; cases hnone
  | revoked => exact h
  | transferred => intro hnone; cases hnone
  | presented => exact h
  | noted _ hn => rw [hn.enrolledInstance, hn.transferAuthority]; exact h
  | same => exact h

/-- **No history undoes an enrolment**, or changes the authority over it. -/
theorem stays_enrolled_under {s : Process} {k : Bytes}
    (h : (s.mandate.record k).enrolledInstance.isSome) (events : List Event) :
    ((Run.exec (Process.step P) s events).mandate.record k).enrolledInstance.isSome ∧
      ((Run.exec (Process.step P) s events).mandate.record k).transferAuthority =
        (s.mandate.record k).transferAuthority := by
  refine Run.exec_invariant' (Process.step P)
    (fun s' => (s'.mandate.record k).enrolledInstance.isSome ∧
      (s'.mandate.record k).transferAuthority = (s.mandate.record k).transferAuthority)
    (fun s' e hs' => ?_) events ⟨h, rfl⟩
  rcases s'.step_change e k with ⟨t, c, -, hch⟩ | heq
  · obtain ⟨hsome, hauth⟩ := hch.enrolled_stays hs'.1
    exact ⟨hsome, hauth.trans hs'.2⟩
  · rwa [heq]

/-! ## The guarantee -/

/-- What is behind an accepted enrolment, and what the record of the identity says after
it. -/
structure Enrolment (P : Primitives) (s : Process) (t : Moment) (k : Bytes) (evidence : Json)
    (nonce csrDer : Bytes) (authority : Option Bytes) (authorisation : Option Json)
    (sig : Option Bytes) : Prop where
  /-- The request is signed by the key it carries, which is the key enrolled. -/
  possession : ∃ csr, P.loadCsr csrDer = .ok csr ∧ csr.isSignatureValid = true ∧ csr.spki = k
  /-- The authority, where there is one, has permitted it. -/
  permitted : ∀ a, s.cfg.enrolmentAuthority = some a → ∃ fields signature,
    authorisation = some (.obj fields) ∧ sig = some signature ∧
      Transfer.Authorises P a fields signature k nonce t.env.time
  /-- The evidence is for this challenge and this request, and the record is about its
  anchor. -/
  anchored : ∃ anchor, s.cfg.verifyReport evidence (P.sha512 (nonce ++ csrDer)) =
      .ok (true, some anchor) ∧ (s.cfg.requirePlace = true → anchor.place.isSome) ∧
    let r := (s.step P (.call (t, .enroll k evidence nonce csrDer authority authorisation
      sig))).2.mandate.record k
    r.enrolledInstance = some anchor.inst ∧ r.enrolledPlace = nonEmpty anchor.place ∧
      r.transferAuthority = authority

/-- What is promised about enrolment, over all histories of a store: `events` are the
calls and restarts before an enrolment, and `mid` are those between two. -/
structure EnrolmentSound (P : Primitives) (cfg : Config) (ledger : Bytes → Option Record) : Prop where
  /-- First write wins. -/
  once : ∀ k events e mid e',
    (Process.after P cfg ledger events).Accepted P (Call.Enrolls k) e →
    ¬ (Process.after P cfg ledger (events ++ e :: mid)).Accepted P (Call.Enrolls k) e'
  /-- A nonce redeemed twice was drawn again in between. -/
  redrawn : ∀ nonce events e mid e',
    (Process.after P cfg ledger events).Accepted P (Call.Redeems nonce) e →
    (Process.after P cfg ledger (events ++ e :: mid)).Accepted P (Call.Redeems nonce) e' →
    nonce ∈ draws mid
  /-- Where no nonce is drawn twice, none is redeemed twice. -/
  spent : ∀ nonce events e mid e', (draws (events ++ e :: mid)).Nodup →
    (Process.after P cfg ledger events).Accepted P (Call.Redeems nonce) e →
    ¬ (Process.after P cfg ledger (events ++ e :: mid)).Accepted P (Call.Redeems nonce) e'
  /-- The nonce was issued by this process, less than the time to live before. -/
  issued : ∀ nonce events t c,
    (Process.after P cfg ledger events).Accepted P (Call.Redeems nonce) (.call (t, c)) →
    ∃ pre t₀ mid, events = pre ++ .call (t₀, .challenge nonce) :: mid ∧
      (∀ e ∈ mid, ∃ i, e = .call i) ∧
      t.now - t₀.now < (Process.after P cfg ledger events).cfg.challengeTtl
  /-- All the rest. -/
  sound : ∀ events t k evidence nonce csrDer authority authorisation sig,
    (Process.after P cfg ledger events).Accepted P (Call.Enrolls k)
      (.call (t, .enroll k evidence nonce csrDer authority authorisation sig)) →
    Enrolment P (Process.after P cfg ledger events) t k evidence nonce csrDer authority
      authorisation sig

/-- An accepted enrolment, by its arguments. -/
theorem Process.enrols_of_accepted {s : Process} {e : Event} {nonce : Bytes}
    (h : s.Accepted P (Call.Redeems nonce) e) :
    ∃ t k evidence csrDer authority authorisation sig anchor,
      e = .call (t, .enroll k evidence nonce csrDer authority authorisation sig) ∧
      Enrols P s.cfg t.env s.mandate k evidence nonce csrDer authorisation sig anchor := by
  obtain ⟨⟨t, c⟩, rfl, hc, hacc⟩ := h
  cases c with
  | enroll k evidence nonce' csrDer authority authorisation sig =>
      obtain rfl : nonce' = nonce := hc
      obtain ⟨anchor, henr⟩ := s.mandate.enrols_of_accepted t hacc
      exact ⟨t, k, evidence, csrDer, authority, authorisation, sig, anchor, rfl, henr⟩
  | _ => exact absurd hc (by simp [Call.Redeems])

/-- The challenge of an accepted enrolment is outstanding; it was issued by this process
and has not been redeemed. -/
theorem issued_of_redeems {ledger : Bytes → Option Record} {events : List Event} {e : Event}
    {nonce : Bytes} (h : (Process.after P cfg ledger events).Accepted P (Call.Redeems nonce) e) :
    ∃ pre t₀ post, events = pre ++ .call (t₀, .challenge nonce) :: post ∧
      (∀ i, e = .call i → i.1.now < t₀.now + (Process.after P cfg ledger events).cfg.challengeTtl) ∧
      Run.Along (Process.step P) (Spares P nonce)
        ((Process.after P cfg ledger pre).step P (.call (t₀, .challenge nonce))).2 post := by
  obtain ⟨t, k, evidence, csrDer, authority, authorisation, sig, anchor, rfl, henr⟩ :=
    Process.enrols_of_accepted h
  obtain ⟨expiry, hout, hnow⟩ := henr.issued
  obtain ⟨pre, t₀, post, heq, rfl, halong⟩ := issued_of_outstanding hout
  refine ⟨pre, t₀, post, heq, fun i hi => ?_, halong⟩
  obtain rfl := Event.call.inj hi
  exact hnow

/-- Of two enrolments by one nonce, the second is for a challenge issued after the first. -/
theorem redrawn_of_redeems {ledger : Bytes → Option Record} {events mid : List Event} {e e' : Event}
    {nonce : Bytes} (h : (Process.after P cfg ledger events).Accepted P (Call.Redeems nonce) e)
    (h' : (Process.after P cfg ledger (events ++ e :: mid)).Accepted P (Call.Redeems nonce) e') :
    nonce ∈ draws mid := by
  obtain ⟨pre, t₀, post, heq, -, halong⟩ := issued_of_redeems h'
  rcases List.append_eq_append_iff.mp heq with ⟨more, rfl, hmid⟩ | ⟨more, rfl, hpost⟩
  · cases more with
    | nil =>
        -- the challenge would be the enrolment itself
        obtain ⟨rfl, -⟩ := List.cons.inj hmid
        obtain ⟨_, hi, hacc⟩ := h
        obtain rfl := Event.call.inj hi
        exact absurd hacc.1 (by simp [Call.Redeems])
    | cons e₁ more =>
        obtain ⟨-, rfl⟩ := List.cons.inj hmid
        exact mem_draws more post t₀ nonce
  · cases more with
    | nil =>
        obtain ⟨rfl, -⟩ := List.cons.inj hpost
        obtain ⟨_, hi, hacc⟩ := h
        obtain rfl := Event.call.inj hi
        exact absurd hacc.1 (by simp [Call.Redeems])
    | cons e₁ more =>
        -- the first enrolment would come after the challenge and before the second
        obtain ⟨rfl, rfl⟩ := List.cons.inj hpost
        obtain ⟨-, ⟨-, hno⟩, -⟩ := (Run.along_append _ _ _ _).mp halong
        rw [← Process.after_append] at hno
        exact absurd h hno

/-- An accepted enrolment of an identity, by its arguments. -/
theorem Process.enrolls_of_accepted {s : Process} {e : Event} {k : Bytes}
    (h : s.Accepted P (Call.Enrolls k) e) :
    ∃ t evidence nonce csrDer authority authorisation sig anchor,
      e = .call (t, .enroll k evidence nonce csrDer authority authorisation sig) ∧
      Enrols P s.cfg t.env s.mandate k evidence nonce csrDer authorisation sig anchor ∧
      (s.step P e).2.mandate.record k = { s.mandate.record k with
        enrolledInstance := some anchor.inst
        enrolledPlace := nonEmpty anchor.place
        transferAuthority := authority.or (s.mandate.record k).transferAuthority } := by
  obtain ⟨⟨t, c⟩, rfl, hc, hacc⟩ := h
  cases c with
  | enroll k' evidence nonce csrDer authority authorisation sig =>
      obtain rfl : k' = k := hc
      obtain ⟨anchor, henr⟩ := s.mandate.enrols_of_accepted t hacc
      refine ⟨t, evidence, nonce, csrDer, authority, authorisation, sig, anchor, rfl, henr, ?_⟩
      simp only [Process.step]
      rw [step_of_enrols s.mandate t henr, record_recordDecision, record_enrolledAs_self]
  | _ => exact absurd hc (by simp [Call.Enrolls])

/-- First write wins. -/
theorem not_enrolled_twice {ledger : Bytes → Option Record} {events mid : List Event} {e e' : Event}
    {k : Bytes} (hacc : (Process.after P cfg ledger events).Accepted P (Call.Enrolls k) e) :
    ¬ (Process.after P cfg ledger (events ++ e :: mid)).Accepted P (Call.Enrolls k) e' := by
  intro hacc'
  obtain ⟨_, _, _, _, _, _, _, anchor, -, -, hrec⟩ := Process.enrolls_of_accepted hacc
  obtain ⟨_, _, _, _, _, _, _, _, -, henr, -⟩ := Process.enrolls_of_accepted hacc'
  have hfirst : (((Process.after P cfg ledger events).step P e).2.mandate.record k).enrolledInstance.isSome := by
    rw [hrec]
    rfl
  have hlast := (stays_enrolled_under (P := P) hfirst mid).1
  rw [← Process.after_append, henr.fresh] at hlast
  cases hlast

theorem possession_of_csrPublicKeyDer {csrDer k : Bytes} (h : csrPublicKeyDer P csrDer = .ok k) :
    ∃ csr, P.loadCsr csrDer = .ok csr ∧ csr.isSignatureValid = true ∧ csr.spki = k := by
  simp only [csrPublicKeyDer] at h
  split at h
  · cases h
  next csr hcsr =>
  split at h
  next hvalid => exact ⟨csr, hcsr, hvalid, Except.ok.inj h⟩
  · cases h

theorem authorises_of_permitted {env : Env} {k nonce : Bytes} {authorisation : Option Json}
    {sig : Option Bytes} {why : String}
    (h : permitted P cfg env k nonce authorisation sig = .ok (true, why)) {a : Bytes}
    (ha : cfg.enrolmentAuthority = some a) :
    ∃ fields signature, authorisation = some (.obj fields) ∧ sig = some signature ∧
      Transfer.Authorises P a fields signature k nonce env.time := by
  simp only [permitted, ha] at h
  split at h
  next body signature =>
    obtain ⟨fields, rfl, hauth⟩ := Transfer.authorises_of_verify P h
    exact ⟨fields, signature, rfl, rfl, hauth⟩
  · simp at h

/-- **Enrolment is sound, first-write-wins, and spends its nonce**, over all histories of
a store that only mandates have written. -/
theorem enrolment_sound (cfg : Config) {ledger : Bytes → Option Record} (hledger : Written P ledger) :
    EnrolmentSound P cfg ledger where
  once k events e mid e' hacc hacc' := not_enrolled_twice hacc hacc'
  redrawn nonce events e mid e' hacc hacc' := redrawn_of_redeems hacc hacc'
  spent nonce events e mid e' hdraws hacc hacc' := by
    obtain ⟨pre, t₀, post, rfl, -, -⟩ := issued_of_redeems hacc
    have hagain := redrawn_of_redeems hacc hacc'
    have hfirst := mem_draws pre post t₀ nonce
    have hsplit : draws ((pre ++ Event.call (t₀, .challenge nonce) :: post) ++ e :: mid) =
        draws (pre ++ Event.call (t₀, .challenge nonce) :: post) ++ draws (e :: mid) :=
      List.filterMap_append
    have hlater : nonce ∈ draws (e :: mid) := by
      simp only [draws, List.filterMap_cons]
      split
      · exact hagain
      · exact List.mem_cons_of_mem _ hagain
    rw [hsplit] at hdraws
    exact (List.nodup_append.mp hdraws).2.2 _ hfirst _ hlater rfl
  issued nonce events t c hacc := by
    obtain ⟨pre, t₀, mid, heq, hnow, halong⟩ := issued_of_redeems hacc
    refine ⟨pre, t₀, mid, heq, fun e he => ?_, ?_⟩
    · obtain ⟨xs, ys, rfl⟩ := List.append_of_mem he
      exact ((Run.along_iff_forall_split _).mp halong xs e ys rfl).1
    · have hlt := hnow (t, c) rfl
      simp only at hlt
      linarith
  sound events t k evidence nonce csrDer authority authorisation sig hacc := by
    obtain ⟨_, _, _, _, _, _, _, anchor, heq, henr, hrec⟩ := Process.enrolls_of_accepted hacc
    obtain ⟨rfl, hc⟩ := Prod.mk.inj (Event.call.inj heq)
    obtain ⟨-, rfl, rfl, rfl, rfl, rfl, rfl⟩ := Call.enroll.inj hc
    obtain ⟨why, hperm⟩ := henr.permitted
    have hnone := Process.record_after (fun r => r.enrolledInstance = none → r.transferAuthority = none)
      (fun _ => rfl) (fun _ _ _ _ _ _ _ hch h => hch.unowned h) hledger cfg events k henr.fresh
    refine ⟨possession_of_csrPublicKeyDer henr.possession, fun a ha => authorises_of_permitted hperm ha,
      anchor, henr.verified, henr.placed, ?_⟩
    rw [hrec, hnone, Option.or_none]
    exact ⟨rfl, rfl, rfl⟩

open Tee in
/-- A mandate over an empty store enrols an identity, and makes the promise. -/
theorem enrolment_sound_twoChips :
    (Process.after .plain twoChips (fun _ => none)
      ([(instant 0, .challenge [9])].map .call)).Accepted .plain (Call.Enrolls tik)
        (.call (enrolment teeA [9] none 1)) ∧
      EnrolmentSound .plain twoChips fun _ => none := by
  refine ⟨⟨_, rfl, rfl, ?_⟩, enrolment_sound twoChips .empty⟩
  rw [Process.after_calls, step_birth trustsChips]
  rfl

end Hatls
