import Mathlib.Data.List.Chain
import Hatls.Witnesses

/-!
# The chain of custody

How an identity comes to be where it is: it was enrolled once, and every move since was
granted by the authority named then, from the instance it was on, to an instance that
had shown valid evidence here not long before.  The history of moves on record is
contiguous, however much of it has been dropped.

## Main definitions

* `Contiguous` — each move on record starts where the one before ended.
* `Granted` — what is behind an accepted transfer, and what it does.
* `Custody`, `chain_of_custody` — the guarantee.
-/

namespace Hatls

open Mandate

variable {P : Primitives} {cfg : Config}

/-! ## The moves on record -/

/-- Each move starts where the one before it ended, and the last ended where the identity
is. -/
structure Contiguous (transfers : List TransferRecord) (enrolled : Option Bytes) : Prop where
  linked : transfers.IsChain fun a b => b.from_ = some a.to_
  ends : ∀ last, transfers.getLast? = some last → enrolled = some last.to_

/-- Dropping the oldest moves leaves the rest contiguous, and a move from where the
identity is extends them. -/
theorem Contiguous.move {transfers : List TransferRecord} {enrolled : Option Bytes}
    (h : Contiguous transfers enrolled) {n : ℕ} (hn : 0 < n) {next : TransferRecord}
    (hnext : next.from_ = enrolled) :
    Contiguous (lastN n (transfers ++ [next])) (some next.to_) where
  linked := by
    have hlinked : (transfers ++ [next]).IsChain fun a b => b.from_ = some a.to_ := by
      refine h.linked.append (.singleton next) fun a ha b hb => ?_
      obtain rfl : next = b := Option.some.inj hb
      rw [hnext, h.ends a ha]
    exact hlinked.drop _
  ends last hlast := by
    rw [lastN_append_singleton hn, List.getLast?_concat] at hlast
    rw [Option.some.inj hlast]

/-- The moves on record stay contiguous. -/
theorem Change.contiguous {m : Mandate} {t : Moment} {k : Bytes} {c : Call} {reply : Reply}
    {r' : Record} (hch : Change P cfg m t k c reply r')
    (h : Contiguous (m.record k).transfers (m.record k).enrolledInstance) :
    Contiguous r'.transfers r'.enrolledInstance := by
  cases hch with
  | enrolled henr =>
      refine ⟨h.linked, fun last hlast => ?_⟩
      have hsome := h.ends last hlast
      rw [henr.fresh] at hsome
      cases hsome
  | revoked => exact h
  | transferred => exact h.move (by omega) rfl
  | presented => exact h
  | noted _ hn => rwa [hn.transfers, hn.enrolledInstance]
  | same => exact h

/-! ## The guarantee -/

/-- What is behind an accepted transfer of `k` after a history, and what it does. -/
structure Granted (P : Primitives) (cfg : Config) (events : List Event) (t : Moment) (k : Bytes)
    (grant : Json) (sig : Bytes) (fields : List (String × Json)) (to_ : Bytes) : Prop where
  /-- The grant is for this identity, and signed by the authority on record. -/
  object : grant = .obj fields
  identity : (Json.getD fields "tik" .null).eqStr (Bytes.hex k) = true
  signed : ∃ authority,
    ((Process.after P cfg (fun _ => none) events).mandate.record k).transferAuthority =
      some authority ∧ Transfer.verifyGrant P authority grant sig = .ok ()
  /-- It is used inside its window. -/
  window : ∃ nbf exp, (Json.getD fields "nbf" (.int 0)).toInt = .ok nbf ∧
    (Json.getD fields "exp" (.int 0)).toInt = .ok exp ∧ nbf ≤ t.env.time ∧ t.env.time ≤ exp
  /-- It names the instance the identity is on, or declares any origin and names none. -/
  origin : ((Json.getD fields "from" .null).isNull = true ∧
      (Json.getD fields "any_origin" .null).truthy = true) ∨
    ∃ e, ((Process.after P cfg (fun _ => none) events).mandate.record k).enrolledInstance = some e ∧
      (Json.getD fields "from" .null).eqStr (Bytes.hex e) = true
  /-- It names a destination with a nonzero byte. -/
  destination : Json.getD fields "to" .null = .str (Bytes.hex to_) ∧ to_.any (· ≠ 0) = true
  /-- Valid evidence of the destination was shown, in a presentation for `k` that was not
  accepted, less than the time to live before: by the clock in whole seconds, and by the
  clock itself where the time to live is whole. -/
  witnessed : ∃ pre i post evidence w, events = pre ++ .call i :: post ∧
    Witnessing P (Process.after P cfg (fun _ => none) pre).cfg
      (Process.after P cfg (fun _ => none) pre).mandate k evidence w i ∧
    w.inst = to_ ∧
    let ttl := (Process.after P cfg (fun _ => none) events).cfg.witnessTtl
    ((t.env.time - i.1.env.time : ℤ) : ℚ) < ttl ∧ (∀ n : ℤ, ttl = n → t.now - i.1.now < ttl)
  /-- The identity is then on the destination, not observed anywhere, and in no session. -/
  moved : ∀ s', ((Process.after P cfg (fun _ => none) events).step P
      (.call (t, .acceptTransfer k grant sig))).2 = s' →
    (s'.mandate.record k).enrolledInstance = some to_ ∧
    (s'.mandate.record k).observedInstance = none ∧ ∀ key, key.1 = k → s'.mandate.sessions key = none
  /-- Nothing about other identities changes. -/
  others : ∀ s', ((Process.after P cfg (fun _ => none) events).step P
      (.call (t, .acceptTransfer k grant sig))).2 = s' →
    (∀ k', k' ≠ k →
      s'.mandate.record k' = (Process.after P cfg (fun _ => none) events).mandate.record k') ∧
    ∀ key, key.1 ≠ k →
      s'.mandate.sessions key = (Process.after P cfg (fun _ => none) events).mandate.sessions key

/-- What is promised about the custody of `k`, over all histories of calls and restarts
that start with an empty store. -/
structure Custody (P : Primitives) (cfg : Config) (k : Bytes) : Prop where
  /-- Nothing but an accepted enrolment or transfer changes the enrolled instance. -/
  changes : ∀ events e,
    (((Process.after P cfg (fun _ => none) events).step P e).2.mandate.record k).enrolledInstance ≠
      ((Process.after P cfg (fun _ => none) events).mandate.record k).enrolledInstance →
    (Process.after P cfg (fun _ => none) events).Accepted P (Call.Enrolls k) e ∨
      (Process.after P cfg (fun _ => none) events).Accepted P (Call.Transfers k) e
  /-- There is one enrolment. -/
  once : ∀ events e mid e',
    (Process.after P cfg (fun _ => none) events).Accepted P (Call.Enrolls k) e →
    ¬ (Process.after P cfg (fun _ => none) (events ++ e :: mid)).Accepted P (Call.Enrolls k) e'
  /-- The authority never changes after it. -/
  authority : ∀ events mid,
    ((Process.after P cfg (fun _ => none) events).mandate.record k).enrolledInstance.isSome →
    ((Process.after P cfg (fun _ => none) (events ++ mid)).mandate.record k).transferAuthority =
      ((Process.after P cfg (fun _ => none) events).mandate.record k).transferAuthority
  /-- Every move was granted. -/
  granted : ∀ events t grant sig,
    (Process.after P cfg (fun _ => none) events).Accepted P (Call.Transfers k)
      (.call (t, .acceptTransfer k grant sig)) →
    ∃ fields to_, Granted P cfg events t k grant sig fields to_
  /-- The moves on record are contiguous. -/
  contiguous : ∀ events,
    Contiguous ((Process.after P cfg (fun _ => none) events).mandate.record k).transfers
      ((Process.after P cfg (fun _ => none) events).mandate.record k).enrolledInstance

/-- The origin a grant names is the instance on record. -/
theorem enrolledOn_eq_true {r : Record} {j : Json} :
    r.enrolledOn j = true ↔ ∃ e, r.enrolledInstance = some e ∧ j.eqStr (Bytes.hex e) = true := by
  simp only [Record.enrolledOn]
  cases r.enrolledInstance <;> simp

/-- The witness of a destination, with its place in the history. -/
theorem Mandate.Grants.witnessed_before {events : List Event} {t : Moment} {k sig : Bytes} {grant : Json}
    {fields : List (String × Json)} {to_ : Bytes} {w : Witness}
    (h : Grants P (Process.after P cfg (fun _ => none) events).cfg t.env
      ((Process.after P cfg (fun _ => none) events).mandate.record k) k grant sig fields to_ w) :
    ∃ pre i post evidence, events = pre ++ .call i :: post ∧
      Witnessing P (Process.after P cfg (fun _ => none) pre).cfg
        (Process.after P cfg (fun _ => none) pre).mandate k evidence w i ∧
      ((t.env.time - w.at_ : ℤ) : ℚ) < (Process.after P cfg (fun _ => none) events).cfg.witnessTtl := by
  obtain ⟨toHex, -, -, hfind⟩ := h.destination
  obtain ⟨pre, i, post, evidence, heq, hwit⟩ := witnessed_origin (List.mem_of_find?_eq_some hfind)
  have hfresh := List.find?_some hfind
  simp only [Bool.and_eq_true, decide_eq_true_eq] at hfresh
  exact ⟨pre, i, post, evidence, heq, hwit, hfresh.2⟩

/-- Less than a whole number of seconds by the clock in whole seconds is less by the
clock. -/
theorem elapsed_lt_of_whole {t t' : Moment} {ttl : ℚ} {n : ℤ} (hn : ttl = n)
    (h : ((t'.env.time - t.env.time : ℤ) : ℚ) < ttl) : t'.now - t.now < ttl := by
  have hseconds : t'.env.time - t.env.time + 1 ≤ n := by
    rw [hn] at h
    exact_mod_cast h
  have hlast : t'.now < t'.env.time + 1 := Int.lt_floor_add_one t'.now
  have hfirst : (t.env.time : ℚ) ≤ t.now := Int.floor_le t.now
  have hcast : (t'.env.time : ℚ) - t.env.time + 1 ≤ n := by exact_mod_cast hseconds
  rw [hn]
  linarith

theorem granted_of_accepted {events : List Event} {t : Moment} {k : Bytes} {grant : Json} {sig : Bytes}
    (hacc : (Process.after P cfg (fun _ => none) events).Accepted P (Call.Transfers k)
      (.call (t, .acceptTransfer k grant sig))) :
    ∃ fields to_, Granted P cfg events t k grant sig fields to_ := by
  obtain ⟨_, hi, -, hacc⟩ := hacc
  obtain rfl := Event.call.inj hi
  obtain ⟨fields, to_, w, nonce, h, hnonce⟩ := grants_of_accepted _ t hacc
  obtain ⟨pre, i, post, evidence, heq, hwit, hfresh⟩ := h.witnessed_before
  have hafter : ((Process.after P cfg (fun _ => none) events).step P
      (.call (t, .acceptTransfer k grant sig))).2.mandate =
        (transferred t.env (Process.after P cfg (fun _ => none) events).mandate k fields to_ w
          nonce).recordDecision P (Process.after P cfg (fun _ => none) events).cfg t.env "transfer" k
            true transferredText (some to_) := by
    simp only [Process.step]
    rw [step_of_grants _ t h hnonce]
  refine ⟨fields, to_, h.object, h.identity, h.signed, Transfer.withinWindow_eq_true.mp h.window, ?_, ?_,
    ⟨pre, i, post, evidence, w, heq, hwit, h.inst_eq, hwit.time ▸ hfresh,
      fun n hn => elapsed_lt_of_whole hn (hwit.time ▸ hfresh)⟩, ?_, ?_⟩
  · exact h.origin.imp id fun hon => enrolledOn_eq_true.mp hon.2
  · obtain ⟨toHex, hto, -, hfind⟩ := h.destination
    have hhex := List.find?_some hfind
    simp only [Bool.and_eq_true, decide_eq_true_eq] at hhex
    exact ⟨by rw [hto, ← hhex.1, h.inst_eq], h.usable⟩
  · rintro s' rfl
    rw [hafter, record_recordDecision, record_transferred_self, sessions_recordDecision]
    exact ⟨rfl, rfl, fun key hkey => by rw [sessions_transferred, if_pos hkey]⟩
  · rintro s' rfl
    rw [hafter, sessions_recordDecision]
    exact ⟨fun k' hk => by rw [record_recordDecision, record_transferred_of_ne hk],
      fun key hkey => by rw [sessions_transferred, if_neg hkey]⟩

/-- The calls that change where an identity is enrolled. -/
theorem moves_of_changed {s : Process} {e : Event} {k : Bytes}
    (h : ((s.step P e).2.mandate.record k).enrolledInstance ≠ (s.mandate.record k).enrolledInstance) :
    s.Accepted P (Call.Enrolls k) e ∨ s.Accepted P (Call.Transfers k) e := by
  rcases s.step_change e k with ⟨t, c, rfl, hch⟩ | heq
  · generalize hreply : (s.mandate.step P s.cfg (t, c)).1 = reply at hch
    generalize ((s.step P (.call (t, c))).2.mandate.record k) = r' at hch h
    cases hch with
    | enrolled => exact .inl ⟨_, rfl, rfl, by rw [hreply]; rfl⟩
    | revoked => exact absurd rfl h
    | transferred => exact .inr ⟨_, rfl, rfl, by rw [hreply]; rfl⟩
    | presented => exact absurd rfl h
    | noted _ hn => exact absurd hn.enrolledInstance h
    | same => exact absurd rfl h
  · exact absurd (congrArg Record.enrolledInstance heq) h

/-- **The chain of custody.** -/
theorem chain_of_custody (P : Primitives) (cfg : Config) (k : Bytes) : Custody P cfg k where
  changes events e h := moves_of_changed h
  once events e mid e' hacc hacc' := not_enrolled_twice hacc hacc'
  authority events mid h := by
    rw [Process.after, Run.exec_append]
    exact (stays_enrolled_under h mid).2
  granted events t grant sig hacc := granted_of_accepted hacc
  contiguous events :=
    Process.record_after (fun r => Contiguous r.transfers r.enrolledInstance)
      ⟨.nil, fun _ h => nomatch h⟩ (fun _ _ _ _ _ _ _ hch h => hch.contiguous h) .empty cfg events k

section Handed

open Tee

/-- The owner's grant onto the second chip, and its signature. -/
def grantOntoB : Json := .obj (Transfer.grantFields tik teeB.inst (some teeA.inst) false (4 : ℕ) 900 [1])

def grantSignature : Bytes := Primitives.plain.ecdsa.sign owner [] grantOntoB.canonical

/-- It is accepted where the second chip was seen a second before. -/
theorem accepted_ontoB {m : Mandate}
    (hrec : m.record tik = noticed twoChips teeB (bornOnA (some owner)) 3) :
    Accepted .plain twoChips (Call.Transfers tik) m
      (instant 4, .acceptTransfer tik grantOntoB grantSignature) := by
  have hmovable : Movable (m.record tik) teeA.inst := by
    rw [hrec]
    exact movable_noticed twoChips teeB movable_bornOnA 3
  have hfresh : ((((4 : ℕ) : ℤ) - (3 : ℕ) : ℤ) : ℚ) < twoChips.witnessTtl := by
    norm_num [twoChips, mockMandate]
  have hstep := step_move twoChips teeB [1] hmovable (some teeA.inst) false (.inr rfl) 4
    (by rw [hrec]; rfl) teeB_trusted.usable (by rw [hrec]; exact find_noticed twoChips teeB _ 3 4 hfresh)
  rw [move] at hstep
  refine ⟨rfl, ?_⟩
  rw [grantSignature, grantOntoB, hstep]
  rfl

/-- The second chip is refused where the identity lives on the first. -/
def refusedB : List (Moment × Call) := birth (some owner) ++ [opening teeB [1] [2] 3]

theorem record_refusedB : (after .plain twoChips (fun _ => none) refusedB).record tik =
    noticed twoChips teeB (bornOnA (some owner)) 3 :=
  record_elsewhere trustsChips teeB_trusted (by decide) [1] [2] 3

/-- The identity is moved onto it: the owner granted that, and was and stays its authority.
It was enrolled before, and is not enrolled again. -/
theorem chain_of_custody_handed :
    (∃ fields, Granted .plain twoChips (refusedB.map .call) (instant 4) tik grantOntoB grantSignature
      fields teeB.inst) ∧
    (∀ mid, ((Process.after .plain twoChips (fun _ => none) (refusedB.map .call ++ mid)).mandate.record
      tik).transferAuthority = some (Primitives.plain.ecdsa.publicKey owner)) ∧
    ∀ mid e', ¬ (Process.after .plain twoChips (fun _ => none) ([.call (instant 0, .challenge [9])] ++
      .call (enrolment teeA [9] (some owner) 1) :: mid)).Accepted .plain (Call.Enrolls tik) e' := by
  have hcustody := chain_of_custody .plain twoChips tik
  have hrec : (Process.after .plain twoChips (fun _ => none) (refusedB.map .call)).mandate.record tik =
      noticed twoChips teeB (bornOnA (some owner)) 3 := by
    rw [Process.after_calls, record_refusedB]
  refine ⟨?_, ?_, ?_⟩
  · obtain ⟨fields, to_, hgranted⟩ := hcustody.granted (refusedB.map .call) (instant 4) grantOntoB
      grantSignature (Process.accepted_calls.mpr (accepted_ontoB record_refusedB))
    have hto : to_ = teeB.inst := by
      have hdest := hgranted.destination.1
      rw [← Json.obj.inj hgranted.object] at hdest
      exact (Bytes.hex_injective (Json.str.inj hdest)).symm
    exact ⟨fields, hto ▸ hgranted⟩
  · intro mid
    rw [hcustody.authority (refusedB.map .call) mid (by rw [hrec]; rfl), hrec]
    rfl
  · intro mid e'
    have henrolled : (Process.after .plain twoChips (fun _ => none)
        ([(instant 0, .challenge [9])].map .call)).Accepted .plain (Call.Enrolls tik)
          (.call (enrolment teeA [9] (some owner) 1)) :=
      Process.accepted_calls.mpr ⟨rfl, by rw [step_birth trustsChips (some owner)]; rfl⟩
    exact hcustody.once _ _ mid e' henrolled

end Handed

section Unanswered

open Tee Binder

/-- A first message that lacks its counter. -/
def uncounted (tee : MockTEE) (ctx exporter : Bytes) : Json :=
  let link := nextLink .plain exporter (firstLink .plain ctx tik) 0
  .obj [
    ("post_link", .str (Bytes.hex link)),
    ("evidence", tee.report .plain [] (reportDataFor .plain link none))]

def mumbling (tee : MockTEE) (ctx exporter : Bytes) (now : ℕ) : Moment × Call :=
  (instant now, .present tik ctx exporter (uncounted tee ctx exporter) none none)

/-- Shown by an impostor, it ends in an exception, and the impostor is noted. -/
theorem step_mumbling {m : Mandate} {tee : MockTEE} (htee : tee.Trusted .plain ["0a", "0b"])
    {e : Bytes} (h : Movable (m.record tik) e) (hne : tee.inst ≠ e) (ctx exporter : Bytes) (now : ℕ) :
    m.step .plain twoChips (mumbling tee ctx exporter now) =
      (.raised .keyError,
        m.put tik (((m.record tik).witness twoChips (instant now).env tee.inst
          (Tee.present tee.chip)).dispute (instant now).env "evidence from a non-enrolled instance")) := by
  have hverified : Verified .plain twoChips m tik (uncounted tee ctx exporter) none none
      (some tee.inst) (Tee.present tee.chip)
      (nextLink .plain exporter (firstLink .plain ctx tik) 0) := by
    refine ⟨h.notRevoked, ?_, rfl, ⟨some htee.anchor, ?_, rfl, rfl⟩, fun _ => rfl, by simp⟩
    · simp [postLinkOf, uncounted, Json.item, Json.lookup, Json.fromHex]
    · have hev : (uncounted tee ctx exporter).item "evidence" = .ok (tee.report .plain []
          (reportDataFor .plain (nextLink .plain exporter (firstLink .plain ctx tik) 0) none)) := by
        simp [uncounted, Json.item, Json.lookup]
      rw [verifyEvidence, hev]
      exact mockVerifier_report .plain htee [] _
  have hcounter : (uncounted tee ctx exporter).item "counter" = .error .keyError := by
    simp [uncounted, Json.item, Json.lookup]
  rw [mumbling, step_of_objects _ _ (.impostor hverified (by rw [h.enrolled, nonEmpty_some h.ne_nil]) hne),
    hcounter]

/-- The second chip is noted by the exception of a message that lacks its counter. -/
def overheard : List (Moment × Call) := birth (some owner) ++ [mumbling teeB [1] [2] 3]

/-- **A transfer onto an instance that was never refused.**  Every call of the run that
answered was accepted, and the identity is moved onto the second chip. -/
theorem transferred_unrefused :
    Run.Along (step .plain twoChips)
      (fun m i => ∀ v, (m.step .plain twoChips i).1 = .decision v → v.ok = true)
      (new .plain fun _ => none) overheard ∧
    Accepted .plain twoChips (Call.Transfers tik) (after .plain twoChips (fun _ => none) overheard)
      (move teeB (some teeA.inst) false [1] 4) := by
  have hmumble := step_mumbling teeB_trusted (movable_birth trustsChips) (by decide) [1] [2] 3
  constructor
  · have hchallenge : Run.Along (step .plain twoChips)
        (fun m i => ∀ v, (m.step .plain twoChips i).1 = .decision v → v.ok = true)
        (new .plain fun _ => none) [(instant 0, .challenge [9])] :=
      ⟨fun v hv => (nomatch hv), trivial⟩
    rw [overheard, along_concat]
    refine ⟨(along_concat _ _ _ _ _).mpr ⟨hchallenge, fun v hv => ?_⟩, fun v hv => ?_⟩
    · rw [step_birth trustsChips] at hv
      rw [← Reply.decision.inj hv]
    · rw [hmumble] at hv
      cases hv
  · refine accepted_ontoB ?_
    rw [overheard, after_concat, hmumble, record_put_self, record_birth trustsChips]
    rfl

end Unanswered

end Hatls
