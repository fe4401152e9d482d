import Hatls.Custody
import Hatls.Safety

/-!
# Pinned to silicon

A mandate that requires a place pins an identity to the place it was enrolled at, and a
transfer pins it to the place its witness was noted with.  The pin holds for as long as
the identity stays on the instance: what the record says about the place of an instance
never contradicts what its witnesses say, even where an identity is moved onto the
instance it is already on.  A witness without a place pins nothing.

## Main definitions

* `Settled` — the places of a record do not contradict each other.
* `Pins` — an enrolment or a transfer that stores a place.
* `Held`, `held_step` — an instance that is served is held to one place.
* `SiliconPinned`, `silicon_pinned` — the guarantee.
-/

namespace Hatls

open Mandate

variable {P : Primitives} {cfg : Config}

/-- Nothing but the instance is observed. -/
def Undisputed (r : Record) (e : Bytes) : Prop :=
  ∀ o, nonEmpty r.observedInstance = some o → o = e

/-- **The places of a record do not contradict each other.** -/
structure Settled (r : Record) : Prop where
  usable : ∀ e, r.enrolledInstance = some e → e ≠ []
  /-- An instance is witnessed once. -/
  distinct : (r.witnessed.map Witness.inst).Nodup
  /-- Before the enrolment, the witnesses are rivals of the instance observed. -/
  rivals : r.enrolledInstance = none → ∀ w ∈ r.witnessed,
    ∃ o, nonEmpty r.observedInstance = some o ∧ w.inst ≠ o
  /-- Where nothing but the enrolled instance is observed, its witness is of the place it is
  pinned to. -/
  home : ∀ e, r.enrolledInstance = some e → Undisputed r e →
    ∀ w ∈ r.witnessed, w.inst = e → w.place = r.enrolledPlace

theorem settled_blank : Settled .blank where
  usable e h := by cases h
  distinct := .nil
  rivals _ w hw := by cases hw
  home e h := by cases h

/-- Noting an instance replaces its witness. -/
theorem distinct_witness {r : Record} (h : (r.witnessed.map Witness.inst).Nodup) (env : Env)
    (i : Bytes) (place : Option Bytes) :
    ((r.witness cfg env i place).witnessed.map Witness.inst).Nodup := by
  refine ((List.drop_sublist _ _).map Witness.inst).nodup ?_
  rw [List.map_append, List.map_singleton, List.nodup_append]
  refine ⟨(List.filter_sublist.map Witness.inst).nodup h, List.nodup_singleton _, ?_⟩
  intro a ha b hb heq
  obtain ⟨w, hw, rfl⟩ := List.mem_map.mp ha
  have hfilter := (List.mem_filter.mp hw).2
  rw [Bool.and_eq_true, decide_eq_true_eq] at hfilter
  exact hfilter.1 (heq.trans (List.mem_singleton.mp hb))

/-- A witness that speaks neither of the instance served nor of one observed. -/
def Foreign (r : Record) (i : Bytes) : Prop :=
  (∀ e, r.enrolledInstance = some e → Undisputed r e → i ≠ e) ∧
    (r.enrolledInstance = none → ∃ o, nonEmpty r.observedInstance = some o ∧ i ≠ o)

/-- An instance that presents from elsewhere is foreign. -/
theorem Elsewhere.foreign {m : Mandate} {k : Bytes} {msg : Json} {head : Option Bytes}
    {bundle : Option Json} {i : Bytes} {place : Option Bytes}
    (h : Elsewhere P cfg m k msg head bundle i place) : Foreign (m.record k) i := by
  cases h with
  | enrolled _ hen hne =>
      obtain ⟨hen, -⟩ := nonEmpty_eq_some.mp hen
      constructor
      · intro e he _ heq
        rw [hen] at he
        exact hne (heq.trans (Option.some.inj he).symm)
      · intro hnone
        rw [hen] at hnone
        cases hnone
  | observed _ _ hhome _ hob hne =>
      constructor
      · intro e he hund heq
        exact hne (heq.trans (hund _ hob).symm)
      · intro _
        exact ⟨_, hob, hne⟩

/-- New witnesses that are foreign leave the record settled. -/
theorem Settled.of_foreign {r r' : Record} (h : Settled r)
    (hen : r'.enrolledInstance = r.enrolledInstance) (hpl : r'.enrolledPlace = r.enrolledPlace)
    (hob : r'.observedInstance = r.observedInstance)
    (hdistinct : (r'.witnessed.map Witness.inst).Nodup)
    (hnew : ∀ w ∈ r'.witnessed, w ∈ r.witnessed ∨ Foreign r w.inst) : Settled r' where
  usable := by rw [hen]; exact h.usable
  distinct := hdistinct
  rivals hnone w hw := by
    rw [hen] at hnone
    rw [hob]
    rcases hnew w hw with hold | hforeign
    · exact h.rivals hnone w hold
    · exact hforeign.2 hnone
  home e he hund w hw heq := by
    rw [hen] at he
    simp only [Undisputed] at hund
    rw [hob] at hund
    rw [hpl]
    rcases hnew w hw with hold | hforeign
    · exact h.home e he hund w hold heq
    · exact absurd heq (hforeign.1 e he hund)

/-- A note leaves the record settled. -/
theorem Settled.noted {m : Mandate} {t : Moment} {k : Bytes} {c : Call} {r' : Record}
    (h : Settled (m.record k)) (hn : Noted cfg t.env (m.record k) r')
    (hobj : Objected P cfg m t k c r') : Settled r' := by
  cases hobj with
  | present hobj =>
      rcases hobj.witnessed with hsame | ⟨i, place, helse, hwit⟩
      · exact h.of_foreign hn.enrolledInstance hn.enrolledPlace hn.observedInstance
          (hsame ▸ h.distinct) fun w hw => .inl (hsame ▸ hw)
      · refine h.of_foreign hn.enrolledInstance hn.enrolledPlace hn.observedInstance
          (hwit ▸ distinct_witness h.distinct t.env i place) fun w hw => ?_
        rw [hwit] at hw
        rcases mem_witness hw with hold | rfl
        · exact .inl hold
        · exact .inr helse.foreign

/-- A presentation that is accepted leaves nothing but its instance observed. -/
theorem Admits.settled {m : Mandate} {k ctx exporter : Bytes} {msg : Json}
    {head : Option Bytes} {bundle : Option Json} {i : Bytes} {place : Option Bytes} {pl : Bytes}
    {n : ℕ} (hadm : Admits P cfg m k ctx exporter msg head bundle (some i) place pl n)
    (h : Settled (m.record k)) :
    Settled { m.record k with observedInstance := some i, observedPlace := nonEmpty place } where
  usable := h.usable
  distinct := h.distinct
  rivals hnone w hw := by
    obtain ⟨o, ho, hne⟩ := h.rivals hnone w hw
    obtain rfl := hadm.sole o i ho rfl
    exact ⟨i, nonEmpty_some hadm.inst_ne_nil, hne⟩
  home e he hund w hw heq := by
    have hi : i = e := hund i (nonEmpty_some hadm.inst_ne_nil)
    refine h.home e he (fun o ho => ?_) w hw heq
    rw [← hadm.sole o i ho rfl, hi]

/-- A transfer pins the identity to the place of the witness it is moved to. -/
theorem Mandate.Grants.settled {env : Env} {r : Record} {k sig : Bytes} {grant : Json}
    {fields : List (String × Json)} {to_ : Bytes} {w : Witness}
    (hg : Grants P cfg env r k grant sig fields to_ w) (h : Settled r) (nonce : Json) :
    Settled (moved env r fields to_ w nonce) where
  usable e he := by
    rw [← Option.some.inj he]
    exact hg.toInstance_ne_nil
  distinct := h.distinct
  rivals hnone := by cases hnone
  home e he hund w' hw' heq := by
    obtain ⟨toHex, -, -, hfind⟩ := hg.destination
    have hsame : w' = w := by
      refine List.inj_on_of_nodup_map h.distinct hw' (List.mem_of_find?_eq_some hfind) ?_
      rw [heq, hg.inst_eq, Option.some.inj he]
    rw [hsame]
    rfl

/-- **Every change leaves the record settled.** -/
theorem Change.settled {m : Mandate} {t : Moment} {k : Bytes} {c : Call} {reply : Reply} {r' : Record}
    (hch : Change P cfg m t k c reply r') (h : Settled (m.record k)) : Settled r' := by
  cases hch with
  | @enrolled _ _ _ _ _ _ anchor henr =>
      refine ⟨fun e he => Option.some.inj he ▸ anchor.inst_ne_nil, h.distinct,
        fun hnone => (nomatch hnone), fun e he hund w hw heq => ?_⟩
      obtain ⟨o, ho, hne⟩ := h.rivals henr.fresh w hw
      exact absurd (heq.trans (hund o ho).symm) hne
  | revoked => exact ⟨h.usable, h.distinct, h.rivals, h.home⟩
  | transferred hg => exact hg.settled h _
  | presented hadm => exact hadm.settled h
  | noted _ hn hobj => exact h.noted hn hobj
  | same => exact h

theorem settled_after (cfg : Config) (events : List Event) (k : Bytes) :
    Settled ((Process.after P cfg (fun _ => none) events).mandate.record k) :=
  Process.record_after Settled settled_blank (fun _ _ _ _ _ _ _ hch h => hch.settled h) .empty cfg
    events k

/-! ## The pin -/

/-- An identity that is enrolled is pinned to a place. -/
def Pinned (r : Record) : Prop := r.enrolledInstance.isSome → (nonEmpty r.enrolledPlace).isSome

/-- Where the event enrols the identity, its evidence names a place, and where it moves the
identity, the witness it is moved to was noted with one. -/
structure Pins (P : Primitives) (k : Bytes) (s : Process) (e : Event) : Prop where
  enrolled : ∀ t evidence nonce csrDer authority authorisation sig anchor,
    e = .call (t, .enroll k evidence nonce csrDer authority authorisation sig) →
    Enrols P s.cfg t.env s.mandate k evidence nonce csrDer authorisation sig anchor →
    (nonEmpty anchor.place).isSome
  moved : ∀ t grant sig fields to_ w, e = .call (t, .acceptTransfer k grant sig) →
    Grants P s.cfg t.env (s.mandate.record k) k grant sig fields to_ w →
    (nonEmpty w.place).isSome

theorem pinned_step {k : Bytes} {s : Process} {e : Event} (hpins : Pins P k s e)
    (h : Pinned (s.mandate.record k)) : Pinned ((s.step P e).2.mandate.record k) := by
  rcases s.step_change e k with ⟨t, c, rfl, hch⟩ | heq
  · generalize (s.mandate.step P s.cfg (t, c)).1 = reply at hch
    generalize (s.step P (.call (t, c))).2.mandate.record k = r' at hch
    cases hch with
    | enrolled henr =>
        obtain ⟨p, hp⟩ := Option.isSome_iff_exists.mp (hpins.enrolled _ _ _ _ _ _ _ _ rfl henr)
        obtain ⟨hplace, hne⟩ := nonEmpty_eq_some.mp hp
        intro _
        rw [hplace, nonEmpty_some hne, nonEmpty_some hne]
        rfl
    | revoked => exact h
    | transferred hg => exact fun _ => hpins.moved _ _ _ _ _ _ rfl hg
    | presented => exact h
    | noted _ hn =>
        simp only [Pinned]
        rw [hn.enrolledInstance, hn.enrolledPlace]
        exact h
    | same => exact h
  · rwa [heq]

/-- An identity is held to one instance at one place. -/
structure Held (r : Record) (inst place : Bytes) : Prop where
  enrolled : r.enrolledInstance = some inst
  pinned : r.enrolledPlace = some place
  undisputed : Undisputed r inst

/-- **What is held stays held, for as long as the instance stays**: a transfer onto the
instance itself finds a witness of the place it is pinned to. -/
theorem held_step {k inst place : Bytes} {s : Process} {e : Event} (hr : Settled (s.mandate.record k))
    (h : Held (s.mandate.record k) inst place)
    (hstays : ((s.step P e).2.mandate.record k).enrolledInstance = some inst) :
    Held ((s.step P e).2.mandate.record k) inst place := by
  rcases s.step_change e k with ⟨t, c, rfl, hch⟩ | heq
  · generalize (s.mandate.step P s.cfg (t, c)).1 = reply at hch
    generalize (s.step P (.call (t, c))).2.mandate.record k = r' at hch hstays
    refine ⟨hstays, ?_, ?_⟩
    · cases hch with
      | enrolled henr =>
          have hfresh := henr.fresh
          rw [h.enrolled] at hfresh
          cases hfresh
      | revoked => exact h.pinned
      | @transferred _ _ _ to_ w _ hg =>
          obtain ⟨toHex, -, -, hfind⟩ := hg.destination
          have hinst : w.inst = inst := hg.inst_eq.trans (Option.some.inj hstays)
          have hplace := hr.home inst h.enrolled h.undisputed w (List.mem_of_find?_eq_some hfind) hinst
          rw [h.pinned] at hplace
          exact hplace
      | presented => exact h.pinned
      | noted _ hn => rw [hn.enrolledPlace, h.pinned]
      | same => exact h.pinned
    · cases hch with
      | enrolled => exact h.undisputed
      | revoked => exact h.undisputed
      | transferred => intro o ho; cases ho
      | presented hadm =>
          intro o ho
          rw [← Option.some.inj ((nonEmpty_some hadm.inst_ne_nil).symm.trans ho)]
          exact hadm.home inst _ (by rw [h.enrolled, nonEmpty_some (hr.usable _ h.enrolled)]) rfl
      | noted _ hn =>
          simp only [Undisputed]
          rw [hn.observedInstance]
          exact h.undisputed
      | same => exact h.undisputed
  · rwa [heq]

theorem held_exec {k inst place : Bytes} {s : Process} {events : List Event}
    (hstays : Run.Along (Process.step P) (fun s _ => (s.mandate.record k).enrolledInstance = some inst)
      s events) (hr : Settled (s.mandate.record k)) (h : Held (s.mandate.record k) inst place)
    (hlast : ((Run.exec (Process.step P) s events).mandate.record k).enrolledInstance = some inst) :
    Held ((Run.exec (Process.step P) s events).mandate.record k) inst place := by
  refine (Run.exec_invariant (Process.step P)
    (fun s => Settled (s.mandate.record k) ∧
      ((s.mandate.record k).enrolledInstance = some inst → Held (s.mandate.record k) inst place))
    (fun s e hen hinv => ?_) hstays ⟨hr, fun _ => h⟩).2 hlast
  exact ⟨s.record_invariant Settled (fun _ _ _ _ _ _ hch h => hch.settled h) e hinv.1,
    held_step hinv.1 (hinv.2 hen)⟩

/-! ## The guarantee -/

/-- A presentation for `k` carries a place: its evidence verifies, and names it. -/
def Event.Carries (P : Primitives) (cfg : Config) (k : Bytes) (e : Event) (place : Bytes) : Prop :=
  ∃ i evidence anchor, e = .call i ∧ i.2.Shows P cfg k evidence anchor ∧ anchor.place = some place

/-- What is promised about the places of `k` in a history. -/
def SiliconPinned (P : Primitives) (cfg : Config) (k : Bytes) (events : List Event) : Prop :=
  ∀ pre e mid e' post inst, events = pre ++ e :: mid ++ e' :: post →
    let s := Process.after P cfg (fun _ => none) pre
    let s' := Process.after P cfg (fun _ => none) (pre ++ e :: mid)
    s.cfg.requirePlace = true → s'.cfg.requirePlace = true →
    s.Accepted P (Call.Presents k) e → s'.Accepted P (Call.Presents k) e' →
    Run.Along (Process.step P) (fun s _ => (s.mandate.record k).enrolledInstance = some inst) s
      (e :: mid ++ [e']) →
    ∃ place, e.Carries P s.cfg k place ∧ e'.Carries P s'.cfg k place

/-- An accepted presentation for an identity that is pinned is from where it is held. -/
theorem held_of_accepted {k inst : Bytes} {s : Process} {e : Event} (hr : Settled (s.mandate.record k))
    (hpinned : Pinned (s.mandate.record k)) (hreq : s.cfg.requirePlace = true)
    (hen : (s.mandate.record k).enrolledInstance = some inst)
    (hacc : s.Accepted P (Call.Presents k) e) :
    ∃ place, Held (s.mandate.record k) inst place ∧ e.Carries P s.cfg k place := by
  obtain ⟨⟨t, c⟩, rfl, hc, hacc⟩ := hacc
  cases c with
  | present k' ctx exporter msg head bundle =>
      obtain rfl : k' = k := hc
      obtain ⟨i, place, pl, n, hadm, -⟩ := s.mandate.admits_of_accepted t hacc
      obtain ⟨hsome, hplace⟩ := hadm.placed hreq
      obtain ⟨p, hp⟩ := Option.isSome_iff_exists.mp (hpinned (by rw [hen]; rfl))
      rw [hp] at hplace
      obtain rfl := hplace rfl
      obtain ⟨anchor, hverified, rfl, hanchor⟩ := hadm.verified
      cases anchor with
      | none => cases hanchor
      | some anchor =>
          obtain ⟨evidence, hevidence, hverified⟩ := Exn.bind_eq_ok hverified
          refine ⟨p, ⟨hen, (nonEmpty_eq_some.mp hp).1, fun o ho => ?_⟩, _, evidence, anchor, rfl,
            .present hadm.link hevidence hverified, hanchor.symm⟩
          rw [← hadm.sole o _ ho rfl]
          exact hadm.home inst _ (by rw [hen, nonEmpty_some (hr.usable _ hen)]) rfl
  | _ => exact absurd hc (by simp [Call.Presents])

/-- **Silicon pinning.**  Where every enrolment and every transfer of an identity stores a
place, all presentations accepted while it stays on one instance carry one place. -/
theorem silicon_pinned {k : Bytes} {events : List Event}
    (h : Run.Along (Process.step P) (Pins P k) ⟨cfg, .new P fun _ => none⟩ events) :
    SiliconPinned P cfg k events := by
  intro pre e mid e' post inst heq s s' hreq hreq' hacc hacc' hstays
  have hpinned : ∀ before after, events = before ++ after →
      Pinned ((Process.after P cfg (fun _ => none) before).mandate.record k) := by
    intro before after hsplit
    rw [hsplit] at h
    exact Run.exec_invariant (Process.step P) (fun s => Pinned (s.mandate.record k))
      (fun s e hpins hs => pinned_step hpins hs) ((Run.along_append _ _ _ _).mp h).1
      (fun hnone => by cases hnone)
  obtain ⟨place, hheld, hcarries⟩ := held_of_accepted (settled_after cfg pre k)
    (hpinned pre _ (heq.trans (List.append_assoc _ _ _))) hreq hstays.1 hacc
  have hs' : Run.exec (Process.step P) s (e :: mid) = s' := by
    simp only [s, s', Process.after, Run.exec_append]
  obtain ⟨hstays, hlast, -⟩ := (Run.along_append _ _ _ _).mp hstays
  rw [hs'] at hlast
  have hheld' := held_exec hstays (settled_after cfg pre k) hheld
  rw [hs'] at hheld'
  obtain ⟨place', hagain, hcarries'⟩ := held_of_accepted (settled_after cfg _ k)
    (hpinned (pre ++ e :: mid) _ heq) hreq' hlast hacc'
  obtain rfl : place = place' := Option.some.inj ((hheld' hlast).pinned.symm.trans hagain.pinned)
  exact ⟨place, hcarries, hcarries'⟩

section Chips

open Tee Binder

/-- A mandate that requires a place. -/
def placedChips : Config := { twoChips with requirePlace := true }

theorem trustsChips_placed : TrustsChips placedChips := ⟨rfl, rfl, trustsChips.patient⟩

/-- The second guest on a chip that hides its identifier, and on another chip. -/
def maskedB : MockTEE := { teeB with chip := [0] }

def movedB : MockTEE := { teeB with chip := [0x77, 1] }

theorem maskedB_trusted : maskedB.Trusted .plain ["0a", "0b"] := ⟨by decide, by decide⟩

theorem movedB_trusted : movedB.Trusted .plain ["0a", "0b"] := ⟨by decide, by decide⟩

/-- The place an attester on a chip carries is the chip. -/
theorem present_of_carries {tee : MockTEE} (htee : tee.Trusted .plain ["0a", "0b"])
    {ctx exporter place : Bytes} {now : ℕ}
    (h : (Event.call (opening tee ctx exporter now)).Carries .plain placedChips tik place) :
    Tee.present tee.chip = some place := by
  obtain ⟨i, evidence, anchor, hi, hshows, hplace⟩ := h
  obtain rfl := Event.call.inj hi
  cases hshows with
  | present hlink hevidence hverified =>
      have hver : Verified .plain placedChips (new .plain fun _ => none) tik _ none none _ _ _ :=
        MockTEE.verified_hello rfl htee tik rfl [] ctx exporter
      obtain ⟨a, hverified', -, hplace'⟩ := hver.verified
      rw [hver.link] at hlink
      rw [← Except.ok.inj hlink] at hverified
      rw [verifyEvidence, hevidence, Exn.ok_bind, hverified] at hverified'
      obtain rfl := (Prod.mk.inj (Except.ok.inj hverified')).2
      rw [hplace', ← hplace]
      rfl

theorem pins_present {k : Bytes} {s : Process} (t : Moment) (k' ctx exporter : Bytes) (msg : Json)
    (head : Option Bytes) (bundle : Option Json) :
    Pins P k s (.call (t, .present k' ctx exporter msg head bundle)) where
  enrolled _ _ _ _ _ _ _ _ h := by cases h
  moved _ _ _ _ _ _ h := by cases h

/-- An identity is born on the first chip, and seen twice. -/
theorem silicon_pinned_chips : SiliconPinned .plain placedChips tik
    ((birth none ++ [opening teeA [3] [4] 2, opening teeA [5] [6] 3]).map .call) := by
  refine silicon_pinned ⟨⟨?_, ?_⟩, ⟨?_, ?_⟩, pins_present .., pins_present .., trivial⟩
  · intro _ _ _ _ _ _ _ _ h
    cases h
  · intro _ _ _ _ _ _ h
    cases h
  · intro t evidence nonce csrDer authority authorisation sig anchor h henr
    cases h
    have hver := (mockVerifier_report .plain teeA_trusted [] _).symm.trans henr.verified
    obtain rfl := Option.some.inj (Prod.mk.inj (Except.ok.inj hver)).2
    rfl
  · intro _ _ _ _ _ _ h
    cases h

/-- The identity is moved onto the second guest, of which a message was seen from the chip
that hides its identifier. -/
def hidden : List (Moment × Call) :=
  birth (some owner) ++ [opening maskedB [1] [2] 3, move maskedB (some teeA.inst) false [1] 4]

/-- It is then pinned to no place. -/
theorem after_hidden : ∃ m, after .plain placedChips (fun _ => none) hidden = m ∧
    Movable (m.record tik) teeB.inst ∧ (m.record tik).observedInstance = none ∧
    (m.record tik).enrolledPlace = none ∧ ∀ key, key.1 = tik → m.sessions key = none := by
  have hrec := record_birth trustsChips_placed (some owner)
  have hborn := movable_birth trustsChips_placed
  obtain ⟨m₁, hm₁, hr₁, -⟩ := step_elsewhere placedChips maskedB rfl maskedB_trusted hborn (by decide)
    [1] [2] 3
  have hmov₁ : Movable (m₁.record tik) teeA.inst := hr₁ ▸ movable_noticed _ _ hborn _
  have hdest := find_noticed placedChips maskedB
    ((after .plain placedChips (fun _ => none) (birth (some owner))).record tik) 3 4
    (by norm_num [placedChips, twoChips, mockMandate])
  rw [← hr₁] at hdest
  have hspent : (m₁.record tik).consumedGrants = [] := by
    rw [hr₁, noticed, hrec]
    rfl
  have hmove := step_move placedChips maskedB [1] hmov₁ (some teeA.inst) false (.inr rfl) 4
    (by rw [hspent]; rfl) maskedB_trusted.usable hdest
  have hafter := after_append .plain placedChips (fun _ => none) (birth (some owner))
    [move maskedB (some teeA.inst) false [1] 4] (opening maskedB [1] [2] 3)
  rw [hm₁, Run.exec_cons, Run.exec_nil, hmove] at hafter
  refine ⟨_, hafter, ?_, ?_, ?_, fun key hkey => ?_⟩
  · rw [record_recordDecision, record_transferred_self]
    exact movable_moved _ hmov₁ (by decide) _ _ _
  · rw [record_recordDecision, record_transferred_self]
    rfl
  · rw [record_recordDecision, record_transferred_self]
    rfl
  · rw [sessions_recordDecision, sessions_transferred, if_pos hkey]

/-- **An identity that is pinned nowhere.**  Two presentations are accepted one after the
other, from one instance on two chips. -/
theorem place_unpinned : ¬ SiliconPinned .plain placedChips tik
    ((hidden ++ [opening teeB [3] [4] 5, opening movedB [5] [6] 6]).map .call) := by
  intro h
  obtain ⟨m, hm, hmov, hobs, hplace, hnew⟩ := after_hidden
  have hopen := step_hello .plain placedChips teeB m tik rfl teeB_trusted
    (show [3].length < 256 by decide) (hmov.welcome (by simp [hobs]))
    (fun _ => ⟨rfl, by simp [hplace]⟩) (hnew _ rfl) (instant 5) [] [4]
  -- the second step, in a session of its own
  obtain ⟨m', hm', hr', hs'⟩ : ∃ m', (m.step .plain placedChips (opening teeB [3] [4] 5)).2 = m' ∧
      m'.record tik = { m.record tik with
        observedInstance := some teeB.inst, observedPlace := nonEmpty (Tee.present teeB.chip) } ∧
      m'.sessions (sessionKey .plain tik [5]) = none := by
    have hkey : sessionKey .plain tik [5] ≠ sessionKey .plain tik [3] := by decide +kernel
    refine ⟨_, rfl, ?_, ?_⟩ <;> rw [opening, hopen]
    · rw [record_recordDecision, record_admitted_self]
    · rw [sessions_recordDecision, sessions_admitted, Function.update_of_ne hkey, hnew _ rfl]
  have hmov' : Movable (m'.record tik) teeB.inst := by
    rw [hr']
    exact ⟨hmov.notRevoked, hmov.enrolled, hmov.ne_nil, hmov.authority⟩
  have hopen' := step_hello .plain placedChips movedB m' tik rfl movedB_trusted
    (show [5].length < 256 by decide) (hmov'.welcome (by simp [hr']))
    (fun _ => ⟨rfl, by simp [hr', hplace]⟩) hs' (instant 6) [] [6]
  have hafter : after .plain placedChips (fun _ => none) (hidden ++ [opening teeB [3] [4] 5]) = m' := by
    rw [after_concat, hm, hm']
  have hsplit : hidden.map Event.call ++ [.call (opening teeB [3] [4] 5)] =
      (hidden ++ [opening teeB [3] [4] 5]).map .call := by
    rw [List.map_append, List.map_singleton]
  have hstays : Run.Along (Process.step .plain)
      (fun s _ => (s.mandate.record tik).enrolledInstance = some teeB.inst)
      (Process.after .plain placedChips (fun _ => none) (hidden.map .call))
      [.call (opening teeB [3] [4] 5), .call (opening movedB [5] [6] 6)] := by
    rw [Process.after_calls, hm, Run.along_cons, Run.along_cons, Process.step_call, hm']
    exact ⟨hmov.enrolled, hmov'.enrolled, trivial⟩
  obtain ⟨place, hcarries, hcarries'⟩ := h (hidden.map .call) (.call (opening teeB [3] [4] 5)) []
    (.call (opening movedB [5] [6] 6)) [] teeB.inst (by simp)
    (by rw [Process.after_calls]; rfl) (by rw [hsplit, Process.after_calls]; rfl)
    (Process.accepted_calls.mpr ⟨rfl, by rw [hm, opening, hopen]; rfl⟩)
    (by rw [hsplit]; exact Process.accepted_calls.mpr ⟨rfl, by rw [hafter, opening, hopen']; rfl⟩)
    hstays
  have hB := present_of_carries teeB_trusted hcarries
  have hmoved := present_of_carries movedB_trusted hcarries'
  exact absurd (hB.trans hmoved.symm) (by decide)

end Chips

end Hatls
