import Hatls.Lib.Recency
import Hatls.Witnesses

/-!
# How long a witness stands

An identity can be moved to an instance that the mandate has witnessed, for as long as
the witness is not stale.  The list of witnesses holds thirty-two: when an instance has
shown its evidence, thirty-two others that show theirs take its place, however fresh it
is, and the owner's grant onto it is refused.

## Main definitions

* `Notices` — a presentation that makes a witness of an instance.
* `Since` — the other instances witnessed since one was.
* `Destination` — an instance a grant may name.
* `destination_iff` — when a witnessed instance still is one.
-/

namespace Hatls

open Mandate

variable {P : Primitives} {cfg : Config}

/-- A presentation for `k` makes a witness of an instance: its evidence is valid, and the
record speaks against the instance. -/
inductive Notices (P : Primitives) (cfg : Config) (m : Mandate) (k : Bytes) :
    Moment × Call → Bytes → Prop
  | present {t : Moment} {ctx exporter : Bytes} {msg : Json} {head : Option Bytes}
      {bundle : Option Json} {inst : Bytes} {place : Option Bytes}
      (h : Elsewhere P cfg m k msg head bundle inst place) :
      Notices P cfg m k (t, .present k ctx exporter msg head bundle) inst

/-- A grant may name the instance: the search for its witness, as the transfer makes it. -/
def Destination (cfg : Config) (env : Env) (r : Record) (inst : Bytes) : Prop :=
  (r.witnessed.find? fun w => Bytes.hex w.inst = Bytes.hex inst &&
    decide (((env.time - w.at_ : ℤ) : ℚ) < cfg.witnessTtl)).isSome

/-- **The other instances witnessed since one was**, in a run. -/
inductive Since (P : Primitives) (cfg : Config) (k inst : Bytes) (m : Mandate) :
    List (Moment × Call) → Finset Bytes → Prop
  | start : Since P cfg k inst m [] ∅
  | again {run : List (Moment × Call)} {i : Moment × Call} {others : Finset Bytes}
      (h : Since P cfg k inst m run others)
      (hnotes : Notices P cfg (Run.exec (step P cfg) m run) k i inst) :
      Since P cfg k inst m (run ++ [i]) ∅
  | other {run : List (Moment × Call)} {i : Moment × Call} {others : Finset Bytes} {inst' : Bytes}
      (h : Since P cfg k inst m run others)
      (hnotes : Notices P cfg (Run.exec (step P cfg) m run) k i inst') (hne : inst' ≠ inst) :
      Since P cfg k inst m (run ++ [i]) (insert inst' others)
  | none {run : List (Moment × Call)} {i : Moment × Call} {others : Finset Bytes}
      (h : Since P cfg k inst m run others)
      (hno : ∀ inst', ¬ Notices P cfg (Run.exec (step P cfg) m run) k i inst') :
      Since P cfg k inst m (run ++ [i]) others

/-- Every run has such a set. -/
theorem exists_since (k inst : Bytes) (m : Mandate) (run : List (Moment × Call)) :
    ∃ others, Since P cfg k inst m run others := by
  induction run using List.reverseRecOn with
  | nil => exact ⟨∅, .start⟩
  | append_singleton run i ih =>
      obtain ⟨others, h⟩ := ih
      by_cases hex : ∃ inst', Notices P cfg (Run.exec (step P cfg) m run) k i inst'
      · obtain ⟨inst', hnotes⟩ := hex
        by_cases heq : inst' = inst
        · subst heq
          exact ⟨∅, .again h hnotes⟩
        · exact ⟨_, .other h hnotes heq⟩
      · exact ⟨others, .none h fun inst' hnotes => hex ⟨inst', hnotes⟩⟩

/-- They are no more than the calls. -/
theorem Since.card_le {k inst : Bytes} {m : Mandate} {run : List (Moment × Call)} {others : Finset Bytes}
    (h : Since P cfg k inst m run others) : others.card ≤ run.length := by
  induction h with
  | start => exact le_rfl
  | again _ _ ih => exact Nat.zero_le _
  | @other run i others inst' _ _ _ ih =>
      rw [List.length_append, List.length_singleton]
      exact (Finset.card_insert_le inst' others).trans (Nat.add_le_add_right ih 1)
  | @none run i others _ _ ih =>
      rw [List.length_append]
      exact ih.trans (Nat.le_add_right _ _)

/-! ## One call -/

/-- To note an instance is to insert its witness. -/
theorem witnessed_witness (r : Record) (env : Env) (i : Bytes) (place : Option Bytes) :
    (r.witness cfg env i place).witnessed =
      Recency.insert Witness.inst 32
        (fun w => decide (((env.time - w.at_ : ℤ) : ℚ) < cfg.witnessTtl)) r.witnessed
        ⟨i, nonEmpty place, env.time⟩ := by
  simp only [Record.witness, Recency.insert, lastN]

/-- A presentation from elsewhere is objected to. -/
theorem Elsewhere.objects {m : Mandate} {env : Env} {k ctx exporter : Bytes} {msg : Json}
    {head : Option Bytes} {bundle : Option Json} {i : Bytes} {place : Option Bytes}
    (h : Elsewhere P cfg m k msg head bundle i place) :
    ∃ r' why, Objects P cfg env m k ctx exporter msg head bundle r' why (some i) ∧
      r'.witnessed = ((m.record k).witness cfg env i place).witnessed := by
  cases h with
  | enrolled h hen hne => exact ⟨_, _, .impostor h hen hne, rfl⟩
  | observed h henrolled hhome hplaced hob hne =>
      exact ⟨_, _, .contention h henrolled hhome hplaced hob hne, rfl⟩

/-- An objection is all a presentation writes. -/
theorem record_step_of_objects {m : Mandate} {t : Moment} {k ctx exporter : Bytes} {msg : Json}
    {head : Option Bytes} {bundle : Option Json} {r' : Record} {why : String} {inst : Option Bytes}
    (h : Objects P cfg t.env m k ctx exporter msg head bundle r' why inst) :
    (m.step P cfg (t, .present k ctx exporter msg head bundle)).2.record k = r' := by
  rw [step_of_objects m t h]
  cases msg.item "counter" with
  | error x => exact record_put_self m k r'
  | ok c => exact record_put_self m k r'

/-- What the evidence of a presentation names, it names alone. -/
theorem Verified.inst_unique {m : Mandate} {k : Bytes} {msg : Json} {head : Option Bytes}
    {bundle : Option Json} {inst inst' place place' : Option Bytes} {pl pl' : Bytes}
    (h : Verified P cfg m k msg head bundle inst place pl)
    (h' : Verified P cfg m k msg head bundle inst' place' pl') : inst = inst' := by
  obtain rfl : pl = pl' := by
    have hlink := h.link
    rw [h'.link] at hlink
    exact (Except.ok.inj hlink).symm
  obtain ⟨anchor, hver, rfl, -⟩ := h.verified
  obtain ⟨anchor', hver', rfl, -⟩ := h'.verified
  rw [hver'] at hver
  cases hver
  rfl

/-- A call makes one witness at most. -/
theorem Notices.unique {m : Mandate} {k : Bytes} {i : Moment × Call} {inst inst' : Bytes}
    (h : Notices P cfg m k i inst) (h' : Notices P cfg m k i inst') : inst = inst' := by
  cases h with
  | present h =>
      cases h' with
      | present h' =>
          obtain ⟨pl, hver⟩ := h.verified
          obtain ⟨pl', hver'⟩ := h'.verified
          exact Option.some.inj (hver.inst_unique hver')

/-- **What a call does to the witnesses of an identity.**  It inserts the one it makes, and
makes no other change. -/
theorem witnessed_cases (m : Mandate) (i : Moment × Call) (k : Bytes) :
    (∃ inst place, Notices P cfg m k i inst ∧
      ((m.step P cfg i).2.record k).witnessed =
        ((m.record k).witness cfg i.1.env inst place).witnessed) ∨
    (∀ inst, ¬ Notices P cfg m k i inst) ∧
      ((m.step P cfg i).2.record k).witnessed = (m.record k).witnessed := by
  by_cases hnotes : ∃ inst, Notices P cfg m k i inst
  · obtain ⟨inst, hnotes⟩ := hnotes
    cases hnotes with
    | @present t ctx exporter msg head bundle _ place h =>
        obtain ⟨r', why, hobj, hwit⟩ : ∃ r' why,
            Objects P cfg t.env m k ctx exporter msg head bundle r' why (some inst) ∧
              r'.witnessed = ((m.record k).witness cfg t.env inst place).witnessed := h.objects
        refine .inl ⟨inst, place, .present h, ?_⟩
        rw [record_step_of_objects hobj, hwit]
  · refine .inr ⟨fun inst h => hnotes ⟨inst, h⟩, ?_⟩
    obtain ⟨t, c⟩ := i
    have hch := m.step_change P cfg t c k
    generalize (m.step P cfg (t, c)).2.record k = r' at hch ⊢
    generalize (m.step P cfg (t, c)).1 = reply at hch
    cases hch with
    | enrolled => rfl
    | revoked => rfl
    | transferred => rfl
    | presented => rfl
    | same => rfl
    | noted _ _ hobj =>
        cases hobj with
        | present h =>
            rcases h.witnessed with hsame | ⟨i, place, helse, -⟩
            · exact hsame
            · exact absurd ⟨i, .present helse⟩ hnotes

/-! ## Runs -/

/-- The witnesses of an identity, seen from one instance: those made since it was are not
older than it. -/
def Seen (r : Record) (inst : Bytes) (since : ℤ) (others : Finset Bytes) : Prop :=
  Recency.Tracks Witness.inst 32 (fun w => since ≤ w.at_) inst others r.witnessed

theorem Seen.congr {r r' : Record} {inst : Bytes} {since : ℤ} {others : Finset Bytes}
    (h : Seen r inst since others) (heq : r'.witnessed = r.witnessed) :
    Seen r' inst since others := by
  rw [Seen, heq]
  exact h

/-- From its own witness on an instance is seen, with no others since. -/
theorem seen_witness (r : Record) {env : Env} {since : ℤ} (hsince : since ≤ env.time) (inst : Bytes)
    (place : Option Bytes) : Seen (r.witness cfg env inst place) inst since ∅ := by
  have h : Recency.Tracks Witness.inst 32 (fun w : Witness => since ≤ w.at_) inst ∅
      (Recency.insert Witness.inst 32
        (fun w => decide (((env.time - w.at_ : ℤ) : ℚ) < cfg.witnessTtl)) r.witnessed
        ⟨inst, nonEmpty place, env.time⟩) :=
    Recency.tracks_insert (x := ⟨inst, nonEmpty place, env.time⟩) (by omega) r.witnessed hsince
  rw [Seen, witnessed_witness]
  exact h

/-- Witnesses younger than a fresh one are fresh. -/
theorem fresh_of_le {since at_ now : ℤ} {ttl : ℚ} (hle : since ≤ at_)
    (hfresh : ((now - since : ℤ) : ℚ) < ttl) : ((now - at_ : ℤ) : ℚ) < ttl := by
  have hage : ((now - at_ : ℤ) : ℚ) ≤ ((now - since : ℤ) : ℚ) := by
    have : now - at_ ≤ now - since := by omega
    exact_mod_cast this
  exact hage.trans_lt hfresh

/-- The witness of another instance is one more since. -/
theorem Seen.witness_other {r : Record} {env : Env} {inst inst' : Bytes} {since : ℤ}
    {others : Finset Bytes} (h : Seen r inst since others) (hne : inst' ≠ inst)
    (hsince : since ≤ env.time) (hfresh : ((env.time - since : ℤ) : ℚ) < cfg.witnessTtl)
    (place : Option Bytes) :
    Seen (r.witness cfg env inst' place) inst since (insert inst' others) := by
  have hkept : ∀ w : Witness, since ≤ w.at_ →
      decide (((env.time - w.at_ : ℤ) : ℚ) < cfg.witnessTtl) = true := by
    intro w hw
    exact decide_eq_true (fresh_of_le hw hfresh)
  rw [Seen, witnessed_witness]
  exact Recency.Tracks.insert_other (x := ⟨inst', nonEmpty place, env.time⟩) h hne hsince hkept

/-- **A run keeps track**, while the clock is not set back and the witness is not stale. -/
theorem seen_exec {k inst : Bytes} {m : Mandate} {since now : ℤ}
    (hfresh : ((now - since : ℤ) : ℚ) < cfg.witnessTtl) (hstart : Seen (m.record k) inst since ∅)
    {run : List (Moment × Call)} {others : Finset Bytes} (h : Since P cfg k inst m run others)
    (hclock : ∀ i ∈ run, since ≤ i.1.env.time ∧ i.1.env.time ≤ now) :
    Seen ((Run.exec (step P cfg) m run).record k) inst since others := by
  induction h with
  | start => exact hstart
  | @again run i others h hnotes ih =>
      have hi := hclock i (by simp)
      rw [Run.exec_append, Run.exec_cons, Run.exec_nil]
      rcases witnessed_cases (Run.exec (step P cfg) m run) i k with
        ⟨inst', place, hnotes', hwit⟩ | ⟨hno, -⟩
      · obtain rfl := hnotes.unique hnotes'
        exact (seen_witness _ hi.1 inst place).congr hwit
      · exact absurd hnotes (hno inst)
  | @other run i others inst' h hnotes hne ih =>
      have hi := hclock i (by simp)
      have hseen := ih fun j hj => hclock j (List.mem_append_left _ hj)
      have hnow : ((i.1.env.time - since : ℤ) : ℚ) < cfg.witnessTtl := by
        have hage : ((i.1.env.time - since : ℤ) : ℚ) ≤ ((now - since : ℤ) : ℚ) := by
          have : i.1.env.time - since ≤ now - since := by omega
          exact_mod_cast this
        exact hage.trans_lt hfresh
      rw [Run.exec_append, Run.exec_cons, Run.exec_nil]
      rcases witnessed_cases (Run.exec (step P cfg) m run) i k with
        ⟨inst'', place, hnotes', hwit⟩ | ⟨hno, -⟩
      · obtain rfl := hnotes.unique hnotes'
        exact (hseen.witness_other hne hi.1 hnow place).congr hwit
      · exact absurd hnotes (hno inst')
  | @none run i others h hno ih =>
      have hseen := ih fun j hj => hclock j (List.mem_append_left _ hj)
      rw [Run.exec_append, Run.exec_cons, Run.exec_nil]
      rcases witnessed_cases (Run.exec (step P cfg) m run) i k with
        ⟨inst', place, hnotes', -⟩ | ⟨-, hwit⟩
      · exact absurd hnotes' (hno inst')
      · exact hseen.congr hwit

/-- A witness on record that is not stale makes its instance a destination. -/
theorem Seen.found_iff {r : Record} {inst : Bytes} {since : ℤ} {others : Finset Bytes}
    (h : Seen r inst since others) {env : Env}
    (hfresh : ((env.time - since : ℤ) : ℚ) < cfg.witnessTtl) :
    Destination cfg env r inst ↔ others.card < 32 := by
  rw [← Recency.Tracks.mem_iff h, Destination, List.find?_isSome]
  constructor
  · intro hex
    obtain ⟨w, hw, hfound⟩ := hex
    simp only [Bool.and_eq_true, decide_eq_true_eq] at hfound
    exact ⟨w, hw, Bytes.hex_injective hfound.1⟩
  · intro hex
    obtain ⟨w, hw, rfl⟩ := hex
    have htracks : Recency.Tracks Witness.inst 32 (fun w : Witness => since ≤ w.at_) w.inst others
        r.witnessed := h
    have hlive : since ≤ w.at_ := htracks.live_of_mem hw rfl
    exact ⟨w, hw, by simpa using fresh_of_le hlive hfresh⟩

/-- **When a witnessed instance is still a destination.**  Whatever calls follow the
presentation that made its witness, an instance is one, at a time when the witness is
not stale, if and only if fewer than thirty-two others have been witnessed since it was. -/
theorem destination_iff (ledger : Bytes → Option Record) (run mid : List (Moment × Call))
    {i : Moment × Call} {now : Moment} {k inst : Bytes}
    (hnotes : Notices P cfg (after P cfg ledger run) k i inst)
    (hclock : ∀ j ∈ mid, i.1.env.time ≤ j.1.env.time ∧ j.1.env.time ≤ now.env.time)
    (hfresh : ((now.env.time - i.1.env.time : ℤ) : ℚ) < cfg.witnessTtl) :
    ∃ others, Since P cfg k inst ((after P cfg ledger run).step P cfg i).2 mid others ∧
      (Destination cfg now.env ((after P cfg ledger (run ++ i :: mid)).record k) inst ↔
        others.card < 32) := by
  have hstart : Seen (((after P cfg ledger run).step P cfg i).2.record k) inst i.1.env.time ∅ := by
    rcases witnessed_cases (after P cfg ledger run) i k with ⟨inst', place, hnotes', hwit⟩ | ⟨hno, -⟩
    · obtain rfl := hnotes.unique hnotes'
      exact (seen_witness _ (le_refl i.1.env.time) inst place).congr hwit
    · exact absurd hnotes (hno inst)
  obtain ⟨others, hsince⟩ :=
    @exists_since P cfg k inst ((after P cfg ledger run).step P cfg i).2 mid
  refine ⟨others, hsince, ?_⟩
  rw [after_append]
  exact (seen_exec hfresh hstart hsince hclock).found_iff hfresh

section Crowd

open Tee

/-- One of many guests of one chip. -/
def guest (n : ℕ) : MockTEE := ⟨teeB.chip, [0x77, UInt8.ofNat n], teeB.k⟩

theorem guest_trusted (n : ℕ) : (guest n).Trusted .plain ["0a", "0b"] := ⟨teeB_trusted.pub, rfl⟩

/-- The first message of a guest on which the identity does not live is noticed. -/
theorem notices_opening {m : Mandate} {e : Bytes} (h : Movable (m.record tik) e) {tee : MockTEE}
    (htee : tee.Trusted .plain ["0a", "0b"]) (hne : tee.inst ≠ e) (now : ℕ) :
    Notices .plain twoChips m tik (opening tee [1] [2] now) tee.inst := by
  have hver : Verified .plain twoChips m tik (tee.hello .plain [] tik [1] [2]) none none
      (some tee.inst) (Tee.present tee.chip)
      (Binder.nextLink .plain [2] (Binder.firstLink .plain [1] tik) 0) :=
    MockTEE.verified_hello rfl htee tik h.notRevoked [] [1] [2]
  exact .present (.enrolled hver (by rw [h.enrolled, nonEmpty_some h.ne_nil]) hne)

/-- Guests that knock one after the other are all noticed, and the identity stays. -/
theorem since_openings {m : Mandate} (h : Movable (m.record tik) teeA.inst) (ns : List ℕ) :
    Movable ((Run.exec (step .plain twoChips) m
        (ns.map fun n => opening (guest n) [1] [2] 3)).record tik) teeA.inst ∧
      Since .plain twoChips tik teeB.inst m (ns.map fun n => opening (guest n) [1] [2] 3)
        (ns.map fun n => (guest n).inst).toFinset := by
  induction ns using List.reverseRecOn with
  | nil => exact ⟨h, .start⟩
  | append_singleton ns n ih =>
      obtain ⟨hmov, hsince⟩ := ih
      have hne : (guest n).inst ≠ teeA.inst := by
        intro heq
        cases congrArg List.head? heq
      have hother : (guest n).inst ≠ teeB.inst := by
        intro heq
        cases congrArg List.head? heq
      obtain ⟨m', hstep, hrecord, -⟩ := step_elsewhere twoChips (guest n) rfl (guest_trusted n) hmov
        hne [1] [2] 3
      rw [List.map_append, List.map_singleton, List.map_append, List.map_singleton]
      constructor
      · rw [Run.exec_append, Run.exec_cons, Run.exec_nil, hstep, hrecord]
        exact movable_noticed twoChips (guest n) hmov 3
      · have hset : (ns.map (fun n => (guest n).inst) ++ [(guest n).inst]).toFinset =
            insert (guest n).inst (ns.map fun n => (guest n).inst).toFinset := by
          rw [List.toFinset_append, Finset.union_comm]
          simp
        rw [hset]
        exact .other hsince (notices_opening hmov (guest_trusted n) hne 3) hother

/-- A second chip that has shown its evidence is a destination when thirty-one other guests have
shown theirs. -/
theorem destination_iff_crowd :
    Destination twoChips (instant 4).env ((after .plain twoChips (fun _ => none)
      (birth (some owner) ++ opening teeB [1] [2] 2 ::
        (List.range 31).map fun n => opening (guest n) [1] [2] 3)).record tik) teeB.inst := by
  have hmov := movable_birth trustsChips
  have hfresh : (((instant 4).env.time - (opening teeB [1] [2] 2).1.env.time : ℤ) : ℚ) <
      twoChips.witnessTtl := by
    rw [opening, time_instant, time_instant]
    norm_num [twoChips, mockMandate]
  have hclock : ∀ j ∈ (List.range 31).map fun n => opening (guest n) [1] [2] 3,
      (opening teeB [1] [2] 2).1.env.time ≤ j.1.env.time ∧ j.1.env.time ≤ (instant 4).env.time := by
    intro j hj
    obtain ⟨n, -, rfl⟩ := List.mem_map.mp hj
    simp [opening]
  obtain ⟨others, hsince, hdest⟩ := destination_iff (fun _ => none) (birth (some owner)) _
    (notices_opening hmov teeB_trusted (by decide) 2) hclock hfresh
  have hcard := hsince.card_le
  rw [List.length_map, List.length_range] at hcard
  exact hdest.mpr (by omega)

/-- **A recovery is blocked**: the second chip shows its evidence and is refused, thirty-two
other guests do the same within a second, and the second chip is no destination any
more. -/
theorem recovery_blocked :
    let m := after .plain twoChips (fun _ => none) (birth (some owner))
    let crowd := (List.range 32).map fun n => opening (guest n) [1] [2] 3
    (m.step .plain twoChips (opening teeB [1] [2] 2)).1 =
        .decision ⟨false, impostorText, some teeB.inst⟩ ∧
      Notices .plain twoChips m tik (opening teeB [1] [2] 2) teeB.inst ∧
      (((instant 4).env.time - (instant 2).env.time : ℤ) : ℚ) < twoChips.witnessTtl ∧
      ¬ Destination twoChips (instant 4).env
        ((after .plain twoChips (fun _ => none)
          (birth (some owner) ++ opening teeB [1] [2] 2 :: crowd)).record tik) teeB.inst := by
  intro m crowd
  have hmov : Movable (m.record tik) teeA.inst := movable_birth trustsChips
  have hfresh : (((instant 4).env.time - (instant 2).env.time : ℤ) : ℚ) < twoChips.witnessTtl := by
    rw [time_instant, time_instant]
    norm_num [twoChips, mockMandate]
  obtain ⟨m', hstep, hrecord, -⟩ := step_elsewhere twoChips teeB rfl teeB_trusted hmov (by decide)
    [1] [2] 2
  refine ⟨by rw [hstep], notices_opening hmov teeB_trusted (by decide) 2, hfresh, ?_⟩
  have hstart : Seen (m'.record tik) teeB.inst (instant 2).env.time ∅ := by
    rw [hrecord]
    exact (seen_witness (m.record tik) (le_refl (instant 2).env.time) teeB.inst _).congr rfl
  have hmov' : Movable (m'.record tik) teeA.inst := by
    rw [hrecord]
    exact movable_noticed twoChips teeB hmov 2
  have hclock : ∀ j ∈ crowd, (instant 2).env.time ≤ j.1.env.time ∧
      j.1.env.time ≤ (instant 4).env.time := by
    intro j hj
    obtain ⟨n, -, rfl⟩ := List.mem_map.mp hj
    simp [opening]
  have hseen := seen_exec hfresh hstart (since_openings hmov' (List.range 32)).2 hclock
  have hcard : ((List.range 32).map fun n => (guest n).inst).toFinset.card = 32 := by
    rw [List.toFinset_card_of_nodup] <;> decide
  rw [after_append, hstep, hseen.found_iff hfresh, hcard]
  exact lt_irrefl 32

end Crowd

end Hatls
