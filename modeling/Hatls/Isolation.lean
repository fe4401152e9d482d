import Hatls.Views

/-!
# Identities that do not meet

What happens to one identity does not depend on what is called for another, unless the two
meet in the table of challenges.  They need not share a nonce to meet there: a third identity
that is refused the nonce of the one may spend the nonce of the other.  Where the identities
divide into two sides that share no nonce, the calls for the one side leave no trace at the
other.

## Main definitions

* `Separate` — the two identities are on different sides.
* `without` — a run without the calls for an identity.
* `Undisturbed` — what is asked of the rest of the run.
* `undisturbed` — it holds of separate identities.
* `disturbed` — it fails where a third identity comes between.
-/

namespace Hatls

open Mandate

variable {P : Primitives} {cfg : Config}

/-- **Two identities are separate in a run**: the identities have two sides, with the one on
this side and the other on that, and no nonce is used by calls for both sides. -/
structure Separate (k k' : Bytes) (run : List (Moment × Call)) : Prop where
  sides : ∃ side : Bytes → Prop, side k ∧ ¬ side k' ∧
    ∀ i ∈ run, ∀ j ∈ run, ∀ nonce a b, i.2.Redeems nonce → j.2.Redeems nonce →
      i.2.Concerns a → j.2.Concerns b → side a → side b

/-- The run without the calls for an identity. -/
def without (k : Bytes) (run : List (Moment × Call)) : List (Moment × Call) :=
  run.filter fun i => ¬ i.2.Concerns k

/-- The calls for an identity, with their replies. -/
def answers (P : Primitives) (cfg : Config) (k : Bytes) (m : Mandate) (run : List (Moment × Call)) :
    List ((Moment × Call) × Reply) :=
  (Run.trace (step P cfg) m run).filter fun x => x.1.2.Concerns k

/-- **What is asked of a run for `k`**, against the calls for `k'`: without them every call for
`k` is answered as it is with them, and at every moment the record of `k` and the chains of
its sessions are the same. -/
structure Undisturbed (P : Primitives) (cfg : Config) (ledger : Bytes → Option Record)
    (run : List (Moment × Call)) (k k' : Bytes) : Prop where
  answers : answers P cfg k (new P ledger) (without k' run) = answers P cfg k (new P ledger) run
  record : ∀ pre post, run = pre ++ post →
    (after P cfg ledger (without k' pre)).record k = (after P cfg ledger pre).record k
  sessions : ∀ pre post, run = pre ++ post → ∀ hash,
    (after P cfg ledger (without k' pre)).sessions (k, hash) =
      (after P cfg ledger pre).sessions (k, hash)

theorem without_cons (k : Bytes) (i : Moment × Call) (run : List (Moment × Call)) :
    without k (i :: run) = if i.2.Concerns k then without k run else i :: without k run := by
  by_cases h : i.2.Concerns k
  · simp [without, h]
  · simp [without, h]

/-- A call is about one identity. -/
theorem Call.Concerns.unique {c : Call} {a b : Bytes} (ha : c.Concerns a) (hb : c.Concerns b) :
    a = b := by
  cases c with
  | challenge => exact ha.elim
  | enroll => exact Eq.trans (Eq.symm ha) hb
  | revoke => exact Eq.trans (Eq.symm ha) hb
  | acceptTransfer => exact Eq.trans (Eq.symm ha) hb
  | present => exact Eq.trans (Eq.symm ha) hb

/-- What may be called where a side keeps to itself: a call that asks the log nothing, and
redeems a nonce of the side exactly if it is about an identity of the side. -/
structure Apart (side nonces : Bytes → Prop) (c : Call) : Prop where
  quiet : ¬ c.Witnesses
  nonce : ∀ nonce a, c.Redeems nonce → c.Concerns a → (side a ↔ nonces nonce)

section Apart

variable {side nonces : Bytes → Prop} {c : Call} {a : Bytes}

theorem Apart.reads (h : Apart side nonces c) (hc : c.Concerns a) (ha : side a) :
    c.Reads P side (fun key => side key.1) nonces := by
  cases c with
  | challenge => trivial
  | enroll k evidence nonce =>
      obtain rfl : k = a := hc
      exact ⟨ha, (h.nonce nonce k rfl rfl).mp ha⟩
  | revoke k =>
      obtain rfl : k = a := hc
      exact ha
  | acceptTransfer k =>
      obtain rfl : k = a := hc
      exact ha
  | present k ctx exporter msg head bundle =>
      obtain rfl : k = a := hc
      refine ⟨ha, ha, ?_⟩
      by_contra hhead
      exact h.quiet (.inl hhead)

theorem Apart.outside (h : Apart side nonces c) (hc : c.Concerns a) (ha : ¬ side a) :
    c.Outside side (fun key => side key.1) nonces where
  identity := by
    refine ⟨a, hc, ha, ?_⟩
    intro key hkey heq
    exact ha (heq ▸ hkey)
  nonce nonce hred hin := ha ((h.nonce nonce a hred hc).mpr hin)

end Apart

/-- Two mandates that share one side of the identities, and the nonces of its calls. -/
abbrev Beside (side nonces : Bytes → Prop) (m m' : Mandate) : Prop :=
  Shares side (fun key => side key.1) nonces m m'

theorem exists_concerns {c : Call} (h : ∀ nonce, c ≠ .challenge nonce) : ∃ a, c.Concerns a := by
  cases c with
  | challenge nonce => exact absurd rfl (h nonce)
  | enroll k => exact ⟨k, rfl⟩
  | revoke k => exact ⟨k, rfl⟩
  | acceptTransfer k => exact ⟨k, rfl⟩
  | present k => exact ⟨k, rfl⟩

theorem trace_filter_cons (k : Bytes) (m : Mandate) (i : Moment × Call) (run : List (Moment × Call)) :
    answers P cfg k m (i :: run) =
      (if i.2.Concerns k then [(i, (m.step P cfg i).1)] else []) ++
        answers P cfg k (m.step P cfg i).2 run := by
  by_cases h : i.2.Concerns k
  · simp [answers, h]
  · simp [answers, h]

/-- **The calls for the other side leave no trace at this one.** -/
theorem beside_run {side nonces : Bytes → Prop} {k k' : Bytes} (hk : side k) (hk' : ¬ side k')
    {run : List (Moment × Call)} (hrun : ∀ i ∈ run, Apart side nonces i.2) :
    ∀ {m m' : Mandate}, Beside side nonces m m' →
      answers P cfg k m' (without k' run) = answers P cfg k m run ∧
        Beside side nonces (Run.exec (step P cfg) m run)
          (Run.exec (step P cfg) m' (without k' run)) := by
  induction run with
  | nil =>
      intro m m' h
      exact ⟨rfl, h⟩
  | cons i run ih =>
      intro m m' h
      have hi := hrun i List.mem_cons_self
      have hrun' : ∀ j ∈ run, Apart side nonces j.2 := by
        intro j hj
        exact hrun j (List.mem_cons_of_mem i hj)
      by_cases hother : ∃ a, i.2.Concerns a ∧ ¬ side a
      · obtain ⟨a, hc, ha⟩ := hother
        have hnot : ¬ i.2.Concerns k := by
          intro hck
          exact ha (hck.unique hc ▸ hk)
        have hout : ∀ m : Mandate, Beside side nonces m (m.step P cfg i).2 :=
          Shares.outside (hi.outside hc ha)
        rw [without_cons, trace_filter_cons, if_neg hnot, List.nil_append, Run.exec_cons]
        by_cases hgone : i.2.Concerns k'
        · rw [if_pos hgone]
          exact ih hrun' ((hout m).symm.trans h)
        · rw [if_neg hgone, trace_filter_cons, if_neg hnot, List.nil_append, Run.exec_cons]
          exact ih hrun' (((hout m).symm.trans h).trans (hout m'))
      · have hreads : i.2.Reads P side (fun key => side key.1) nonces := by
          by_cases hchallenge : ∃ nonce, i.2 = .challenge nonce
          · obtain ⟨nonce, hc⟩ := hchallenge
            rw [hc]
            trivial
          · obtain ⟨a, hc⟩ := exists_concerns fun nonce hc => hchallenge ⟨nonce, hc⟩
            have ha : side a := by
              by_contra hno
              exact hother ⟨a, hc, hno⟩
            exact hi.reads hc ha
        have hkept : ¬ i.2.Concerns k' := fun hc => hother ⟨k', hc, hk'⟩
        obtain ⟨hreply, hshares⟩ := @Shares.step P cfg _ _ _ _ _ h i hreads
        have hnext : Beside side nonces (m.step P cfg i).2 (m'.step P cfg i).2 :=
          hshares.mono (fun _ => id) fun _ => .inr
        obtain ⟨hanswers, hbeside⟩ := ih hrun' hnext
        rw [without_cons, if_neg hkept, trace_filter_cons, trace_filter_cons, hreply, hanswers,
          Run.exec_cons, Run.exec_cons]
        exact ⟨rfl, hbeside⟩

/-- **Identity isolation.**  Without the calls for an identity that is separate from it, an
identity fares the same, over any ledger: no reply, no record, and no chain of a session
changes at any moment. -/
theorem undisturbed (ledger : Bytes → Option Record) (run : List (Moment × Call)) (k k' : Bytes)
    (hquiet : ∀ i ∈ run, ¬ i.2.Witnesses) (hsep : Separate k k' run) :
    Undisturbed P cfg ledger run k k' := by
  obtain ⟨side, hk, hk', hsides⟩ := hsep.sides
  set nonces : Bytes → Prop := fun nonce =>
    ∃ i ∈ run, i.2.Redeems nonce ∧ ∃ a, i.2.Concerns a ∧ side a with hnonces
  have hapart : ∀ i ∈ run, Apart side nonces i.2 := by
    intro i hi
    refine ⟨hquiet i hi, fun nonce a hred hc => ⟨fun ha => ⟨i, hi, hred, a, hc, ha⟩, ?_⟩⟩
    intro hin
    obtain ⟨j, hj, hred', b, hc', hb⟩ := hin
    exact hsides j hj i hi nonce b a hred' hred hc' hc hb
  have hmoment : ∀ pre post, run = pre ++ post →
      Beside side nonces (after P cfg ledger pre) (after P cfg ledger (without k' pre)) := by
    intro pre post hsplit
    have hpre : ∀ i ∈ pre, Apart side nonces i.2 := by
      intro i hi
      exact hapart i (hsplit ▸ List.mem_append_left post hi)
    exact (beside_run hk hk' hpre (Shares.refl (new P ledger))).2
  constructor
  · exact (beside_run hk hk' hapart (Shares.refl (new P ledger))).1
  · intro pre post hsplit
    exact (hmoment pre post hsplit).record hk
  · intro pre post hsplit hash
    exact (hmoment pre post hsplit).sessions (k, hash) hk

section ThreeIdentities

open Tee

/-- A request that carries a key. -/
def request (key : Bytes) : Bytes := [2] ++ key ++ List.replicate 84 0

/-- The enrolment of a key on the first chip, for a challenge. -/
def redeem (key nonce : Bytes) : Moment × Call :=
  (instant 1, .enroll key (teeA.report .plain [] (Primitives.plain.sha512 (nonce ++ request key)))
    nonce (request key) none none none)

def issue (nonce : Bytes) : Moment × Call := (instant 0, .challenge nonce)

/-- The challenges that are outstanding and the keys that are enrolled. -/
structure Standing (m : Mandate) (nonces keys : List Bytes) : Prop where
  challenges : ∀ nonce, m.challenges nonce = if nonce ∈ nonces then some 300 else none
  enrolled : ∀ key, (m.record key).enrolledInstance = if key ∈ keys then some teeA.inst else none

variable {m : Mandate} {nonces keys : List Bytes}

theorem Standing.start : Standing (new .plain fun _ => none) [] [] := ⟨fun _ => rfl, fun _ => rfl⟩

theorem Standing.issue (h : Standing m nonces keys) (nonce : Bytes) :
    Standing (m.step .plain twoChips (issue nonce)).2 (nonce :: nonces) keys where
  challenges x := by
    rw [Hatls.issue, step_challenge, challenges_challenge]
    by_cases hx : x = nonce
    · simp [hx, twoChips, mockMandate, instant]
    · by_cases hin : x ∈ nonces
      · simp [hx, h.challenges x, hin, instant, Option.filter]
      · simp [hx, h.challenges x, hin]
  enrolled k := by
    rw [Hatls.issue, step_challenge, record_challenge]
    exact h.enrolled k

/-- A key that is not enrolled redeems an outstanding challenge. -/
theorem Standing.redeemed (h : Standing m nonces keys) (key nonce : Bytes)
    (hnonce : nonce ∈ nonces) (hkey : key ∉ keys)
    (hcsr : csrPublicKeyDer .plain (request key) = .ok key) :
    (m.step .plain twoChips (redeem key nonce)).1.accepted = true ∧
      Standing (m.step .plain twoChips (redeem key nonce)).2 (nonces.filter (· ≠ nonce)) (key :: keys) := by
  have hissued : m.challenges nonce = some 300 := by rw [h.challenges, if_pos hnonce]
  have hfresh : (m.record key).enrolledInstance = none := by rw [h.enrolled, if_neg hkey]
  have hstep := step_enroll .plain twoChips teeA m key rfl (fun _ => rfl) rfl teeA_trusted
    (t := instant 1) hissued (by norm_num [instant]) hfresh hcsr [] none
  rw [redeem, hstep]
  refine ⟨rfl, ?_, ?_⟩
  · intro x
    rw [challenges_recordDecision, challenges_enrolledAs]
    by_cases hx : x = nonce
    · simp [hx]
    · simp [hx, h.challenges x]
  · intro k
    rw [record_recordDecision]
    by_cases hk : k = key
    · rw [hk, record_enrolledAs_self]
      simp [MockTEE.Trusted.anchor]
    · rw [record_enrolledAs_of_ne hk, h.enrolled k]
      simp [hk]

/-- Otherwise nothing comes of it. -/
theorem Standing.refused (h : Standing m nonces keys) (key nonce : Bytes)
    (hno : nonce ∉ nonces ∨ key ∈ keys) :
    (m.step .plain twoChips (redeem key nonce)).1.accepted = false ∧
      Standing (m.step .plain twoChips (redeem key nonce)).2 nonces keys := by
  have hnot : ¬ ∃ anchor, Enrols .plain twoChips (instant 1).env m key
      (teeA.report .plain [] (Primitives.plain.sha512 (nonce ++ request key))) nonce (request key)
      none none anchor := by
    intro ⟨anchor, henr⟩
    rcases hno with hnonce | hkey
    · obtain ⟨expiry, hissued, -⟩ := henr.issued
      rw [h.challenges, if_neg hnonce] at hissued
      cases hissued
    · have hfresh := henr.fresh
      rw [h.enrolled, if_pos hkey] at hfresh
      cases hfresh
  obtain ⟨challenges, answer, heq, hch, hans⟩ := enrollCore_of_not_enrols none hnot
  have hkept : challenges = m.challenges := by
    refine hch.resolve_right fun hdropped => ?_
    obtain ⟨expiry, hissued, hexp⟩ := hdropped.2.1
    rw [h.challenges] at hissued
    split at hissued
    · cases hissued
      norm_num [instant] at hexp
    · cases hissued
  subst hkept
  simp only [redeem, step, enroll, heq]
  rcases answer with x | ⟨ok, why⟩
  · exact ⟨rfl, h.challenges, h.enrolled⟩
  · cases ok with
    | true => exact absurd rfl (hans why)
    | false => exact ⟨rfl, h.challenges, h.enrolled⟩

/-- Two identities that each redeem a challenge of their own do not meet. -/
theorem undisturbed_two :
    Undisturbed .plain twoChips (fun _ => none)
      [issue [1], issue [2], redeem [0x30, 0x5a] [1], redeem [0x30, 0x59] [2]]
      [0x30, 0x59] [0x30, 0x5a] := by
  apply undisturbed
  · simp [issue, redeem, Call.Witnesses]
  · have hown : ∀ i ∈ [issue [1], issue [2], redeem [0x30, 0x5a] [1], redeem [0x30, 0x59] [2]],
        ∀ nonce a, i.2.Redeems nonce → i.2.Concerns a → (a = [0x30, 0x59] ↔ nonce = [2]) := by
      simp [issue, redeem, Call.Concerns, Call.Redeems]
    refine ⟨(· = [0x30, 0x59]), rfl, by decide, ?_⟩
    intro i hi j hj nonce a b hri hrj hca hcb ha
    exact (hown j hj nonce b hrj hcb).mpr ((hown i hi nonce a hri hca).mp ha)

/-- The last call for an identity is its first. -/
theorem answers_last {k : Bytes} {m : Mandate} {pre : List (Moment × Call)} {i : Moment × Call}
    (hpre : ∀ j ∈ pre, ¬ j.2.Concerns k) (hi : i.2.Concerns k) :
    answers P cfg k m (pre ++ [i]) = [(i, ((Run.exec (step P cfg) m pre).step P cfg i).1)] := by
  induction pre generalizing m with
  | nil =>
      rw [List.nil_append, trace_filter_cons, if_pos hi]
      rfl
  | cons j pre ih =>
      have hrest : ∀ j' ∈ pre, ¬ j'.2.Concerns k := by
        intro j' hj'
        exact hpre j' (List.mem_cons_of_mem j hj')
      rw [List.cons_append, trace_filter_cons, if_neg (hpre j List.mem_cons_self), List.nil_append,
        ih hrest, Run.exec_cons]

/-- So two such calls may tell two runs apart. -/
theorem answers_ne {k : Bytes} {m : Mandate} {pre pre' : List (Moment × Call)} {i : Moment × Call}
    (hpre : ∀ j ∈ pre, ¬ j.2.Concerns k) (hpre' : ∀ j ∈ pre', ¬ j.2.Concerns k)
    (hi : i.2.Concerns k)
    (hne : ((Run.exec (step P cfg) m pre).step P cfg i).1.accepted ≠
      ((Run.exec (step P cfg) m pre').step P cfg i).1.accepted) :
    answers P cfg k m (pre ++ [i]) ≠ answers P cfg k m (pre' ++ [i]) := by
  rw [answers_last hpre hi, answers_last hpre' hi]
  intro heq
  have hreply := congrArg Prod.snd (List.cons.inj heq).1
  exact hne (congrArg Reply.accepted hreply)

/-- **A third identity comes between.**  It spends the challenge of the second on itself where
the second has not, and so it leaves the challenge of the first alone. -/
theorem disturbed :
    let k : Bytes := [0x30, 0x59]
    let k' : Bytes := [0x30, 0x5a]
    let third : Bytes := [0x30, 0x5b]
    let run := [issue [1], issue [2], redeem k' [1], redeem third [1], redeem third [2], redeem k [2]]
    k ≠ k' ∧ (∀ i ∈ run, ¬ i.2.Witnesses) ∧
      (∀ i ∈ run, ∀ j ∈ run, ∀ nonce, i.2.Concerns k → i.2.Redeems nonce → j.2.Concerns k' →
        ¬ j.2.Redeems nonce) ∧
      answers .plain twoChips k (new .plain fun _ => none) (without k' run) ≠
        answers .plain twoChips k (new .plain fun _ => none) run := by
  intro k k' third run
  refine ⟨by decide, ?_, ?_, ?_⟩
  · simp [run, issue, redeem, Call.Witnesses]
  · simp [run, issue, redeem, Call.Concerns, Call.Redeems, k, k', third]
  have hpre : ∀ j ∈ [issue [1], issue [2], redeem third [1], redeem third [2]],
      ¬ j.2.Concerns k := by
    simp [issue, redeem, Call.Concerns, k, third]
  have hpre' : ∀ j ∈ [issue [1], issue [2], redeem k' [1], redeem third [1], redeem third [2]],
      ¬ j.2.Concerns k := by
    simp [issue, redeem, Call.Concerns, k, k', third]
  have hwithout : without k' run =
      [issue [1], issue [2], redeem third [1], redeem third [2]] ++ [redeem k [2]] := by
    simp [without, run, issue, redeem, Call.Concerns, k, k', third]
  have hrun : run = [issue [1], issue [2], redeem k' [1], redeem third [1], redeem third [2]] ++
      [redeem k [2]] := rfl
  have hfalse : ((Run.exec (step .plain twoChips) (new .plain fun _ => none)
      [issue [1], issue [2], redeem k' [1], redeem third [1], redeem third [2]]).step .plain twoChips
        (redeem k [2])).1.accepted = false := by
    have h0 := (Standing.start.issue [1]).issue [2]
    have h1 := (h0.redeemed k' [1] (by decide) (by decide) rfl).2
    have h2 := (h1.refused third [1] (.inl (by decide))).2
    have h3 := (h2.redeemed third [2] (by decide) (by decide) rfl).2
    rw [Run.exec_cons, Run.exec_cons, Run.exec_cons, Run.exec_cons, Run.exec_cons, Run.exec_nil]
    exact (h3.refused k [2] (.inl (by decide))).1
  have htrue : ((Run.exec (step .plain twoChips) (new .plain fun _ => none)
      [issue [1], issue [2], redeem third [1], redeem third [2]]).step .plain twoChips
        (redeem k [2])).1.accepted = true := by
    have h0 := (Standing.start.issue [1]).issue [2]
    have h1 := (h0.redeemed third [1] (by decide) (by decide) rfl).2
    have h2 := (h1.refused third [2] (.inr (by decide))).2
    rw [Run.exec_cons, Run.exec_cons, Run.exec_cons, Run.exec_cons, Run.exec_nil]
    exact (h2.redeemed k [2] (by decide) (by decide) rfl).1
  have hlast : (redeem k [2]).2.Concerns k := rfl
  rw [hwithout, hrun]
  apply answers_ne hpre hpre' hlast
  rw [htrue, hfalse]
  decide

end ThreeIdentities

end Hatls
