import Mathlib.Logic.Function.Basic

/-!
# Two clients of one cell

A cell holds a value.  Each of two clients reads it once, works out what to write from
what it has read, and either writes that and returns, or returns without writing.  The
cell takes the messages in any order in which each client reads before it ends.

Such a run ends in one of two ways: the client that ended second read what the first one
left, or both read the value the cell had at the start, and the second write, if there is
one, covers the first.

## Main definitions

* `Side`, `Phase`, `Cell`, `Message`, `Step`, `Runs` — the protocol.
* `Outcome`, `Runs.outcome` — how a run ends; `exists_overlap` — that it may end badly.
-/

namespace SharedCell

universe u

/-- The two clients. -/
inductive Side
  | left
  | right
  deriving DecidableEq

/-- The other client. -/
def Side.other : Side → Side
  | .left => .right
  | .right => .left

@[simp] theorem Side.other_other (a : Side) : a.other.other = a := by cases a <;> rfl

@[simp] theorem Side.other_ne (a : Side) : a.other ≠ a := by cases a <;> simp [Side.other]

theorem Side.eq_other {a b : Side} (h : b ≠ a) : b = a.other := by
  cases a <;> cases b <;> simp_all [Side.other]

/-- How far a client has come, with what it read and what it wrote. -/
inductive Phase (V : Type u)
  | idle
  | holding (got : V)
  | returned (got : V) (put : Option V)

/-- The cell and its clients. -/
structure Cell (V : Type u) where
  value : V
  phase : Side → Phase V

/-- A message to the cell: a client reads, or it ends, with a write or without. -/
inductive Message (V : Type u)
  | get (side : Side)
  | ends (side : Side) (put : Option V)

variable {V : Type u} (Ends : Side → V → Option V → Prop)

/-- The cell before anybody has read it. -/
def start (v : V) : Cell V := ⟨v, fun _ => .idle⟩

/-- A client moves on, and leaves a value in the cell. -/
def Cell.advance (c : Cell V) (a : Side) (p : Phase V) (v : V) : Cell V :=
  ⟨v, Function.update c.phase a p⟩

section Advance

variable (c : Cell V) (a : Side) (p : Phase V) (v : V)

@[simp] theorem Cell.value_advance : (c.advance a p v).value = v := rfl

@[simp] theorem Cell.phase_advance_self : (c.advance a p v).phase a = p := Function.update_self ..

@[simp] theorem Cell.phase_advance_other : (c.advance a p v).phase a.other = c.phase a.other :=
  Function.update_of_ne (Side.other_ne a) _ _

@[simp] theorem Cell.phase_other_advance : (c.advance a.other p v).phase a = c.phase a :=
  Function.update_of_ne (Side.other_ne a).symm _ _

end Advance

/-- One message.  `Ends a got put` says that a client that has read `got` may end with
`put`. -/
inductive Step : Cell V → Message V → Cell V → Prop
  | get {c : Cell V} {a : Side} (h : c.phase a = .idle) :
      Step c (.get a) (c.advance a (.holding c.value) c.value)
  | ends {c : Cell V} {a : Side} {got : V} {put : Option V} (h : c.phase a = .holding got)
      (hput : Ends a got put) :
      Step c (.ends a put) (c.advance a (.returned got put) (put.getD c.value))

/-- A sequence of messages. -/
inductive Runs : Cell V → List (Message V) → Cell V → Prop
  | nil (c : Cell V) : Runs c [] c
  | cons {c c' c'' : Cell V} {msg : Message V} {msgs : List (Message V)} (h : Step Ends c msg c')
      (hs : Runs c' msgs c'') : Runs c (msg :: msgs) c''

/-- Both clients have returned. -/
def Done (c : Cell V) : Prop := ∀ a, ∃ got put, c.phase a = .returned got put

/-- **How a run ends**: client `a` ended first, with `put`, and the other one with `put'`
after it had read `got'`.  Either it read after `a` had ended, or both read first. -/
structure Outcome (v : V) (msgs : List (Message V)) (c : Cell V) (a : Side) (put : Option V) (got' : V)
    (put' : Option V) : Prop where
  first : Ends a v put
  second : Ends a.other got' put'
  value : c.value = put'.getD (put.getD v)
  phase : c.phase a = .returned v put
  phase_other : c.phase a.other = .returned got' put'
  order : (got' = put.getD v ∧ msgs = [.get a, .ends a put, .get a.other, .ends a.other put']) ∨
    got' = v ∧ ∃ b : Side, msgs = [.get b, .get b.other, .ends a put, .ends a.other put']

variable {Ends} {c c' : Cell V} {msgs : List (Message V)}

/-! ## From the end of a run to its start -/

theorem done_iff (a : Side) :
    Done c ↔ (∃ got put, c.phase a = .returned got put) ∧
      ∃ got put, c.phase a.other = .returned got put := by
  constructor
  · intro h
    exact ⟨h a, h a.other⟩
  · intro h b
    by_cases hb : b = a
    · rw [hb]
      exact h.1
    · rw [Side.eq_other hb]
      exact h.2

/-- A message of one of the two, by its sender. -/
theorem Step.cases_sender (a : Side) {msg : Message V} (h : Step Ends c msg c') :
    ∃ b, (b = a ∨ b = a.other) ∧
      (c.phase b = .idle ∧ msg = .get b ∧ c' = c.advance b (.holding c.value) c.value ∨
        ∃ got put, c.phase b = .holding got ∧ Ends b got put ∧ msg = .ends b put ∧
          c' = c.advance b (.returned got put) (put.getD c.value)) := by
  have hside : ∀ b : Side, b = a ∨ b = a.other := by
    intro b
    by_cases hb : b = a
    · exact .inl hb
    · exact .inr (Side.eq_other hb)
  cases h with
  | @get b h => exact ⟨b, hside b, .inl ⟨h, rfl, rfl⟩⟩
  | @ends b got put h hput => exact ⟨b, hside b, .inr ⟨got, put, h, hput, rfl, rfl⟩⟩

namespace Runs

/-- Clients that have returned send nothing. -/
theorem of_done (h : Runs Ends c msgs c') (hdone : Done c) : msgs = [] ∧ c' = c := by
  cases h with
  | nil => exact ⟨rfl, rfl⟩
  | cons h =>
      cases h with
      | @get a h =>
          obtain ⟨got, put, ha⟩ := hdone a
          rw [ha] at h
          cases h
      | @ends a _ _ h =>
          obtain ⟨got, put, ha⟩ := hdone a
          rw [ha] at h
          cases h

section Tail

variable {a : Side} {got v : V} {put : Option V}

/-- One has returned and the other one has read: it ends. -/
theorem of_returned_holding (h : Runs Ends c msgs c') (hdone : Done c')
    (ha : c.phase a = .returned got put) (hb : c.phase a.other = .holding v) :
    ∃ put', Ends a.other v put' ∧ msgs = [.ends a.other put'] ∧ c'.value = put'.getD c.value ∧
      c'.phase a = .returned got put ∧ c'.phase a.other = .returned v put' := by
  cases h with
  | nil =>
      obtain ⟨got', put', h⟩ := hdone a.other
      rw [hb] at h
      cases h
  | cons h hs =>
      obtain ⟨b, rfl | rfl, ⟨hphase, rfl, rfl⟩ | ⟨got', put', hphase, hput, rfl, rfl⟩⟩ := h.cases_sender a
      · rw [ha] at hphase
        cases hphase
      · rw [ha] at hphase
        cases hphase
      · rw [hb] at hphase
        cases hphase
      · rw [hb] at hphase
        cases hphase
        obtain ⟨rfl, rfl⟩ := hs.of_done ((done_iff a).mpr ⟨⟨got, put, by simpa using ha⟩, v, put', by simp⟩)
        exact ⟨put', hput, rfl, rfl, by simpa using ha, by simp⟩

/-- One has returned and the other one has not begun: it reads what is there, and ends. -/
theorem of_returned_idle (h : Runs Ends c msgs c') (hdone : Done c')
    (ha : c.phase a = .returned got put) (hb : c.phase a.other = .idle) :
    ∃ put', Ends a.other c.value put' ∧ msgs = [.get a.other, .ends a.other put'] ∧
      c'.value = put'.getD c.value ∧ c'.phase a = .returned got put ∧
      c'.phase a.other = .returned c.value put' := by
  cases h with
  | nil =>
      obtain ⟨got', put', h⟩ := hdone a.other
      rw [hb] at h
      cases h
  | cons h hs =>
      obtain ⟨b, rfl | rfl, ⟨hphase, rfl, rfl⟩ | ⟨got', put', hphase, hput, rfl, rfl⟩⟩ := h.cases_sender a
      · rw [ha] at hphase
        cases hphase
      · rw [ha] at hphase
        cases hphase
      · obtain ⟨put', hput, rfl, hval, hpa, hpb⟩ := hs.of_returned_holding (a := a) hdone
          (by simpa using ha) (Cell.phase_advance_self ..)
        exact ⟨put', hput, rfl, hval, hpa, hpb⟩
      · rw [hb] at hphase
        cases hphase

/-- Both have read: one ends, and then the other one. -/
theorem of_holding (h : Runs Ends c msgs c') (hdone : Done c') (ha : ∀ b, c.phase b = .holding v)
    (hv : c.value = v) :
    ∃ a put put', Ends a v put ∧ Ends a.other v put' ∧ msgs = [.ends a put, .ends a.other put'] ∧
      c'.value = put'.getD (put.getD v) ∧ c'.phase a = .returned v put ∧
      c'.phase a.other = .returned v put' := by
  cases h with
  | nil =>
      obtain ⟨got', put', h⟩ := hdone .left
      rw [ha] at h
      cases h
  | cons h hs =>
      cases h with
      | @get b h =>
          rw [ha] at h
          cases h
      | @ends b got put h hput =>
          rw [ha] at h
          cases h
          obtain ⟨put', hput', rfl, hval, hpa, hpb⟩ := hs.of_returned_holding (a := b) hdone
            (Cell.phase_advance_self ..) (by rw [Cell.phase_advance_other, ha])
          exact ⟨b, put, put', hput, hput', rfl, by rw [hval, ← hv]; rfl, hpa, hpb⟩

end Tail

/-- **Every run has one of the outcomes.** -/
theorem outcome {v : V} (h : Runs Ends (start v) msgs c) (hdone : Done c) :
    ∃ a put got' put', Outcome Ends v msgs c a put got' put' := by
  cases h with
  | nil =>
      obtain ⟨got, put, h⟩ := hdone .left
      cases h
  | cons h hs =>
      cases h with
      | ends h => cases h
      | @get a _ =>
          cases hs with
          | nil =>
              obtain ⟨got, put, h⟩ := hdone a.other
              rw [Cell.phase_advance_other] at h
              cases h
          | cons h hs =>
              obtain ⟨b, rfl | rfl, ⟨hphase, rfl, rfl⟩ | ⟨got', put, hphase, hput, rfl, rfl⟩⟩ :=
                h.cases_sender a
              · rw [Cell.phase_advance_self] at hphase
                cases hphase
              · rw [Cell.phase_advance_self] at hphase
                cases hphase
                obtain ⟨put', hput', rfl, hval, hpa, hpb⟩ := hs.of_returned_idle (a := b) hdone
                  (Cell.phase_advance_self ..) (by simp [start])
                exact ⟨b, put, _, put', hput, hput', hval, hpa, hpb, .inl ⟨rfl, rfl⟩⟩
              · obtain ⟨b, put, put', hput, hput', rfl, hval, hpa, hpb⟩ := hs.of_holding hdone
                  (v := v) (fun b => by
                    by_cases hb : b = a
                    · subst hb
                      simp [start]
                    · rw [Side.eq_other hb]
                      simp [start]) rfl
                exact ⟨b, put, v, put', hput, hput', hval, hpa, hpb, .inr ⟨rfl, a, rfl⟩⟩
              · simp [start] at hphase

end Runs

variable (Ends) in
/-- Both may read before either ends. -/
theorem exists_overlap {v : V} {a : Side} {put put' : Option V} (h : Ends a v put)
    (h' : Ends a.other v put') :
    ∃ c, Runs Ends (start v) [.get a.other, .get a, .ends a put, .ends a.other put'] c ∧ Done c ∧
      c.value = put'.getD (put.getD v) ∧ c.phase a = .returned v put := by
  have hget : Step Ends (start v) (.get a.other) ((start v).advance a.other (.holding v) v) := .get rfl
  have hget' : Step Ends ((start v).advance a.other (.holding v) v) (.get a)
      (((start v).advance a.other (.holding v) v).advance a (.holding v) v) := .get (by simp [start])
  have hend : Step Ends _ (.ends a put) _ :=
    .ends (c := ((start v).advance a.other (.holding v) v).advance a (.holding v) v)
      (Cell.phase_advance_self ..) h
  have hheld : (((((start v).advance a.other (.holding v) v).advance a (.holding v) v).advance a
      (.returned v put) (put.getD v)).phase a.other) = .holding v := by simp
  refine ⟨_, .cons hget (.cons hget' (.cons hend (.cons (.ends hheld h') (.nil _)))), ?_, rfl, ?_⟩
  · exact (done_iff a).mpr ⟨⟨v, put, by simp⟩, v, put', by simp⟩
  · simp

end SharedCell
