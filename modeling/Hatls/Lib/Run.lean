import Mathlib.Data.List.Induction
import Mathlib.Logic.Relation

/-!
# Runs of a deterministic machine

A machine answers an input and moves to a next state.  A run is a list of inputs,
and a property of a run is stated about the states in which its inputs arrive.  What
one step preserves, a run preserves; what holds only of steps of a certain kind is
preserved by runs of such steps.

## Main definitions

* `exec step s is` — the state after a run.
* `Along step Q s is` — every input arrives in a state where `Q` holds of it.
* `exec_invariant`, `exec_relation`, `origin` — the induction principles.
* `trace step s is` — the inputs with their answers.
* `count step p s is` — how many steps of a run satisfy `p`.
* `steps step s is` — the state after a run of a machine that refuses some inputs.
* `steps_history` — the induction principle for such machines.
-/

namespace Run

universe u v w
variable {S : Type u} {I : Type v} {O : Type w} (step : S → I → O × S)

/-- The state after a run. -/
def exec (s : S) : List I → S
  | [] => s
  | i :: is => exec (step s i).2 is

@[simp] theorem exec_nil (s : S) : exec step s [] = s := rfl

@[simp] theorem exec_cons (s : S) (i : I) (is : List I) :
    exec step s (i :: is) = exec step (step s i).2 is := rfl

@[simp] theorem exec_append (s : S) (is js : List I) :
    exec step s (is ++ js) = exec step (exec step s is) js := by
  induction is generalizing s with
  | nil => rfl
  | cons i is ih => exact ih _

/-- Every input of the run arrives in a state where `Q` holds of it. -/
def Along (Q : S → I → Prop) (s : S) : List I → Prop
  | [] => True
  | i :: is => Q s i ∧ Along Q (step s i).2 is

variable {Q : S → I → Prop}

@[simp] theorem along_nil (s : S) : Along step Q s [] := trivial

@[simp] theorem along_cons (s : S) (i : I) (is : List I) :
    Along step Q s (i :: is) ↔ Q s i ∧ Along step Q (step s i).2 is := Iff.rfl

@[simp] theorem along_append (s : S) (is js : List I) :
    Along step Q s (is ++ js) ↔ Along step Q s is ∧ Along step Q (exec step s is) js := by
  induction is generalizing s with
  | nil => simp
  | cons i is ih => simp [ih, and_assoc]

theorem Along.mono {R : S → I → Prop} (h : ∀ s i, Q s i → R s i) {s : S} {is : List I}
    (ha : Along step Q s is) : Along step R s is := by
  induction is generalizing s with
  | nil => trivial
  | cons i is ih => exact ⟨h _ _ ha.1, ih ha.2⟩

theorem Along.and {R : S → I → Prop} {s : S} {is : List I} (hQ : Along step Q s is)
    (hR : Along step R s is) : Along step (fun s i => Q s i ∧ R s i) s is := by
  induction is generalizing s with
  | nil => trivial
  | cons i is ih => exact ⟨⟨hQ.1, hR.1⟩, ih hQ.2 hR.2⟩

/-- A property of the inputs alone. -/
theorem along_const {R : I → Prop} {s : S} {is : List I} :
    Along step (fun _ i => R i) s is ↔ ∀ i ∈ is, R i := by
  induction is generalizing s with
  | nil => simp
  | cons i is ih => simp [ih]

theorem along_iff_forall_split {s : S} {is : List I} :
    Along step Q s is ↔ ∀ pre i post, is = pre ++ i :: post → Q (exec step s pre) i := by
  constructor
  · rintro h pre i post rfl
    rw [along_append] at h
    exact h.2.1
  · intro h
    induction is generalizing s with
    | nil => trivial
    | cons i is ih =>
        refine ⟨h [] i is rfl, ih fun pre j post heq => ?_⟩
        exact h (i :: pre) j post (by rw [heq]; rfl)

/-- **What steps preserve, runs preserve.** -/
theorem exec_invariant (Inv : S → Prop) (hstep : ∀ s i, Q s i → Inv s → Inv (step s i).2) {s : S}
    {is : List I} (ha : Along step Q s is) (hs : Inv s) : Inv (exec step s is) := by
  induction is generalizing s with
  | nil => exact hs
  | cons i is ih => exact ih ha.2 (hstep s i ha.1 hs)

/-- An invariant of all steps. -/
theorem exec_invariant' (Inv : S → Prop) (hstep : ∀ s i, Inv s → Inv (step s i).2) {s : S}
    (is : List I) (hs : Inv s) : Inv (exec step s is) :=
  exec_invariant step (Q := fun _ _ => True) Inv (fun s i _ => hstep s i)
    (along_iff_forall_split step |>.mpr fun _ _ _ _ => trivial) hs

/-- What an invariant gives at each step, holds along a run. -/
theorem along_of_invariant (Inv : S → Prop) {R : S → I → Prop}
    (hstep : ∀ s i, Q s i → Inv s → Inv (step s i).2) (hR : ∀ s i, Q s i → Inv s → R s i) {s : S}
    {is : List I} (ha : Along step Q s is) (hs : Inv s) : Along step R s is := by
  induction is generalizing s with
  | nil => trivial
  | cons i is ih => exact ⟨hR s i ha.1 hs, ih ha.2 (hstep s i ha.1 hs)⟩

/-- **A reflexive and transitive relation between the states of a step relates the
states of a run.** -/
theorem exec_relation {R : S → S → Prop} (hrefl : ∀ s, R s s)
    (htrans : ∀ s t u, R s t → R t u → R s u) (hstep : ∀ s i, Q s i → R s (step s i).2) {s : S}
    {is : List I} (ha : Along step Q s is) : R s (exec step s is) := by
  induction is generalizing s with
  | nil => exact hrefl s
  | cons i is ih => exact htrans _ _ _ (hstep s i ha.1) (ih ha.2)

/-- So it does the states after two prefixes of a run. -/
theorem relation_of_prefix {R : S → S → Prop} (hrefl : ∀ s, R s s)
    (htrans : ∀ s t u, R s t → R t u → R s u) (hstep : ∀ s i, Q s i → R s (step s i).2) {s : S}
    {is js ks : List I} (ha : Along step Q s ks) (hjs : js <+: ks) (his : is <+: js) :
    R (exec step s is) (exec step s js) := by
  obtain ⟨rest, rfl⟩ := his
  obtain ⟨more, rfl⟩ := hjs
  rw [along_append, along_append] at ha
  rw [exec_append]
  exact exec_relation step hrefl htrans hstep ha.1.2

/-- **Where a fact comes from.**  A fact that holds after a step was made by it, or held
before and was kept.  So one that holds after a run was made by one of its steps and
kept by all later ones, or it held from the start. -/
theorem origin (T : S → Prop) (Makes Keeps : S → I → Prop)
    (hstep : ∀ s i, T (step s i).2 → Makes s i ∨ T s ∧ Keeps s i) {s : S} {is : List I}
    (h : T (exec step s is)) :
    (T s ∧ Along step Keeps s is) ∨
      ∃ pre i post, is = pre ++ i :: post ∧ Makes (exec step s pre) i ∧
        Along step Keeps (step (exec step s pre) i).2 post := by
  induction is using List.reverseRecOn with
  | nil => exact .inl ⟨h, trivial⟩
  | append_singleton is i ih =>
      rw [exec_append] at h
      rcases hstep _ _ h with hmakes | ⟨hT, hkeeps⟩
      · exact .inr ⟨is, i, [], rfl, hmakes, trivial⟩
      · rcases ih hT with ⟨hs, halong⟩ | ⟨pre, j, post, rfl, hmakes, halong⟩
        · exact .inl ⟨hs, (along_append step s is [i]).mpr ⟨halong, hkeeps, trivial⟩⟩
        · refine .inr ⟨pre, j, post ++ [i], by simp, hmakes, ?_⟩
          rw [exec_append, exec_cons] at hkeeps
          exact (along_append step _ post [i]).mpr ⟨halong, hkeeps, trivial⟩

/-- The inputs of a run, each with its answer. -/
def trace (s : S) : List I → List (I × O)
  | [] => []
  | i :: is => (i, (step s i).1) :: trace (step s i).2 is

@[simp] theorem trace_nil (s : S) : trace step s [] = [] := rfl

@[simp] theorem trace_cons (s : S) (i : I) (is : List I) :
    trace step s (i :: is) = (i, (step s i).1) :: trace step (step s i).2 is := rfl

@[simp] theorem trace_append (s : S) (is js : List I) :
    trace step s (is ++ js) = trace step s is ++ trace step (exec step s is) js := by
  induction is generalizing s with
  | nil => rfl
  | cons i is ih => simp [ih]

/-- How many inputs of the run arrive in a state where `p` holds of them. -/
def count (p : S → I → Bool) (s : S) : List I → ℕ
  | [] => 0
  | i :: is => (if p s i then 1 else 0) + count p (step s i).2 is

@[simp] theorem count_nil (p : S → I → Bool) (s : S) : count step p s [] = 0 := rfl

@[simp] theorem count_cons (p : S → I → Bool) (s : S) (i : I) (is : List I) :
    count step p s (i :: is) = (if p s i then 1 else 0) + count step p (step s i).2 is := rfl

theorem count_le_length (p : S → I → Bool) (s : S) (is : List I) :
    count step p s is ≤ is.length := by
  induction is generalizing s with
  | nil => exact Nat.le_refl 0
  | cons i is ih =>
      rw [count_cons, List.length_cons, Nat.add_comm]
      apply Nat.add_le_add (ih _)
      split_ifs <;> omega

/-! ## Machines that refuse -/

section Refusing

variable {step : S → I → Option S}

/-- The state after a run, none of whose inputs is refused. -/
def steps (step : S → I → Option S) (s : S) : List I → Option S
  | [] => some s
  | i :: is => (step s i).bind fun t => steps step t is

theorem steps_append (s : S) (is js : List I) :
    steps step s (is ++ js) = (steps step s is).bind fun t => steps step t js := by
  induction is generalizing s with
  | nil => rfl
  | cons i is ih =>
      rw [List.cons_append, steps, steps, Option.bind_assoc]
      exact Option.bind_congr fun t _ => ih t

/-- The parts of a run. -/
theorem steps_split {s u : S} {is js : List I} (h : steps step s (is ++ js) = some u) :
    ∃ t, steps step s is = some t ∧ steps step t js = some u := by
  rw [steps_append] at h
  exact Option.bind_eq_some_iff.mp h

theorem steps_concat {s u : S} {is : List I} {i : I} (h : steps step s (is ++ [i]) = some u) :
    ∃ t, steps step s is = some t ∧ step t i = some u := by
  obtain ⟨t, hrun, hlast⟩ := steps_split h
  rw [steps] at hlast
  obtain ⟨v, hstep, hend⟩ := Option.bind_eq_some_iff.mp hlast
  rw [steps] at hend
  rw [← Option.some.inj hend]
  exact ⟨t, hrun, hstep⟩

/-- **What is true of a state and the inputs before it**, and kept by every step, is true
after every run. -/
theorem steps_history (Inv : S → List I → Prop) {s : S} (hs : Inv s [])
    (hstep : ∀ t is i u, Inv t is → step t i = some u → Inv u (is ++ [i])) {is : List I} {t : S}
    (h : steps step s is = some t) : Inv t is := by
  induction is using List.reverseRecOn generalizing t with
  | nil =>
      rw [← Option.some.inj h]
      exact hs
  | append_singleton is i ih =>
      obtain ⟨u, hrun, hlast⟩ := steps_concat h
      exact hstep u is i t (ih hrun) hlast

end Refusing

end Run
