import Mathlib.Data.List.Induction
import Mathlib.Data.List.Infix

/-!
# Chains of hashes

A chain is fed one payload after another.  Each link is computed from the payload, the
link before and its own position.  If no two of the computations collide, a link commits
to everything before it: to the number of links, to every payload and to the value the
chain began with.

## Main definitions

* `HashChain.value` — the last link of a chain.
* `HashChain.values` — all its links.
* `HashChain.Within` — the computations a chain is made of.
* `HashChain.eq_of_value_eq` — a link commits to its history.
-/

namespace HashChain

universe u v
variable {A : Type u} {B : Type v} (link : A → B → ℕ → B)

/-- The last link of the chain that begins with `b` and is fed `as`. -/
def value (b : B) (as : List A) : B := as.zipIdx.foldl (fun l p => link p.1 l p.2) b

@[simp] theorem value_nil (b : B) : value link b [] = b := rfl

@[simp] theorem value_concat (b : B) (as : List A) (a : A) :
    value link b (as ++ [a]) = link a (value link b as) as.length := by
  simp [value, List.zipIdx_append]

/-- The links of the chain, first to last. -/
def values (b : B) (as : List A) : List B :=
  (List.range as.length).map fun i => value link b (as.take (i + 1))

@[simp] theorem values_nil (b : B) : values link b [] = [] := rfl

@[simp] theorem values_concat (b : B) (as : List A) (a : A) :
    values link b (as ++ [a]) = values link b as ++ [value link b (as ++ [a])] := by
  have hold : ∀ i ∈ List.range as.length,
      value link b ((as ++ [a]).take (i + 1)) = value link b (as.take (i + 1)) := by
    intro i hi
    have hlt := List.mem_range.mp hi
    rw [List.take_append_of_le_length (by omega)]
  simp only [values, List.length_append, List.length_singleton, List.range_succ, List.map_append,
    List.map_singleton]
  rw [List.map_congr_left hold, List.take_of_length_le (by simp)]

/-- Every link of the chain is computed from arguments that satisfy `S`. -/
def Within (S : A → B → ℕ → Prop) (b : B) (as : List A) : Prop :=
  ∀ pre a, pre ++ [a] <+: as → S a (value link b pre) pre.length

variable {link}

theorem within_nil (S : A → B → ℕ → Prop) (b : B) : Within link S b [] := by
  intro pre a h
  simp at h

@[simp] theorem within_concat {S : A → B → ℕ → Prop} {b : B} {as : List A} {a : A} :
    Within link S b (as ++ [a]) ↔ Within link S b as ∧ S a (value link b as) as.length := by
  constructor
  · intro h
    constructor
    · intro pre a' hpre
      exact h pre a' (hpre.trans (List.prefix_append as [a]))
    · exact h as a List.prefix_rfl
  · rintro ⟨hold, hnew⟩ pre a' hpre
    rcases List.prefix_concat_iff.mp hpre with heq | hpre
    · obtain ⟨rfl, ha⟩ := List.append_inj' heq rfl
      cases ha
      exact hnew
    · exact hold pre a' hpre

theorem Within.mono {S T : A → B → ℕ → Prop} {b : B} {as : List A}
    (hST : ∀ a l n, S a l n → T a l n) (h : Within link S b as) : Within link T b as :=
  fun pre a hpre => hST _ _ _ (h pre a hpre)

/-- **A link commits to its history.**  Two chains with one last link, whose links are
computed without a collision, were fed the same payloads and began alike. -/
theorem eq_of_value_eq {S : A → B → ℕ → Prop}
    (hS : ∀ a l n a' l' n', S a l n → S a' l' n' → link a l n = link a' l' n' →
      a = a' ∧ l = l' ∧ n = n') {b b' : B} {as as' : List A} (hne : as ≠ []) (hne' : as' ≠ [])
    (h : Within link S b as) (h' : Within link S b' as')
    (heq : value link b as = value link b' as') : as = as' ∧ b = b' := by
  induction as using List.reverseRecOn generalizing as' with
  | nil => exact absurd rfl hne
  | append_singleton as a ih =>
      obtain ⟨as', a', rfl⟩ : ∃ xs x, as' = xs ++ [x] :=
        ⟨_, _, (List.dropLast_append_getLast hne').symm⟩
      rw [within_concat] at h h'
      rw [value_concat, value_concat] at heq
      obtain ⟨rfl, hvalue, hlength⟩ := hS _ _ _ _ _ _ h.2 h'.2 heq
      by_cases hnil : as = []
      · subst hnil
        obtain rfl := List.length_eq_zero_iff.mp hlength.symm
        exact ⟨rfl, hvalue⟩
      · have hnil' : as' ≠ [] := by
          rintro rfl
          exact hnil (List.length_eq_zero_iff.mp hlength)
        obtain ⟨rfl, hb⟩ := ih hnil hnil' h.1 h'.1 hvalue
        exact ⟨rfl, hb⟩

end HashChain
