import Mathlib.Data.List.Basic

/-!
# Codes that are read off the front of a text

A code word may be followed by anything, or only by what cannot continue it: the digits of a
number end where no digit follows.  Words that are read off one after the other, up to a mark
that begins none of them, are read off together, and so are words with a separator between.

## Main definitions

* `ReadsOff` — a word determines its value and what follows it.
* `ReadsOff.flatMap`, `ReadsOff.intercalate` — sequences of words.
-/

variable {A B C : Type}

/-- **The word of `a` is read off**: where it and another word begin one text, each followed
by what may follow, the values agree, and so does the rest of the text. -/
def ReadsOff (next : List C → Prop) (enc : A → List C) (val : A → B) (a : A) : Prop :=
  ∀ b s t, next s → next t → enc a ++ s = enc b ++ t → val a = val b ∧ s = t

/-- No word begins with the mark. -/
def NeverOpens (c : C) (enc : A → List C) : Prop := ∀ a s t, enc a ++ s ≠ c :: t

namespace ReadsOff

variable {next : List C → Prop} {enc : A → List C} {val : A → B}

/-- A decoder reads words off. -/
theorem of_decode {decode : List C → Option (A × List C)}
    (h : ∀ a s, decode (enc a ++ s) = some (a, s)) (a : A) : ReadsOff (fun _ => True) enc id a := by
  intro b s t _ _ heq
  have hdec := h a s
  rw [heq, h b t] at hdec
  obtain ⟨hba, hts⟩ := Prod.mk.inj (Option.some.inj hdec)
  exact ⟨hba.symm, hts.symm⟩

/-- Words after a separator. -/
theorem cons {a : A} (h : ReadsOff next enc val a) (sep : C) :
    ReadsOff next (fun a => sep :: enc a) val a := by
  intro b s t hs ht heq
  exact h b s t hs ht (List.cons.inj heq).2

/-- **A sequence of words up to a mark.** -/
theorem flatMap {stop : C} (hopen : NeverOpens stop enc)
    (hnext : ∀ s, (∃ t, s = stop :: t) ∨ (∃ a t, s = enc a ++ t) → next s) {as : List A}
    (h : ∀ a ∈ as, ReadsOff next enc val a) (bs : List A) (s t : List C)
    (heq : as.flatMap enc ++ stop :: s = bs.flatMap enc ++ stop :: t) :
    as.map val = bs.map val ∧ s = t := by
  have hrest : ∀ (as : List A) (s : List C), next (as.flatMap enc ++ stop :: s) := by
    intro as s
    cases as with
    | nil => exact hnext _ (.inl ⟨s, rfl⟩)
    | cons a as =>
        rw [List.flatMap_cons, List.append_assoc]
        exact hnext _ (.inr ⟨a, _, rfl⟩)
  induction as generalizing bs with
  | nil =>
      cases bs with
      | nil => exact ⟨rfl, (List.cons.inj heq).2⟩
      | cons b bs =>
          rw [List.flatMap_cons, List.append_assoc] at heq
          exact absurd heq.symm (hopen b _ _)
  | cons a as ih =>
      cases bs with
      | nil =>
          rw [List.flatMap_cons, List.append_assoc] at heq
          exact absurd heq (hopen a _ _)
      | cons b bs =>
          rw [List.flatMap_cons, List.flatMap_cons, List.append_assoc, List.append_assoc] at heq
          obtain ⟨hval, heq⟩ := h a List.mem_cons_self b _ _ (hrest as s) (hrest bs t) heq
          have hmem : ∀ a ∈ as, ReadsOff next enc val a := by
            intro a' ha'
            exact h a' (List.mem_cons_of_mem a ha')
          obtain ⟨hvals, hst⟩ := ih hmem bs heq
          exact ⟨by rw [List.map_cons, List.map_cons, hval, hvals], hst⟩

theorem intercalate_cons (sep : C) (enc : A → List C) (a : A) (as : List A) :
    [sep].intercalate ((a :: as).map enc) = enc a ++ as.flatMap fun a => sep :: enc a := by
  induction as generalizing a with
  | nil => simp
  | cons b as ih =>
      rw [List.map_cons, List.map_cons, List.intercalate_cons_cons, ← List.map_cons, ih b]
      simp

/-- **Words with a separator between them, up to a mark.** -/
theorem intercalate {sep stop : C} (hne : sep ≠ stop) (hopen : NeverOpens stop enc)
    (hsep : ∀ s, next (sep :: s)) (hstop : ∀ s, next (stop :: s)) {as : List A}
    (h : ∀ a ∈ as, ReadsOff next enc val a) (bs : List A) (s t : List C)
    (heq : [sep].intercalate (as.map enc) ++ stop :: s = [sep].intercalate (bs.map enc) ++ stop :: t) :
    as.map val = bs.map val ∧ s = t := by
  have hopen' : NeverOpens stop fun a => sep :: enc a := by
    intro a s t heq
    exact hne (List.cons.inj heq).1
  have hnext : ∀ s, (∃ t, s = stop :: t) ∨ (∃ a t, s = (sep :: enc a) ++ t) → next s := by
    intro s hs
    rcases hs with ⟨t, rfl⟩ | ⟨a, t, rfl⟩
    · exact hstop t
    · exact hsep _
  have hrest : ∀ (as : List A) (s : List C),
      next ((as.flatMap fun a => sep :: enc a) ++ stop :: s) := by
    intro as s
    cases as with
    | nil => exact hstop s
    | cons a as => exact hsep _
  cases as with
  | nil =>
      cases bs with
      | nil => exact ⟨rfl, (List.cons.inj heq).2⟩
      | cons b bs =>
          rw [intercalate_cons, List.append_assoc] at heq
          exact absurd heq.symm (hopen b _ _)
  | cons a as =>
      cases bs with
      | nil =>
          rw [intercalate_cons, List.append_assoc] at heq
          exact absurd heq (hopen a _ _)
      | cons b bs =>
          rw [intercalate_cons, intercalate_cons, List.append_assoc, List.append_assoc] at heq
          obtain ⟨hval, heq⟩ := h a List.mem_cons_self b _ _ (hrest as s) (hrest bs t) heq
          have hmem : ∀ a ∈ as, ReadsOff next (fun a => sep :: enc a) val a := by
            intro a' ha'
            exact (h a' (List.mem_cons_of_mem a ha')).cons sep
          obtain ⟨hvals, hst⟩ := ReadsOff.flatMap hopen' hnext hmem bs s t heq
          exact ⟨by rw [List.map_cons, List.map_cons, hval, hvals], hst⟩

end ReadsOff
