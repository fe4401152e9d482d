import Mathlib.Data.List.AList
import Mathlib.Data.List.Induction

/-!
# Directories and what was last written

A directory maps names to contents, at most one file a name.  A file is moved over another
in one step.  What a sequence of writes leaves under a name is the last thing that was written
there.

## Main definitions

* `Directory`, `Directory.move` — moving a file, in place of any file of that name.
* `Directory.written` — the directory a sequence of writes leaves.
* `Directory.lastAt` — the last content written under a name.
-/

/-- Names with contents. -/
abbrev Directory (N C : Type) := AList fun _ : N => C

namespace Directory

variable {N C : Type} [DecidableEq N]

/-- The file of one name gets another, whose file is lost. -/
def move (d : Directory N C) (source target : N) : Option (Directory N C) :=
  (d.lookup source).map fun content => (d.erase source).insert target content

theorem move_eq_some {d e : Directory N C} {source target : N} (h : d.move source target = some e) :
    ∃ content, d.lookup source = some content ∧ e = (d.erase source).insert target content := by
  obtain ⟨content, hlookup, heq⟩ := Option.map_eq_some_iff.mp h
  exact ⟨content, hlookup, heq.symm⟩

theorem move_insert (d : Directory N C) (source target : N) (content : C) :
    move (d.insert source content) source target =
      some (((d.insert source content).erase source).insert target content) := by
  rw [move, AList.lookup_insert, Option.map_some]

/-- What a sequence of writes leaves. -/
def written (writes : List (N × C)) : Directory N C :=
  writes.foldl (fun d nc => d.insert nc.1 nc.2) ∅

theorem written_concat (writes : List (N × C)) (name : N) (content : C) :
    written (writes ++ [(name, content)]) = (written writes).insert name content := by
  rw [written, List.foldl_concat, written]

/-- The last content written under a name. -/
def lastAt (name : N) (writes : List (N × C)) : Option C :=
  (writes.filter fun nc => nc.1 = name).getLast?.map Prod.snd

@[simp] theorem lastAt_nil (name : N) : lastAt name ([] : List (N × C)) = none := rfl

theorem lastAt_concat_self (writes : List (N × C)) (name : N) (content : C) :
    lastAt name (writes ++ [(name, content)]) = some content := by
  simp [lastAt]

theorem lastAt_concat_ne (writes : List (N × C)) {name other : N} (h : name ≠ other) (content : C) :
    lastAt other (writes ++ [(name, content)]) = lastAt other writes := by
  simp [lastAt, h]

/-- Writes under other names do not show. -/
theorem lastAt_append_of_ne (writes : List (N × C)) {more : List (N × C)} {name : N}
    (h : ∀ nc ∈ more, nc.1 ≠ name) : lastAt name (writes ++ more) = lastAt name writes := by
  have hnone : (more.filter fun nc => nc.1 = name) = [] := by
    rw [List.filter_eq_nil_iff]
    intro nc hnc
    simpa using h nc hnc
  rw [lastAt, List.filter_append, hnone, List.append_nil, lastAt]

/-- **The last write counts.** -/
theorem lookup_written (name : N) (writes : List (N × C)) :
    (written writes).lookup name = lastAt name writes := by
  induction writes using List.reverseRecOn with
  | nil => rfl
  | append_singleton writes nc ih =>
      obtain ⟨other, content⟩ := nc
      rw [written_concat]
      by_cases h : other = name
      · rw [h, AList.lookup_insert, lastAt_concat_self]
      · rw [AList.lookup_insert_ne (Ne.symm h), lastAt_concat_ne writes h, ih]

theorem mem_written {name : N} {writes : List (N × C)} :
    name ∈ written writes ↔ ∃ content, (name, content) ∈ writes := by
  induction writes using List.reverseRecOn with
  | nil => simp [written]
  | append_singleton writes nc ih =>
      obtain ⟨other, content⟩ := nc
      rw [written_concat, AList.mem_insert, ih]
      constructor
      · intro h
        rcases h with rfl | ⟨old, hold⟩
        · exact ⟨content, by simp⟩
        · exact ⟨old, List.mem_append_left _ hold⟩
      · intro ⟨found, hfound⟩
        rcases List.mem_append.mp hfound with hold | hnew
        · exact .inr ⟨found, hold⟩
        · exact .inl (Prod.mk.inj (List.mem_singleton.mp hnew)).1

end Directory
