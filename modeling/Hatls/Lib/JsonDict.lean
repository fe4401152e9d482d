import Hatls.Lib.JsonText

/-!
# Dictionaries that are merged, and values that are put in order

What `{**d, **e}` holds under a key, and two facts about a value whose dictionaries have been
put in the order of their keys: putting it in order again changes nothing, and Python's `==`
does not see the difference.

## Main definitions

* `Json.merge` — `{**d, **e}`; `Json.lookup_merge`.
* `Json.normal_normal`, `Json.pyEq_normal_left`.
-/

namespace Json

variable {fields : List (String × Json)} {key : String}

/-! ## Merging -/

/-- `{**d, **e}`. -/
def merge (d e : List (String × Json)) : List (String × Json) := e.foldl setItem d

theorem lookup_cons (kv : String × Json) (fields : List (String × Json)) (key : String) :
    lookup (kv :: fields) key = if kv.1 = key then some kv.2 else lookup fields key := by
  by_cases h : kv.1 = key
  · simp [lookup, h]
  · simp [lookup, h]

theorem lookup_append (fields more : List (String × Json)) (key : String) :
    lookup (fields ++ more) key = (lookup fields key).or (lookup more key) := by
  induction fields with
  | nil => rfl
  | cons kv fields ih =>
      rw [List.cons_append, lookup_cons, lookup_cons, ih]
      by_cases h : kv.1 = key
      · rw [if_pos h, if_pos h, Option.some_or]
      · rw [if_neg h, if_neg h]

theorem lookup_eq_none (h : fields.any (·.1 = key) = false) : lookup fields key = none := by
  rw [lookup, Option.map_eq_none_iff, List.find?_eq_none]
  intro kv hkv heq
  exact List.any_eq_false.mp h kv hkv heq

/-- An item put in the place of the one with its key. -/
theorem lookup_replace (kv : String × Json) (fields : List (String × Json)) (key : String)
    (h : fields.any (·.1 = kv.1) = true) :
    lookup (fields.map fun old => if old.1 = kv.1 then kv else old) key =
      if kv.1 = key then some kv.2 else lookup fields key := by
  induction fields with
  | nil => cases h
  | cons old fields ih =>
      rw [List.map_cons, lookup_cons, lookup_cons]
      by_cases hold : old.1 = kv.1
      · rw [if_pos hold, hold]
        by_cases hkey : kv.1 = key
        · rw [if_pos hkey, if_pos hkey]
        · rw [if_neg hkey, if_neg hkey, if_neg hkey]
          cases hrest : fields.any (·.1 = kv.1) with
          | true => rw [ih hrest, if_neg hkey]
          | false =>
              have hsame : (fields.map fun old => if old.1 = kv.1 then kv else old) = fields := by
                conv_rhs => rw [← List.map_id fields]
                apply List.map_congr_left
                intro other hother
                have hne := List.any_eq_false.mp hrest other hother
                exact if_neg fun heq => hne (decide_eq_true heq)
              rw [hsame]
      · rw [if_neg hold]
        have hrest : fields.any (·.1 = kv.1) = true := by
          rw [List.any_cons, decide_eq_false hold, Bool.false_or] at h
          exact h
        rw [ih hrest]
        by_cases hkey : kv.1 = key
        · have hne : old.1 ≠ key := fun heq => hold (heq.trans hkey.symm)
          rw [if_pos hkey, if_neg hne, if_pos hkey]
        · rw [if_neg hkey, if_neg hkey]

/-- **An item set is the one found under its key**, and nothing else has changed. -/
theorem lookup_setItem (fields : List (String × Json)) (kv : String × Json) (key : String) :
    lookup (setItem fields kv) key = if kv.1 = key then some kv.2 else lookup fields key := by
  rw [setItem]
  cases h : fields.any (·.1 = kv.1) with
  | true => exact lookup_replace kv fields key h
  | false =>
      rw [if_neg (by simp), lookup_append, lookup_cons]
      by_cases hkey : kv.1 = key
      · rw [if_pos hkey, if_pos hkey, ← hkey, lookup_eq_none h, Option.none_or]
      · rw [if_neg hkey, if_neg hkey]
        cases lookup fields key <;> rfl

/-- **What a merged dictionary holds**: the items of the second, and those of the first that it
has no item for. -/
theorem lookup_merge (d : List (String × Json)) {e : List (String × Json)}
    (he : (e.map Prod.fst).Nodup) (key : String) :
    lookup (merge d e) key = (lookup e key).or (lookup d key) := by
  induction e generalizing d with
  | nil => rfl
  | cons kv e ih =>
      obtain ⟨hkv, he⟩ := List.nodup_cons.mp he
      have hstep : merge d (kv :: e) = merge (setItem d kv) e := rfl
      rw [hstep, ih (setItem d kv) he, lookup_setItem, lookup_cons]
      by_cases hkey : kv.1 = key
      · have hnone : lookup e key = none := by
          apply lookup_eq_none
          rw [List.any_eq_false]
          intro other hother heq
          exact hkv (List.mem_map.mpr ⟨other, hother, (of_decide_eq_true heq).trans hkey.symm⟩)
        rw [if_pos hkey, if_pos hkey, hnone, Option.none_or, Option.some_or]
      · rw [if_neg hkey, if_neg hkey]

/-! ## Putting in order -/

/-- What is found under a key of a dictionary that was put in order. -/
theorem lookup_sorted_normalFields (h : (fields.map Prod.fst).Nodup) (key : String) :
    lookup (sorted (normalFields fields)) key = (lookup fields key).map normal := by
  rw [← lookup_normalFields]
  apply lookup_perm (sorted_perm _)
  rw [(sorted_perm _).map Prod.fst |>.nodup_iff, map_fst_normalFields]
  exact h

/-- Subscripting a dictionary that was put in order. -/
theorem item_normal (h : (fields.map Prod.fst).Nodup) {v : Json} (hv : lookup fields key = some v) :
    (normal (obj fields)).item key = .ok (normal v) := by
  rw [normal, item, lookup_sorted_normalFields h, hv, Option.map_some]

/-- **Putting a value in order twice** is putting it in order. -/
theorem normal_normal (x : Json) : normal (normal x) = normal x := by
  match x with
  | null | bool _ | int _ | str _ => rfl
  | arr xs =>
      rw [normal, normal, normalList_eq, normalList_eq, List.map_map]
      congr 1
      apply List.map_congr_left
      intro y hy
      exact normal_normal y
  | obj fields =>
      have hfields : normalFields (normalFields fields) = normalFields fields := by
        rw [normalFields_eq, normalFields_eq, List.map_map]
        apply List.map_congr_left
        intro kv hkv
        exact congrArg (Prod.mk kv.1) (normal_normal kv.2)
      have hsorted : normalFields (sorted (normalFields fields)) =
          sorted (normalFields (normalFields fields)) := by
        rw [normalFields_eq (sorted _), normalFields_eq (normalFields fields), sorted_map]
      rw [normal, normal, hsorted, hfields, sorted_sorted]
termination_by sizeOf x
decreasing_by
  · have hsize := List.sizeOf_lt_of_mem hy
    simp only [arr.sizeOf_spec]
    omega
  · have hsize := List.sizeOf_lt_of_mem hkv
    obtain ⟨k, v⟩ := kv
    simp only [obj.sizeOf_spec, Prod.mk.sizeOf_spec] at hsize ⊢
    omega

theorem keysOnceList_iff {xs : List Json} : KeysOnceList xs ↔ ∀ x ∈ xs, KeysOnce x := by
  refine ⟨KeysOnceList.of_mem, fun h => ?_⟩
  induction xs with
  | nil => trivial
  | cons x xs ih => exact ⟨h x List.mem_cons_self, ih fun y hy => h y (List.mem_cons_of_mem x hy)⟩

theorem keysOnceFields_iff {fields : List (String × Json)} :
    KeysOnceFields fields ↔ ∀ kv ∈ fields, KeysOnce kv.2 := by
  refine ⟨KeysOnceFields.of_mem, fun h => ?_⟩
  induction fields with
  | nil => trivial
  | cons kv fields ih =>
      exact ⟨h kv List.mem_cons_self, ih fun other hother => h other (List.mem_cons_of_mem kv hother)⟩

/-- A value that is put in order is one whose dictionaries are dictionaries. -/
theorem keysOnce_normal (x : Json) (hx : KeysOnce x) : KeysOnce (normal x) := by
  match x with
  | null | bool _ | int _ | str _ => trivial
  | arr xs =>
      rw [normal, normalList_eq, KeysOnce, keysOnceList_iff]
      intro y hy
      obtain ⟨z, hz, rfl⟩ := List.mem_map.mp hy
      exact keysOnce_normal z (KeysOnceList.of_mem hx z hz)
  | obj fields =>
      rw [normal, KeysOnce, keysOnceFields_iff]
      constructor
      · rw [((sorted_perm _).map Prod.fst).nodup_iff, map_fst_normalFields]
        exact hx.1
      · intro kv hkv
        rw [mem_sorted, normalFields_eq] at hkv
        obtain ⟨old, hold, rfl⟩ := List.mem_map.mp hkv
        exact keysOnce_normal old.2 (KeysOnceFields.of_mem hx.2 old hold)
termination_by sizeOf x
decreasing_by
  · have hsize := List.sizeOf_lt_of_mem hz
    simp only [arr.sizeOf_spec]
    omega
  · have hsize := List.sizeOf_lt_of_mem hold
    obtain ⟨k, v⟩ := old
    simp only [obj.sizeOf_spec, Prod.mk.sizeOf_spec] at hsize ⊢
    omega

/-- The items of a dictionary are compared one by one. -/
theorem pyEqFields_iff {xs ys : List (String × Json)} :
    pyEqFields xs ys = true ↔ ∀ kv ∈ xs, ∃ y, lookup ys kv.1 = some y ∧ pyEq kv.2 y = true := by
  constructor
  · intro h
    induction xs with
    | nil => exact fun kv hkv => nomatch hkv
    | cons kv xs ih =>
        rw [pyEqFields, Bool.and_eq_true] at h
        obtain ⟨hfirst, hrest⟩ := h
        refine List.forall_mem_cons.mpr ⟨?_, ih hrest⟩
        cases hy : lookup ys kv.1 with
        | none => rw [hy] at hfirst; cases hfirst
        | some y =>
            rw [hy] at hfirst
            exact ⟨y, rfl, hfirst⟩
  · exact pyEqFields_of_forall

/-- The items of two lists are compared in order. -/
theorem pyEqList_map_left {f : Json → Json} {xs : List Json} (ys : List Json)
    (h : ∀ x ∈ xs, ∀ y, pyEq (f x) y = pyEq x y) : pyEqList (xs.map f) ys = pyEqList xs ys := by
  induction xs generalizing ys with
  | nil => rfl
  | cons x xs ih =>
      obtain ⟨hx, hxs⟩ := List.forall_mem_cons.mp h
      cases ys with
      | nil => rfl
      | cons y ys => rw [List.map_cons, pyEqList, pyEqList, hx, ih ys hxs]

/-- **Python does not see whether a value was put in order.** -/
theorem pyEq_normal_left (x y : Json) : pyEq (normal x) y = pyEq x y := by
  match x with
  | null | bool _ | int _ | str _ => rfl
  | arr xs =>
      rw [normal, normalList_eq]
      cases y with
      | arr ys =>
          rw [pyEq, pyEq]
          exact pyEqList_map_left ys fun x hx y => pyEq_normal_left x y
      | _ => rfl
  | obj fields =>
      rw [normal]
      cases y with
      | obj ys =>
          have hlength : (sorted (normalFields fields)).length = fields.length := by
            rw [(sorted_perm _).length_eq, normalFields_eq, List.length_map]
          have hitems : pyEqFields (sorted (normalFields fields)) ys = pyEqFields fields ys := by
            rw [Bool.eq_iff_iff, pyEqFields_iff, pyEqFields_iff, normalFields_eq]
            constructor
            · intro h kv hkv
              obtain ⟨z, hz, heq⟩ := h (kv.1, normal kv.2) (mem_sorted.mpr (List.mem_map.mpr ⟨kv, hkv, rfl⟩))
              exact ⟨z, hz, (pyEq_normal_left kv.2 z).symm.trans heq⟩
            · intro h kv hkv
              obtain ⟨old, hold, rfl⟩ := List.mem_map.mp (mem_sorted.mp hkv)
              obtain ⟨z, hz, heq⟩ := h old hold
              exact ⟨z, hz, (pyEq_normal_left old.2 z).trans heq⟩
          rw [pyEq, pyEq, hlength, hitems]
      | _ => rfl
termination_by sizeOf x
decreasing_by
  · have hsize := List.sizeOf_lt_of_mem hx
    simp only [arr.sizeOf_spec]
    omega
  · have hsize := List.sizeOf_lt_of_mem hkv
    obtain ⟨k, v⟩ := kv
    simp only [obj.sizeOf_spec, Prod.mk.sizeOf_spec] at hsize ⊢
    omega
  · have hsize := List.sizeOf_lt_of_mem hold
    obtain ⟨k, v⟩ := old
    simp only [obj.sizeOf_spec, Prod.mk.sizeOf_spec] at hsize ⊢
    omega

end Json
