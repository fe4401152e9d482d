import Mathlib.Data.Finset.Card
import Mathlib.Data.List.Basic

/-!
# Bounded lists by recency

A list that holds at most `n` entries, the newest last and one for each key.  To insert
is to drop the entry with the same key, what has gone stale, and the oldest beyond `n`.
An entry that has not gone stale is held exactly as long as fewer than `n` other keys
have been inserted since its own.

## Main definitions

* `insert` — the one operation.
* `Tracks` — a list, seen from one key and the keys inserted since.
* `Tracks.mem_iff` — when the list holds the key.
-/

namespace Hatls.Recency

variable {A K : Type} [DecidableEq K] (key : A → K) (n : ℕ)

/-- Insert as the newest. -/
def insert (fresh : A → Bool) (xs : List A) (x : A) : List A :=
  let kept := xs.filter fun w => key w ≠ key x && fresh w
  (kept ++ [x]).drop ((kept ++ [x]).length - n)

/-- The list holds an entry under a key, and the newer ones are those of `since`. -/
structure Holds (live : A → Prop) (k : K) (since : Finset K) (xs : List A) : Prop where
  split : ∃ older e newer, xs = older ++ e :: newer ∧ key e = k ∧ live e ∧
    (∀ v ∈ older, key v ≠ k) ∧ (∀ v ∈ newer, key v ≠ k ∧ live v) ∧ (newer.map key).Nodup ∧
      (newer.map key).toFinset = since

/-- **A list, seen from one key**: it holds the key while fewer than `n` others were
inserted since, and no entry under it from then on. -/
inductive Tracks (live : A → Prop) (k : K) (since : Finset K) (xs : List A) : Prop
  | held (hcard : since.card < n) (h : Holds key live k since xs)
  | lost (hcard : n ≤ since.card) (h : ∀ v ∈ xs, key v ≠ k)

variable {key n} {live : A → Prop} {fresh : A → Bool} {k : K} {since : Finset K} {xs : List A}

theorem mem_of_mem_insert {x v : A} (h : v ∈ insert key n fresh xs x) :
    v = x ∨ v ∈ xs ∧ key v ≠ key x := by
  have hmem := List.mem_of_mem_drop h
  rcases List.mem_append.mp hmem with hkept | hnew
  · have hfilter := List.mem_filter.mp hkept
    simp only [Bool.and_eq_true, decide_eq_true_eq] at hfilter
    exact .inr ⟨hfilter.1, hfilter.2.1⟩
  · exact .inl (List.mem_singleton.mp hnew)

/-- What is inserted is the newest. -/
theorem insert_eq_concat (hn : 0 < n) (xs : List A) (x : A) :
    ∃ older, insert key n fresh xs x = older ++ [x] ∧ ∀ v ∈ older, key v ≠ key x := by
  set kept := xs.filter fun w => key w ≠ key x && fresh w with hkept
  have hdrop : (kept ++ [x]).length - n ≤ kept.length := by
    rw [List.length_append, List.length_singleton]
    omega
  refine ⟨kept.drop ((kept ++ [x]).length - n), ?_, ?_⟩
  · exact List.drop_append_of_le_length hdrop
  · intro v hv
    have hfilter := List.mem_filter.mp (hkept ▸ List.mem_of_mem_drop hv)
    simp only [Bool.and_eq_true, decide_eq_true_eq] at hfilter
    exact hfilter.2.1

/-- **From its own insertion on** a key is tracked, with none inserted since. -/
theorem tracks_insert (hn : 0 < n) (xs : List A) {x : A} (hlive : live x) :
    Tracks key n live (key x) ∅ (insert key n fresh xs x) := by
  obtain ⟨older, heq, holder⟩ :
      ∃ older, insert key n fresh xs x = older ++ [x] ∧ ∀ v ∈ older, key v ≠ key x :=
    insert_eq_concat hn xs x
  apply Tracks.held
  · simpa using hn
  · exact ⟨older, x, [], heq, rfl, hlive, holder, by simp, by simp, by simp⟩

/-- What a held key becomes when another is inserted, before the oldest are dropped. -/
theorem Holds.filter {x : A} (h : Holds key live k since xs) (hx : key x ≠ k) (hlive : live x)
    (hfresh : ∀ v, live v → fresh v = true) :
    ∃ older e newer, (xs.filter fun w => key w ≠ key x && fresh w) ++ [x] = older ++ e :: newer ∧
      key e = k ∧ live e ∧ (∀ v ∈ older, key v ≠ k) ∧ (∀ v ∈ newer, key v ≠ k ∧ live v) ∧
      (newer.map key).Nodup ∧ (newer.map key).toFinset = Insert.insert (key x) since := by
  obtain ⟨older, e, newer, rfl, rfl, he, holder, hnewer, hnodup, rfl⟩ := h.split
  refine ⟨older.filter fun w => key w ≠ key x && fresh w, e,
    (newer.filter fun w => key w ≠ key x) ++ [x], ?_, rfl, he, ?_, ?_, ?_, ?_⟩
  · have hkeep : (decide (key e ≠ key x) && fresh e) = true := by
      simpa [Ne.symm hx] using hfresh e he
    have hsame : (newer.filter fun w => key w ≠ key x && fresh w) =
        newer.filter fun w => key w ≠ key x := by
      apply List.filter_congr
      intro v hv
      simp [hfresh v (hnewer v hv).2]
    rw [List.filter_append, List.filter_cons_of_pos, hsame]
    · simp
    · exact hkeep
  · intro v hv
    exact holder v (List.mem_filter.mp hv).1
  · intro v hv
    rcases List.mem_append.mp hv with hold | hnew
    · exact hnewer v (List.mem_filter.mp hold).1
    · rw [List.mem_singleton.mp hnew]
      exact ⟨hx, hlive⟩
  · rw [List.map_append, List.nodup_append]
    refine ⟨hnodup.sublist (List.filter_sublist.map key), by simp, ?_⟩
    intro a ha b hb
    obtain ⟨v, hv, rfl⟩ := List.mem_map.mp ha
    have hne := (List.mem_filter.mp hv).2
    obtain rfl := List.mem_singleton.mp hb
    simpa using hne
  · apply Finset.ext
    intro a
    simp only [List.mem_toFinset, List.map_append, List.mem_append, List.mem_map, List.mem_filter,
      Finset.mem_insert]
    constructor
    · intro ha
      rcases ha with ⟨v, ⟨hv, -⟩, rfl⟩ | ⟨v, hv, rfl⟩
      · exact .inr ⟨v, hv, rfl⟩
      · exact .inl (by rw [List.mem_singleton.mp hv])
    · intro ha
      rcases ha with rfl | ⟨v, hv, rfl⟩
      · exact .inr ⟨x, List.mem_singleton_self x, rfl⟩
      · by_cases heq : key v = key x
        · exact .inr ⟨x, List.mem_singleton_self x, heq.symm⟩
        · exact .inl ⟨v, ⟨hv, by simpa using heq⟩, rfl⟩

/-- **Another key is inserted**: it is one of those since. -/
theorem Tracks.insert_other {x : A} (h : Tracks key n live k since xs) (hx : key x ≠ k)
    (hlive : live x) (hfresh : ∀ v, live v → fresh v = true) :
    Tracks key n live k (Insert.insert (key x) since) (insert key n fresh xs x) := by
  cases h with
  | held hcard h =>
      obtain ⟨older, e, newer, heq, hkey, he, holder, hnewer, hnodup, hsince⟩ :=
        h.filter hx hlive hfresh
      have hlength : newer.length = (Insert.insert (key x) since).card := by
        rw [← hsince, List.toFinset_card_of_nodup hnodup, List.length_map]
      have hinsert : insert key n fresh xs x =
          (older ++ e :: newer).drop ((older ++ e :: newer).length - n) := by
        rw [insert, heq]
      have htotal : (older ++ e :: newer).length = older.length + newer.length + 1 := by
        simp only [List.length_append, List.length_cons]
        omega
      by_cases hroom : (Insert.insert (key x) since).card < n
      · apply Tracks.held hroom
        have hdrop : (older ++ e :: newer).length - n ≤ older.length := by omega
        rw [hinsert, List.drop_append_of_le_length hdrop]
        exact ⟨_, e, newer, rfl, hkey, he, fun v hv => holder v (List.mem_of_mem_drop hv), hnewer,
          hnodup, hsince⟩
      · apply Tracks.lost (Nat.le_of_not_lt hroom)
        have hfull : newer.length = n := by
          have := Finset.card_insert_le (key x) since
          omega
        intro v hv
        have hlast : (older ++ e :: newer).drop ((older ++ e :: newer).length - n) = newer := by
          have hsplit : older ++ e :: newer = (older ++ [e]) ++ newer := by simp
          rw [hsplit]
          apply List.drop_left'
          simp only [List.length_append, List.length_singleton]
          omega
        rw [hinsert, hlast] at hv
        exact (hnewer v hv).1
  | lost hcard h =>
      apply Tracks.lost
      · exact hcard.trans (Finset.card_le_card (Finset.subset_insert _ _))
      · intro v hv
        rcases mem_of_mem_insert hv with rfl | ⟨hmem, -⟩
        · exact hx
        · exact h v hmem

/-- **When the list holds the key**: fewer than `n` others were inserted since. -/
theorem Tracks.mem_iff (h : Tracks key n live k since xs) :
    (∃ v ∈ xs, key v = k) ↔ since.card < n := by
  cases h with
  | held hcard h =>
      obtain ⟨older, e, newer, rfl, hkey, -⟩ := h.split
      constructor
      · intro _
        exact hcard
      · intro _
        exact ⟨e, by simp, hkey⟩
  | lost hcard h =>
      constructor
      · intro hmem
        obtain ⟨v, hv, hkey⟩ := hmem
        exact absurd hkey (h v hv)
      · intro hlt
        omega

/-- What it holds under the key is live. -/
theorem Tracks.live_of_mem {v : A} (h : Tracks key n live k since xs) (hv : v ∈ xs) (hkey : key v = k) :
    live v := by
  cases h with
  | held _ h =>
      obtain ⟨older, e, newer, rfl, -, he, holder, hnewer, -⟩ := h.split
      rcases List.mem_append.mp hv with hold | hcons
      · exact absurd hkey (holder v hold)
      · rcases List.mem_cons.mp hcons with rfl | hnew
        · exact he
        · exact absurd hkey (hnewer v hnew).1
  | lost _ h => exact absurd hkey (h v hv)

end Hatls.Recency
