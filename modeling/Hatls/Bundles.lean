import Mathlib.Data.Multiset.MapFold
import Hatls.Federation

/-!
# A bundle is its entries

The commitment an attester binds does not depend on the order in which the heads were
collected, and it depends on everything else: on every entry, and on how often it occurs.
Sorting is a canonical form of the multiset of the entries, ties included, and the canonical
text of the sorted list determines it.

## Main definitions

* `Federation.entries` — the multiset of the entries of pairs.
* `Federation.committed` — the bytes that are hashed.
* `Federation.bundleCommitment_eq_iff` — equal commitments are equal multisets.
-/

namespace Hatls.Federation

variable (P : Primitives)

/-- The entries that pairs give, with their multiplicities. -/
def entries (pairs : List (Bytes × SignedHead)) : Multiset Entry := pairs.map (entry P)

/-- The bytes a commitment is the hash of. -/
def committed (es : List Entry) : Bytes :=
  Json.canonical (.obj [("v", .int bundleVersion), ("entries", entriesJson es)])

/-! ## The order of the entries -/

theorem Entry.key_injective : Function.Injective Entry.key := by
  intro a b h
  obtain ⟨m, size, root⟩ := a
  obtain ⟨m', size', root'⟩ := b
  have hpair := toLex.injective h
  obtain ⟨hm, hrest⟩ := Prod.mk.inj hpair
  obtain ⟨hsize, hroot⟩ := Prod.mk.inj (toLex.injective hrest)
  exact (Entry.mk.injEq ..).mpr ⟨hm, hsize, hroot⟩

/-- Entries are compared as their tuples, so they are totally ordered. -/
instance : Std.Total fun a b : Entry => a.key ≤ b.key := ⟨fun a b => le_total a.key b.key⟩

instance : IsTrans Entry fun a b => a.key ≤ b.key := ⟨fun _ _ _ => le_trans⟩

instance : Std.Antisymm fun a b : Entry => a.key ≤ b.key :=
  ⟨fun _ _ hab hba => Entry.key_injective (le_antisymm hab hba)⟩

/-- **The sorted list is a canonical form of the multiset.** -/
theorem bundleEntries_eq_iff {p q : List (Bytes × SignedHead)} :
    bundleEntries P p = bundleEntries P q ↔ entries P p = entries P q := by
  have hp := List.perm_insertionSort (fun a b : Entry => a.key ≤ b.key) (p.map (entry P))
  have hq := List.perm_insertionSort (fun a b : Entry => a.key ≤ b.key) (q.map (entry P))
  constructor
  · intro h
    rw [bundleEntries, bundleEntries] at h
    rw [h] at hp
    exact Multiset.coe_eq_coe.mpr (hp.symm.trans hq)
  · intro h
    have hsame : (bundleEntries P p).Perm (bundleEntries P q) :=
      hp.trans ((Multiset.coe_eq_coe.mp h).trans hq.symm)
    exact hsame.eq_of_pairwise' (List.pairwise_insertionSort _ _) (List.pairwise_insertionSort _ _)

/-! ## The text of the entries -/

/-- Entries that are written alike are equal. -/
theorem Entry.normal_json_injective : Function.Injective fun e : Entry => e.json.normal := by
  intro a b h
  have hitem := Json.lookup_of_normal_eq h (by simp)
  have hm : Json.str a.m = Json.str b.m := Option.some.inj (hitem "m")
  have hsize : Json.int a.size = Json.int b.size := Option.some.inj (hitem "size")
  have hroot : Json.str a.root = Json.str b.root := Option.some.inj (hitem "root")
  obtain ⟨m, size, root⟩ := a
  cases hm
  cases hsize
  cases hroot
  rfl

/-- **The committed bytes determine the entries**, in their order. -/
theorem committed_injective : Function.Injective committed := by
  intro es fs h
  have hitem := Json.lookup_of_normal_eq (Json.canonical_eq_iff.mp h) (by simp) "entries"
  have hentries : (entriesJson es).normal = (entriesJson fs).normal := Option.some.inj hitem
  have hmap := Json.normal_arr_inj hentries
  rw [List.map_map, List.map_map] at hmap
  exact List.map_injective_iff.mpr Entry.normal_json_injective hmap

/-! ## The commitment -/

/-- **Bundle commitments are canonical and binding.**  Two collections of heads have one
commitment exactly if they give the same entries, each as often. -/
theorem bundleCommitment_eq_iff (p q : List (Bytes × SignedHead))
    (hcf : CollisionFree P [committed (bundleEntries P p), committed (bundleEntries P q)]) :
    bundleCommitment P (entriesJson (bundleEntries P p)) =
        bundleCommitment P (entriesJson (bundleEntries P q)) ↔
      entries P p = entries P q := by
  rw [← bundleEntries_eq_iff]
  constructor
  · intro h
    exact committed_injective (hcf _ (by simp) _ (by simp) h)
  · intro h
    rw [h]

/-- Two heads of one mandate that are equal but for their times, and one of another mandate: the order
does not matter, and dropping one of the two that tie does. -/
theorem bundleCommitment_eq_iff_tied :
    let a : Bytes × SignedHead := ([7], ⟨1, "ab", 5, ""⟩)
    let b : Bytes × SignedHead := ([7], ⟨1, "ab", 6, ""⟩)
    let c : Bytes × SignedHead := ([8], ⟨2, "cd", 5, ""⟩)
    bundleCommitment .plain (entriesJson (bundleEntries .plain [a, c, b])) =
        bundleCommitment .plain (entriesJson (bundleEntries .plain [c, b, a])) ∧
      bundleCommitment .plain (entriesJson (bundleEntries .plain [a, c, b])) ≠
        bundleCommitment .plain (entriesJson (bundleEntries .plain [c, a])) := by
  intro a b c
  have hperm : entries .plain [a, c, b] = entries .plain [c, b, a] :=
    Multiset.coe_eq_coe.mpr ((show ([a] ++ [c, b]).Perm ([c, b] ++ [a]) from
      List.perm_append_comm).map _)
  have hcf : CollisionFree .plain
      [committed (bundleEntries .plain [a, c, b]), committed (bundleEntries .plain [c, a])] :=
    .of_nodup (by decide +kernel)
  constructor
  · refine (bundleCommitment_eq_iff .plain [a, c, b] [c, b, a] (hcf.mono ?_)).mpr hperm
    rw [(bundleEntries_eq_iff .plain).mpr hperm]
    simp
  · rw [ne_eq, bundleCommitment_eq_iff .plain [a, c, b] [c, a] hcf]
    intro h
    have hcard := congrArg Multiset.card h
    simp only [entries, Multiset.coe_card, List.length_map, List.length_cons, List.length_nil] at hcard
    omega

end Hatls.Federation
