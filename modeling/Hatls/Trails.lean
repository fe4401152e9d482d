import Hatls.Lib.MerkleChain
import Hatls.Framing

/-!
# Trails of heads

A relying party rarely sees every head of a log.  It keeps one, and takes another when it is
shown that the other extends it.  What holds of two heads that one accepted proof links, holds
of the first and the last of such a trail: one proof would have done; a receipt under the first
could have been given under the last; and a receipt under the first and a receipt under the
last never show two entries at one position.  The mandate chose all roots and all proofs.  Two
things are asked: that what stands in the proofs has the length of a digest, which the verifiers
do not check, and that the strings hashed by the calls at hand do not collide.

## Main definitions

* `Log.LeadsTo` — a path of digests that rebuilds two roots; `Log.LeadsTo.trans`,
  `Log.LeadsTo.carry`.
* `Receipt.Trail` — heads each of which `verify_extension` accepts after the one before.
* `Receipt.trail_extension`, `Receipt.trail_carries`, `Receipt.trail_one_entry`.
-/

namespace Hatls

namespace Log

open MerkleTree

variable {P : Primitives} {strings : List Bytes} {r s t : Bytes} {m n l : ℕ}

/-- **A root leads to another**: they are one root of one size, or a climb rebuilds both
from digests, with all it hashes among some strings. -/
inductive LeadsTo (P : Primitives) (strings : List Bytes) (r : Bytes) (m : ℕ) : Bytes → ℕ → Prop
  | same : LeadsTo P strings r m r m
  | grown {s d : Bytes} {n : ℕ} {c : List Bytes} {out : List (Preimage Bytes Bytes)} (hm : 0 < m)
      (hmn : m < n)
      (hwalk : walkFrom (scheme P).consistencyL (scheme P).consistencyR (m - 1) (n - 1)
        ((d, d), []) c = some ((r, s), out))
      (hstart : m = 2 ^ Nat.log 2 m → d = r)
      (hhashed : ∀ v ∈ out, string v ∈ strings) (hd : d.length = 32) (hc : ∀ u ∈ c, u.length = 32) :
      LeadsTo P strings r m s n

namespace LeadsTo

theorem le (h : LeadsTo P strings r m s n) : m ≤ n := by
  cases h with
  | same => exact le_rfl
  | grown _ hmn => exact hmn.le

theorem mono {strings' : List Bytes} (h : LeadsTo P strings r m s n) (hsub : strings ⊆ strings') :
    LeadsTo P strings' r m s n := by
  cases h with
  | same => exact .same
  | grown hm hmn hwalk hstart hhashed hd hc =>
      exact .grown hm hmn hwalk hstart (fun v hv => hsub (hhashed v hv)) hd hc

/-- **These steps compose.** -/
theorem trans (hcf : CollisionFree P strings) (h : LeadsTo P strings r m s n)
    (h' : LeadsTo P strings s n t l) : LeadsTo P strings r m t l := by
  cases h with
  | same => exact h'
  | grown hm hmn hwalk hstart hhashed hd hc =>
    cases h' with
    | same => exact .grown hm hmn hwalk hstart hhashed hd hc
    | grown hn hnl hwalk' _ hhashed' _ hc' =>
        obtain ⟨c, out, hcomposed, hout, hdigests⟩ := walkFrom_trans (binding P hcf) hm hmn hnl hwalk
          hwalk' hhashed hhashed' hd hc hc'
        apply LeadsTo.grown hm (hmn.trans hnl) hcomposed hstart _ hd hdigests
        intro v hv
        rcases hout v hv with hv | hv
        · exact hhashed v hv
        · exact hhashed' v hv

/-- What a digest leads to is a digest. -/
theorem digest (h : LeadsTo P strings r m s n) (hcf : CollisionFree P strings) (hr : r.length = 32) :
    s.length = 32 := by
  cases h with
  | same => exact hr
  | grown hm hmn hwalk => exact (binding P hcf).new_digest hm hmn hwalk

/-- What `verify_consistency` accepts leads from one root to another. -/
theorem of_verify {p : List Bytes} (hr : r.length = 32) (hp : ∀ u ∈ p, u.length = 32)
    (h : verifyConsistency P r m s n p = true) :
    LeadsTo P (consistencyStrings P r m n p) r m s n := by
  rcases verifyConsistency_range h with heq | ⟨hm, hmn⟩
  · obtain rfl : m = n := Int.ofNat_inj.mp heq
    obtain ⟨rfl, -⟩ := (verifyConsistency_self P).mp h
    exact .same
  · have hm : 0 < m := Int.natCast_pos.mp hm
    have hmn : m < n := Int.ofNat_lt.mp hmn
    obtain ⟨-, d, c, out, hpath, hwalk⟩ := (verifyConsistency_iff P hm hmn).mp h
    have hdigests : ∀ u ∈ d :: c, u.length = 32 := by
      intro u hu
      rw [← hpath, fullPath] at hu
      split_ifs at hu
      · rcases List.mem_cons.mp hu with rfl | hu
        · exact hr
        · exact hp u hu
      · exact hp u hu
    apply LeadsTo.grown hm hmn hwalk _ (mem_consistencyStrings P hm hmn hpath hwalk)
      (hdigests d List.mem_cons_self) fun u hu => hdigests u (List.mem_cons_of_mem _ hu)
    intro hpow
    rw [fullPath, if_pos hpow] at hpath
    exact (List.cons.inj hpath).1.symm

/-- Where one root leads to another, `verify_consistency` accepts one proof made of digests. -/
theorem exists_verify (h : LeadsTo P strings r m s n) :
    ∃ p, (∀ u ∈ p, u.length = 32) ∧ verifyConsistency P r m s n p = true := by
  cases h with
  | same =>
      refine ⟨[], fun u hu => (nomatch hu), ?_⟩
      exact (verifyConsistency_self P).mpr ⟨rfl, rfl⟩
  | @grown s d n c out hm hmn hwalk hstart hhashed hd hc =>
      by_cases hpow : m = 2 ^ Nat.log 2 m
      · refine ⟨c, hc, (verifyConsistency_iff P hm hmn).mpr ⟨?_, d, c, out, ?_, hwalk⟩⟩
        · rintro rfl
          rw [walkFrom_nil _ _ (by omega)] at hwalk
          cases hwalk
        · rw [fullPath, if_pos hpow, hstart hpow]
      · refine ⟨d :: c, List.forall_mem_cons.mpr ⟨hd, hc⟩, ?_⟩
        refine (verifyConsistency_iff P hm hmn).mpr ⟨List.cons_ne_nil _ _, d, c, out, ?_, hwalk⟩
        rw [fullPath, if_neg hpow]

/-- **An inclusion proof is carried along.** -/
theorem carry (hcf : CollisionFree P strings) (h : LeadsTo P strings r m s n) {i : ℕ} {e : Bytes}
    {p : List Bytes} (him : i < m) (hp : ∀ u ∈ p, u.length = 32)
    (hver : verifyInclusion P e i m p r = true)
    (hsub : inclusionStrings P e i m p ⊆ strings) :
    ∃ q, (∀ u ∈ q, u.length = 32) ∧ verifyInclusion P e i n q s = true := by
  cases h with
  | same => exact ⟨p, hp, hver⟩
  | grown hm hmn hwalk hstart hhashed hd hc =>
      obtain ⟨out, hclimb⟩ := (verifyInclusion_iff P him).mp hver
      obtain ⟨q, out', hq, -, hdigests⟩ := walk_extend (binding P hcf) him hmn hclimb hwalk
        (fun v hv => hsub (mem_inclusionStrings P him hclimb v hv)) hhashed (length_leafHash P e) hp hc
      exact ⟨q, hdigests, (verifyInclusion_iff P (him.trans hmn)).mpr ⟨out', hq⟩⟩

/-- **LeadsTo roots open one position to one entry.** -/
theorem one_entry (hcf : CollisionFree P strings) (h : LeadsTo P strings r m s n) {i : ℕ}
    {e e' : Bytes} {p q : List Bytes} (hp : ∀ u ∈ p, u.length = 32) (hq : ∀ u ∈ q, u.length = 32)
    (hver : verifyInclusion P e i m p r = true) (hver' : verifyInclusion P e' i n q s = true)
    (hsub : inclusionStrings P e i m p ⊆ strings) (hsub' : inclusionStrings P e' i n q ⊆ strings) :
    e = e' := by
  have him : i < m := Int.ofNat_lt.mp (verifyInclusion_range hver).2
  have hin : i < n := lt_of_lt_of_le him h.le
  obtain ⟨out, hclimb⟩ := (verifyInclusion_iff P him).mp hver
  obtain ⟨out', hclimb'⟩ := (verifyInclusion_iff P hin).mp hver'
  have hhash := fun v hv => hsub (mem_inclusionStrings P him hclimb v hv)
  have hhash' := fun v hv => hsub' (mem_inclusionStrings P hin hclimb' v hv)
  have hleaf : leafHash P e = leafHash P e' := by
    cases h with
    | same =>
        exact walk_unique (binding P hcf) (by omega) hclimb hclimb' hhash hhash'
          (length_leafHash P e) (length_leafHash P e') hq
    | grown hm hmn hwalk hstart hhashed hd hc =>
        exact walk_agree (binding P hcf) him hmn hclimb hclimb' hwalk hhash hhash' hhashed
          (length_leafHash P e) (length_leafHash P e') hd hp hq hc
  exact leafHash_injOn hcf (hsub List.mem_cons_self) (hsub' List.mem_cons_self) hleaf

end LeadsTo

end Log

namespace Receipt

open Log

variable {P : Primitives} {spki : Bytes} {describe : Exn → String}

/-! ## The strings hashed by a call -/

/-- What `verify_extension` hashes. -/
def extensionHashes (P : Primitives) (old new proof : Json) : List Bytes :=
  match old.item "root" >>= Json.fromHex, old.item "size", new.item "size", proofBytes proof with
  | .ok root, .ok m, .ok n, .ok p =>
    match m.asInt?, n.asInt? with
    | some m, some n => consistencyStrings P root m n p
    | _, _ => []
  | _, _, _, _ => []

/-- What `verify_receipt` hashes for the entry. -/
def receiptHashes (P : Primitives) (receipt : Json) : List Bytes :=
  match receipt.item "entry" >>= Json.fromHex, receipt.item "index",
    receipt.item "sth" >>= fun sth => sth.item "size", receipt.item "proof" >>= proofBytes with
  | .ok entry, .ok i, .ok n, .ok p =>
    match i.asInt?, n.asInt? with
    | some i, some n => inclusionStrings P entry i n p
    | _, _ => []
  | _, _, _, _ => []

/-- A proof made of digests. -/
def OfDigests (proof : Json) : Prop := ∀ p, proofBytes proof = .ok p → ∀ d ∈ p, d.length = 32

/-- **Heads each of which `verify_extension` accepts after the one before**, by proofs made of
digests, with the strings hashed on the way. -/
inductive Trail (P : Primitives) (spki : Bytes) (first : Json) : Json → List Bytes → Prop
  | here : Trail P spki first first []
  | next {last new proof : Json} {strings : List Bytes} (h : Trail P spki first last strings)
      (hdigests : OfDigests proof) (hext : verifyExtension P spki last new proof = .ok true) :
      Trail P spki first new (strings ++ extensionHashes P last new proof)

/-! ## What the two checks say -/

/-- **What an accepted extension says** of a head that names a size: the other names one as
well, and `verify_consistency` has accepted. -/
theorem verifyExtension_true {old new proof : Json} {m : ℕ} {r : Bytes} (hold : Denotes old m r)
    (h : verifyExtension P spki old new proof = .ok true) :
    verifySth P spki old = .ok () ∧ verifySth P spki new = .ok () ∧
      ∃ n s p, Denotes new n s ∧ proofBytes proof = .ok p ∧
        verifyConsistency P r m s n p = true ∧
        extensionHashes P old new proof = consistencyStrings P r m n p := by
  obtain ⟨jm, hjm, hm : jm.asInt? = some (m : ℤ)⟩ := hold.size
  obtain ⟨jr, hjr, hr⟩ := hold.root
  obtain ⟨⟨⟩, hsig, h⟩ := Exn.bind_eq_ok h
  obtain ⟨⟨⟩, hsig', h⟩ := Exn.bind_eq_ok h
  simp only [checkExtension, hjr, hjm, hr, Exn.ok_bind] at h
  obtain ⟨js, hjs, h⟩ := Exn.bind_eq_ok h
  obtain ⟨s, hs, h⟩ := Exn.bind_eq_ok h
  obtain ⟨jn, hjn, h⟩ := Exn.bind_eq_ok h
  obtain ⟨p, hp, h⟩ := Exn.bind_eq_ok h
  simp only [consistencyOf, hm] at h
  cases hn : jn.asInt? with
  | none =>
      rw [hn] at h
      simp only at h
      split at h
      · cases h
      · cases h
  | some n =>
      rw [hn] at h
      have hver : verifyConsistency P r m s n p = true := Except.ok.inj h
      have hpos : 0 ≤ n := by
        rcases verifyConsistency_range hver with heq | ⟨_, hlt⟩ <;> omega
      lift n to ℕ using hpos
      refine ⟨hsig, hsig', n, s, p, ⟨⟨jn, hjn, hn⟩, js, hjs, hs⟩, hp, hver, ?_⟩
      simp only [extensionHashes, hjr, hjm, hjn, hp, hr, hm, hn, Exn.ok_bind]

/-- It is accepted where `verify_consistency` accepts. -/
theorem verifyExtension_of_verify {old new : Json} {m n : ℕ} {r s : Bytes} {p : List Bytes}
    (hsig : verifySth P spki old = .ok ()) (hsig' : verifySth P spki new = .ok ())
    (hold : Denotes old m r) (hnew : Denotes new n s) (h : verifyConsistency P r m s n p = true) :
    verifyExtension P spki old new (Mandate.hexList p) = .ok true := by
  obtain ⟨jm, hjm, hm : jm.asInt? = some (m : ℤ)⟩ := hold.size
  obtain ⟨jr, hjr, hr⟩ := hold.root
  obtain ⟨jn, hjn, hn : jn.asInt? = some (n : ℤ)⟩ := hnew.size
  obtain ⟨js, hjs, hs⟩ := hnew.root
  have hp : proofBytes (Mandate.hexList p) = .ok p := Heads.proofBytes_hex p
  simp only [verifyExtension, hsig, hsig', checkExtension, hjr, hjm, hjn, hjs, hr, hs, hp,
    consistencyOf, hm, hn, h, Exn.ok_bind]

/-- What the parts of an accepted receipt are. -/
structure Holds (P : Primitives) (spki : Bytes) (receipt head : Json) (e : Bytes) (i m : ℕ)
    (r : Bytes) (p : List Bytes) : Prop where
  sth : receipt.item "sth" = .ok head
  signed : verifySth P spki head = .ok ()
  denotes : Denotes head m r
  entry : ∃ j, receipt.item "entry" = .ok j ∧ j.fromHex = .ok e
  index : ∃ j, receipt.item "index" = .ok j ∧ j.asInt? = some (i : ℤ)
  proof : ∃ j, receipt.item "proof" = .ok j ∧ proofBytes j = .ok p
  included : verifyInclusion P e i m p r = true
  hashes : receiptHashes P receipt = inclusionStrings P e i m p

/-- **What an accepted receipt says.** -/
theorem holds_of_verifyReceipt {receipt : Json} {why : String}
    (h : verifyReceipt P describe spki receipt = .ok (true, why)) :
    ∃ sth entry i m r p, Holds P spki receipt sth entry i m r p := by
  simp only [verifyReceipt] at h
  split at h
  · cases h
  next hsig =>
  obtain ⟨sth, hsth, hsig⟩ := Exn.bind_eq_ok hsig
  simp only [hsth, Exn.ok_bind] at h
  obtain ⟨je, hje, h⟩ := Exn.bind_eq_ok h
  obtain ⟨entry, hentry, h⟩ := Exn.bind_eq_ok h
  obtain ⟨jp, hjp, h⟩ := Exn.bind_eq_ok h
  obtain ⟨p, hp, h⟩ := Exn.bind_eq_ok h
  obtain ⟨jr, hjr, h⟩ := Exn.bind_eq_ok h
  obtain ⟨r, hr, h⟩ := Exn.bind_eq_ok h
  obtain ⟨ji, hji, h⟩ := Exn.bind_eq_ok h
  obtain ⟨jn, hjn, h⟩ := Exn.bind_eq_ok h
  obtain ⟨ok, hok, h⟩ := Exn.bind_eq_ok h
  have htrue : ok = true := by
    cases ok with
    | true => rfl
    | false => cases h
  rw [htrue, inclusionOf] at hok
  cases hi : ji.asInt? with
  | none => rw [hi] at hok; cases hok
  | some i =>
    cases hn : jn.asInt? with
    | none =>
        rw [hi, hn] at hok
        simp only at hok
        split at hok
        · cases hok
        · cases hok
    | some n =>
        rw [hi, hn] at hok
        have hver : verifyInclusion P entry i n p r = true := Except.ok.inj hok
        obtain ⟨hi0, hin⟩ := verifyInclusion_range hver
        lift i to ℕ using hi0
        lift n to ℕ using by omega
        refine ⟨sth, entry, i, n, r, p, hsth, hsig, ⟨⟨jn, hjn, hn⟩, jr, hjr, hr⟩, ⟨je, hje, hentry⟩,
          ⟨ji, hji, hi⟩, ⟨jp, hjp, hp⟩, hver, ?_⟩
        simp only [receiptHashes, hje, hentry, hji, hsth, hjn, hjp, hp, hi, hn, Exn.ok_bind]

/-- A receipt for the entry of another, under another head. -/
def reissued (entry index : Json) (proof : List Bytes) (sth : Json) : Json :=
  .obj [("entry", entry), ("index", index), ("proof", Mandate.hexList proof), ("sth", sth)]

/-- It is accepted where `verify_inclusion` accepts. -/
theorem verifyReceipt_reissued {entry index sth : Json} {e r : Bytes} {i n : ℕ} {p : List Bytes}
    (hentry : entry.fromHex = .ok e) (hindex : index.asInt? = some (i : ℤ))
    (hsig : verifySth P spki sth = .ok ()) (hsth : Denotes sth n r)
    (h : verifyInclusion P e i n p r = true) :
    verifyReceipt P describe spki (reissued entry index p sth) = .ok (true, "receipt verifies") := by
  obtain ⟨jn, hjn, hn : jn.asInt? = some (n : ℤ)⟩ := hsth.size
  obtain ⟨jr, hjr, hr⟩ := hsth.root
  have hp : proofBytes (Mandate.hexList p) = .ok p := Heads.proofBytes_hex p
  have hitems : (reissued entry index p sth).item "entry" = .ok entry ∧
      (reissued entry index p sth).item "index" = .ok index ∧
      (reissued entry index p sth).item "proof" = .ok (Mandate.hexList p) ∧
      (reissued entry index p sth).item "sth" = .ok sth := ⟨rfl, rfl, rfl, rfl⟩
  simp only [verifyReceipt, hitems, Exn.ok_bind, hsig, hentry, hp, hjn, hjr, hr, inclusionOf, hindex,
    hn, h, if_true, Exn.pure_eq_ok]

/-! ## Trails -/

/-- The last head of a trail is signed where the first is. -/
theorem Trail.signed {first last : Json} {strings : List Bytes} (h : Trail P spki first last strings)
    (hsig : verifySth P spki first = .ok ()) : verifySth P spki last = .ok () := by
  cases h with
  | here => exact hsig
  | next _ _ hext =>
      obtain ⟨⟨⟩, _, hext⟩ := Exn.bind_eq_ok hext
      obtain ⟨⟨⟩, hlast, _⟩ := Exn.bind_eq_ok hext
      exact hlast

/-- **The first root of a trail leads to the last.** -/
theorem Trail.leadsTo {first last : Json} {strings : List Bytes} (h : Trail P spki first last strings)
    (hcf : CollisionFree P strings) {m : ℕ} {r : Bytes} (hfirst : Denotes first m r)
    (hr : r.length = 32) : ∃ n s, Denotes last n s ∧ LeadsTo P strings r m s n := by
  induction h with
  | here => exact ⟨m, r, hfirst, .same⟩
  | @next last new proof strings _ hdigests hext ih =>
      obtain ⟨n, s, hlast, hleads⟩ := ih (hcf.mono (List.subset_append_left _ _))
      obtain ⟨-, -, l, t, p, hnew, hp, hver, hhashes⟩ := verifyExtension_true hlast hext
      have hs : s.length = 32 := hleads.digest (hcf.mono (List.subset_append_left _ _)) hr
      have hstep := LeadsTo.of_verify hs (hdigests p hp) hver
      rw [← hhashes] at hstep
      refine ⟨l, t, hnew, ?_⟩
      exact (hleads.mono (List.subset_append_left _ _)).trans hcf
        (hstep.mono (List.subset_append_right _ _))

/-- **One proof would have done.**  Where heads were each accepted as extending the one before,
there is a proof by which `verify_extension` accepts the last as extending the first. -/
theorem trail_extension {first last : Json} {strings : List Bytes}
    (h : Trail P spki first last strings) (hsig : verifySth P spki first = .ok ()) {m : ℕ} {r : Bytes}
    (hfirst : Denotes first m r) (hr : r.length = 32) (hcf : CollisionFree P strings) :
    ∃ p, (∀ d ∈ p, d.length = 32) ∧
      verifyExtension P spki first last (Mandate.hexList p) = .ok true := by
  obtain ⟨n, s, hlast, hleads⟩ := h.leadsTo hcf hfirst hr
  obtain ⟨p, hp, hver⟩ := hleads.exists_verify
  exact ⟨p, hp, verifyExtension_of_verify hsig (h.signed hsig) hfirst hlast hver⟩

/-- The root under which an entry was found is a digest. -/
theorem Holds.digest {receipt head : Json} {e r : Bytes} {i m : ℕ} {p : List Bytes}
    (h : Holds P spki receipt head e i m r p) : r.length = 32 := by
  have him : i < m := Int.ofNat_lt.mp (verifyInclusion_range h.included).2
  obtain ⟨out, hclimb⟩ := (verifyInclusion_iff P him).mp h.included
  exact MerkleTree.walk_preserves (P := fun a => a.1.length = 32) _ _
    (fun _ _ _ => length_nodeHash P _ _) (fun _ _ _ => length_nodeHash P _ _) (length_leafHash P e)
    hclimb

/-- **A receipt outlives its head.**  An entry shown under the first head of a trail can be
shown, at its position, under the last. -/
theorem trail_carries {receipt first last : Json} {strings : List Bytes} {why : String}
    (hreceipt : verifyReceipt P describe spki receipt = .ok (true, why))
    (hsth : receipt.item "sth" = .ok first) (h : Trail P spki first last strings)
    (hdigests : ∀ proof, receipt.item "proof" = .ok proof → OfDigests proof)
    (hcf : CollisionFree P (receiptHashes P receipt ++ strings)) :
    ∃ entry index p, receipt.item "entry" = .ok entry ∧ receipt.item "index" = .ok index ∧
      verifyReceipt P describe spki (reissued entry index p last) =
        .ok (true, "receipt verifies") := by
  obtain ⟨sth, e, i, m, r, p, hholds⟩ := holds_of_verifyReceipt hreceipt
  obtain rfl : sth = first := Except.ok.inj (hholds.sth.symm.trans hsth)
  obtain ⟨je, hje, he⟩ := hholds.entry
  obtain ⟨ji, hji, hi⟩ := hholds.index
  obtain ⟨jp, hjp, hp⟩ := hholds.proof
  obtain ⟨n, s, hlast, hleads⟩ := h.leadsTo (hcf.mono (List.subset_append_right _ _))
    hholds.denotes hholds.digest
  have him : i < m := Int.ofNat_lt.mp (verifyInclusion_range hholds.included).2
  obtain ⟨q, -, hq⟩ := (hleads.mono (List.subset_append_right _ _)).carry hcf him
    (hdigests jp hjp p hp) hholds.included
    (by rw [← hholds.hashes]; exact List.subset_append_left _ _)
  exact ⟨je, ji, q, hje, hji,
    verifyReceipt_reissued he hi (h.signed hholds.signed) hlast hq⟩

/-- **One position, one entry, along a trail.**  Of two accepted receipts for one position, one
under the first head of a trail and one under the last, both show one entry. -/
theorem trail_one_entry {receipt receipt' first last index index' : Json} {strings : List Bytes}
    {why why' : String} {i : ℤ}
    (hreceipt : verifyReceipt P describe spki receipt = .ok (true, why))
    (hreceipt' : verifyReceipt P describe spki receipt' = .ok (true, why'))
    (hsth : receipt.item "sth" = .ok first) (hsth' : receipt'.item "sth" = .ok last)
    (h : Trail P spki first last strings)
    (hindex : receipt.item "index" = .ok index ∧ index.asInt? = some i)
    (hindex' : receipt'.item "index" = .ok index' ∧ index'.asInt? = some i)
    (hdigests : ∀ proof, receipt.item "proof" = .ok proof ∨ receipt'.item "proof" = .ok proof →
      OfDigests proof)
    (hcf : CollisionFree P (receiptHashes P receipt ++ receiptHashes P receipt' ++ strings)) :
    ∃ entry entry' e, receipt.item "entry" = .ok entry ∧ receipt'.item "entry" = .ok entry' ∧
      entry.fromHex = .ok e ∧ entry'.fromHex = .ok e := by
  obtain ⟨sth, e, j, m, r, p, hholds⟩ := holds_of_verifyReceipt hreceipt
  obtain ⟨sth', e', j', n, s, q, hholds'⟩ := holds_of_verifyReceipt hreceipt'
  obtain rfl : sth = first := Except.ok.inj (hholds.sth.symm.trans hsth)
  obtain rfl : sth' = last := Except.ok.inj (hholds'.sth.symm.trans hsth')
  obtain ⟨je, hje, he⟩ := hholds.entry
  obtain ⟨je', hje', he'⟩ := hholds'.entry
  obtain ⟨jp, hjp, hp⟩ := hholds.proof
  obtain ⟨jq, hjq, hq⟩ := hholds'.proof
  have hj : j = j' := by
    obtain ⟨ji, hji, hj⟩ := hholds.index
    obtain ⟨ji', hji', hj'⟩ := hholds'.index
    rw [Except.ok.inj (hji.symm.trans hindex.1), hindex.2] at hj
    rw [Except.ok.inj (hji'.symm.trans hindex'.1), hindex'.2] at hj'
    exact Int.ofNat_inj.mp ((Option.some.inj hj).symm.trans (Option.some.inj hj'))
  subst hj
  obtain ⟨n', s', hlast, hleads⟩ := h.leadsTo (hcf.mono (List.subset_append_right _ _))
    hholds.denotes hholds.digest
  obtain rfl : n' = n := hlast.size.unique hholds'.denotes.size
  obtain rfl : s' = s := hlast.root.unique hholds'.denotes.root
  have hsub := List.subset_append_left (receiptHashes P receipt ++ receiptHashes P receipt') strings
  have hentry : e = e' := by
    apply (hleads.mono (List.subset_append_right _ _)).one_entry hcf (hdigests jp (.inl hjp) p hp)
      (hdigests jq (.inr hjq) q hq) hholds.included hholds'.included
    · rw [← hholds.hashes]
      exact List.Subset.trans (List.subset_append_left _ _) hsub
    · rw [← hholds'.hashes]
      exact List.Subset.trans (List.subset_append_right _ _) hsub
  exact ⟨je, je', e, hje, hje', he, hentry ▸ he'⟩

/-! ## A log of three entries -/

section Witness

/-- The entries, hashed. -/
def leafOf (n : UInt8) : Bytes := leafHash .plain [n]

/-- The roots of the log after two entries, and after three. -/
def rootOfTwo : Bytes := nodeHash .plain (leafOf 1) (leafOf 2)

def rootOfThree : Bytes := nodeHash .plain rootOfTwo (leafOf 3)

/-- The heads it signed. -/
def headOf (size : ℕ) (root : Bytes) : Json := signSth .plain [7] [] size root size

theorem denotes_headOf (size : ℕ) (root : Bytes) : Denotes (headOf size root) size root where
  size := ⟨_, rfl, rfl⟩
  root := ⟨_, rfl, Heads.fromHex_str root⟩

theorem verifySth_headOf (size : ℕ) (root : Bytes) :
    verifySth .plain [7] (headOf size root) = .ok () := Heads.verifySth_signSth .plain [7] ..

theorem ofDigests_hexList {p : List Bytes} (hp : ∀ d ∈ p, d.length = 32) :
    OfDigests (Mandate.hexList p) := by
  intro q hq
  rw [← Except.ok.inj ((Heads.proofBytes_hex p).symm.trans hq)]
  exact hp

theorem length_leafOf (n : UInt8) : ∀ d ∈ [leafOf n], d.length = 32 := by simp [leafOf]

/-- The strings hashed for them. -/
def hashedForThree : List Bytes :=
  [string (.leaf [1]), string (.node (leafOf 1) (leafOf 2)), string (.node rootOfTwo (leafOf 3))]

theorem collisionFree_three : CollisionFree .plain hashedForThree := .of_nodup (by decide +kernel)

theorem stripOnes_zero_one : stripOnes 0 1 = (0, 1) := by
  rw [stripOnes]
  rfl

theorem stripOnes_one_two : stripOnes 1 2 = (0, 1) := by
  rw [stripOnes]
  simp [stripOnes_zero_one]

theorem extensionHashes_headOf (m n : ℕ) (r s : Bytes) (p : List Bytes) :
    extensionHashes .plain (headOf m r) (headOf n s) (Mandate.hexList p) =
      consistencyStrings .plain r m n p := by
  have hp : proofBytes (Mandate.hexList p) = .ok p := Heads.proofBytes_hex p
  simp [extensionHashes, headOf, hp, Json.asInt?]

theorem receiptHashes_reissued (e : Bytes) (i n : ℕ) (r : Bytes) (p : List Bytes) :
    receiptHashes .plain (reissued (.str (Bytes.hex e)) (.int i) p (headOf n r)) =
      inclusionStrings .plain e i n p := by
  have hp : proofBytes (Mandate.hexList p) = .ok p := Heads.proofBytes_hex p
  have hitems : (reissued (.str (Bytes.hex e)) (.int i) p (headOf n r)).item "entry" =
        .ok (.str (Bytes.hex e)) ∧
      (reissued (.str (Bytes.hex e)) (.int i) p (headOf n r)).item "index" = .ok (.int i) ∧
      (reissued (.str (Bytes.hex e)) (.int i) p (headOf n r)).item "proof" = .ok (Mandate.hexList p) ∧
      (reissued (.str (Bytes.hex e)) (.int i) p (headOf n r)).item "sth" = .ok (headOf n r) :=
    ⟨rfl, rfl, rfl, rfl⟩
  have hsize : (headOf n r).item "size" = .ok (.int n) := rfl
  simp only [receiptHashes, hitems, hp, hsize, Exn.ok_bind, Heads.fromHex_str, Json.asInt?]

/-- What is hashed for the two extensions. -/
def hashedOnTheWay : List Bytes :=
  consistencyStrings .plain (leafOf 1) 1 2 [leafOf 2] ++
    consistencyStrings .plain rootOfTwo 2 3 [leafOf 3]

theorem hashedOnTheWay_subset : hashedOnTheWay ⊆ hashedForThree := by
  simp [hashedOnTheWay, consistencyStrings, stripOnes_zero_one, stripOnes_one_two, climb,
    MerkleTree.Scheme.consistencyR, scheme, hashedForThree]

/-- The log grows by an entry at a time, and its heads are followed. -/
theorem trail_three :
    Trail .plain [7] (headOf 1 (leafOf 1)) (headOf 3 rootOfThree) hashedOnTheWay := by
  have hver : verifyConsistency .plain (leafOf 1) 1 rootOfTwo 2 [leafOf 2] = true := by
    simp [verifyConsistency, stripOnes_zero_one, climb, consistencyRight, rootOfTwo]
  have hver' : verifyConsistency .plain rootOfTwo 2 rootOfThree 3 [leafOf 3] = true := by
    simp [verifyConsistency, stripOnes_one_two, climb, consistencyRight, rootOfThree]
  have hext := verifyExtension_of_verify (verifySth_headOf 1 (leafOf 1)) (verifySth_headOf 2 rootOfTwo)
    (denotes_headOf ..) (denotes_headOf ..) hver
  have hext' := verifyExtension_of_verify (verifySth_headOf 2 rootOfTwo) (verifySth_headOf 3 rootOfThree)
    (denotes_headOf ..) (denotes_headOf ..) hver'
  have hhere : Trail .plain [7] (headOf 1 (leafOf 1)) (headOf 1 (leafOf 1)) [] := .here
  have htrail := (hhere.next
    (ofDigests_hexList (length_leafOf 2)) hext).next (ofDigests_hexList (length_leafOf 3)) hext'
  rw [extensionHashes_headOf, extensionHashes_headOf, List.nil_append] at htrail
  exact htrail

/-- The third head extends the first, by one proof. -/
theorem trail_extension_three : ∃ p, (∀ d ∈ p, d.length = 32) ∧
    verifyExtension .plain [7] (headOf 1 (leafOf 1)) (headOf 3 rootOfThree) (Mandate.hexList p) =
      .ok true :=
  trail_extension trail_three (verifySth_headOf ..) (denotes_headOf ..) (length_leafHash ..)
    (collisionFree_three.mono hashedOnTheWay_subset)

/-- The receipt of the first entry, when it was the only one. -/
def firstReceipt : Json := reissued (.str (Bytes.hex [1])) (.int 0) [] (headOf 1 (leafOf 1))

theorem verifyReceipt_firstReceipt :
    verifyReceipt .plain (fun _ => "") [7] firstReceipt = .ok (true, "receipt verifies") := by
  apply verifyReceipt_reissued (i := 0) (Heads.fromHex_str [1]) rfl (verifySth_headOf ..)
    (denotes_headOf ..)
  simp [verifyInclusion, climb, leafOf]

theorem receiptHashes_firstReceipt : receiptHashes .plain firstReceipt ⊆ hashedForThree := by
  have hhashes := receiptHashes_reissued [1] 0 1 (leafOf 1) []
  rw [firstReceipt, ← Int.natCast_zero, hhashes]
  simp [inclusionStrings, climb, hashedForThree]

/-- It can be given again under the third head. -/
theorem trail_carries_first : ∃ entry index p, firstReceipt.item "entry" = .ok entry ∧
    firstReceipt.item "index" = .ok index ∧
    verifyReceipt .plain (fun _ => "") [7] (reissued entry index p (headOf 3 rootOfThree)) =
      .ok (true, "receipt verifies") := by
  apply trail_carries verifyReceipt_firstReceipt rfl trail_three
  · intro proof hproof
    rw [← Except.ok.inj hproof]
    exact ofDigests_hexList (by simp)
  · apply collisionFree_three.mono
    exact List.append_subset.mpr ⟨receiptHashes_firstReceipt, hashedOnTheWay_subset⟩

/-- A receipt of the first entry under the third head. -/
def laterReceipt : Json :=
  reissued (.str (Bytes.hex [1])) (.int 0) [leafOf 2, leafOf 3] (headOf 3 rootOfThree)

theorem verifyReceipt_laterReceipt :
    verifyReceipt .plain (fun _ => "") [7] laterReceipt = .ok (true, "receipt verifies") := by
  apply verifyReceipt_reissued (i := 0) (Heads.fromHex_str [1]) rfl (verifySth_headOf ..)
    (denotes_headOf ..)
  simp [verifyInclusion, climb, leafOf, rootOfThree, rootOfTwo]

theorem receiptHashes_laterReceipt : receiptHashes .plain laterReceipt ⊆ hashedForThree := by
  have hhashes := receiptHashes_reissued [1] 0 3 rootOfThree [leafOf 2, leafOf 3]
  rw [laterReceipt, ← Int.natCast_zero, hhashes]
  simp [inclusionStrings, climb, hashedForThree, MerkleTree.Scheme.inclusionR, scheme, leafOf, rootOfTwo]

/-- Both show one entry. -/
theorem trail_one_entry_first : ∃ entry entry' e, firstReceipt.item "entry" = .ok entry ∧
    laterReceipt.item "entry" = .ok entry' ∧ entry.fromHex = .ok e ∧ entry'.fromHex = .ok e := by
  apply trail_one_entry verifyReceipt_firstReceipt verifyReceipt_laterReceipt rfl rfl trail_three
    (i := 0) ⟨rfl, rfl⟩ ⟨rfl, rfl⟩
  · intro proof hproof
    rcases hproof with hproof | hproof
    · rw [← Except.ok.inj hproof]
      exact ofDigests_hexList (by simp)
    · rw [← Except.ok.inj hproof]
      exact ofDigests_hexList (by simp [leafOf])
  · apply collisionFree_three.mono
    exact List.append_subset.mpr ⟨List.append_subset.mpr
      ⟨receiptHashes_firstReceipt, receiptHashes_laterReceipt⟩, hashedOnTheWay_subset⟩

end Witness

end Receipt

end Hatls
