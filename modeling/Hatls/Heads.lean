import Hatls.LogBinding
import Hatls.Federation

/-!
# Two signed heads compared

What `verify_extension`, `is_equivocation` and `divergence` answer about two heads
signed with one key.  On such heads all three come down to one call of
`verify_consistency`, so what is known of that call is known of them: they believe
an honest log from its first entry on, and no bytes whatever make them believe a
rewritten one.

## Main definitions

* `Heads.Believed` — the three checks clear a pair of heads.
* `Heads.Accused` — none of them does, in any order.
* `Heads.Offered` — the proofs a log can give for one of its prefixes.
-/

namespace Hatls.Heads

open Receipt Federation

variable (P : Primitives) (key : Bytes)

/-! ## Signed heads -/

section Signed

variable (rnd : Bytes) (size : ℕ) (root : Bytes) (at_ : ℤ)

@[simp] theorem signSth_size : (signSth P key rnd size root at_).item "size" = .ok (.int size) := rfl

@[simp] theorem signSth_root :
    (signSth P key rnd size root at_).item "root" = .ok (.str (Bytes.hex root)) := rfl

@[simp] theorem signSth_at : (signSth P key rnd size root at_).item "at" = .ok (.int at_) := rfl

@[simp] theorem signSth_sig :
    (signSth P key rnd size root at_).item "sig" =
      .ok (.str (Bytes.hex (P.ecdsa.sign key rnd (sthBytes (.int size) root (.int at_))))) := rfl

@[simp] theorem fromHex_str (b : Bytes) : (Json.str (Bytes.hex b)).fromHex = .ok b := by
  simp [Json.fromHex]

/-- A head the mandate signed verifies under its key. -/
@[simp] theorem verifySth_signSth :
    verifySth P (P.ecdsa.publicKey key) (signSth P key rnd size root at_) = .ok () := by
  simp [verifySth]

end Signed

/-- What a list of hexadecimal texts decodes to. -/
@[simp] theorem proofBytes_hex (p : List Bytes) :
    proofBytes (.arr (p.map fun b => .str (Bytes.hex b))) = .ok p := by
  simp only [proofBytes, Json.iter, Exn.ok_bind]
  induction p with
  | nil => rfl
  | cons b p ih => simp [ih]

/-- A claim of a size and a root, as a witness recorded it. -/
def claim (size : ℕ) (root : Bytes) : Json :=
  .obj [("root", .str (Bytes.hex root)), ("size", .int size)]

@[simp] theorem claim_root (size : ℕ) (root : Bytes) :
    (claim size root).item "root" = .ok (.str (Bytes.hex root)) := rfl

@[simp] theorem claim_size (size : ℕ) (root : Bytes) :
    (claim size root).item "size" = .ok (.int size) := rfl

section Compared

variable (rnd rnd' : Bytes) (m n : ℕ) (r s : Bytes) (t t' : ℤ) (proof proof' : Json)

/-- On signed heads the extension check is one call of `verify_consistency`. -/
theorem checkExtension_signSth :
    checkExtension P (signSth P key rnd m r t) (signSth P key rnd' n s t') proof =
      (proofBytes proof).map (Log.verifyConsistency P r m s n) := by
  cases h : proofBytes proof <;> simp [checkExtension, consistencyOf, Json.asInt?, h, Except.map]

theorem checkExtension_claim :
    checkExtension P (claim m r) (signSth P key rnd n s t) proof =
      (proofBytes proof).map (Log.verifyConsistency P r m s n) := by
  cases h : proofBytes proof <;> simp [checkExtension, consistencyOf, Json.asInt?, h, Except.map]

/-- The proof given is one `verify_consistency` accepts. -/
def Shows (r : Bytes) (m : ℕ) (s : Bytes) (n : ℕ) (proof : Json) : Prop :=
  ∃ p, proofBytes proof = .ok p ∧ Log.verifyConsistency P r m s n p = true

theorem verifyExtension_signSth :
    verifyExtension P (P.ecdsa.publicKey key) (signSth P key rnd m r t) (signSth P key rnd' n s t')
      proof = .ok true ↔ Shows P r m s n proof := by
  simp only [verifyExtension, verifySth_signSth, Exn.ok_bind, checkExtension_signSth, Shows]
  cases proofBytes proof <;> simp [Except.map]

/-- Nobody is cleared but by a proof that shows the extension. -/
theorem accuse_eq_false {old new : Json} {cleared unproved refuted : String}
    (h : checkExtension P old new proof =
      (proofBytes proof).map (Log.verifyConsistency P r m s n)) :
    (accuse P old new proof cleared unproved refuted).1 = false ↔ Shows P r m s n proof := by
  have hcheck : checkExtension P old new proof = .ok true ↔ Shows P r m s n proof := by
    rw [h, Shows]
    cases proofBytes proof <;> simp [Except.map]
  rw [← hcheck]
  simp only [accuse]
  split
  · simp [h, proofBytes, Json.iter, Except.map]
  · split
    · next hok => simp [hok]
    · next hno => simpa using hno

/-- `is_equivocation` clears two heads exactly when they are one head or the proof
offered from the shorter to the longer shows the extension. -/
theorem isEquivocation_signSth :
    ∃ accused why, isEquivocation P (P.ecdsa.publicKey key) (signSth P key rnd m r t)
        (signSth P key rnd' n s t') proof proof' = .ok (accused, why) ∧
      (accused = false ↔ (r = s ∧ m = n) ∨
        if m ≤ n then Shows P r m s n proof else Shows P s n r m proof') := by
  simp only [isEquivocation, verifySth_signSth, signSth_root, signSth_size, Exn.ok_bind,
    Exn.pure_eq_ok, Json.pyEq_str, Json.pyEq_int, Json.le_int, Bytes.hex_inj, Int.ofNat_inj,
    Int.ofNat_le]
  by_cases hsame : r = s ∧ m = n
  · simp [hsame]
  have hne : (decide (s = r) && decide (n = m)) = false := by
    simp only [Bool.and_eq_false_iff, decide_eq_false_iff_not]
    by_contra hc
    push Not at hc
    exact hsame ⟨hc.1.symm, hc.2.symm⟩
  simp only [hne, Bool.false_eq_true, if_false, hsame, false_or]
  by_cases hle : m ≤ n
  · simp only [hle, decide_true, if_true]
    exact ⟨_, _, rfl, accuse_eq_false P _ _ _ _ _ (checkExtension_signSth P key ..)⟩
  · simp only [hle, decide_false, Bool.false_eq_true, if_false]
    exact ⟨_, _, rfl, accuse_eq_false P _ _ _ _ _ (checkExtension_signSth P key ..)⟩

/-- `divergence` clears a later head exactly when it is the head claimed, or is
larger and the proof offered shows the extension. -/
theorem divergence_signSth :
    ∃ diverged why, divergence P (P.ecdsa.publicKey key) (.int m) (.str (Bytes.hex r))
        (signSth P key rnd n s t) proof = .ok (diverged, why) ∧
      (diverged = false ↔ (r = s ∧ m = n) ∨ m < n ∧ Shows P r m s n proof) := by
  simp only [divergence, verifySth_signSth, signSth_root, signSth_size, Exn.ok_bind,
    Exn.pure_eq_ok, Json.pyEq_str, Json.pyEq_int, Json.le_int, Bytes.hex_inj, Int.ofNat_inj,
    Int.ofNat_le]
  rcases Nat.lt_trichotomy m n with hlt | rfl | hgt
  · simp only [hlt.ne', decide_false, Bool.false_eq_true, if_false, hlt.le, decide_true,
      Bool.not_true, hlt.ne, and_false, false_or, hlt, true_and]
    exact ⟨_, _, rfl, accuse_eq_false P _ _ _ _ _ (checkExtension_claim P key ..)⟩
  · simp only [decide_true, if_true, lt_irrefl, false_and, or_false, and_true]
    by_cases hrs : s = r
    · simp [hrs]
    · simp only [hrs, Ne.symm hrs, decide_false, Bool.false_eq_true, if_false, iff_false]
      exact ⟨_, _, rfl, by simp⟩
  · simp only [hgt.ne, decide_false, Bool.false_eq_true, if_false, Nat.not_le.mpr hgt,
      Bool.not_false, if_true, hgt.ne', and_false, false_or, Nat.lt_asymm hgt, false_and, iff_false]
    exact ⟨_, _, rfl, by simp⟩

end Compared

/-! ## Believed and accused -/

/-- The three checks clear a pair of heads on the proof the mandate offers; `m` and
`r` are the size and the root a witness recorded for the older head. -/
structure Believed (spki : Bytes) (old new : Json) (m : ℕ) (r : Bytes) (proof : Json) : Prop where
  extension : verifyExtension P spki old new proof = .ok true
  equivocation : ∃ why, isEquivocation P spki old new proof .null = .ok (false, why)
  equivocation' : ∃ why, isEquivocation P spki new old .null proof = .ok (false, why)
  divergence : ∃ why, divergence P spki (.int m) (.str (Bytes.hex r)) new proof = .ok (false, why)

/-- None of the three checks clears a pair of heads, whichever of two proofs is
offered, and in whichever order the heads are given. -/
structure Accused (spki : Bytes) (old new : Json) (m : ℕ) (r : Bytes) (proof proof' : Json) :
    Prop where
  extension : verifyExtension P spki old new proof ≠ .ok true
  equivocation : ∃ why, isEquivocation P spki old new proof proof' = .ok (true, why)
  equivocation' : ∃ why, isEquivocation P spki new old proof' proof = .ok (true, why)
  divergence : ∃ why, divergence P spki (.int m) (.str (Bytes.hex r)) new proof = .ok (true, why)

section Verdicts

variable (rnd rnd' : Bytes) {m n : ℕ} {r s : Bytes} (t t' : ℤ) (proof proof' : Json)

theorem shows_self (h : Shows P r m s m proof) : r = s := by
  obtain ⟨p, -, hp⟩ := h
  exact ((Log.verifyConsistency_self P).mp hp).1

/-- Heads in the order of their sizes are believed exactly when the proof shows the
extension. -/
theorem believed_iff (hmn : m ≤ n) :
    Believed P (P.ecdsa.publicKey key) (signSth P key rnd m r t) (signSth P key rnd' n s t') m r
      proof ↔ Shows P r m s n proof := by
  refine ⟨fun h => (verifyExtension_signSth P key ..).mp h.extension, fun h => ?_⟩
  obtain ⟨a, why, ha, hcl⟩ := isEquivocation_signSth P key rnd rnd' m n r s t t' proof .null
  obtain ⟨a', why', ha', hcl'⟩ := isEquivocation_signSth P key rnd' rnd n m s r t' t .null proof
  obtain ⟨d, whyd, hd, hcld⟩ := divergence_signSth P key rnd' m n r s t' proof
  refine ⟨(verifyExtension_signSth P key ..).mpr h, ⟨why, ?_⟩, ⟨why', ?_⟩, ⟨whyd, ?_⟩⟩
  · rw [ha, hcl.mpr (.inr (by rwa [if_pos hmn]))]
  · rw [ha', hcl'.mpr]
    rcases Nat.eq_or_lt_of_le hmn with rfl | hlt
    · exact .inl ⟨(shows_self P _ h).symm, rfl⟩
    · exact .inr (by rwa [if_neg (Nat.not_le.mpr hlt)])
  · rw [hd, hcld.mpr]
    rcases Nat.eq_or_lt_of_le hmn with rfl | hlt
    · exact .inl ⟨shows_self P _ h, rfl⟩
    · exact .inr ⟨hlt, h⟩

/-- Heads of which the proofs offered show nothing are accused, unless they are one
head. -/
theorem accused_of_not_shows (hmn : m ≤ n) (hne : m = n → r ≠ s)
    (h : ¬ Shows P r m s n proof) :
    Accused P (P.ecdsa.publicKey key) (signSth P key rnd m r t) (signSth P key rnd' n s t') m r
      proof proof' := by
  obtain ⟨a, why, ha, hcl⟩ := isEquivocation_signSth P key rnd rnd' m n r s t t' proof proof'
  obtain ⟨a', why', ha', hcl'⟩ := isEquivocation_signSth P key rnd' rnd n m s r t' t proof' proof
  obtain ⟨d, whyd, hd, hcld⟩ := divergence_signSth P key rnd' m n r s t' proof
  refine ⟨fun h' => h ((verifyExtension_signSth P key ..).mp h'), ⟨why, ?_⟩, ⟨why', ?_⟩, ⟨whyd, ?_⟩⟩
  · cases a with
    | true => exact ha
    | false =>
        rw [if_pos hmn] at hcl
        rcases hcl.mp rfl with ⟨hrs, hsz⟩ | hsh
        · exact absurd hrs (hne hsz)
        · exact absurd hsh h
  · cases a' with
    | true => exact ha'
    | false =>
        rcases hcl'.mp rfl with ⟨hrs, hsz⟩ | hsh
        · exact absurd hrs.symm (hne hsz.symm)
        · split_ifs at hsh with hle
          · obtain rfl : m = n := Nat.le_antisymm hmn hle
            exact absurd (shows_self P _ hsh).symm (hne rfl)
          · exact absurd hsh h
  · cases d with
    | true => exact hd
    | false =>
        rcases hcld.mp rfl with ⟨hrs, hsz⟩ | ⟨-, hsh⟩
        · exact absurd hrs (hne hsz)
        · exact absurd hsh h

end Verdicts

/-! ## An honest log -/

/-- The proofs a log can give that it extends its first `m` entries: the generated
one, when there is one, or none of any length. -/
def Offered (log : List Bytes) (m : ℕ) (proof : Json) : Prop :=
  proof = .arr [] ∨
    ∃ p, Log.consistencyProof P log m = .ok p ∧ proof = .arr (p.map fun b => .str (Bytes.hex b))

/-- **An honest log is believed about all its prefixes but the empty one.**  A log
that has grown from nothing has no proof to offer that the checks accept. -/
theorem exists_offered_shows_iff {log : List Bytes} {m : ℕ} (hm : m ≤ log.length) :
    (∃ proof, Offered P log m proof ∧
        Shows P (Log.root P (log.take m)) m (Log.root P log) log.length proof) ↔
      1 ≤ m ∨ m = log.length := by
  constructor
  · rintro ⟨proof, -, p, -, hp⟩
    rcases Log.verifyConsistency_range hp with heq | ⟨hpos, -⟩
    · exact .inr (by omega)
    · exact .inl (by omega)
  · intro h
    rcases Nat.eq_zero_or_pos m with rfl | hpos
    · obtain hlen : 0 = log.length := by omega
      refine ⟨.arr [], .inl rfl, [], rfl, ?_⟩
      rw [← hlen, Nat.cast_zero, Log.verifyConsistency_self]
      exact ⟨by rw [List.length_eq_zero_iff.mp hlen.symm]; rfl, rfl⟩
    · obtain ⟨p, hp, hver⟩ := Log.verifyConsistency_consistencyProof P hpos hm
      exact ⟨_, .inr ⟨p, hp, rfl⟩, p, proofBytes_hex p, hver⟩

/-! ## A rewritten log -/

/-- The strings hashed when the roots of two logs are computed and an extension
proof from one to the other is checked. -/
def extensionStrings (A B : List Bytes) (proof : List Bytes) : List Bytes :=
  Log.rootStrings P A ++ Log.rootStrings P B ++
    Log.consistencyStrings P (Log.root P A) A.length B.length proof

/-- A decoded proof as a list of byte strings; nothing is hashed for one that does
not decode. -/
def decoded (proof : Json) : List Bytes :=
  match proofBytes proof with
  | .ok p => p
  | .error _ => []

/-- **Exactness of consistency verification, and what follows from it about signed
heads.**  Between the roots of two lists the verifier accepts the generated proof of
a prefix and nothing else; so nothing a mandate can send clears it once it has
rewritten its log. -/
theorem consistency_exact {A B : List Bytes} (hA : 1 ≤ A.length) (hAB : A.length ≤ B.length) :
    (∀ p, CollisionFree P (extensionStrings P A B p) →
      (Log.verifyConsistency P (Log.root P A) A.length (Log.root P B) B.length p = true ↔
        A <+: B ∧ Log.consistencyProof P B A.length = .ok p)) ∧
    (¬ A <+: B → ∀ (key rnd rnd' : Bytes) (t t' : ℤ) (proof proof' : Json),
      CollisionFree P (extensionStrings P A B (decoded proof)) →
      Accused P (P.ecdsa.publicKey key) (signSth P key rnd A.length (Log.root P A) t)
        (signSth P key rnd' B.length (Log.root P B) t') A.length (Log.root P A) proof proof') := by
  have hexact := fun p (hcf : CollisionFree P (extensionStrings P A B p)) =>
    Log.verifyConsistency_exact (p := p) hA hAB hcf
  refine ⟨hexact, fun hpre key rnd rnd' t t' proof proof' hcf => ?_⟩
  refine accused_of_not_shows P key rnd rnd' t t' proof proof' hAB (fun hlen hroot => hpre ?_) ?_
  · rw [Log.root_inj P (hcf.mono (List.subset_append_left _ _)) hlen hroot]
  · rintro ⟨p, hp, hver⟩
    have hdec : decoded proof = p := by rw [decoded, hp]
    rw [hdec] at hcf
    exact hpre ((hexact p hcf).mp hver).1

/-- The strings hashed for a log of two entries, for one of three that extends it, and for one that
does not. -/
def hashedForThree : List Bytes :=
  [.leaf [1], .leaf [2], .leaf [3], .leaf [4], .node (Log.leafHash .plain [1]) (Log.leafHash .plain [2]),
    .node (Log.leafHash .plain [1]) (Log.leafHash .plain [4]),
    .node (Log.root .plain [[1], [2]]) (Log.leafHash .plain [3]),
    .node (Log.root .plain [[1], [4]]) (Log.leafHash .plain [3])].map Log.string

theorem collisionFree_three : CollisionFree .plain hashedForThree := by
  rw [hashedForThree, Log.root_pair, Log.root_pair]
  exact .of_nodup (by decide +kernel)

theorem extensionStrings_three {b : Bytes} (hb : b = [2] ∨ b = [4]) :
    extensionStrings .plain [[1], [2]] [[1], b, [3]] [Log.leafHash .plain [3]] ⊆ hashedForThree := by
  have hstrings := Log.consistencyStrings_triple .plain (Log.root .plain [[1], [2]])
    (Log.leafHash .plain [3])
  rw [extensionStrings, Log.rootStrings_triple, Log.rootStrings_pair, Log.rootStrings_pair]
  simp only [List.length_cons, List.length_nil, Nat.reduceAdd, Nat.cast_ofNat, hstrings]
  rcases hb with rfl | rfl
  · simp [hashedForThree]
  · simp [hashedForThree]

/-- Two heads of one log are proved by one hash, and that proof clears nobody who has rewritten the
second entry. -/
theorem consistency_exact_rewritten :
    let A : List Bytes := [[1], [2]]
    let B : List Bytes := [[1], [2], [3]]
    let B' : List Bytes := [[1], [4], [3]]
    let proof := [Log.leafHash .plain [3]]
    Log.verifyConsistency .plain (Log.root .plain A) A.length (Log.root .plain B) B.length proof = true ∧
      Log.verifyConsistency .plain (Log.root .plain A) A.length (Log.root .plain B') B'.length proof =
        false ∧
      Accused .plain (Primitives.plain.ecdsa.publicKey [7])
        (signSth .plain [7] [] A.length (Log.root .plain A) 0)
        (signSth .plain [7] [] B'.length (Log.root .plain B') 1) A.length (Log.root .plain A)
        (.arr (proof.map fun d => .str (Bytes.hex d))) .null := by
  intro A B B' proof
  have hcf := collisionFree_three.mono (extensionStrings_three (.inl rfl))
  have hcf' := collisionFree_three.mono (extensionStrings_three (.inr rfl))
  have hpre : ¬ A <+: B' := by decide
  obtain ⟨hexact, -⟩ := consistency_exact .plain (A := A) (B := B) (by decide) (by decide)
  obtain ⟨hexact', hacc⟩ := consistency_exact .plain (A := A) (B := B') (by decide) (by decide)
  refine ⟨(hexact proof hcf).mpr ⟨by decide, Log.consistencyProof_triple .plain [1] [2] [3]⟩, ?_, ?_⟩
  · exact Bool.eq_false_iff.mpr fun h => hpre ((hexact' proof hcf').mp h).1
  · refine hacc hpre [7] [] [] 0 1 _ _ ?_
    have hdecoded : decoded (.arr (proof.map fun d => .str (Bytes.hex d))) = proof := by
      rw [decoded, proofBytes_hex]
    rw [hdecoded]
    exact hcf'

end Hatls.Heads
