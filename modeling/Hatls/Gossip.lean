import Hatls.Framing
import Hatls.SignedKinds

/-!
# Gossip between mandates

`hatls/federation.py`: several mandates over one identity, each with a key and a log of its own.
They are called in any order, sign heads, and observe heads of each other; anybody may hand them a
head to observe, and may have an attester bind heads, but signatures cannot be forged.

A head that was observed, or that a bundle gives, is one that the log of the mandate it names has
had.  It is held against that mandate in one case only, a spelling of the root that is not its own
while its log has not grown; and a log that does not extend it is found out.

## Main definitions

* `Party`, `Net.step` — mandates, what they have observed, and what happens to them.
* `Presentable` — what can be handed to them.
* `Judged` — how a head is held against a mandate.
* `gossip_exact`, `bundle_serves` — the heads that are observed, and the heads of a bundle.
-/

namespace Hatls.Gossip

open Federation Mandate Receipt

/-! ## A federation -/

/-- A mandate, the heads it has observed of each peer, and all that its key was used for. -/
structure Party where
  mandate : Mandate
  peers : String → List Json
  signed : List Signing

namespace Party

variable (P : Primitives) (cfg : Config) (p : Party) (t : Moment)

/-- The signing of the head. -/
def signing (m : Mandate) : Signing := .sth t.rnd m.merkle.size (m.merkle.head P) t.env.time

/-- A call; what is entered in the log has a receipt, which holds the head then. -/
def call (c : Call) : Reply × Party :=
  let (reply, mandate) := p.mandate.step P cfg (t, c)
  let receipts := if mandate.merkle.size = p.mandate.merkle.size then [] else [signing P t mandate]
  (reply, { p with mandate, signed := p.signed ++ receipts })

/-- `sth`, or a receipt that is issued again. -/
def sth : Json × Party :=
  (p.mandate.sth P cfg t.env, { p with signed := p.signed ++ [signing P t p.mandate] })

/-- `observe`, which raises where the head does not verify. -/
def observe (peerSpki : Bytes) (peerSth : Json) : Except Exn Json × Party :=
  match Federation.observe P cfg.signingKey t.rnd p.peers peerSpki peerSth t.env.time with
  | .error x => (.error x, p)
  | .ok (stmt, peers) =>
    (.ok stmt,
      { p with peers, signed := p.signed ++ [.crossWitness t.rnd peerSpki peerSth t.env.time] })

end Party

/-- The mandates of a federation. -/
abbrev Net (ι : Type) := ι → Party

/-- What happens. -/
inductive Happening (ι : Type)
  | call (i : ι) (t : Moment) (c : Call)
  | sth (i : ι) (t : Moment)
  | observe (i : ι) (t : Moment) (peerSpki : Bytes) (peerSth : Json)

/-- What is returned. -/
inductive Answer
  | reply (r : Reply)
  | head (sth : Json)
  | statement (stmt : Except Exn Json)

variable {ι : Type} (P : Primitives) (cfg : ι → Config)

/-- The key that the mandate signs with, as a verifier has it. -/
abbrev keyOf (i : ι) : Bytes := publicKey P (cfg i)

namespace Net

/-- New mandates over their ledgers. -/
def new (ledger : ι → Bytes → Option Record) : Net ι :=
  fun i => ⟨Mandate.new P (ledger i), fun _ => [], []⟩

def step [DecidableEq ι] (net : Net ι) : Happening ι → Answer × Net ι
  | .call i t c =>
    let (reply, p) := (net i).call P (cfg i) t c
    (.reply reply, Function.update net i p)
  | .sth i t =>
    let (head, p) := (net i).sth P (cfg i) t
    (.head head, Function.update net i p)
  | .observe i t peerSpki peerSth =>
    let (stmt, p) := (net i).observe P (cfg i) t peerSpki peerSth
    (.statement stmt, Function.update net i p)

end Net

/-- **What can be handed to a mandate**: a signature verifies under a key only for what that key has
signed, and no other key has the name of a mandate. -/
structure Presentable (net : Net ι) (spki : Bytes) (head : Json) : Prop where
  unforged : ∀ i sig msg, signature head = .ok sig → Rebuilt head msg →
    P.ecdsa.verify (keyOf P cfg i) sig msg = .ok () → ∃ c ∈ (net i).signed, c.message P = some msg
  named : ∀ i, mandateId P spki = mandateId P (keyOf P cfg i) → spki = keyOf P cfg i

/-- Only such heads are observed. -/
def Fair (net : Net ι) : Happening ι → Prop
  | .observe _ _ peerSpki peerSth => Presentable P cfg net peerSpki peerSth
  | _ => True

/-! ## The heads that are around -/

/-- **Every head is one that was**: those a key has signed, and those that were observed. -/
structure Sound (net : Net ι) : Prop where
  table : ∀ i, HoldsHeads P (net i).mandate
  signed : ∀ i rnd size root at_, .sth rnd size root at_ ∈ (net i).signed →
    (net i).mandate.Had P size root
  observed : ∀ i j, ∀ e ∈ (net i).peers (mandateId P (keyOf P cfg j)),
    ∃ size root, Denotes e size root ∧ (net j).mandate.Had P size root

variable {P cfg} {net : Net ι}

theorem had_head (m : Mandate) : m.Had P m.merkle.size (m.merkle.head P) where
  size_le := le_rfl
  root_eq := by
    rw [MerkleLog.size, List.take_length]
    rfl

theorem sound_new (ledger : ι → Bytes → Option Record) : Sound P cfg (Net.new P ledger) where
  table i := holdsHeads_new (ledger i)
  signed i rnd size root at_ hmem := by cases hmem
  observed i j e he := by cases he

/-- **What verifies as a head of a mandate is a head its log has had.** -/
theorem Sound.had_of_verified (h : Sound P cfg net) {i : ι} {spki : Bytes} {head : Json}
    (hpresentable : Presentable P cfg net spki head) (hkey : spki = keyOf P cfg i)
    (hver : verifySth P spki head = .ok ()) :
    ∃ size root, Denotes head size root ∧ (net i).mandate.Had P size root := by
  subst hkey
  obtain ⟨rnd, size, root, at_, hmem, hsize, hroot, -⟩ :=
    headOf_of_unforged (hpresentable.unforged i) hver
  exact ⟨size, root, ⟨⟨_, hsize, rfl⟩, hroot⟩, h.signed _ _ _ _ _ hmem⟩

variable [DecidableEq ι]

/-- The heads and the records of a party change with it alone, and its log grows. -/
theorem Sound.update (h : Sound P cfg net) {i : ι} {p : Party} (htable : HoldsHeads P p.mandate)
    (hlog : (net i).mandate.merkle.entries <+: p.mandate.merkle.entries)
    (hsigned : ∀ rnd size root at_, .sth rnd size root at_ ∈ p.signed →
      .sth rnd size root at_ ∈ (net i).signed ∨ p.mandate.Had P size root)
    (hobserved : ∀ j, ∀ e ∈ p.peers (mandateId P (keyOf P cfg j)),
      e ∈ (net i).peers (mandateId P (keyOf P cfg j)) ∨
        ∃ size root, Denotes e size root ∧ (net j).mandate.Had P size root) :
    Sound P cfg (Function.update net i p) := by
  have hgrows : ∀ j size root, (net j).mandate.Had P size root →
      (Function.update net i p j).mandate.Had P size root :=
    (Function.forall_update_iff net fun j q => ∀ size root, (net j).mandate.Had P size root →
      q.mandate.Had P size root).mpr ⟨fun _ _ hhad => hhad.mono hlog, fun _ _ _ _ hhad => hhad⟩
  constructor
  · exact (Function.forall_update_iff net fun _ q => HoldsHeads P q.mandate).mpr
      ⟨htable, fun j _ => h.table j⟩
  · have hcases : ∀ j rnd size root at_, .sth rnd size root at_ ∈ (Function.update net i p j).signed →
        .sth rnd size root at_ ∈ (net j).signed ∨
          (Function.update net i p j).mandate.Had P size root :=
      (Function.forall_update_iff net fun j q => ∀ rnd size root at_,
        .sth rnd size root at_ ∈ q.signed → .sth rnd size root at_ ∈ (net j).signed ∨
          q.mandate.Had P size root).mpr ⟨hsigned, fun _ _ _ _ _ _ hmem => .inl hmem⟩
    intro j rnd size root at_ hmem
    obtain hold | hhad := hcases j rnd size root at_ hmem
    · exact hgrows _ _ _ (h.signed _ _ _ _ _ hold)
    · exact hhad
  · have hcases : ∀ j k, ∀ e ∈ (Function.update net i p j).peers (mandateId P (keyOf P cfg k)),
        e ∈ (net j).peers (mandateId P (keyOf P cfg k)) ∨
          ∃ size root, Denotes e size root ∧ (net k).mandate.Had P size root :=
      (Function.forall_update_iff net fun j q => ∀ k, ∀ e ∈ q.peers (mandateId P (keyOf P cfg k)),
        e ∈ (net j).peers (mandateId P (keyOf P cfg k)) ∨
          ∃ size root, Denotes e size root ∧ (net k).mandate.Had P size root).mpr
        ⟨hobserved, fun _ _ _ _ he => .inl he⟩
    intro j k e he
    obtain hold | ⟨size, root, hden, hhad⟩ := hcases j k e he
    · obtain ⟨size, root, hden, hhad⟩ := h.observed j k e hold
      exact ⟨size, root, hden, hgrows _ _ _ hhad⟩
    · exact ⟨size, root, hden, hgrows _ _ _ hhad⟩

/-- What an observation records. -/
theorem observe_eq_ok {key rnd peerSpki : Bytes} {peers peers' : String → List Json}
    {peerSth stmt : Json} {at_ : ℤ}
    (h : Federation.observe P key rnd peers peerSpki peerSth at_ = .ok (stmt, peers')) :
    verifySth P peerSpki peerSth = .ok () ∧ ∃ size root at',
      peerSth.item "size" = .ok size ∧ peerSth.item "root" = .ok root ∧
      peers' = Function.update peers (mandateId P peerSpki) (peers (mandateId P peerSpki) ++
        [.obj [("size", size), ("root", root), ("at", at')]]) := by
  obtain ⟨stmt', hstmt, h⟩ := Exn.bind_eq_ok h
  obtain ⟨size, hsize, h⟩ := Exn.bind_eq_ok h
  obtain ⟨root, hroot, h⟩ := Exn.bind_eq_ok h
  obtain ⟨at', -, h⟩ := Exn.bind_eq_ok h
  obtain ⟨body, hbody, -⟩ := Exn.bind_eq_ok hstmt
  obtain ⟨_, hver, -⟩ := Exn.bind_eq_ok hbody
  exact ⟨hver, size, root, at', hsize, hroot, (Prod.mk.inj (Except.ok.inj h)).2.symm⟩

theorem observe_of_verified (key rnd : Bytes) (peers : String → List Json) (at_ : ℤ)
    {peerSpki : Bytes} {peerSth size root : Json} (hver : verifySth P peerSpki peerSth = .ok ())
    (hsize : peerSth.item "size" = .ok size) (hroot : peerSth.item "root" = .ok root) :
    ∃ stmt, Federation.observe P key rnd peers peerSpki peerSth at_ =
      .ok (stmt, Function.update peers (mandateId P peerSpki) (peers (mandateId P peerSpki) ++
        [.obj [("size", size), ("root", root), ("at", .int at_)]])) := by
  simp only [Federation.observe, crossWitness, statementBody, hver, hsize, hroot, Exn.ok_bind,
    Exn.pure_eq_ok]
  exact ⟨_, rfl⟩

variable (cfg) in
/-- A head that verifies is kept with what was observed of the peer. -/
theorem mem_peers_observe (net : Net ι) (run : List (Happening ι)) (i : ι) (t : Moment)
    {peerSpki : Bytes} {peerSth size root : Json} (hver : verifySth P peerSpki peerSth = .ok ())
    (hsize : peerSth.item "size" = .ok size) (hroot : peerSth.item "root" = .ok root) :
    .obj [("size", size), ("root", root), ("at", .int t.env.time)] ∈
      (Run.exec (Net.step P cfg) net (run ++ [.observe i t peerSpki peerSth]) i).peers
        (mandateId P peerSpki) := by
  obtain ⟨stmt, hobserve⟩ := observe_of_verified (cfg i).signingKey t.rnd
    (Run.exec (Net.step P cfg) net run i).peers t.env.time hver hsize hroot
  simp only [Run.exec_append, Run.exec_cons, Run.exec_nil, Net.step, Party.observe, hobserve,
    Function.update_self]
  exact List.mem_append_right _ List.mem_cons_self

/-- An observation leaves the others as they were. -/
theorem step_observe_of_ne (net : Net ι) {i j : ι} (t : Moment) (peerSpki : Bytes) (peerSth : Json)
    (hne : j ≠ i) : (net.step P cfg (.observe i t peerSpki peerSth)).2 j = net j :=
  Function.update_of_ne hne _ _

/-- **Whatever happens, the heads that are around are heads that were.** -/
theorem sound_step (h : Sound P cfg net) (a : Happening ι) (hfair : Fair P cfg net a) :
    Sound P cfg (net.step P cfg a).2 := by
  cases a with
  | call i t c =>
      refine h.update (holdsHeads_step (t, c) (h.table i)) (entries_step _ (t, c)) ?_
        (fun j e he => .inl he)
      intro rnd size root at_ hmem
      obtain hold | hnew := List.mem_append.mp hmem
      · exact .inl hold
      · refine .inr ?_
        split_ifs at hnew
        · cases hnew
        · obtain ⟨-, rfl, rfl, -⟩ := Signing.sth.inj (List.mem_singleton.mp hnew)
          exact had_head _
  | sth i t =>
      refine h.update (h.table i) List.prefix_rfl ?_ (fun j e he => .inl he)
      intro rnd size root at_ hmem
      obtain hold | hnew := List.mem_append.mp hmem
      · exact .inl hold
      · obtain ⟨-, rfl, rfl, -⟩ := Signing.sth.inj (List.mem_singleton.mp hnew)
        exact .inr (had_head _)
  | observe i t peerSpki peerSth =>
      simp only [Net.step, Party.observe]
      cases hobserve : Federation.observe P (cfg i).signingKey t.rnd (net i).peers peerSpki peerSth
          t.env.time with
      | error x =>
          simp only [Function.update_eq_self]
          exact h
      | ok out =>
          obtain ⟨stmt, peers'⟩ := out
          obtain ⟨hver, jsize, jroot, at', hjsize, hjroot, rfl⟩ := observe_eq_ok hobserve
          refine h.update (h.table i) List.prefix_rfl ?_ ?_
          · intro rnd size root at_ hmem
            obtain hold | hnew := List.mem_append.mp hmem
            · exact .inl hold
            · cases List.mem_singleton.mp hnew
          · intro j e he
            have hkept : e ∈ Function.update (net i).peers (mandateId P peerSpki)
                ((net i).peers (mandateId P peerSpki) ++
                  [.obj [("size", jsize), ("root", jroot), ("at", at')]])
                (mandateId P (keyOf P cfg j)) := he
            by_cases hname : mandateId P (keyOf P cfg j) = mandateId P peerSpki
            · rw [hname, Function.update_self] at hkept
              obtain hold | hnew := List.mem_append.mp hkept
              · exact .inl (hname ▸ hold)
              · obtain rfl := List.mem_singleton.mp hnew
                obtain ⟨size, root, hden, hhad⟩ := h.had_of_verified hfair
                  (hfair.named j hname.symm) hver
                refine .inr ⟨size, root, ⟨?_, ?_⟩, hhad⟩
                · obtain ⟨x, hx, hsize⟩ := hden.size
                  obtain rfl := Except.ok.inj (hx.symm.trans hjsize)
                  exact ⟨_, rfl, hsize⟩
                · obtain ⟨y, hy, hroot⟩ := hden.root
                  obtain rfl := Except.ok.inj (hy.symm.trans hjroot)
                  exact ⟨_, rfl, hroot⟩
            · rw [Function.update_of_ne hname] at hkept
              exact .inl hkept

/-- The log of a mandate grows, and it forgets no head. -/
structure Grows (m m' : Mandate) : Prop where
  log : m.merkle.entries <+: m'.merkle.entries
  known : ∀ head, m.knowsHead head = true → m'.knowsHead head = true

theorem Grows.refl (m : Mandate) : Grows m m := ⟨List.prefix_rfl, fun _ => id⟩

theorem Grows.trans {m₁ m₂ m₃ : Mandate} (h : Grows m₁ m₂) (h' : Grows m₂ m₃) : Grows m₁ m₃ :=
  ⟨h.log.trans h'.log, fun head hknown => h'.known head (h.known head hknown)⟩

theorem grows_net (net : Net ι) (a : Happening ι) (i : ι) :
    Grows (net i).mandate ((net.step P cfg a).2 i).mandate := by
  have hupdate : ∀ j (p : Party), Grows (net j).mandate p.mandate →
      Grows (net i).mandate (Function.update net j p i).mandate := by
    intro j p hgrows
    exact (Function.forall_update_iff net fun k q => Grows (net k).mandate q.mandate).mpr
      ⟨hgrows, fun _ _ => .refl _⟩ i
  cases a with
  | call j t c => exact hupdate j _ ⟨entries_step _ (t, c), fun _ => knowsHead_step (t, c)⟩
  | sth j t => exact hupdate j _ (.refl _)
  | observe j t peerSpki peerSth =>
      have hparty : Grows (net j).mandate
          ((net j).observe P (cfg j) t peerSpki peerSth).2.mandate := by
        rw [Party.observe]
        split
        · exact .refl _
        · exact .refl _
      exact hupdate j _ hparty

theorem grows_exec (net : Net ι) (run : List (Happening ι)) (i : ι) :
    Grows (net i).mandate (Run.exec (Net.step P cfg) net run i).mandate :=
  Run.exec_invariant' (Net.step P cfg) (fun net' => Grows (net i).mandate (net' i).mandate)
    (fun net' a h => h.trans (grows_net net' a i)) run (.refl _)

/-! ## Judging by a head -/

/-- **`divergence`, about a size and a root in any spelling.** -/
theorem divergence_of_denoted {x y : Json} {m : ℕ} {r : Bytes} (hx : x.asInt? = some (m : ℤ))
    (hy : y.fromHex = .ok r) (key rnd : Bytes) (n : ℕ) (s : Bytes) (t : ℤ) (proof : Json) :
    ∃ diverged why, divergence P (P.ecdsa.publicKey key) x y (signSth P key rnd n s t) proof =
        .ok (diverged, why) ∧
      (diverged = false ↔
        (m = n ∧ y = .str (Bytes.hex s)) ∨ m < n ∧ Heads.Shows P r m s n proof) := by
  obtain ⟨text, rfl⟩ : ∃ text, y = .str text := by
    cases y with
    | str text => exact ⟨text, rfl⟩
    | _ => cases hy
  have hcheck : checkExtension P (.obj [("root", .str text), ("size", x)])
      (signSth P key rnd n s t) proof =
        (proofBytes proof).map (Log.verifyConsistency P r m s n) := by
    have hroot : (Json.obj [("root", .str text), ("size", x)]).item "root" = .ok (.str text) := rfl
    have hsize : (Json.obj [("root", .str text), ("size", x)]).item "size" = .ok x := rfl
    have hint : (Json.int (n : ℤ)).asInt? = some (n : ℤ) := rfl
    cases hproof : proofBytes proof <;>
      simp [checkExtension, hroot, hsize, hy, consistencyOf, hx, hint, hproof, Except.map]
  have heq : x.pyEq (.int n) = decide (m = n) := by
    rw [pyEq_of_asInt hx]
    simp [Json.eqInt, Json.asInt?, eq_comm]
  have hle : x.le (.int n) = .ok (decide (m ≤ n)) := by
    rw [le_of_asInt hx]
    simp
  simp only [divergence, Heads.verifySth_signSth, Heads.signSth_size, Heads.signSth_root, Exn.ok_bind,
    Exn.pure_eq_ok, heq, hle, Json.pyEq_str, Json.str.injEq]
  rcases Nat.lt_trichotomy m n with hlt | rfl | hgt
  · simp only [hlt.ne, decide_false, Bool.false_eq_true, if_false, hlt.le, decide_true, Bool.not_true,
      false_and, false_or, hlt, true_and]
    exact ⟨_, _, rfl, Heads.accuse_eq_false P _ _ _ _ _ hcheck⟩
  · simp only [decide_true, if_true, lt_irrefl, false_and, or_false, true_and]
    by_cases htext : Bytes.hex s = text
    · simp [htext]
    · simp only [htext, Ne.symm htext, decide_false, Bool.false_eq_true, if_false, iff_false]
      exact ⟨_, _, rfl, by simp⟩
  · simp only [hgt.ne', decide_false, Bool.false_eq_true, if_false, Nat.not_le.mpr hgt,
      Bool.not_false, if_true, false_and, false_or, Nat.lt_asymm hgt, iff_false]
    exact ⟨_, _, rfl, by simp⟩

/-- `divergence`, about a record of a head. -/
def against (P : Primitives) (spki : Bytes) (e laterSth proof : Json) : Except Exn (Bool × String) := do
  let size ← e.item "size"
  let root ← e.item "root"
  divergence P spki size root laterSth proof

/-- **How a head is held against a mandate that has had it.**  On its own head and its own proof the
mandate is cleared, unless its log has not grown and the root is in another spelling than its own;
and whatever proof comes with it, no head of a log is cleared that does not extend the one it had. -/
structure Judged (P : Primitives) (cfg : Config) (m : Mandate) (size : ℕ) (root : Bytes) (e : Json) :
    Prop where
  honest : 1 ≤ size → ∀ env, (∃ why, m.heldAgainst P cfg env e = .ok (false, why)) ↔
    size < m.merkle.size ∨ e.item "root" = .ok (.str (Bytes.hex root))
  forked : ∀ log rnd at_ proof,
    CollisionFree P (Heads.extensionStrings P (m.merkle.entries.take size) log (Heads.decoded proof)) →
      ¬ m.merkle.entries.take size <+: log → ∃ why, against P (publicKey P cfg) e
        (signSth P cfg.signingKey rnd log.length (Log.root P log) at_) proof = .ok (true, why)

section Judging

variable {cfg : Config} {m : Mandate} {e : Json} {size : ℕ} {root : Bytes}

theorem heldAgainst_iff (hden : Denotes e size root) (hhad : m.Had P size root) (hpos : 1 ≤ size)
    (env : Env) : (∃ why, m.heldAgainst P cfg env e = .ok (false, why)) ↔
      size < m.merkle.size ∨ e.item "root" = .ok (.str (Bytes.hex root)) := by
  obtain ⟨p, hp, hver⟩ := Log.verifyConsistency_consistencyProof P hpos hhad.size_le
  obtain ⟨x, hx, hsize⟩ := hden.size
  obtain ⟨y, hy, hroot⟩ := hden.root
  have hproof : m.proveExtensionOf P x = .ok (hexList p) := by
    simp [proveExtensionOf, hsize, proveExtension, MerkleLog.proveConsistency, hp, Except.map]
  have hshows : Heads.Shows P root size (m.merkle.head P) m.merkle.size (hexList p) := by
    refine ⟨p, Heads.proofBytes_hex p, ?_⟩
    rw [hhad.root_eq]
    exact hver
  have hhead : size = m.merkle.size → m.merkle.head P = root := by
    intro heq
    rw [hhad.root_eq, heq, MerkleLog.size, List.take_length]
    rfl
  obtain ⟨diverged, why, hdiverged, hiff⟩ := divergence_of_denoted hsize hroot cfg.signingKey env.rnd
    m.merkle.size (m.merkle.head P) env.time (hexList p)
  have hheld : m.heldAgainst P cfg env e = .ok (diverged, why) := by
    simp only [heldAgainst, hx, hy, hproof, Exn.ok_bind]
    exact hdiverged
  have hverdict : (∃ why, m.heldAgainst P cfg env e = .ok (false, why)) ↔ diverged = false := by
    rw [hheld]
    constructor
    · rintro ⟨why', h⟩
      exact (Prod.mk.inj (Except.ok.inj h)).1
    · rintro rfl
      exact ⟨why, rfl⟩
  rw [hverdict, hiff, hy]
  constructor
  · rintro (⟨heq, rfl⟩ | ⟨hlt, -⟩)
    · rw [hhead heq]
      exact .inr rfl
    · exact .inl hlt
  · rintro (hlt | htext)
    · exact .inr ⟨hlt, hshows⟩
    · obtain hlt | heq := hhad.size_le.lt_or_eq
      · exact .inr ⟨hlt, hshows⟩
      · rw [hhead heq]
        exact .inl ⟨heq, Except.ok.inj htext⟩

theorem against_forked (hden : Denotes e size root) (hhad : m.Had P size root) {log : List Bytes}
    {rnd : Bytes} {at_ : ℤ} {proof : Json}
    (hcf : CollisionFree P
      (Heads.extensionStrings P (m.merkle.entries.take size) log (Heads.decoded proof)))
    (hforked : ¬ m.merkle.entries.take size <+: log) :
    ∃ why, against P (publicKey P cfg) e
      (signSth P cfg.signingKey rnd log.length (Log.root P log) at_) proof = .ok (true, why) := by
  obtain ⟨x, hx, hsize⟩ := hden.size
  obtain ⟨y, hy, hroot⟩ := hden.root
  have hlength : (m.merkle.entries.take size).length = size := List.length_take_of_le hhad.size_le
  obtain ⟨diverged, why, hdiverged, hiff⟩ := divergence_of_denoted hsize hroot cfg.signingKey rnd
    log.length (Log.root P log) at_ proof
  have hagainst : against P (publicKey P cfg) e
      (signSth P cfg.signingKey rnd log.length (Log.root P log) at_) proof = .ok (diverged, why) := by
    simp only [against, hx, hy, Exn.ok_bind]
    exact hdiverged
  refine ⟨why, ?_⟩
  cases diverged with
  | true => exact hagainst
  | false =>
      refine absurd ?_ hforked
      obtain ⟨heq, rfl⟩ | ⟨hlt, p, hp, hver⟩ := hiff.mp rfl
      · rw [Heads.fromHex_str] at hroot
        have hroots : Log.root P (m.merkle.entries.take size) = Log.root P log :=
          hhad.root_eq.symm.trans (Except.ok.inj hroot).symm
        rw [Log.root_inj P (hcf.mono (List.subset_append_left _ _)) (hlength.trans heq) hroots]
      · have hdecoded : Heads.decoded proof = p := by rw [Heads.decoded, hp]
        rw [hdecoded] at hcf
        rw [hhad.root_eq] at hver
        obtain hzero | hpos := Nat.eq_zero_or_pos size
        · rw [hzero, List.take_zero]
          exact List.nil_prefix
        · have hver' : Log.verifyConsistency P (Log.root P (m.merkle.entries.take size))
              (m.merkle.entries.take size).length (Log.root P log) log.length p = true := by
            rw [hlength]
            exact hver
          exact ((Log.verifyConsistency_exact (p := p) (by omega) (by omega) hcf).mp hver').1

theorem judged_of_had (hden : Denotes e size root) (hhad : m.Had P size root) :
    Judged P cfg m size root e where
  honest hpos env := heldAgainst_iff hden hhad hpos env
  forked _ _ _ _ hcf hforked := against_forked hden hhad hcf hforked

end Judging

/-! ## What was observed -/

/-- **Gossip is exact.**  Whatever is called at the mandates of a federation, and in whatever order,
and whatever heads anybody hands them to observe: each head that one of them keeps of a peer gives a
size and a root that the peer's log has had; and at every later moment it is held against the peer
as `Judged` says. -/
theorem gossip_exact (ledger : ι → Bytes → Option Record) (run later : List (Happening ι))
    (hfair : Run.Along (Net.step P cfg) (Fair P cfg) (.new P ledger) run) (i j : ι) {e : Json}
    (he : e ∈ (Run.exec (Net.step P cfg) (.new P ledger) run i).peers (mandateId P (keyOf P cfg j))) :
    let net := Run.exec (Net.step P cfg) (.new P ledger) run
    ∃ size root, Denotes e size root ∧ (net j).mandate.Had P size root ∧
      Judged P (cfg j) (Run.exec (Net.step P cfg) net later j).mandate size root e := by
  intro net
  have hsound : Sound P cfg net :=
    Run.exec_invariant (Net.step P cfg) (Sound P cfg) (fun _ a hfair h => sound_step h a hfair) hfair
      (sound_new ledger)
  obtain ⟨size, root, hden, hhad⟩ := hsound.observed i j e he
  exact ⟨size, root, hden, hhad, judged_of_had hden (hhad.mono (grows_exec net later j).log)⟩

/-! ## What a bundle gives -/

/-- Every head of a bundle has been verified. -/
theorem makeBundle_eq_ok {pairs : List (Bytes × SignedHead)} {commitment : Bytes}
    {entries : List Entry} (h : makeBundle P pairs = .ok (commitment, entries)) :
    (∀ pair ∈ pairs, verifySth P pair.1 pair.2.json = .ok ()) ∧
      commitment = bundleCommitment P (entriesJson entries) ∧ entries = bundleEntries P pairs := by
  obtain ⟨_, hverified, hreturned⟩ := Exn.bind_eq_ok h
  obtain ⟨rfl, rfl⟩ := Prod.mk.inj (Except.ok.inj hreturned)
  refine ⟨?_, rfl, rfl⟩
  clear h hreturned
  induction pairs with
  | nil => simp
  | cons pair pairs ih =>
      rw [List.forIn_cons] at hverified
      obtain ⟨next, hfirst, hrest⟩ := Exn.bind_eq_ok hverified
      obtain ⟨_, hver, hnext⟩ := Exn.bind_eq_ok hfirst
      obtain rfl := Except.ok.inj hnext
      intro pair' hpair'
      obtain rfl | hpair' := List.mem_cons.mp hpair'
      · exact hver
      · exact ih hrest pair' hpair'

theorem makeBundle_of_verified {pairs : List (Bytes × SignedHead)}
    (h : ∀ pair ∈ pairs, verifySth P pair.1 pair.2.json = .ok ()) :
    makeBundle P pairs = .ok (bundleCommitment P (entriesJson (bundleEntries P pairs)),
      bundleEntries P pairs) := by
  have hloop : (forIn pairs PUnit.unit fun pair _ => do
      verifySth P pair.1 pair.2.json
      pure (ForInStep.yield PUnit.unit) : Except Exn PUnit) = .ok PUnit.unit := by
    induction pairs with
    | nil => rfl
    | cons pair pairs ih =>
        rw [List.forIn_cons, h pair List.mem_cons_self]
        exact ih fun pair' hpair' => h pair' (List.mem_cons_of_mem _ hpair')
  rw [makeBundle, hloop]
  rfl

theorem mem_bundleEntries {pairs : List (Bytes × SignedHead)} {e : Entry} :
    e ∈ bundleEntries P pairs ↔ ∃ pair ∈ pairs, entry P pair = e := by
  rw [bundleEntries, List.mem_insertionSort, List.mem_map]

theorem findEntry_map (mid : String) (entries : List Entry) :
    findEntry mid (entries.map Entry.json) =
      .ok ((entries.find? fun e => e.m = mid).map Entry.json) := by
  induction entries with
  | nil => rfl
  | cons e entries ih =>
      have hitem : e.json.item "m" = .ok (.str e.m) := rfl
      rw [List.map_cons, findEntry, hitem, List.find?_cons]
      by_cases hm : e.m = mid
      · simp [Json.eqStr, hm]
      · simp [Json.eqStr, hm, ih]

/-- An entry gives what the head it is made of gives. -/
theorem denotes_entry {pair : Bytes × SignedHead} {size : ℕ} {root : Bytes}
    (h : Denotes pair.2.json size root) : Denotes (entry P pair).json size root := by
  obtain ⟨x, hx, hsize⟩ := h.size
  obtain ⟨y, hy, hroot⟩ := h.root
  exact ⟨⟨x, hx, hsize⟩, ⟨y, hy, hroot⟩⟩

omit [DecidableEq ι] in
/-- **A mandate accounts for the entries that name it.** -/
theorem Sound.accounts (h : Sound P cfg net) {pairs : List (Bytes × SignedHead)}
    (hpresentable : ∀ pair ∈ pairs, Presentable P cfg net pair.1 pair.2.json)
    (hver : ∀ pair ∈ pairs, verifySth P pair.1 pair.2.json = .ok ()) {i : ι} {e : Entry}
    (he : e ∈ bundleEntries P pairs) (hm : e.m = mandateId P (keyOf P cfg i)) :
    ∃ size root, Denotes e.json size root ∧ (net i).mandate.Had P size root := by
  obtain ⟨pair, hpair, rfl⟩ := mem_bundleEntries.mp he
  obtain ⟨size, root, hden, hhad⟩ := h.had_of_verified (hpresentable pair hpair)
    ((hpresentable pair hpair).named i hm) (hver pair hpair)
  exact ⟨size, root, denotes_entry hden, hhad⟩

/-- **A bundle passes the check of every mandate that it names.** -/
theorem checkHead_bundle {cfg : Config} {m : Mandate} {entries : List Entry}
    (hnamed : ∃ e ∈ entries, e.m = mandateId P (publicKey P cfg))
    (hknown : ∀ e ∈ entries, e.m = mandateId P (publicKey P cfg) →
      ∃ size root, Denotes e.json size root ∧ m.knowsHead root = true) :
    m.checkHead P cfg (some (bundleCommitment P (entriesJson entries))) (some (entriesJson entries)) =
      .ok none := by
  obtain ⟨e, hfound⟩ : ∃ e, entries.find? (fun e => e.m = mandateId P (publicKey P cfg)) = some e := by
    obtain ⟨e, he, hm⟩ := hnamed
    exact Option.isSome_iff_exists.mp (List.find?_isSome.mpr ⟨e, he, by simpa using hm⟩)
  have hm : e.m = mandateId P (publicKey P cfg) := by simpa using List.find?_some hfound
  obtain ⟨size, root, hden, hroot⟩ := hknown e (List.mem_of_find?_eq_some hfound) hm
  obtain ⟨y, hy, hfrom⟩ := hden.root
  have hentry : entryFor P (entriesJson entries) (publicKey P cfg) = .ok (some e.json) := by
    rw [entryFor, entriesJson, Json.iter, Exn.ok_bind, findEntry_map, hfound]
    rfl
  simp only [checkHead, verifyBundle, decide_true, Bool.not_true, Bool.false_eq_true, if_false, hentry,
    hy, Exn.ok_bind, hfrom, hroot, if_true]

/-- **One attestation serves the whole federation.**  Of whatever heads anybody puts together, once
`make_bundle` returns: at every later moment, each mandate that the bundle names accepts the step of
an honest attester that binds it, where the identity is welcome and the chain expects that step; and
each entry that names it gives a head that its log has had, and is held against it as `Judged`
says. -/
theorem bundle_serves (ledger : ι → Bytes → Option Record) (run later : List (Happening ι))
    (hfair : Run.Along (Net.step P cfg) (Fair P cfg) (.new P ledger) run)
    {pairs : List (Bytes × SignedHead)} {commitment : Bytes} {entries : List Entry}
    (hpresentable : ∀ pair ∈ pairs,
      Presentable P cfg (Run.exec (Net.step P cfg) (.new P ledger) run) pair.1 pair.2.json)
    (hmake : makeBundle P pairs = .ok (commitment, entries)) {i : ι}
    (hnamed : ∃ pair ∈ pairs, pair.1 = keyOf P cfg i) :
    let net := Run.exec (Net.step P cfg) (.new P ledger) run
    let m := (Run.exec (Net.step P cfg) net later i).mandate
    (∀ {inst k ctx exporter base n msg} (t : Moment), (cfg i).requirePlace = false →
      Genuine P (cfg i) inst exporter base n (some commitment) msg →
      Welcome (cfg i) (m.record k) inst → m.Expects P k ctx base n →
        (m.step P (cfg i) (t, .present k ctx exporter msg (some commitment)
          (some (entriesJson entries)))).1.accepted = true) ∧
    ∀ e ∈ entries, e.m = mandateId P (keyOf P cfg i) → ∃ size root, Denotes e.json size root ∧
      (net i).mandate.Had P size root ∧ Judged P (cfg i) m size root e.json := by
  intro net m
  have hsound : Sound P cfg net :=
    Run.exec_invariant (Net.step P cfg) (Sound P cfg) (fun _ a hfair h => sound_step h a hfair) hfair
      (sound_new ledger)
  have hgrows : Grows (net i).mandate m := grows_exec net later i
  obtain ⟨hver, rfl, rfl⟩ := makeBundle_eq_ok hmake
  have haccounts : ∀ e ∈ bundleEntries P pairs, e.m = mandateId P (keyOf P cfg i) →
      ∃ size root, Denotes e.json size root ∧ (net i).mandate.Had P size root :=
    fun e he hm => hsound.accounts hpresentable hver he hm
  constructor
  · intro inst k ctx exporter base n msg t hplace hmsg hwelcome hexpects
    obtain ⟨pair, hpair, hkey⟩ := hnamed
    have hentry : ∃ e ∈ bundleEntries P pairs, e.m = mandateId P (publicKey P (cfg i)) :=
      ⟨entry P pair, mem_bundleEntries.mpr ⟨pair, hpair, rfl⟩, congrArg (mandateId P) hkey⟩
    have hcheck : m.checkHead P (cfg i) (some (bundleCommitment P (entriesJson (bundleEntries P pairs))))
        (some (entriesJson (bundleEntries P pairs))) = .ok none := by
      apply checkHead_bundle hentry
      intro e he hm
      obtain ⟨size, root, hden, hhad⟩ := haccounts e he hm
      exact ⟨size, root, hden, hgrows.known root ((hsound.table i).complete root size hhad)⟩
    obtain ⟨place, hadmits⟩ := admits_of_known hplace hmsg hwelcome hcheck hexpects
    rw [step_of_admits m t hadmits]
    rfl
  · intro e he hm
    obtain ⟨size, root, hden, hhad⟩ := haccounts e he hm
    exact ⟨size, root, hden, hhad, judged_of_had hden (hhad.mono hgrows.log)⟩


section TwoMandates

open Tee

/-- Two mandates that trust the two chips, with a key each. -/
def twoMandates (i : Bool) : Config := { twoChips with signingKey := if i then [5] else [6] }

/-- Each logs a decision and signs its head. -/
def opened : List (Happening Bool) :=
  [.call true (instant 0) (.revoke [5] "lost"), .call false (instant 0) (.revoke [5] "lost"),
    .sth true (instant 1), .sth false (instant 1)]

/-- The root of that head. -/
def lostRoot : Bytes := Log.root .plain [lostEntry]

def lostSth (i : Bool) : SignedHead where
  size := 1
  root := Bytes.hex lostRoot
  at_ := 1
  sig := Bytes.hex ((twoMandates i).signingKey ++ sthBytes (.int 1) lostRoot (.int 1))

theorem item_size (h : SignedHead) : h.json.item "size" = .ok (.int h.size) := rfl

theorem item_root (h : SignedHead) : h.json.item "root" = .ok (.str h.root) := rfl

/-- The mandate after its decision. -/
def lost (i : Bool) : Mandate :=
  ((Mandate.new .plain fun _ => none).step .plain (twoMandates i) (instant 0, .revoke [5] "lost")).2

theorem entries_lost (i : Bool) : (lost i).merkle.entries = [lostEntry] := by
  rw [lost, step_revoke]
  simp only [merkle_recordDecision, merkle_put, MerkleLog.entries_append, entries_new, time_instant,
    MerkleLog.size]
  rfl

theorem mandate_opened (i : Bool) :
    (Run.exec (Net.step .plain twoMandates) (.new .plain fun _ _ => none) opened i).mandate = lost i := by
  cases i
  · simp only [opened, Run.exec_cons, Run.exec_nil, Net.step, Party.call, Party.sth, Net.new, lost,
      Function.update_self, ne_eq, reduceCtorEq, not_false_eq_true, Function.update_of_ne]
  · simp only [opened, Run.exec_cons, Run.exec_nil, Net.step, Party.call, Party.sth, Net.new, lost,
      Function.update_self, ne_eq, reduceCtorEq, not_false_eq_true, Function.update_of_ne]

theorem lostSth_json (i : Bool) :
    (lostSth i).json = signSth .plain (twoMandates i).signingKey [] 1 lostRoot 1 := rfl

theorem verifySth_lostSth (i : Bool) :
    verifySth .plain (keyOf .plain twoMandates i) (lostSth i).json = .ok () := by
  rw [lostSth_json]
  exact Heads.verifySth_signSth ..

/-- What a mandate has signed can be handed to both. -/
theorem presentable_lostSth {net : Net Bool} {i : Bool} (hmem : .sth [] 1 lostRoot 1 ∈ (net i).signed) :
    Presentable .plain twoMandates net (keyOf .plain twoMandates i) (lostSth i).json where
  unforged j sig msg hsig _ hver := by
    rw [lostSth_json, signSth_eq_obj, signature_append rfl] at hsig
    obtain rfl := Except.ok.inj hsig
    have hverify : (if (twoMandates i).signingKey ++ sthBytes (.int 1) lostRoot (.int 1) =
        (twoMandates j).signingKey ++ msg then Except.ok () else
        Except.error Exn.invalidSignature) = .ok () := hver
    split_ifs at hverify with heq
    obtain ⟨hkey, rfl⟩ := List.append_inj heq (by cases i <;> cases j <;> rfl)
    obtain rfl : i = j := by
      revert hkey
      cases i <;> cases j <;> decide
    exact ⟨_, hmem, rfl⟩
  named j hname := by
    have hdigest := Bytes.hex_injective hname
    revert hdigest
    cases i <;> cases j <;> decide +kernel

theorem signing_lost (i : Bool) : Party.signing .plain (instant 1) (lost i) = .sth [] 1 lostRoot 1 := by
  have hsize : (lost i).merkle.size = 1 := by
    rw [MerkleLog.size, entries_lost]
    rfl
  have hhead : (lost i).merkle.head .plain = lostRoot := by
    rw [MerkleLog.head, entries_lost, lostRoot]
  rw [Party.signing, hsize, hhead]
  rfl

theorem signed_opened (i : Bool) : .sth [] 1 lostRoot 1 ∈
    (Run.exec (Net.step .plain twoMandates) (.new .plain fun _ _ => none) opened i).signed := by
  rw [← signing_lost i]
  cases i
  · simp [opened, Net.step, Party.call, Party.sth, Net.new, lost]
  · simp [opened, Net.step, Party.call, Party.sth, Net.new, lost]

theorem fair_opened : Run.Along (Net.step .plain twoMandates) (Fair .plain twoMandates)
    (.new .plain fun _ _ => none) opened :=
  ⟨trivial, trivial, trivial, trivial, trivial⟩

theorem mandate_of_call (net : Net Bool) (t : Moment) (c : Call) :
    (Run.exec (Net.step .plain twoMandates) net [.call false t c] false).mandate =
      ((net false).mandate.step .plain (twoMandates false) (t, c)).2 := by
  simp only [Run.exec_cons, Run.exec_nil, Net.step, Party.call, Function.update_self]

/-- After another decision its log has grown. -/
theorem size_stolen (t : Moment) : ((lost false).step .plain (twoMandates false)
    (t, .revoke [6] "stolen")).2.merkle.size = 2 := by
  rw [step_revoke]
  simp only [merkle_recordDecision, merkle_put, MerkleLog.size, entries_lost]
  rfl

/-- The strings hashed when the head is held against a log that begins otherwise. -/
theorem extensionStrings_stolen :
    Heads.extensionStrings .plain [lostEntry] [stolenEntry] [] ⊆ hashedForRevocations := by
  have hclimbed : Log.consistencyStrings .plain (Log.root .plain [lostEntry]) 1 1 [] = [] := by
    simp [Log.consistencyStrings, Log.stripOnes, Log.climb]
  simp [Heads.extensionStrings, hclimbed, Log.rootStrings_singleton, hashedForRevocations]

/-- What an observation of the head keeps. -/
def keptLost : Json := .obj [("size", .int (lostSth false).size), ("root", .str (lostSth false).root),
  ("at", .int (instant 2).env.time)]

theorem denotes_keptLost : Denotes keptLost 1 lostRoot where
  size := ⟨_, rfl, rfl⟩
  root := ⟨_, rfl, Heads.fromHex_str lostRoot⟩

/-- The one observes the head of the other. -/
def observed : List (Happening Bool) :=
  opened ++ [.observe true (instant 2) (keyOf .plain twoMandates false) (lostSth false).json]

theorem fair_observed : Run.Along (Net.step .plain twoMandates) (Fair .plain twoMandates)
    (.new .plain fun _ _ => none) observed :=
  (Run.along_append _ _ _ _).mpr ⟨fair_opened, presentable_lostSth (signed_opened false), trivial⟩

theorem mem_peers_observed : keptLost ∈
    (Run.exec (Net.step .plain twoMandates) (.new .plain fun _ _ => none) observed true).peers
      (mandateId .plain (keyOf .plain twoMandates false)) := by
  rw [observed, keptLost]
  exact mem_peers_observe twoMandates (.new .plain fun _ _ => none) opened true (instant 2)
    (verifySth_lostSth false) (item_size _) (item_root _)

theorem mandate_observed : (Run.exec (Net.step .plain twoMandates) (.new .plain fun _ _ => none)
    observed false).mandate = lost false := by
  rw [observed, Run.exec_append, Run.exec_cons, Run.exec_nil, step_observe_of_ne _ _ _ _ (by decide),
    mandate_opened]

/-- A head that a mandate has observed of a peer does not accuse the peer when it has logged another
decision, and accuses one that shows a log with that decision alone. -/
theorem gossip_exact_observed :
    ∃ e ∈ (Run.exec (Net.step .plain twoMandates) (.new .plain fun _ _ => none) observed true).peers
        (mandateId .plain (keyOf .plain twoMandates false)),
      Denotes e 1 lostRoot ∧
      (∀ env, ∃ why, (Run.exec (Net.step .plain twoMandates)
        (Run.exec (Net.step .plain twoMandates) (.new .plain fun _ _ => none) observed)
        [.call false (instant 3) (.revoke [6] "stolen")] false).mandate.heldAgainst .plain
          (twoMandates false) env e = .ok (false, why)) ∧
      ∃ why, against .plain (keyOf .plain twoMandates false) e
        (signSth .plain (twoMandates false).signingKey [] 1 (Log.root .plain [stolenEntry]) 3) .null =
          .ok (true, why) := by
  obtain ⟨size, root, hden, hhad, hjudged⟩ := gossip_exact (fun _ _ => none) observed
    [.call false (instant 3) (.revoke [6] "stolen")] fair_observed true false mem_peers_observed
  -- the entry gives one size and one root
  obtain rfl := hden.size.unique denotes_keptLost.size
  obtain rfl := hden.root.unique denotes_keptLost.root
  refine ⟨_, mem_peers_observed, denotes_keptLost, ?_⟩
  rw [mandate_of_call, mandate_observed] at hjudged ⊢
  have hentries : _ <+: _ :=
    @entries_step .plain (twoMandates false) (lost false) (instant 3, .revoke [6] "stolen")
  have hsize := size_stolen (instant 3)
  generalize ((lost false).step .plain (twoMandates false) (instant 3, .revoke [6] "stolen")).2 = m at *
  have htake : m.merkle.entries.take 1 = [lostEntry] := by
    obtain ⟨rest, hrest⟩ := hentries
    rw [← hrest, entries_lost]
    rfl
  refine ⟨fun env => (hjudged.honest le_rfl env).mpr (.inl ?_), ?_⟩
  · rw [hsize]
    decide
  · apply hjudged.forked [stolenEntry]
    · rw [htake]
      exact collisionFree_revocations.mono extensionStrings_stolen
    · rw [htake]
      intro hextends
      have hseq := Receipt.makeEntry_seq_inj .plain (List.cons_prefix_cons.mp hextends).1
      cases hseq

/-- Both heads, and a first message that binds the bundle of them. -/
def bothHeads : List (Bytes × SignedHead) :=
  [(keyOf .plain twoMandates true, lostSth true), (keyOf .plain twoMandates false, lostSth false)]

def bothEntries : List Entry := bundleEntries .plain bothHeads

def bothHello : Call :=
  let commitment := bundleCommitment .plain (entriesJson bothEntries)
  .present tik [3] [4] (teeA.helloOver .plain [] tik [3] [4] commitment) (some commitment)
    (some (entriesJson bothEntries))

/-- What happens later. -/
def logsMore : List (Happening Bool) :=
  [.call true (instant 2) (.revoke [6] "stolen"), .call false (instant 3) (.revoke [6] "stolen")]

theorem bothHeads_cases {pair : Bytes × SignedHead} (h : pair ∈ bothHeads) :
    ∃ i, pair = (keyOf .plain twoMandates i, lostSth i) := by
  rcases List.mem_pair.mp h with rfl | rfl
  · exact ⟨true, rfl⟩
  · exact ⟨false, rfl⟩

theorem denotes_bothEntries {e : Entry} (h : e ∈ bothEntries) : Denotes e.json 1 lostRoot := by
  obtain ⟨pair, hpair, rfl⟩ := mem_bundleEntries.mp h
  obtain ⟨i, rfl⟩ := bothHeads_cases hpair
  exact denotes_entry ⟨⟨_, rfl, rfl⟩, ⟨_, rfl, Heads.fromHex_str lostRoot⟩⟩

theorem makeBundle_bothHeads : makeBundle .plain bothHeads =
    .ok (bundleCommitment .plain (entriesJson bothEntries), bothEntries) := by
  apply makeBundle_of_verified
  intro pair hpair
  obtain ⟨i, rfl⟩ := bothHeads_cases hpair
  exact verifySth_lostSth i

theorem mandate_logsMore (i : Bool) : ∃ t, (Run.exec (Net.step .plain twoMandates)
    (Run.exec (Net.step .plain twoMandates) (.new .plain fun _ _ => none) opened) logsMore i).mandate =
      ((lost i).step .plain (twoMandates i) (t, .revoke [6] "stolen")).2 := by
  have hbefore := mandate_opened i
  generalize Run.exec (Net.step .plain twoMandates) (.new .plain fun _ _ => none) opened = net at *
  cases i
  · refine ⟨instant 3, ?_⟩
    simp only [logsMore, Run.exec_cons, Run.exec_nil, Net.step, Party.call, Function.update_self, ne_eq,
      reduceCtorEq, not_false_eq_true, Function.update_of_ne, hbefore]
  · refine ⟨instant 2, ?_⟩
    simp only [logsMore, Run.exec_cons, Run.exec_nil, Net.step, Party.call, Function.update_self, ne_eq,
      reduceCtorEq, not_false_eq_true, Function.update_of_ne, hbefore]

/-- The identity is untouched by what was logged, and its session is new. -/
theorem untouched_lost (i : Bool) (t : Moment) :
    let m := ((lost i).step .plain (twoMandates i) (t, .revoke [6] "stolen")).2
    m.record tik = .blank ∧ m.sessions = fun _ => none := by
  obtain ⟨hrec, hses⟩ := @untouched_revoke .plain (twoMandates i) (.new .plain fun _ => none) (instant 0)
    [5] tik (by decide) "lost"
  obtain ⟨hrec', hses'⟩ := @untouched_revoke .plain (twoMandates i) (lost i) t [6] tik (by decide)
    "stolen"
  exact ⟨hrec'.trans hrec, hses'.trans hses⟩

/-- A bundle of both heads serves at both when they have logged more, and neither is accused by it. -/
theorem bundle_serves_both :
    let net := Run.exec (Net.step .plain twoMandates)
      (Run.exec (Net.step .plain twoMandates) (.new .plain fun _ _ => none) opened) logsMore
    (∀ i, ((net i).mandate.step .plain (twoMandates i) (instant 4, bothHello)).1.accepted = true) ∧
      ∀ i, ∀ e ∈ bothEntries, e.m = mandateId .plain (keyOf .plain twoMandates i) →
        ∀ env, ∃ why, (net i).mandate.heldAgainst .plain (twoMandates i) env e.json = .ok (false, why) := by
  have hpresentable : ∀ pair ∈ bothHeads, Presentable .plain twoMandates
      (Run.exec (Net.step .plain twoMandates) (.new .plain fun _ _ => none) opened) pair.1
        pair.2.json := by
    intro pair hpair
    obtain ⟨i, rfl⟩ := bothHeads_cases hpair
    exact presentable_lostSth (signed_opened i)
  have hserves := fun i => bundle_serves (fun _ _ => none) opened logsMore fair_opened hpresentable
    makeBundle_bothHeads (i := i) (by cases i <;> simp [bothHeads])
  refine ⟨fun i => ?_, fun i e he hm env => ?_⟩
  · obtain ⟨t, hmandate⟩ := mandate_logsMore i
    obtain ⟨hrec, hses⟩ := untouched_lost i t
    refine (hserves i).1 (instant 4) rfl (MockTEE.genuine_helloOver rfl teeA_trusted (by decide) [] tik
      [4] _) ?_ ?_
    · rw [hmandate, hrec]
      exact welcome_blank rfl _
    · rw [hmandate]
      simp [Mandate.Expects, hses, Binder.intraLink_eq .plain (show [3].length < 256 by decide)]
  · obtain ⟨size, root, hden, -, hjudged⟩ := (hserves i).2 e he hm
    obtain rfl := hden.size.unique (denotes_bothEntries he).size
    obtain rfl := hden.root.unique (denotes_bothEntries he).root
    obtain ⟨pair, hpair, rfl⟩ := mem_bundleEntries.mp he
    obtain ⟨j, rfl⟩ := bothHeads_cases hpair
    exact (hjudged.honest le_rfl env).mpr (.inr rfl)

end TwoMandates

end Hatls.Gossip
