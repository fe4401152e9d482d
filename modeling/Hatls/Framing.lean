import Hatls.KnownHeads

/-!
# Bundles that name the mandate

A mandate accepts a bundle of heads when the first entry that names it gives a root its
log has had.  The size of that entry is not looked at, and neither is any later entry
that names it; but a witness who holds the bundle may judge the mandate by each of them.

The table of roots knows the size each was reached at.  An entry whose root it holds
under the size of the entry is a head the log has had, and from one entry on no later
state of the mandate is held against it.

## Main definitions

* `Names`, `Denotes` — an entry of a bundle.
* `Mandate.heldAgainst` — what `divergence` answers about an entry.
* `Covered` — what the check of a bundle does not look at.
* `unframed_iff` — the bundles that frame nobody.
* `framed_by_bundle` — one that does.
-/

namespace Hatls

open Mandate Federation

variable {P : Primitives} {cfg : Config}

/-! ## Entries -/

/-- An entry of a bundle names the mandate with a key. -/
structure Names (P : Primitives) (spki : Bytes) (bundle e : Json) : Prop where
  mem : ∃ entries, bundle.iter = .ok entries ∧ e ∈ entries
  mandate : ∃ x, e.item "m" = .ok x ∧ x.eqStr (mandateId P spki) = true

/-- The size an entry gives. -/
def GivesSize (e : Json) (size : ℕ) : Prop := ∃ x, e.item "size" = .ok x ∧ x.asInt? = some size

/-- The root it gives, in any spelling. -/
def GivesRoot (e : Json) (root : Bytes) : Prop := ∃ x, e.item "root" = .ok x ∧ x.fromHex = .ok root

structure Denotes (e : Json) (size : ℕ) (root : Bytes) : Prop where
  size : GivesSize e size
  root : GivesRoot e root

/-- It gives one size. -/
theorem GivesSize.unique {e : Json} {size size' : ℕ} (h : GivesSize e size)
    (h' : GivesSize e size') : size = size' := by
  obtain ⟨x, hx, hsize⟩ := h
  obtain ⟨x', hx', hsize'⟩ := h'
  rw [hx] at hx'
  cases hx'
  rw [hsize] at hsize'
  exact Int.ofNat_inj.mp (Option.some.inj hsize')

/-- And one root. -/
theorem GivesRoot.unique {e : Json} {root root' : Bytes} (h : GivesRoot e root)
    (h' : GivesRoot e root') : root = root' := by
  obtain ⟨x, hx, hroot⟩ := h
  obtain ⟨x', hx', hroot'⟩ := h'
  rw [hx] at hx'
  cases hx'
  rw [hroot] at hroot'
  exact Except.ok.inj hroot'

/-! ## Being judged by an entry -/

/-- `prove_extension`, on a size that comes out of a JSON value. -/
def Mandate.proveExtensionOf (P : Primitives) (m : Mandate) (oldSize : Json) : Except Exn Json :=
  match oldSize.asInt? with
  | some n => m.proveExtension P n
  | none => .error .typeError

/-- `divergence(M.public_key, e["size"], e["root"], M.sth(), M.prove_extension(e["size"]))`. -/
def Mandate.heldAgainst (P : Primitives) (cfg : Config) (env : Env) (m : Mandate) (e : Json) :
    Except Exn (Bool × String) := do
  let size ← e.item "size"
  let root ← e.item "root"
  let proof ← m.proveExtensionOf P size
  divergence P (publicKey P cfg) size root (m.sth P cfg env) proof

/-- A number is compared with another as its value is. -/
theorem pyEq_of_asInt {a : Json} {n : ℤ} (h : a.asInt? = some n) (b : Json) :
    a.pyEq b = b.eqInt n := by
  cases a with
  | bool x =>
      cases h
      rw [Json.pyEq]
  | int i =>
      cases h
      rw [Json.pyEq]
  | _ => cases h

theorem le_of_asInt {a : Json} {n k : ℤ} (h : a.asInt? = some n) :
    a.le (.int k) = .ok (decide (n ≤ k)) := by
  cases a with
  | bool x =>
      cases h
      simp [Json.le, Json.asInt?]
  | int i =>
      cases h
      simp [Json.le, Json.asInt?]
  | _ => cases h

/-- **A head the log had before it grew is not held against it**, however the entry
spells it. -/
theorem heldAgainst_of_had {m m' : Mandate} {e : Json} {size : ℕ} {root : Bytes}
    (hden : Denotes e size root) (hhad : m.Had P size root) (hpos : 1 ≤ size)
    (hlog : m.merkle.entries <+: m'.merkle.entries) (hgrown : m.merkle.size < m'.merkle.size)
    (env : Env) : ∃ why, m'.heldAgainst P cfg env e = .ok (false, why) := by
  have hhad' := hhad.mono hlog
  have hlt : size < m'.merkle.size := by
    have := hhad.size_le
    omega
  obtain ⟨p, hp, hver⟩ := Log.verifyConsistency_consistencyProof P hpos hhad'.size_le
  obtain ⟨x, hx, hsize⟩ := hden.size
  obtain ⟨y, hy, hroot⟩ := hden.root
  have hproof : m'.proveExtensionOf P x = .ok (hexList p) := by
    simp [proveExtensionOf, hsize, proveExtension, MerkleLog.proveConsistency, hp, Except.map]
  have hne : x.pyEq (.int m'.merkle.size) = false := by
    rw [pyEq_of_asInt hsize]
    simp [Json.eqInt, Json.asInt?, hlt.ne']
  have hle : x.le (.int m'.merkle.size) = .ok true := by
    rw [le_of_asInt hsize]
    simp [hlt.le]
  have hcheck : Receipt.checkExtension P (.obj [("root", y), ("size", x)]) (m'.sth P cfg env)
      (hexList p) = .ok true := by
    have hroot' : (Json.obj [("root", y), ("size", x)]).item "root" = .ok y := rfl
    have hsize' : (Json.obj [("root", y), ("size", x)]).item "size" = .ok x := rfl
    rw [hhad'.root_eq] at hroot
    simp only [Receipt.checkExtension, hroot', hsize', hroot, Mandate.sth, Heads.signSth_root,
      Heads.signSth_size, Heads.fromHex_str, Exn.ok_bind, hexList, Heads.proofBytes_hex,
      Receipt.consistencyOf, hsize]
    exact congrArg Except.ok hver
  refine ⟨"the peer's log extends the witnessed head", ?_⟩
  simp only [heldAgainst, hx, hy, hproof, Exn.ok_bind, divergence]
  simp only [Mandate.sth, publicKey, Heads.verifySth_signSth, Heads.signSth_size, Exn.ok_bind, hne,
    hle, Bool.false_eq_true, if_false, Bool.not_true]
  simp only [Mandate.sth] at hcheck
  simp only [Receipt.accuse, hexList] at hcheck ⊢
  rw [hcheck]
  rfl

/-! ## Bundles that are accepted -/

/-- The bundle does not frame the mandate that accepted it in the state `m`, and was left
in the state `m'`: each entry that names it gives a head its log had, and no later state
is held against a size from one on. -/
def Unframed (P : Primitives) (cfg : Config) (m m' : Mandate) (bundle : Json) : Prop :=
  ∀ e, Names P (publicKey P cfg) bundle e → ∃ size root, Denotes e size root ∧
    m.Had P size root ∧ (1 ≤ size → ∀ (later : List (Moment × Call)) (env : Env),
      ∃ why, (Run.exec (step P cfg) m' later).heldAgainst P cfg env e = .ok (false, why))

/-- What the check of a bundle does not look at: the size of an entry that names the mandate, and
all of such an entry but the one `entry_for` returns. -/
structure Covered (P : Primitives) (cfg : Config) (m : Mandate) (bundle : Json) : Prop where
  /-- Where the table holds the root, the size is the one it is held under. -/
  sized : ∀ e root size, Names P (publicKey P cfg) bundle e → GivesRoot e root →
    m.roots root = some size → GivesSize e size
  /-- The root of a further entry is known. -/
  further : ∀ e, Names P (publicKey P cfg) bundle e →
    entryFor P bundle (publicKey P cfg) ≠ .ok (some e) → ∃ root, GivesRoot e root ∧ m.knowsHead root = true

/-- What it does look at. -/
theorem Mandate.knows_of_checkHead {m : Mandate} {head : Bytes} {bundle : Json}
    (h : m.checkHead P cfg (some head) (some bundle) = .ok none) :
    ∃ mine root, entryFor P bundle (publicKey P cfg) = .ok (some mine) ∧ GivesRoot mine root ∧
      m.knowsHead root = true := by
  simp only [checkHead] at h
  split at h
  · cases h
  cases hmine : entryFor P bundle (publicKey P cfg) with
  | error x =>
      rw [hmine] at h
      cases h
  | ok found =>
      cases found with
      | none =>
          rw [hmine] at h
          cases h
      | some mine =>
          simp only [hmine] at h
          cases hroot : (do (← mine.item "root").fromHex) with
          | error x =>
              rw [hroot] at h
              cases h
          | ok root =>
              obtain ⟨x, hx, hdecoded⟩ := Exn.bind_eq_ok hroot
              simp only [hroot] at h
              split at h
              · next hknown => exact ⟨mine, root, rfl, ⟨x, hx, hdecoded⟩, hknown⟩
              · cases h

/-- The table holds the root of each entry that names the mandate, under the size of the
entry. -/
def Accounted (P : Primitives) (cfg : Config) (m : Mandate) (bundle : Json) : Prop :=
  ∀ e, Names P (publicKey P cfg) bundle e →
    ∃ size root, Denotes e size root ∧ m.roots root = some size

/-- **What the check does not look at decides**: the rest is as it should be where it passes. -/
theorem accounted_iff_covered {m : Mandate} {head : Bytes} {bundle : Json}
    (hcheck : m.checkHead P cfg (some head) (some bundle) = .ok none) :
    Accounted P cfg m bundle ↔ Covered P cfg m bundle := by
  constructor
  · intro h
    constructor
    · intro e root size hnames hroot hheld
      obtain ⟨size', root', hden, hheld'⟩ := h e hnames
      rw [hden.root.unique hroot, hheld] at hheld'
      rw [Option.some.inj hheld']
      exact hden.size
    · intro e hnames _
      obtain ⟨size, root, hden, hheld⟩ := h e hnames
      exact ⟨root, hden.root, by rw [knowsHead, hheld]; rfl⟩
  · intro h e hnames
    have hknown : ∃ root, GivesRoot e root ∧ m.knowsHead root = true := by
      obtain ⟨mine, root, hmine, hroot, hknown⟩ := m.knows_of_checkHead hcheck
      by_cases hfirst : entryFor P bundle (publicKey P cfg) = .ok (some e)
      · rw [hmine] at hfirst
        obtain rfl := Option.some.inj (Except.ok.inj hfirst)
        exact ⟨root, hroot, hknown⟩
      · exact h.further e hnames hfirst
    obtain ⟨root, hroot, hknown⟩ := hknown
    obtain ⟨size, hheld⟩ := Option.isSome_iff_exists.mp hknown
    exact ⟨size, root, ⟨h.sized e root size hnames hroot hheld, hroot⟩, hheld⟩

/-- The log of a run grows. -/
theorem entries_exec (m : Mandate) (run : List (Moment × Call)) :
    m.merkle.entries <+: (Run.exec (step P cfg) m run).merkle.entries :=
  Run.exec_relation (Q := fun _ _ => True)
    (R := fun m m' : Mandate => m.merkle.entries <+: m'.merkle.entries) (step P cfg)
    (fun _ => List.prefix_rfl) (fun _ _ _ => List.IsPrefix.trans) (fun m i _ => entries_step m i)
    ((Run.along_const _).mpr fun _ _ => trivial)

/-- An accepted presentation is an entry more. -/
theorem size_of_accepted {m : Mandate} {t : Moment} {k ctx exporter : Bytes} {msg : Json}
    {head : Option Bytes} {bundle : Option Json}
    (h : (m.step P cfg (t, .present k ctx exporter msg head bundle)).1.accepted = true) :
    (m.step P cfg (t, .present k ctx exporter msg head bundle)).2.merkle.size =
      m.merkle.size + 1 := by
  obtain ⟨inst, place, pl, n, -, hstep⟩ := m.admits_of_accepted t h
  rw [hstep, merkle_recordDecision, MerkleLog.size_append, merkle_admitted]

/-- The entries the table holds are never held against the mandate. -/
theorem unframed_of_accounted {m m' : Mandate} {bundle : Json} (htable : HoldsHeads P m)
    (hlog : m.merkle.entries <+: m'.merkle.entries) (hgrown : m.merkle.size < m'.merkle.size)
    (h : Accounted P cfg m bundle) : Unframed P cfg m m' bundle := by
  intro e hnames
  obtain ⟨size, root, hden, hroot⟩ := h e hnames
  have hhad := htable.sound root size hroot
  refine ⟨size, root, hden, hhad, fun hpos later env => ?_⟩
  have hlater : m'.merkle.entries <+: (Run.exec (step P cfg) m' later).merkle.entries :=
    entries_exec m' later
  apply heldAgainst_of_had hden hhad hpos (hlog.trans hlater)
  exact hgrown.trans_le hlater.length_le

/-- **Who is framed by a bundle it accepts.**  A mandate is not, if and only if what the check does
not look at is in order: the sizes the entries that name it give for roots of its table, and the
roots of those after the first. -/
theorem unframed_iff (ledger : Bytes → Option Record) (run : List (Moment × Call)) (t : Moment)
    (k ctx exporter : Bytes) (msg : Json) (head : Bytes) (bundle : Json)
    (hacc : ((after P cfg ledger run).step P cfg
      (t, .present k ctx exporter msg (some head) (some bundle))).1.accepted = true)
    (hcf : CollisionFree P
      (Log.historyStrings P (after P cfg ledger run).merkle.entries)) :
    Unframed P cfg (after P cfg ledger run)
        ((after P cfg ledger run).step P cfg
          (t, .present k ctx exporter msg (some head) (some bundle))).2 bundle ↔
      Covered P cfg (after P cfg ledger run) bundle := by
  have htable : HoldsHeads P (after P cfg ledger run) := holdsHeads_after ledger run
  obtain ⟨inst, place, pl, n, hadm, -⟩ := (after P cfg ledger run).admits_of_accepted t hacc
  rw [← accounted_iff_covered hadm.known]
  constructor
  · intro h e hnames
    obtain ⟨size, root, hden, hhad, -⟩ := h e hnames
    exact ⟨size, root, hden, (htable.had_iff hcf).mp hhad⟩
  · intro h
    apply unframed_of_accounted htable (entries_step _ _) _ h
    rw [size_of_accepted hacc]
    exact Nat.lt_succ_self _

section Bundles

open Tee Binder

/-- An entry that names the mandate. -/
def entryOf (size : ℕ) (root : Bytes) : Json :=
  .obj [
    ("m", .str (mandateId .plain (publicKey .plain twoChips))),
    ("size", .int size),
    ("root", .str (Bytes.hex root))]

/-- A first message that is bound to a bundle. -/
def bundled (entries : List Json) (now : ℕ) : Moment × Call :=
  let head := bundleCommitment .plain (.arr entries)
  (instant now, .present tik [3] [4] (teeA.helloOver .plain [] tik [3] [4] head) (some head)
    (some (.arr entries)))

theorem bundled_eq (entries : List Json) (now : ℕ) :
    bundled entries now = (instant now, .present tik [3] [4]
      (teeA.helloOver .plain [] tik [3] [4] (bundleCommitment .plain (.arr entries)))
      (some (bundleCommitment .plain (.arr entries))) (some (.arr entries))) := rfl

theorem names_entryOf {entries : List Json} {size : ℕ} {root : Bytes}
    (h : entryOf size root ∈ entries) :
    Names .plain (publicKey .plain twoChips) (.arr entries) (entryOf size root) where
  mem := ⟨entries, rfl, h⟩
  mandate := ⟨_, rfl, by simp [Json.eqStr]⟩

theorem denotes_entryOf (size : ℕ) (root : Bytes) : Denotes (entryOf size root) size root where
  size := ⟨_, rfl, rfl⟩
  root := ⟨_, rfl, Heads.fromHex_str root⟩

/-- The bundle is let through where the root of its first entry is in the table. -/
theorem checkHead_bundled {m : Mandate} {size : ℕ} {root : Bytes} (hknown : m.knowsHead root = true)
    (rest : List Json) :
    m.checkHead .plain twoChips (some (bundleCommitment .plain (.arr (entryOf size root :: rest))))
      (some (.arr (entryOf size root :: rest))) = .ok none := by
  have hfind : entryFor .plain (.arr (entryOf size root :: rest)) (publicKey .plain twoChips) =
      .ok (some (entryOf size root)) := by
    simp [entryFor, Json.iter, findEntry, entryOf, Json.item, Json.lookup, Json.eqStr]
  have hroot : (entryOf size root).item "root" = .ok (.str (Bytes.hex root)) := rfl
  simp [checkHead, verifyBundle, hfind, hroot, hknown]

/-- So an identity of which nothing is known is served with it. -/
theorem accepted_bundled {m : Mandate} (hrec : m.record tik = .blank)
    (hnew : m.sessions (sessionKey .plain tik [3]) = none) {root : Bytes}
    (hknown : m.knowsHead root = true) (size now : ℕ) (rest : List Json) :
    (m.step .plain twoChips (bundled (entryOf size root :: rest) now)).1.accepted = true := by
  have hwelcome : Welcome twoChips (m.record tik) teeA.inst := by
    rw [hrec]
    exact welcome_blank rfl _
  have hexp : m.Expects .plain tik [3] (firstLink .plain [3] tik) 0 := by
    simp [Expects, hnew, intraLink_eq .plain (show [3].length < 256 by decide)]
  have hgenuine : Genuine .plain twoChips teeA.inst [4] (firstLink .plain [3] tik) 0 _ _ :=
    MockTEE.genuine_helloOver rfl teeA_trusted (by decide) [] tik [4]
      (bundleCommitment .plain (.arr (entryOf size root :: rest)))
  obtain ⟨place, hadm⟩ := admits_of_known rfl hgenuine hwelcome (checkHead_bundled hknown rest) hexp
  rw [bundled, step_of_admits m (instant now) hadm]
  rfl

/-- The head of a log without entries. -/
def emptyHead : Bytes := MerkleLog.head .plain ⟨[]⟩

theorem had_emptyHead : (after .plain twoChips (fun _ => none) []).Had .plain 0 emptyHead :=
  ⟨le_rfl, rfl⟩

theorem accepted_first (size now : ℕ) (rest : List Json) :
    ((after .plain twoChips (fun _ => none) []).step .plain twoChips
      (bundled (entryOf size emptyHead :: rest) now)).1.accepted = true := by
  have htable : HoldsHeads .plain (after .plain twoChips (fun _ => none) []) := holdsHeads_after _ _
  exact accepted_bundled rfl rfl (htable.complete _ _ had_emptyHead) size now rest

/-- The two heads a mandate had after two decisions. -/
def genuine : List Json :=
  [entryOf 1 (Log.root .plain [lostEntry]), entryOf 2 (Log.root .plain [lostEntry, stolenEntry])]

theorem had_genuine {size : ℕ} (hsize : size ≤ 2) :
    (after .plain twoChips (fun _ => none) revocations).Had .plain size
      (Log.root .plain ([lostEntry, stolenEntry].take size)) where
  size_le := by
    rw [MerkleLog.size, entries_revocations]
    exact hsize
  root_eq := by rw [entries_revocations]

/-- The revocation of another identity. -/
theorem untouched_revoke (m : Mandate) (t : Moment) {k k' : Bytes} (hne : k' ≠ k) (reason : String) :
    (m.step P cfg (t, .revoke k reason)).2.record k' = m.record k' ∧
      (m.step P cfg (t, .revoke k reason)).2.sessions = m.sessions := by
  rw [step_revoke, record_recordDecision, record_put_of_ne hne, sessions_recordDecision, sessions_put]
  exact ⟨rfl, rfl⟩

theorem accepted_genuine :
    ((after .plain twoChips (fun _ => none) revocations).step .plain twoChips
      (bundled genuine 2)).1.accepted = true := by
  have htable : HoldsHeads .plain (after .plain twoChips (fun _ => none) revocations) :=
    holdsHeads_after _ _
  have hknown := htable.complete _ _ (had_genuine (show 1 ≤ 2 by omega))
  obtain ⟨hlost, hlost'⟩ := @untouched_revoke .plain twoChips (new .plain fun _ => none) (instant 0)
    [5] tik (by decide) "lost"
  obtain ⟨hstolen, hstolen'⟩ := @untouched_revoke .plain twoChips
    ((new .plain fun _ => none).step .plain twoChips (instant 0, .revoke [5] "lost")).2 (instant 1)
    [6] tik (by decide) "stolen"
  exact accepted_bundled (hstolen.trans hlost) (congrFun (hstolen'.trans hlost') _) hknown 1 2 _

/-- A mandate accepts a bundle with two heads it has had, and neither is ever held against it. -/
theorem unframed_genuine :
    let m := after .plain twoChips (fun _ => none) revocations
    let m' := (m.step .plain twoChips (bundled genuine 2)).2
    (m.step .plain twoChips (bundled genuine 2)).1.accepted = true ∧
      ∀ e ∈ genuine, ∀ later env,
        ∃ why, (Run.exec (step .plain twoChips) m' later).heldAgainst .plain twoChips env e =
          .ok (false, why) := by
  have hacc := accepted_genuine
  have hcf := collisionFree_revocations.mono historyStrings_revocations
  have htable : HoldsHeads .plain (after .plain twoChips (fun _ => none) revocations) :=
    holdsHeads_after _ _
  have hfirst := had_genuine (show 1 ≤ 2 by omega)
  have hsecond := had_genuine (le_refl 2)
  have hunframed := unframed_iff (fun _ => none) revocations (instant 2) tik [3] [4] _ _
    (.arr genuine) (bundled_eq genuine 2 ▸ hacc) hcf
  rw [← bundled_eq] at hunframed
  generalize after .plain twoChips (fun _ => none) revocations = m at *
  -- both entries give a root the table holds, under the size they give
  have hgives : ∀ e ∈ genuine, ∃ size root, 1 ≤ size ∧ Denotes e size root ∧ m.Had .plain size root := by
    intro e he
    rcases List.mem_pair.mp he with rfl | rfl
    · exact ⟨1, _, le_rfl, denotes_entryOf .., hfirst⟩
    · exact ⟨2, _, by omega, denotes_entryOf .., hsecond⟩
  have hmem : ∀ e, Names .plain (publicKey .plain twoChips) (.arr genuine) e → e ∈ genuine := by
    intro e hnames
    obtain ⟨entries, hiter, he⟩ := hnames.mem
    rwa [← Except.ok.inj hiter] at he
  have hcovered : Covered .plain twoChips m (.arr genuine) := by
    constructor
    · intro e root size hnames hroot hheld
      obtain ⟨size', root', -, hden, hhad⟩ := hgives e (hmem e hnames)
      have hheld' := (htable.had_iff hcf).mp hhad
      rw [hden.root.unique hroot, hheld] at hheld'
      rw [Option.some.inj hheld']
      exact hden.size
    · intro e hnames _
      obtain ⟨size, root, -, hden, hhad⟩ := hgives e (hmem e hnames)
      exact ⟨root, hden.root, htable.complete _ _ hhad⟩
  refine ⟨hacc, fun e he later env => ?_⟩
  have hnames : Names .plain (publicKey .plain twoChips) (.arr genuine) e := by
    rcases List.mem_pair.mp he with rfl | rfl
    · exact names_entryOf he
    · exact names_entryOf he
  obtain ⟨size, root, hden, -, hnever⟩ := hunframed.mpr hcovered e hnames
  obtain ⟨size', root', hpos, hden', -⟩ := hgives e he
  rw [hden'.size.unique hden.size] at hpos
  exact hnever hpos later env

theorem size_bundled {m : Mandate} {entries : List Json} {now : ℕ}
    (h : (m.step .plain twoChips (bundled entries now)).1.accepted = true) :
    (m.step .plain twoChips (bundled entries now)).2.merkle.size = m.merkle.size + 1 := by
  rw [bundled_eq] at h ⊢
  exact size_of_accepted h

/-- Another root is held against a log of its size. -/
theorem heldAgainst_of_size {m : Mandate} {size : ℕ} (hsize : m.merkle.size = size)
    (hpos : 0 < size) {root : Bytes} (hroot : m.merkle.head .plain ≠ root) (env : Env) :
    m.heldAgainst .plain twoChips env (entryOf size root) =
      .ok (true, "same size, different root: the peer signed two histories") := by
  have hitem : (entryOf size root).item "size" = .ok (.int size) := rfl
  have hitem' : (entryOf size root).item "root" = .ok (.str (Bytes.hex root)) := rfl
  have hproof : m.proveExtensionOf .plain (.int size) = .ok (hexList []) := by
    have hne : m.merkle.entries ≠ [] := by
      apply List.ne_nil_of_length_pos
      rw [← hsize] at hpos
      exact hpos
    have hself := Log.consistencyProof_self .plain hne
    simp only [proveExtensionOf, Json.asInt?, proveExtension, MerkleLog.proveConsistency, ← hsize]
    rw [MerkleLog.size, hself]
    rfl
  simp only [heldAgainst, hitem, hitem', hproof, Exn.ok_bind, divergence, Mandate.sth, publicKey,
    Heads.verifySth_signSth, Heads.signSth_size, Heads.signSth_root, Json.pyEq_int, Json.pyEq_str,
    hsize, decide_true, if_true, Bytes.hex_inj, hroot, decide_false, Bool.false_eq_true, if_false]
  rfl

/-- A bundle of which nothing is true. -/
def forged : List Json := [entryOf 7 emptyHead, entryOf 1 [0]]

theorem names_forged {e : Json} (he : e ∈ forged) :
    Names .plain (publicKey .plain twoChips) (.arr forged) e := by
  rcases List.mem_pair.mp he with rfl | rfl
  · exact names_entryOf he
  · exact names_entryOf he

/-- A log without entries never had a head with one. -/
theorem not_had_forged {m : Mandate} (hsize : m.merkle.size = 0) {e : Json} (he : e ∈ forged) :
    ¬ ∃ size root, Denotes e size root ∧ m.Had .plain size root := by
  have hnever : ∀ size root, 0 < size →
      ¬ ∃ size' root', Denotes (entryOf size root) size' root' ∧ m.Had .plain size' root' := by
    intro size root hpos h
    obtain ⟨size', root', hden, hhad⟩ := h
    have hle := hhad.size_le
    rw [hden.size.unique (denotes_entryOf ..).size, hsize] at hle
    omega
  rcases List.mem_pair.mp he with rfl | rfl
  · exact hnever 7 emptyHead (by omega)
  · exact hnever 1 [0] (by omega)

/-- After the presentation, the second entry is held against it. -/
theorem heldAgainst_forged {m : Mandate} (hsize : m.merkle.size = 0)
    (hacc : (m.step .plain twoChips (bundled forged 2)).1.accepted = true) (env : Env) :
    (m.step .plain twoChips (bundled forged 2)).2.heldAgainst .plain twoChips env (entryOf 1 [0]) =
      .ok (true, "same size, different root: the peer signed two histories") := by
  have hsize' := size_bundled hacc
  rw [hsize] at hsize'
  apply heldAgainst_of_size hsize' Nat.one_pos
  intro hhead
  have hlen := congrArg List.length hhead
  rw [MerkleLog.head, Log.length_root] at hlen
  exact absurd hlen (by decide)

theorem accepted_forged :
    ((after .plain twoChips (fun _ => none) []).step .plain twoChips
      (bundled forged 2)).1.accepted = true := by
  rw [forged]
  exact accepted_first 7 2 _

/-- **A mandate is framed.**  A new mandate accepts a bundle whose first entry gives its
head a size the log never had, and whose second gives it a head it never had.  After
that presentation the log has one entry, and `divergence` holds the second against it. -/
theorem framed_by_bundle :
    let m := after .plain twoChips (fun _ => none) []
    let m' := (m.step .plain twoChips (bundled forged 2)).2
    (m.step .plain twoChips (bundled forged 2)).1.accepted = true ∧ m.merkle.size = 0 ∧
      (∀ e ∈ forged, Names .plain (publicKey .plain twoChips) (.arr forged) e ∧
        ¬ ∃ size root, Denotes e size root ∧ m.Had .plain size root) ∧
      ¬ Unframed .plain twoChips m m' (.arr forged) ∧
      m'.heldAgainst .plain twoChips (instant 3).env (entryOf 1 [0]) =
        .ok (true, "same size, different root: the peer signed two histories") := by
  have hacc := accepted_forged
  have hsize : (after .plain twoChips (fun _ => none) []).merkle.size = 0 := rfl
  generalize after .plain twoChips (fun _ => none) [] = m at hacc hsize
  have hsecond : entryOf 1 [0] ∈ forged := by simp [forged]
  refine ⟨hacc, hsize, fun e he => ⟨names_forged he, not_had_forged hsize he⟩, fun h => ?_,
    heldAgainst_forged hsize hacc _⟩
  obtain ⟨size, root, hden, hhad, -⟩ := h (entryOf 1 [0]) (names_forged hsecond)
  exact not_had_forged hsize hsecond ⟨size, root, hden, hhad⟩

end Bundles

end Hatls
