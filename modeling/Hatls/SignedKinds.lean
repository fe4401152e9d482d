import Hatls.Heads

/-!
# Two kinds of signed statements

A mandate signs its tree heads and what it saw of other mandates' heads with one key, over
canonical texts that share their fields and their version.  The verifier of a head rebuilds
the text from the fields a head has, so nothing else passes as one.  The verifier of a
statement takes whatever fields the object has, and so every tree head passes as a statement
about nobody.

## Main definitions

* `Signing`, `Signing.run`, `Signing.message` — what a key was used for.
* `Rebuilt` — the bytes the two verifiers rebuild.
* `Signatures` — what can be presented, where signatures cannot be forged.
* `HeadOf`, `Headed`, `Stated` — the fields of a head that was signed, and of a statement.
* `KindsApart`, `kinds_apart` — which objects pass as which.
-/

namespace Hatls.Federation

open Receipt

variable (P : Primitives) (key : Bytes)

/-- A use of the key of a mandate. -/
inductive Signing
  | sth (rnd : Bytes) (size : ℕ) (root : Bytes) (at_ : ℤ)
  | crossWitness (rnd peerSpki : Bytes) (peerSth : Json) (at_ : ℤ)

/-- What is returned. -/
def Signing.run : Signing → Except Exn Json
  | .sth rnd size root at_ => .ok (signSth P key rnd size root at_)
  | .crossWitness rnd peerSpki peerSth at_ =>
    Federation.crossWitness P key rnd peerSpki peerSth at_

/-- The bytes that are signed; a peer's head that does not verify is not signed for. -/
def Signing.message : Signing → Option Bytes
  | .sth _ size root at_ => some (sthBytes (.int size) root (.int at_))
  | .crossWitness _ peerSpki peerSth at_ =>
    match statementBody P peerSpki peerSth at_ with
    | .ok body => some (Json.canonical (.obj (unsigned body)))
    | .error _ => none

/-- The bytes of the signature of an object. -/
def signature (o : Json) : Except Exn Bytes := do (← o.item "sig").fromHex

/-- The bytes a verifier rebuilds from an object, to hold its signature against: of a head, or of
whatever fields there are. -/
inductive Rebuilt (o : Json) : Bytes → Prop
  | head {size jroot at_ : Json} {root : Bytes} : o.item "size" = .ok size → o.item "root" = .ok jroot →
      jroot.fromHex = .ok root → o.item "at" = .ok at_ → Rebuilt o (sthBytes size root at_)
  | statement {fields : List (String × Json)} : o = .obj fields →
      Rebuilt o (Json.canonical (.obj (unsigned fields)))

/-- **Signatures cannot be forged**: of what is presented, the signature verifies over rebuilt bytes
only where the key has signed them, and a signature the key has made, for none of them but those it
was made for.  Whoever presents has seen everything the key has signed. -/
structure Signatures (calls : List Signing) (presented : Json → Prop) : Prop where
  unforged : ∀ o sig msg, presented o → signature o = .ok sig → Rebuilt o msg →
    P.ecdsa.verify (P.ecdsa.publicKey key) sig msg = .ok () → ∃ c ∈ calls, c.message P = some msg
  own : ∀ c ∈ calls, ∀ o sig, c.run P key = .ok o → signature o = .ok sig → ∀ c' ∈ calls, ∀ msg,
    c'.message P = some msg → P.ecdsa.verify (P.ecdsa.publicKey key) sig msg = .ok () →
    c.message P = some msg
  seen : ∀ c ∈ calls, ∀ o, c.run P key = .ok o → presented o

/-- The fields of a tree head without its signature. -/
def headBody (size : ℕ) (root : Bytes) (at_ : ℤ) : List (String × Json) :=
  [("v", .int sthVersion), ("size", .int size), ("root", .str (Bytes.hex root)), ("at", .int at_)]

/-- A head that was signed has this size, these root bytes and this time. -/
def HeadOf (calls : List Signing) (o : Json) : Prop :=
  ∃ (rnd : Bytes) (size : ℕ) (root : Bytes) (at_ : ℤ), .sth rnd size root at_ ∈ calls ∧ o.item "size" = .ok (.int size) ∧
    (∃ j, o.item "root" = .ok j ∧ j.fromHex = .ok root) ∧ o.item "at" = .ok (.int at_)

/-- These are the fields of a tree head that was signed. -/
def Headed (calls : List Signing) (body : List (String × Json)) : Prop :=
  ∃ (rnd : Bytes) (size : ℕ) (root : Bytes) (at_ : ℤ), .sth rnd size root at_ ∈ calls ∧
    (Json.obj body).normal = (Json.obj (headBody size root at_)).normal

/-- These are the fields of a statement that was signed. -/
def Stated (calls : List Signing) (body : List (String × Json)) : Prop :=
  ∃ rnd peerSpki peerSth at_ stmt, .crossWitness rnd peerSpki peerSth at_ ∈ calls ∧
    Signing.run P key (.crossWitness rnd peerSpki peerSth at_) = .ok (.obj stmt) ∧
    (Json.obj body).normal = (Json.obj (unsigned stmt)).normal

/-- **What passes as what.**  An object that passes as a tree head has the contents of one
that was signed.  Objects with given fields pass as a statement only if they are one that was
signed, exactly if the fields are not those of a signed tree head.  And a statement that was signed
does not pass as a tree head. -/
structure KindsApart (calls : List Signing) (presented : Json → Prop) : Prop where
  head : ∀ o, presented o → verifySth P (P.ecdsa.publicKey key) o = .ok () → HeadOf calls o
  statement : ∀ body, (∀ fields, (Json.obj (unsigned fields)).normal = (Json.obj body).normal →
      presented (.obj fields) → verifyCrossWitness P (P.ecdsa.publicKey key) (.obj fields) = .ok () →
      Stated P key calls (unsigned fields)) ↔ ¬ Headed calls body
  apart : ∀ rnd peerSpki peerSth at_ o, .crossWitness rnd peerSpki peerSth at_ ∈ calls →
    Signing.run P key (.crossWitness rnd peerSpki peerSth at_) = .ok o →
    verifySth P (P.ecdsa.publicKey key) o ≠ .ok ()

/-! ## What was signed -/

variable {P key}

theorem unsigned_statementBody {peerSpki : Bytes} {peerSth : Json} {at_ : ℤ}
    {body : List (String × Json)} (h : statementBody P peerSpki peerSth at_ = .ok body) :
    (∃ size root, body = [("v", .int bundleVersion), ("peer", .str (mandateId P peerSpki)),
      ("size", size), ("root", root), ("at", .int at_)]) ∧ unsigned body = body := by
  obtain ⟨_, -, h⟩ := Exn.bind_eq_ok h
  obtain ⟨size, -, h⟩ := Exn.bind_eq_ok h
  obtain ⟨root, -, h⟩ := Exn.bind_eq_ok h
  obtain rfl := Except.ok.inj h
  exact ⟨⟨size, root, rfl⟩, by simp [unsigned]⟩

/-- A statement names a peer. -/
theorem lookup_peer_statementBody {peerSpki : Bytes} {peerSth : Json} {at_ : ℤ}
    {body : List (String × Json)} (h : statementBody P peerSpki peerSth at_ = .ok body) :
    Json.lookup body "peer" = some (.str (mandateId P peerSpki)) := by
  obtain ⟨⟨size, root, rfl⟩, -⟩ := unsigned_statementBody h
  rfl

/-- What a signed statement is. -/
theorem run_crossWitness {rnd peerSpki : Bytes} {peerSth : Json} {at_ : ℤ} {o : Json}
    (h : Signing.run P key (.crossWitness rnd peerSpki peerSth at_) = .ok o) :
    ∃ body, statementBody P peerSpki peerSth at_ = .ok body ∧
      o = .obj (body ++ [("sig", .str (Bytes.hex
        (P.ecdsa.sign key rnd (Json.canonical (.obj (unsigned body))))))]) ∧
      unsigned (body ++ [("sig", .str (Bytes.hex
        (P.ecdsa.sign key rnd (Json.canonical (.obj (unsigned body))))))]) = body := by
  obtain ⟨body, hbody, h⟩ := Exn.bind_eq_ok h
  refine ⟨body, hbody, (Except.ok.inj h).symm, ?_⟩
  have hsame := (unsigned_statementBody hbody).2
  rw [unsigned, List.filter_append, ← unsigned, hsame]
  simp

/-- What is signed is signed last. -/
theorem signature_append {body : List (String × Json)} (hnone : Json.lookup body "sig" = none)
    (sig : Bytes) : signature (.obj (body ++ [("sig", .str (Bytes.hex sig))])) = .ok sig := by
  have hlookup : Json.lookup (body ++ [("sig", .str (Bytes.hex sig))]) "sig" =
      some (.str (Bytes.hex sig)) := by
    rw [Json.lookup, Option.map_eq_none_iff] at hnone
    simp [Json.lookup, List.find?_append, hnone]
  simp [signature, Json.item, hlookup]

/-- A statement is no head. -/
theorem not_normal_eq_head {peerSpki : Bytes} {peerSth : Json} {at_ : ℤ}
    {body : List (String × Json)} (h : statementBody P peerSpki peerSth at_ = .ok body)
    {v size root t : Json} :
    (Json.obj [("v", v), ("size", size), ("root", root), ("at", t)]).normal ≠
      (Json.obj body).normal := by
  intro heq
  have hpeer := Json.lookup_of_normal_eq heq (by simp) "peer"
  rw [lookup_peer_statementBody h] at hpeer
  cases hpeer

/-- **The signed bytes** are those of a head, or of a statement. -/
theorem signed_cases {calls : List Signing} {c : Signing} (hc : c ∈ calls) {body : List (String × Json)}
    (h : c.message P = some (Json.canonical (.obj body))) :
    Headed calls body ∨
      ∃ rnd peerSpki peerSth at_ stmt, .crossWitness rnd peerSpki peerSth at_ ∈ calls ∧
        statementBody P peerSpki peerSth at_ = .ok stmt ∧
        (Json.obj body).normal = (Json.obj stmt).normal := by
  cases c with
  | sth rnd size root at_ =>
      have hcanonical := Option.some.inj h
      exact .inl ⟨rnd, size, root, at_, hc, (Json.canonical_eq_iff.mp hcanonical).symm⟩
  | crossWitness rnd peerSpki peerSth at_ =>
      unfold Signing.message at h
      simp only at h
      cases hstmt : statementBody P peerSpki peerSth at_ with
      | error x =>
          rw [hstmt] at h
          cases h
      | ok stmt =>
          rw [hstmt] at h
          simp only [(unsigned_statementBody hstmt).2] at h
          exact .inr ⟨rnd, peerSpki, peerSth, at_, stmt, hc, hstmt,
            (Json.canonical_eq_iff.mp (Option.some.inj h)).symm⟩

/-! ## What passes -/

/-- What the verifier of a head has checked. -/
theorem verifySth_eq_ok {spki : Bytes} {o : Json} (h : verifySth P spki o = .ok ()) :
    ∃ sig size jroot root at_, signature o = .ok sig ∧ o.item "size" = .ok size ∧
      o.item "root" = .ok jroot ∧ jroot.fromHex = .ok root ∧ o.item "at" = .ok at_ ∧
      P.ecdsa.verify spki sig (sthBytes size root at_) = .ok () := by
  obtain ⟨_, -, h⟩ := Exn.bind_eq_ok h
  obtain ⟨jsig, hjsig, h⟩ := Exn.bind_eq_ok h
  obtain ⟨sig, hsig, h⟩ := Exn.bind_eq_ok h
  obtain ⟨size, hsize, h⟩ := Exn.bind_eq_ok h
  obtain ⟨jroot, hjroot, h⟩ := Exn.bind_eq_ok h
  obtain ⟨root, hroot, h⟩ := Exn.bind_eq_ok h
  obtain ⟨at_, hat, h⟩ := Exn.bind_eq_ok h
  exact ⟨sig, size, jroot, root, at_, by simp only [signature, hjsig, Exn.ok_bind, hsig], hsize,
    hjroot, hroot, hat, h⟩

/-- A statement that passes has a signature. -/
theorem signature_of_verifyCrossWitness {spki : Bytes} {o : Json}
    (h : verifyCrossWitness P spki o = .ok ()) : ∃ sig, signature o = .ok sig := by
  obtain ⟨_, -, h⟩ := Exn.bind_eq_ok h
  obtain ⟨jsig, hjsig, h⟩ := Exn.bind_eq_ok h
  obtain ⟨sig, hsig, h⟩ := Exn.bind_eq_ok h
  exact ⟨sig, by simp only [signature, hjsig, Exn.ok_bind, hsig]⟩

/-- What the verifier of a statement has checked. -/
theorem verifyCrossWitness_eq_ok {spki sig : Bytes} {fields : List (String × Json)}
    (hsig : signature (.obj fields) = .ok sig) :
    verifyCrossWitness P spki (.obj fields) = .ok () ↔
      P.ecdsa.loadPublicKey spki = .ok () ∧
        P.ecdsa.verify spki sig (Json.canonical (.obj (unsigned fields))) = .ok () := by
  obtain ⟨jsig, hjsig, hfrom⟩ := Exn.bind_eq_ok hsig
  simp only [verifyCrossWitness, hjsig, hfrom, Exn.ok_bind]
  cases P.ecdsa.loadPublicKey spki with
  | error x => simp
  | ok _ => simp

variable {calls : List Signing} {presented : Json → Prop}

/-- An object that passes as a tree head, where its signature verifies for nothing else than what
the key has signed. -/
theorem headOf_of_unforged {o : Json} (hunforged : ∀ sig msg, signature o = .ok sig → Rebuilt o msg →
      P.ecdsa.verify (P.ecdsa.publicKey key) sig msg = .ok () → ∃ c ∈ calls, c.message P = some msg)
    (h : verifySth P (P.ecdsa.publicKey key) o = .ok ()) : HeadOf calls o := by
  obtain ⟨sig, size, jroot, root, at_, hsig, hsize, hjroot, hroot, hat, hver⟩ := verifySth_eq_ok h
  obtain ⟨c, hc, hmessage⟩ := hunforged sig _ hsig (.head hsize hjroot hroot hat) hver
  rcases signed_cases hc hmessage with
    ⟨rnd, n, r, t, hmem, hnormal⟩ | ⟨rnd, peerSpki, peerSth, t, stmt, -, hstmt, hnormal⟩
  · have hitem := Json.lookup_of_normal_eq hnormal (by simp)
    have hn : size = .int n := Json.normal_eq_int (Option.some.inj (hitem "size"))
    have hr : Json.str (Bytes.hex root) = .str (Bytes.hex r) := Option.some.inj (hitem "root")
    have ht : at_ = .int t := Json.normal_eq_int (Option.some.inj (hitem "at"))
    rw [hn] at hsize
    rw [ht] at hat
    rw [Bytes.hex_injective (Json.str.inj hr)] at hroot
    exact ⟨rnd, n, r, t, hmem, hsize, ⟨jroot, hjroot, hroot⟩, hat⟩
  · exact absurd hnormal (not_normal_eq_head hstmt)

/-- So it is for all that is presented. -/
theorem headOf_of_verifySth (hsigs : Signatures P key calls presented) {o : Json} (hpresented : presented o)
    (h : verifySth P (P.ecdsa.publicKey key) o = .ok ()) : HeadOf calls o :=
  headOf_of_unforged (fun sig msg => hsigs.unforged o sig msg hpresented) h

/-- An object that passes as a statement is one, or a tree head. -/
theorem stated_or_headed (hsigs : Signatures P key calls presented) {fields : List (String × Json)}
    (hpresented : presented (.obj fields))
    (h : verifyCrossWitness P (P.ecdsa.publicKey key) (.obj fields) = .ok ()) :
    Stated P key calls (unsigned fields) ∨ Headed calls (unsigned fields) := by
  obtain ⟨sig, hsig⟩ := signature_of_verifyCrossWitness h
  obtain ⟨-, hver⟩ := (verifyCrossWitness_eq_ok hsig).mp h
  obtain ⟨c, hc, hmessage⟩ := hsigs.unforged _ sig _ hpresented hsig (.statement rfl) hver
  rcases signed_cases hc hmessage with
    hheaded | ⟨rnd, peerSpki, peerSth, t, stmt, hmem, hstmt, hnormal⟩
  · exact .inr hheaded
  · have hrun : Signing.run P key (.crossWitness rnd peerSpki peerSth t) =
        .ok (.obj (stmt ++ [("sig", .str (Bytes.hex
          (P.ecdsa.sign key rnd (Json.canonical (.obj (unsigned stmt))))))])) := by
      simp only [Signing.run, crossWitness, hstmt, Exn.ok_bind, Exn.pure_eq_ok]
    obtain ⟨stmt', hstmt', -, hunsigned⟩ := run_crossWitness hrun
    obtain rfl : stmt = stmt' := Except.ok.inj (hstmt.symm.trans hstmt')
    exact .inl ⟨rnd, peerSpki, peerSth, t, _, hmem, hrun, by rw [hunsigned]; exact hnormal⟩

/-- The object a signed head is. -/
theorem signSth_eq_obj (rnd : Bytes) (size : ℕ) (root : Bytes) (at_ : ℤ) :
    signSth P key rnd size root at_ = .obj (headBody size root at_ ++ [("sig", .str (Bytes.hex
      (P.ecdsa.sign key rnd (sthBytes (.int size) root (.int at_)))))]) := rfl

/-- **Every signed head passes as a statement.** -/
theorem verifyCrossWitness_signSth (rnd : Bytes) (size : ℕ) (root : Bytes) (at_ : ℤ) :
    ∃ fields, signSth P key rnd size root at_ = .obj fields ∧
      unsigned fields = headBody size root at_ ∧
      verifyCrossWitness P (P.ecdsa.publicKey key) (.obj fields) = .ok () := by
  have hsig := signature_append (show Json.lookup (headBody size root at_) "sig" = none from rfl)
    (P.ecdsa.sign key rnd (sthBytes (.int size) root (.int at_)))
  have hunsigned : unsigned (headBody size root at_ ++ [("sig", .str (Bytes.hex
      (P.ecdsa.sign key rnd (sthBytes (.int size) root (.int at_)))))]) = headBody size root at_ := by
    simp [unsigned, headBody]
  refine ⟨_, signSth_eq_obj rnd size root at_, hunsigned, ?_⟩
  rw [verifyCrossWitness_eq_ok hsig, hunsigned]
  exact ⟨P.ecdsa.loadPublicKey_publicKey key, P.ecdsa.verify_sign key rnd _⟩

/-- What is signed as a statement is the canonical text of its fields. -/
theorem message_crossWitness {rnd peerSpki : Bytes} {peerSth : Json} {at_ : ℤ}
    {body : List (String × Json)} (h : statementBody P peerSpki peerSth at_ = .ok body) :
    (Signing.crossWitness rnd peerSpki peerSth at_).message P =
      some (Json.canonical (.obj (unsigned body))) := by
  simp only [Signing.message, h]

/-- **A statement that was signed does not pass as a head**: its signature is of its own text. -/
theorem statement_not_head (hsigs : Signatures P key calls presented) {rnd peerSpki : Bytes}
    {peerSth : Json} {at_ : ℤ} {o : Json} (hmem : .crossWitness rnd peerSpki peerSth at_ ∈ calls)
    (hrun : Signing.run P key (.crossWitness rnd peerSpki peerSth at_) = .ok o) :
    verifySth P (P.ecdsa.publicKey key) o ≠ .ok () := by
  intro hver
  obtain ⟨body, hbody, -, -⟩ := run_crossWitness hrun
  obtain ⟨sig, size, jroot, root, t, hsig, hsize, hjroot, hroot, hat, hverified⟩ := verifySth_eq_ok hver
  obtain ⟨c, hc, hmessage⟩ := hsigs.unforged o sig _ (hsigs.seen _ hmem o hrun) hsig
    (.head hsize hjroot hroot hat) hverified
  have hown := hsigs.own _ hmem o sig hrun hsig c hc _ hmessage hverified
  rw [message_crossWitness hbody, (unsigned_statementBody hbody).2] at hown
  exact not_normal_eq_head hbody (Json.canonical_eq_iff.mp (Option.some.inj hown)).symm

/-- **Signed heads and signed statements.**  Heads are told from statements by their verifier,
and statements from anything but heads. -/
theorem kinds_apart (hsigs : Signatures P key calls presented) : KindsApart P key calls presented where
  head _ hpresented h := headOf_of_verifySth hsigs hpresented h
  statement body := by
    constructor
    · intro hall hheaded
      obtain ⟨rnd, size, root, at_, hmem, hnormal⟩ := hheaded
      obtain ⟨fields, hfields, hunsigned, hver⟩ := @verifyCrossWitness_signSth P key rnd size root at_
      have hpresented : presented (.obj fields) := hsigs.seen _ hmem _ (congrArg Except.ok hfields)
      obtain ⟨rnd', peerSpki, peerSth, t, stmt, -, hrun, hstated⟩ :=
        hall fields (by rw [hunsigned, hnormal]) hpresented hver
      obtain ⟨stmt', hstmt', heq, hunsigned'⟩ := run_crossWitness hrun
      rw [Json.obj.inj heq, hunsigned', hunsigned] at hstated
      exact not_normal_eq_head hstmt' hstated
    · intro hnot fields hsame hpresented hver
      rcases stated_or_headed hsigs hpresented hver with hstated | hheaded
      · exact hstated
      · obtain ⟨rnd, size, root, at_, hmem, hnormal⟩ := hheaded
        exact absurd ⟨rnd, size, root, at_, hmem, hsame.symm.trans hnormal⟩ hnot
  apart _ _ _ _ _ hmem hrun := statement_not_head hsigs hmem hrun

section Plain

/-- The signature of an object is one that a key has made, where they are spelled out. -/
def made (key : Bytes) (calls : List Signing) (o : Json) : Prop :=
  ∃ c ∈ calls, ∃ msg, c.message .plain = some msg ∧ signature o = .ok (key ++ msg)

/-- What a use of the key returns has the signature it made. -/
theorem signature_of_run {key : Bytes} {c : Signing} {o : Json} (hrun : c.run .plain key = .ok o) :
    ∃ msg, c.message .plain = some msg ∧ signature o = .ok (key ++ msg) := by
  cases c with
  | sth rnd size root at_ =>
      obtain rfl := Except.ok.inj hrun
      exact ⟨_, rfl, by rw [signSth_eq_obj, signature_append rfl]; rfl⟩
  | crossWitness rnd peerSpki peerSth at_ =>
      obtain ⟨body, hbody, rfl, -⟩ := run_crossWitness hrun
      have hnone : Json.lookup body "sig" = none := by
        obtain ⟨⟨_, _, rfl⟩, -⟩ := unsigned_statementBody hbody
        rfl
      exact ⟨_, message_crossWitness hbody, by rw [signature_append hnone]; rfl⟩

/-- It verifies for nothing else. -/
theorem message_of_verify {key msg msg' : Bytes}
    (h : Primitives.plain.ecdsa.verify (Primitives.plain.ecdsa.publicKey key) (key ++ msg) msg' = .ok ()) :
    msg = msg' := by
  have hverify : (if key ++ msg = key ++ msg' then Except.ok () else
      Except.error Exn.invalidSignature) = .ok () := h
  split_ifs at hverify with heq
  exact List.append_cancel_left heq

theorem signatures_made (key : Bytes) (calls : List Signing) :
    Signatures .plain key calls (made key calls) where
  unforged o sig msg hmade hsig _ hver := by
    obtain ⟨c, hc, msg', hmessage, hsig'⟩ := hmade
    obtain rfl := Except.ok.inj (hsig'.symm.trans hsig)
    exact ⟨c, hc, message_of_verify hver ▸ hmessage⟩
  own c _ o sig hrun hsig _ _ msg _ hver := by
    obtain ⟨msg', hmessage, hsig'⟩ := signature_of_run hrun
    obtain rfl := Except.ok.inj (hsig'.symm.trans hsig)
    exact message_of_verify hver ▸ hmessage
  seen c hc o hrun := ⟨c, hc, signature_of_run hrun⟩

/-- A key that signed a head, and a statement about a peer's. -/
theorem kinds_apart_plain :
    let calls : List Signing := [.sth [] 3 [0xaa] 5,
      .crossWitness [] [9] (signSth .plain [9] [] 2 [0xbb] 4) 6]
    KindsApart .plain [7] calls (made [7] calls) := by
  intro calls
  exact kinds_apart (signatures_made [7] calls)

/-- **A tree head passes as a statement about a peer**, from a key that has signed none. -/
theorem head_passes_as_statement :
    let calls : List Signing := [.sth [] 3 [0xaa] 5]
    Signatures .plain [7] calls (made [7] calls) ∧
      ∃ fields, signSth .plain [7] [] 3 [0xaa] 5 = .obj fields ∧ made [7] calls (.obj fields) ∧
        verifyCrossWitness .plain (Primitives.plain.ecdsa.publicKey [7]) (.obj fields) = .ok () ∧
        ¬ Stated .plain [7] calls (unsigned fields) := by
  intro calls
  obtain ⟨fields, hfields, -, hver⟩ := @verifyCrossWitness_signSth .plain [7] [] 3 [0xaa] 5
  have hmem : Signing.sth [] 3 [0xaa] 5 ∈ calls := List.mem_cons_self
  have hmade : made [7] calls (.obj fields) :=
    ⟨_, hmem, signature_of_run (c := .sth [] 3 [0xaa] 5) (congrArg Except.ok hfields)⟩
  refine ⟨signatures_made [7] calls, fields, hfields, hmade, hver, ?_⟩
  intro hstated
  obtain ⟨rnd, peerSpki, peerSth, at_, stmt, hcall, -, -⟩ := hstated
  simp [calls] at hcall

end Plain

end Hatls.Federation
