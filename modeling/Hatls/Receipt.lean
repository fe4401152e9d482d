import Hatls.Lib.Canonical
import Hatls.Log

/-!
# Receipts and signed tree heads

`hatls/receipt.py`: the entry a decision becomes, the signed tree head, and what a
relying party checks about two heads.  A head and a proof come from outside, as JSON
values; subscripting one that lacks a field raises.

## Main definitions

* `Receipt.makeEntry` — one decision as the bytes of a leaf; `Receipt.makeEntry_seq_inj`.
* `Receipt.signSth`, `Receipt.verifySth` — the mandate's word about its log.
* `Receipt.verifyReceipt` — what the holder of a receipt checks.
* `Receipt.verifyExtension`, `Receipt.isEquivocation` — two heads compared.
-/

namespace Hatls.Receipt

variable (P : Primitives)

def sthVersion : ℤ := 1

/-- What goes in the log instead of the identity key itself. -/
def identityTag (tikPub : Bytes) : String := Bytes.hex (P.sha256 tikPub)

/-- One decision, as the bytes that become a leaf; `seq` is the position the entry
will occupy. -/
def makeEntry (kind : String) (tikPub : Bytes) (accepted : Bool) (reason : String)
    (inst : Option Bytes) (at_ : ℤ) (seq : ℕ) : Bytes :=
  Json.canonical (.obj [
    ("v", .int 1),
    ("seq", .int seq),
    ("at", .int at_),
    ("kind", .str kind),
    ("id", .str (identityTag P tikPub)),
    ("instance", match inst with
      | some b => if b = [] then .null else .str (Bytes.hex b)
      | none => .null),
    ("accepted", .bool accepted),
    ("reason", .str reason)])

/-- Entries at different positions are different. -/
theorem makeEntry_seq_inj {kind kind' : String} {k k' : Bytes} {ok ok' : Bool} {why why' : String}
    {inst inst' : Option Bytes} {t t' : ℤ} {seq seq' : ℕ}
    (h : makeEntry P kind k ok why inst t seq = makeEntry P kind' k' ok' why' inst' t' seq') :
    seq = seq' := by
  have hnormal := Json.canonical_eq_iff.mp h
  have hseq := Json.lookup_of_normal_eq hnormal (by simp) "seq"
  have hint : Json.int seq = Json.int seq' := Option.some.inj hseq
  exact Int.ofNat.inj (Json.int.inj hint)

/-! ## Heads and proofs -/

/-- The bytes a tree head is signed over. -/
def sthBytes (size : Json) (root : Bytes) (at_ : Json) : Bytes :=
  Json.canonical (.obj [
    ("v", .int sthVersion),
    ("size", size),
    ("root", .str (Bytes.hex root)),
    ("at", at_)])

/-- A signed tree head: the mandate's word about the whole log at one moment. -/
def signSth (signingKey rnd : Bytes) (size : ℕ) (root : Bytes) (at_ : ℤ) : Json :=
  .obj [
    ("v", .int sthVersion),
    ("size", .int size),
    ("root", .str (Bytes.hex root)),
    ("at", .int at_),
    ("sig", .str (Bytes.hex (P.ecdsa.sign signingKey rnd (sthBytes (.int size) root (.int at_)))))]

/-- Returns when this head really is the mandate's, and raises otherwise. -/
def verifySth (mandateSpkiDer : Bytes) (sth : Json) : Except Exn Unit := do
  P.ecdsa.loadPublicKey mandateSpkiDer
  let sig ← (← sth.item "sig").fromHex
  let size ← sth.item "size"
  let root ← (← sth.item "root").fromHex
  let at_ ← sth.item "at"
  P.ecdsa.verify mandateSpkiDer sig (sthBytes size root at_)

/-- `verify_consistency` on sizes that come out of a JSON value. -/
def consistencyOf (oldRoot : Bytes) (m : Json) (newRoot : Bytes) (n : Json)
    (proof : List Bytes) : Except Exn Bool :=
  match m.asInt?, n.asInt? with
  | some m, some n => .ok (Log.verifyConsistency P oldRoot m newRoot n proof)
  | some m, none => if 0 < m then .error .typeError else .ok false
  | none, _ =>
    if m.pyEq n then .ok (decide (oldRoot = newRoot) && decide (proof = []))
    else .error .typeError

/-- `verify_inclusion` on a position and a size that come out of a JSON value; `0 <= m < n`
reads the size only where the position is not negative. -/
def inclusionOf (entry : Bytes) (m n : Json) (proof : List Bytes) (expectedRoot : Bytes) :
    Except Exn Bool :=
  match m.asInt?, n.asInt? with
  | some m, some n => .ok (Log.verifyInclusion P entry m n proof expectedRoot)
  | some m, none => if 0 ≤ m then .error .typeError else .ok false
  | none, _ => .error .typeError

/-- `[bytes.fromhex(p) for p in proof]`. -/
def proofBytes (proof : Json) : Except Exn (List Bytes) := do
  (← proof.iter).mapM Json.fromHex

/-- Check a receipt end to end: the head is the mandate's, and the entry is in that log.
`describe` is the text of an exception. -/
def verifyReceipt (describe : Exn → String) (mandateSpkiDer : Bytes) (receipt : Json) :
    Except Exn (Bool × String) :=
  match (do verifySth P mandateSpkiDer (← receipt.item "sth")) with
  | .error x => .ok (false, "tree head is not signed by this mandate: " ++ describe x)
  | .ok () => do
    let entry ← (← receipt.item "entry").fromHex
    let proof ← proofBytes (← receipt.item "proof")
    let sth ← receipt.item "sth"
    let root ← (← sth.item "root").fromHex
    if ← inclusionOf P entry (← receipt.item "index") (← sth.item "size") proof root then
      return (true, "receipt verifies")
    else return (false, "entry is not in the log that head commits to")

/-- Check that the head `new` extends the head `old` by the given proof. -/
def checkExtension (old new proof : Json) : Except Exn Bool := do
  let oldRoot ← (← old.item "root").fromHex
  let oldSize ← old.item "size"
  let newRoot ← (← new.item "root").fromHex
  let newSize ← new.item "size"
  consistencyOf P oldRoot oldSize newRoot newSize (← proofBytes proof)

/-- True if `newSth` really extends `oldSth`, both being this mandate's. -/
def verifyExtension (mandateSpkiDer : Bytes) (oldSth newSth proof : Json) : Except Exn Bool := do
  verifySth P mandateSpkiDer oldSth
  verifySth P mandateSpkiDer newSth
  checkExtension P oldSth newSth proof

/-- How `is_equivocation` and `divergence` end: the mandate is accused unless the proof
it offered, `null` for none, shows that `new` extends `old`.  Malformed proofs show
nothing.  The texts are those of the three outcomes. -/
def accuse (old new proof : Json) (cleared unproved refuted : String) : Bool × String :=
  match proof with
  | .null => (true, unproved)
  | proof =>
    match checkExtension P old new proof with
    | .ok true => (false, cleared)
    | _ => (true, refuted)

def equivocationReason : String :=
  "the mandate signed two heads and cannot show one extends the other: " ++
    "this is equivocation, and both signatures are the evidence"

/-- Two heads from one mandate where neither extends the other.  The proofs are
those the mandate was willing to give. -/
def isEquivocation (mandateSpkiDer : Bytes) (sthA sthB proofAToB proofBToA : Json) :
    Except Exn (Bool × String) := do
  verifySth P mandateSpkiDer sthA
  verifySth P mandateSpkiDer sthB
  if (← sthA.item "root").pyEq (← sthB.item "root") &&
      (← sthA.item "size").pyEq (← sthB.item "size") then
    return (false, "same head")
  let inOrder ← (← sthA.item "size").le (← sthB.item "size")
  let lo := if inOrder then sthA else sthB
  let hi := if inOrder then sthB else sthA
  let proof := if inOrder then proofAToB else proofBToA
  return accuse P lo hi proof "one head extends the other; this is a consistent log"
    equivocationReason equivocationReason

end Hatls.Receipt
