import Mathlib.Data.Prod.Lex
import Mathlib.Data.String.Basic
import Hatls.Receipt

/-!
# Bundles of heads, and divergence

`hatls/federation.py`: the commitment an attester binds over several mandates'
heads, a mandate's own record of another's head, and the check that a peer's log grew
from the state someone witnessed.

## Main definitions

* `Federation.mandateId`, `Federation.bundleEntries`, `Federation.bundleCommitment`,
  `Federation.makeBundle`, `Federation.verifyBundle`, `Federation.entryFor`.
* `Federation.crossWitness`, `Federation.verifyCrossWitness`, `Federation.observe`.
* `Federation.divergence`.
-/

namespace Hatls.Federation

variable (P : Primitives)

def bundleVersion : ℤ := 1

/-- A short, stable name for a mandate: the hash of the key it signs heads with, cut
to thirty-two digits. -/
def mandateId (spkiDer : Bytes) : String := Bytes.hex ((P.sha256 spkiDer).take 16)

/-- A signed tree head, with the fields `sign_sth` gives it. -/
structure SignedHead where
  size : ℤ
  root : String
  at_ : ℤ
  sig : String

def SignedHead.json (h : SignedHead) : Json :=
  .obj [("v", .int Receipt.sthVersion), ("size", .int h.size), ("root", .str h.root),
    ("at", .int h.at_), ("sig", .str h.sig)]

/-- What a bundle says of one mandate. -/
structure Entry where
  m : String
  size : ℤ
  root : String
  deriving DecidableEq

def Entry.json (e : Entry) : Json := .obj [("m", .str e.m), ("size", .int e.size), ("root", .str e.root)]

/-- The tuple entries are sorted by. -/
def Entry.key (e : Entry) : String ×ₗ ℤ ×ₗ String := toLex (e.m, toLex (e.size, e.root))

def entry (pair : Bytes × SignedHead) : Entry := ⟨mandateId P pair.1, pair.2.size, pair.2.root⟩

/-- The canonical entry list, sorted so that anyone rebuilds it. -/
def bundleEntries (pairs : List (Bytes × SignedHead)) : List Entry :=
  (pairs.map (entry P)).insertionSort fun a b => a.key ≤ b.key

/-- The list as it travels. -/
def entriesJson (entries : List Entry) : Json := .arr (entries.map Entry.json)

/-- The bytes the attester binds. -/
def bundleCommitment (entries : Json) : Bytes :=
  P.sha256 (Json.canonical (.obj [("v", .int bundleVersion), ("entries", entries)]))

def verifyBundle (commitment : Bytes) (entries : Json) : Bool :=
  bundleCommitment P entries = commitment

/-- The commitment and the entries.  Each head is verified first: a bundle of unsigned
claims would be worth nothing. -/
def makeBundle (pairs : List (Bytes × SignedHead)) : Except Exn (Bytes × List Entry) := do
  for pair in pairs do
    Receipt.verifySth P pair.1 pair.2.json
  let entries := bundleEntries P pairs
  return (bundleCommitment P (entriesJson entries), entries)

/-- The first entry that names a mandate. -/
def findEntry (mid : String) : List Json → Except Exn (Option Json)
  | [] => .ok none
  | e :: es => do
    if (← e.item "m").eqStr mid then return some e
    findEntry mid es

def entryFor (entries : Json) (spkiDer : Bytes) : Except Exn (Option Json) := do
  findEntry (mandateId P spkiDer) (← entries.iter)

/-! ## Cross-witnessing -/

/-- An object without its signature. -/
def unsigned (body : List (String × Json)) : List (String × Json) := body.filter (·.1 ≠ "sig")

/-- What a mandate says of another's head, before it signs; the head is verified first. -/
def statementBody (peerSpki : Bytes) (peerSth : Json) (at_ : ℤ) :
    Except Exn (List (String × Json)) := do
  Receipt.verifySth P peerSpki peerSth
  return [("v", .int bundleVersion), ("peer", .str (mandateId P peerSpki)),
    ("size", ← peerSth.item "size"), ("root", ← peerSth.item "root"), ("at", .int at_)]

/-- One mandate's signed record of another's head. -/
def crossWitness (signingKey rnd peerSpki : Bytes) (peerSth : Json) (at_ : ℤ) : Except Exn Json := do
  let body ← statementBody P peerSpki peerSth at_
  return .obj (body ++ [("sig", .str (Bytes.hex
    (P.ecdsa.sign signingKey rnd (Json.canonical (.obj (unsigned body))))))])

/-- Returns when the observer signed this, and raises otherwise. -/
def verifyCrossWitness (observerSpki : Bytes) (statement : Json) : Except Exn Unit := do
  P.ecdsa.loadPublicKey observerSpki
  let sig ← (← statement.item "sig").fromHex
  match statement with
  | .obj body => P.ecdsa.verify observerSpki sig (Json.canonical (.obj (unsigned body)))
  | _ => .error .attributeError

/-- `Mandate.observe`: the statement, and the heads seen of each peer with this one. -/
def observe (signingKey rnd : Bytes) (peers : String → List Json) (peerSpki : Bytes)
    (peerSth : Json) (at_ : ℤ) : Except Exn (Json × (String → List Json)) := do
  let stmt ← crossWitness P signingKey rnd peerSpki peerSth at_
  let seen := Json.obj [("size", ← peerSth.item "size"), ("root", ← peerSth.item "root"),
    ("at", ← stmt.item "at")]
  let mid := mandateId P peerSpki
  return (stmt, Function.update peers mid (peers mid ++ [seen]))

/-! ## Divergence -/

/-- Did the peer's log really grow from the state someone witnessed, to the one it
shows now?  `proof` is `null` where the peer offered none. -/
def divergence (peerSpki : Bytes) (claimedSize claimedRootHex laterSth proof : Json) :
    Except Exn (Bool × String) := do
  Receipt.verifySth P peerSpki laterSth
  if claimedSize.pyEq (← laterSth.item "size") then
    if claimedRootHex.pyEq (← laterSth.item "root") then return (false, "same head")
    return (true, "same size, different root: the peer signed two histories")
  if !(← claimedSize.le (← laterSth.item "size")) then
    return (true, "the peer's log has shrunk, which an append-only log cannot do")
  return Receipt.accuse P (.obj [("root", claimedRootHex), ("size", claimedSize)]) laterSth proof
    "the peer's log extends the witnessed head"
    "the peer offered no proof that it extends the head that was witnessed"
    ("the peer cannot show its log extends a head it was witnessed claiming: " ++
      "that witness is the evidence")

end Hatls.Federation
