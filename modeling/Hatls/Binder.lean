import Hatls.Primitives

/-!
# The binder and the attester

The first part of `hatls/protocol.py`: the key-derivation function behind the
links of a chain, the links themselves, the report data a chip signs over, and the
attester, which runs the chain inside the guest.

## Main definitions

* `Binder.hkdfExpandLabel` — the derivation, with the exceptions its length bytes
  raise.
* `Binder.intraLink`, `Binder.postLink`, `Binder.reportDataFor`.
* `Attester`, `Attester.attest`.
-/

namespace Hatls.Binder

variable (P : Primitives)

/-- A text of ASCII characters as bytes. -/
def ascii (s : String) : Bytes := s.toList.map fun c => UInt8.ofNat c.toNat

/-- `bytes([n])`. -/
def byte (n : ℕ) : Except Exn Bytes :=
  if n < 256 then .ok [UInt8.ofNat n] else .error .valueError

/-- `n.to_bytes(k, "big")`. -/
def toBytes (k n : ℕ) : Except Exn Bytes :=
  match Bytes.toBytes k n with
  | some b => .ok b
  | none => .error .overflowError

/-- The loop that produces output blocks until there are `n` bytes. -/
def expandLoop (secret info : Bytes) (n : ℕ) (t out : Bytes) (i : ℕ) : Except Exn Bytes :=
  if out.length < n then
    match byte i with
    | .error x => .error x
    | .ok index =>
      let t := P.hmacSha384 secret (t ++ info ++ index)
      expandLoop secret info n t (out ++ t) (i + 1)
  else .ok (out.take n)
termination_by n - out.length
decreasing_by simp only [List.length_append, Primitives.length_hmacSha384]; omega

/-- The shape of HKDF-Expand-Label under a label space of its own. -/
def hkdfExpandLabel (secret label ctx : Bytes) (n : ℕ) : Except Exn Bytes := do
  let full := ascii "EXPERIMENTAL-hatls " ++ label
  let width ← toBytes 2 n
  let labelLength ← byte full.length
  let ctxLength ← byte ctx.length
  expandLoop P secret (width ++ labelLength ++ full ++ ctxLength ++ ctx) n [] [] 1

/-- The chain's first link. -/
def intraLink (sessionContext tikPub : Bytes) : Except Exn Bytes := do
  let base ← hkdfExpandLabel P (List.replicate 48 0) (ascii "attestation base") sessionContext 48
  hkdfExpandLabel P base (ascii "attestation") (P.sha384 tikPub) 32

/-- Each later link, ordered by its counter. -/
def postLink (exporter prevLink : Bytes) (counter : ℕ) : Except Exn Bytes := do
  let bytes ← toBytes 8 counter
  hkdfExpandLabel P exporter (ascii "continuity") (prevLink ++ bytes) 32

/-- What the chip signs over: the link, and the ledger head where one is bound. -/
def reportDataFor (link : Bytes) (head : Option Bytes) : Bytes :=
  match head with
  | none => P.sha512 (ascii "HATLS-continuity-v0" ++ link)
  | some head => P.sha512 (ascii "HATLS-continuity-v1" ++ link ++ head)

/-! ## Values of the derivation -/

/-- What the one block of output is computed from, after the secret. -/
def info (label ctx : Bytes) (n : ℕ) : Bytes :=
  let full := ascii "EXPERIMENTAL-hatls " ++ label
  (Bytes.toLittle 2 n).reverse ++ [UInt8.ofNat full.length] ++ full ++ [UInt8.ofNat ctx.length] ++
    ctx ++ [1]

/-- The prefix of the labels leaves them room in a length byte. -/
theorem length_full {label : Bytes} (h : label.length < 237) :
    (ascii "EXPERIMENTAL-hatls " ++ label).length < 256 := by
  have hlength : (ascii "EXPERIMENTAL-hatls ").length = 19 := by decide
  rw [List.length_append]
  omega

theorem toBytes_two {n : ℕ} (h : n ≤ 48) : toBytes 2 n = .ok (Bytes.toLittle 2 n).reverse := by
  rw [toBytes, Bytes.toBytes, if_pos (by omega)]

/-- **A short context is expanded in one block.** -/
theorem hkdfExpandLabel_eq (secret : Bytes) {label ctx : Bytes} {n : ℕ} (hlabel : label.length < 237)
    (hctx : ctx.length < 256) (hn : n ≤ 48) (hpos : 0 < n) :
    hkdfExpandLabel P secret label ctx n =
      .ok ((P.hmacSha384 secret (info label ctx n)).take n) := by
  have h1 : byte 1 = .ok [1] := rfl
  simp only [hkdfExpandLabel, toBytes_two hn, byte, length_full hlabel, hctx, if_true, Exn.ok_bind]
  rw [expandLoop, if_pos (by simpa using hpos), h1]
  simp only [List.nil_append]
  rw [expandLoop, if_neg (by rw [Primitives.length_hmacSha384]; omega)]
  rfl

/-- A context that does not fit its length byte raises. -/
theorem hkdfExpandLabel_error {secret label ctx : Bytes} {n : ℕ} (hctx : 256 ≤ ctx.length)
    (hn : n ≤ 48) (hlabel : label.length < 237) :
    hkdfExpandLabel P secret label ctx n = .error .valueError := by
  simp only [hkdfExpandLabel, toBytes_two hn, byte, length_full hlabel, Nat.not_lt.mpr hctx, if_true, if_false,
    Exn.ok_bind, Exn.error_bind]

/-- The secret the first link is derived with. -/
def base (sessionContext : Bytes) : Bytes :=
  P.hmacSha384 (List.replicate 48 0) (info (ascii "attestation base") sessionContext 48)

/-- The first link, where the session context fits its length byte. -/
def firstLink (sessionContext tikPub : Bytes) : Bytes :=
  (P.hmacSha384 (base P sessionContext) (info (ascii "attestation") (P.sha384 tikPub) 32)).take 32

/-- The link after `prevLink`, where the counter fits its eight bytes. -/
def nextLink (exporter prevLink : Bytes) (counter : ℕ) : Bytes :=
  (P.hmacSha384 exporter (info (ascii "continuity")
    (prevLink ++ (Bytes.toLittle 8 counter).reverse) 32)).take 32

theorem intraLink_eq {sessionContext : Bytes} (h : sessionContext.length < 256) (tikPub : Bytes) :
    intraLink P sessionContext tikPub = .ok (firstLink P sessionContext tikPub) := by
  have hbase := hkdfExpandLabel_eq P (List.replicate 48 0)
    (show (ascii "attestation base").length < 237 by decide) h (le_refl 48) (by omega)
  have hlink := hkdfExpandLabel_eq P (base P sessionContext) (n := 32)
    (show (ascii "attestation").length < 237 by decide)
    (show (P.sha384 tikPub).length < 256 by simp) (by omega) (by omega)
  rw [List.take_of_length_le (by simp)] at hbase
  simp only [intraLink, hbase, Exn.ok_bind]
  exact hlink

theorem intraLink_error {sessionContext : Bytes} (h : 256 ≤ sessionContext.length)
    (tikPub : Bytes) : intraLink P sessionContext tikPub = .error .valueError := by
  rw [intraLink, hkdfExpandLabel_error P h le_rfl (by decide)]
  rfl

theorem postLink_eq (exporter : Bytes) {prevLink : Bytes} {counter : ℕ} (hlen : prevLink.length = 32)
    (hcounter : counter < 2 ^ 64) :
    postLink P exporter prevLink counter = .ok (nextLink P exporter prevLink counter) := by
  have hbytes : toBytes 8 counter = .ok (Bytes.toLittle 8 counter).reverse := by
    rw [toBytes, Bytes.toBytes, if_pos (by omega)]
  simp only [postLink, hbytes, Exn.ok_bind]
  exact hkdfExpandLabel_eq P exporter (by decide) (by simp [hlen, Bytes.length_toLittle]) (by omega)
    (by omega)

theorem postLink_error (exporter prevLink : Bytes) {counter : ℕ} (hcounter : 2 ^ 64 ≤ counter) :
    postLink P exporter prevLink counter = .error .overflowError := by
  have hbytes : toBytes 8 counter = .error .overflowError := by
    rw [toBytes, Bytes.toBytes, if_neg (by omega)]
  simp [postLink, hbytes]

@[simp] theorem length_firstLink (sessionContext tikPub : Bytes) :
    (firstLink P sessionContext tikPub).length = 32 := by
  simp [firstLink]

@[simp] theorem length_nextLink (exporter prevLink : Bytes) (counter : ℕ) :
    (nextLink P exporter prevLink counter).length = 32 := by
  simp [nextLink]

end Hatls.Binder

namespace Hatls

/-- The attester, inside the guest. -/
structure Attester where
  tikPub : Bytes
  prev : Option Bytes
  counter : ℕ

namespace Attester

variable (P : Primitives)

def new (tikPub : Bytes) : Attester := ⟨tikPub, none, 0⟩

/-- One step of the chain.  `report` is the chip at this moment: the Evidence it
returns for the report data it is asked to sign, or the exception it raises. -/
def attest (a : Attester) (report : Bytes → Except Exn Json) (transcriptHash exporter : Bytes)
    (head : Option Bytes) : Except Exn Json × Attester :=
  match (do
    let il ← Binder.intraLink P transcriptHash a.tikPub
    let pl ← Binder.postLink P exporter (a.prev.getD il) a.counter
    let evidence ← report (Binder.reportDataFor P pl head)
    return (pl, evidence)) with
  | .error x => (.error x, a)
  | .ok (pl, evidence) =>
    let msg : List (String × Json) := [
      ("counter", .int a.counter),
      ("intra_ok_base", .bool a.prev.isNone),
      ("post_link", .str (Bytes.hex pl)),
      ("evidence", evidence)]
    let msg := match head with
      | none => msg
      | some head => msg ++ [("head", .str (Bytes.hex head))]
    (.ok (.obj msg), { a with prev := some pl, counter := a.counter + 1 })

/-- A step that raises leaves the chain where it was. -/
theorem attest_error {a a' : Attester} {report : Bytes → Except Exn Json}
    {transcriptHash exporter : Bytes} {head : Option Bytes} {x : Exn}
    (h : a.attest P report transcriptHash exporter head = (.error x, a')) : a' = a := by
  simp only [attest] at h
  split at h
  · exact (Prod.mk.inj h).2.symm
  · cases (Prod.mk.inj h).1

end Attester

end Hatls
