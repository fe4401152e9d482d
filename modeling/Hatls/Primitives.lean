import Mathlib.Data.List.Nodup
import Hatls.Lib.Json
import Hatls.Lib.Sha2

/-!
# The cryptographic library

What the program imports: the SHA-2 functions and HMAC, ECDSA keys and signatures,
and the reader of PKCS#10 certificate requests.  Nothing is assumed of the hash
functions but the length of their digests, and of signatures that a key verifies
what it signed.

## Main definitions

* `Primitives` — the functions, with those facts.
* `Primitives.sha2` — the standard hash functions, for a given signature scheme.
* `Primitives.plain` — an instance that computes.
-/

namespace Hatls

/-- A public-key signature scheme, as the program uses ECDSA: `sign` also takes the
random value the algorithm draws. -/
structure SignatureScheme where
  publicKey : Bytes → Bytes
  /-- `load_der_public_key`, which raises on what is not a key. -/
  loadPublicKey : Bytes → Except Exn Unit
  sign : Bytes → Bytes → Bytes → Bytes
  /-- `pub.verify(sig, msg)`, which raises on a bad signature. -/
  verify : Bytes → Bytes → Bytes → Except Exn Unit
  loadPublicKey_publicKey : ∀ key, loadPublicKey (publicKey key) = .ok ()
  verify_sign : ∀ key rnd msg, verify (publicKey key) (sign key rnd msg) msg = .ok ()

/-- A parsed certificate request: the key it carries, and whether its own signature
verifies under that key. -/
structure Csr where
  spki : Bytes
  isSignatureValid : Bool

/-- The functions the program imports. -/
structure Primitives where
  sha256 : Bytes → Bytes
  sha384 : Bytes → Bytes
  sha512 : Bytes → Bytes
  /-- `hmac.new(key, msg, sha384).digest()`. -/
  hmacSha384 : Bytes → Bytes → Bytes
  ecdsa : SignatureScheme
  /-- `x509.load_der_x509_csr`; an error carries the text of the exception. -/
  loadCsr : Bytes → Except String Csr
  length_sha256 : ∀ b, (sha256 b).length = 32
  length_sha384 : ∀ b, (sha384 b).length = 48
  length_sha512 : ∀ b, (sha512 b).length = 64
  length_hmacSha384 : ∀ key msg, (hmacSha384 key msg).length = 48

attribute [simp] SignatureScheme.loadPublicKey_publicKey SignatureScheme.verify_sign
  Primitives.length_sha256 Primitives.length_sha384 Primitives.length_sha512
  Primitives.length_hmacSha384

/-- The standard hash functions, over a given signature scheme and request reader. -/
def Primitives.sha2 (ecdsa : SignatureScheme) (loadCsr : Bytes → Except String Csr) :
    Primitives where
  sha256 := Sha2.sha256
  sha384 := Sha2.sha384
  sha512 := Sha2.sha512
  hmacSha384 := Sha2.hmacSha384
  ecdsa := ecdsa
  loadCsr := loadCsr
  length_sha256 := Sha2.length_sha256
  length_sha384 := Sha2.length_sha384
  length_sha512 := Sha2.length_sha512
  length_hmacSha384 := Sha2.length_hmacSha384

/-- A scheme that spells its signatures out: the key and the message. -/
def SignatureScheme.plain : SignatureScheme where
  publicKey key := key
  loadPublicKey _ := .ok ()
  sign key _ msg := key ++ msg
  verify spki sig msg := if sig = spki ++ msg then .ok () else .error .invalidSignature
  loadPublicKey_publicKey _ := rfl
  verify_sign _ _ _ := if_pos rfl

/-- The standard hash functions with signatures and requests spelled out: a request
is the length of its key, the key, and padding. -/
def Primitives.plain : Primitives :=
  .sha2 .plain fun
    | [] => .error "error parsing asn1 value"
    | n :: rest => .ok ⟨rest.take n.toNat, true⟩

/-- No two of the byte strings have one SHA-256 digest. -/
def CollisionFree (P : Primitives) (strings : List Bytes) : Prop :=
  ∀ x ∈ strings, ∀ y ∈ strings, P.sha256 x = P.sha256 y → x = y

theorem CollisionFree.mono {P : Primitives} {xs ys : List Bytes} (h : CollisionFree P ys)
    (hsub : xs ⊆ ys) : CollisionFree P xs :=
  fun x hx y hy => h x (hsub hx) y (hsub hy)

theorem CollisionFree.of_nodup {P : Primitives} {strings : List Bytes}
    (h : (strings.map P.sha256).Nodup) : CollisionFree P strings :=
  fun _ hx _ hy => List.inj_on_of_nodup_map h hx hy

end Hatls
