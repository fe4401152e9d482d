import Hatls.Lib.Base64
import Hatls.AnchorRules

/-!
# What certifies a SEV-SNP report

The rest of `sevsnp_verifier` in `hatls/tee.py`: where the certificate that signed a report is
taken from, the signature over the report body, and the path from the certificate to the root
of the vendor.  X.509, the signature algorithm and the network are parameters; everything that
is read off the report and off the evidence is here.

## Main definitions

* `Tee.b64decode` — how a report is spelled in evidence.
* `Tee.Vendor` — what the verifier takes from its libraries and from the vendor.
* `Tee.leafCert`, `Tee.chainOk`, `Tee.certified`.
* `Tee.sevsnp` — the verifier, with all of its arguments.
-/

namespace Hatls.Tee

/-- `base64.b64decode(j)`. -/
def b64decode (j : Json) : Except Exn Bytes :=
  match j with
  | .str s =>
    match Base64.decode s with
    | some b => .ok b
    | none => .error .valueError
  | _ => .error .typeError

/-- `s.encode()`. -/
def encodeText (s : String) : Bytes := s.toUTF8.data.toList

/-- What the verifier takes from its libraries and from the vendor.  `Cert` is a certificate
of `cryptography`, `X509` one of OpenSSL. -/
structure Vendor (Cert X509 : Type) where
  /-- `_get`: what is served under a URL, or kept in the cache under a key. -/
  get : String → String → Except Exn Bytes
  /-- `load_pem_x509_certificate(pem).public_bytes(Encoding.DER)`. -/
  derOfPem : Bytes → Except Exn Bytes
  loadDer : Bytes → Except Exn Cert
  /-- `cert.public_key().verify(encode_dss_signature(r, s), body, ECDSA(SHA384()))`. -/
  verify : Cert → ℕ → ℕ → Bytes → Except Exn Unit
  /-- `load_certificate(FILETYPE_PEM, block)`. -/
  loadPem : Bytes → Except Exn X509
  /-- `load_certificate(FILETYPE_ASN1, der)`, with the text of what it raises. -/
  loadAsn1 : Bytes → Except String X509
  /-- `dump_certificate(FILETYPE_ASN1, cert)`. -/
  dumpAsn1 : X509 → Bytes
  /-- `verify_certificate()` with one trust anchor, for a leaf and a chain. -/
  verifyCertificate : X509 → X509 → List X509 → Except String Unit

section Certified

variable {Cert X509 : Type} (P : Primitives) (V : Vendor Cert X509)

/-- The certificate that signed a report, as it was parsed and as bytes.  That of a chip is
fetched by the chip's identifier; that of a provider has to be supplied. -/
def leafCert (f : Snp) (supplied : Option Bytes) : Except Exn (Cert × Bytes) :=
  if f.signingKey = .inl "VLEK" then
    match supplied with
    | none => .error .valueError
    | some pem => do
      let der ← V.derOfPem pem
      return (← V.loadDer der, der)
  else if f.signingKey ≠ .inl "VCEK" then .error .valueError
  else do
    let (bl, tee, snp, ucode) := f.tcb
    let url := "https://kdsintf.amd.com/vcek/v1/" ++ f.product ++ "/" ++ Bytes.hex f.chipId ++
      "?blSPL=" ++ toString bl ++ "&teeSPL=" ++ toString tee ++ "&snpSPL=" ++ toString snp ++
      "&ucodeSPL=" ++ toString ucode
    let key := String.ofList ((Bytes.hexChars (P.sha256 (encodeText url))).take 32) ++ ".der"
    let der ← V.get url key
    return (← V.loadDer der, der)

/-- What stands before the end of the first occurrence of a pattern, and what comes after. -/
def throughFirst (pattern : Bytes) : Bytes → Option (Bytes × Bytes)
  | [] => if pattern = [] then some ([], []) else none
  | x :: rest =>
    if pattern.isPrefixOf (x :: rest) then some (pattern, (x :: rest).drop pattern.length)
    else (throughFirst pattern rest).map fun found => (x :: found.1, found.2)

/-- `re.findall` of the certificates in a text: each from a first line to the next last line.
A text of `n` bytes has no more than `n` of them. -/
def certificateBlocks (pem : Bytes) : List Bytes := go pem.length pem
where
  begins := encodeText "-----BEGIN CERTIFICATE-----"
  ends := encodeText "-----END CERTIFICATE-----"
  go : ℕ → Bytes → List Bytes
    | 0, _ => []
    | n + 1, pem =>
      match throughFirst begins pem with
      | none => []
      | some (_, rest) =>
        match throughFirst ends rest with
        | none => []
        | some (block, rest) => (begins ++ block) :: go n rest

/-- Path validation from the leaf over the intermediate to the root of the vendor, which is
the only trust anchor and may be pinned. -/
def chainOk (arkSha256 : Option String) (leafDer : Bytes) (f : Snp) : Except Exn (Bool × String) := do
  let kind := if f.signingKey = .inl "VLEK" then "vlek" else "vcek"
  let pem ← V.get ("https://kdsintf.amd.com/" ++ kind ++ "/v1/" ++ f.product ++ "/cert_chain")
    (f.product ++ "-" ++ kind ++ "-chain.pem")
  let blocks := certificateBlocks pem
  if blocks.length < 2 then return (false, "AMD chain did not contain the intermediate and ARK")
  let certs ← blocks.mapM V.loadPem
  match certs.head?, certs.getLast? with
  | some ask, some ark =>
    if arkSha256.any fun pin => pin ≠ "" && Bytes.hex (P.sha256 (V.dumpAsn1 ark)) ≠ pin then
      return (false, "AMD root key does not match the pinned value")
    match (do V.verifyCertificate ark (← V.loadAsn1 leafDer) [ask]) with
    | .error e => return (false, "certificate chain broken: " ++ e)
    | .ok () => return (true, "chain ok")
  | _, _ => throw .indexError

/-- `supplied.encode() if supplied else None`, for what the evidence supplies. -/
def suppliedPem (ev : Json) : Except Exn (Option Bytes) :=
  match ev with
  | .obj fields =>
    let supplied := Json.getD fields "leaf_pem" .null
    if !supplied.truthy then .ok none
    else
      match supplied with
      | .str s => .ok (some (encodeText s))
      | _ => .error .attributeError
  | _ => .error .attributeError

/-- The certificate of the leaf for evidence with a parsed report. -/
def leafOf (ev : Json) (f : Snp) : Except Exn (Cert × Bytes) := do
  leafCert P V f (← suppliedPem ev)

/-- The signature of a report is that of a certificate over its body: everything before the
signature. -/
def verifySignature (cert : Cert) (b : Bytes) : Except Exn Unit :=
  V.verify cert (unpackFrom b 0x2A0 48) (unpackFrom b (0x2A0 + 72) 48) (b.take 0x2A0)

/-- The last part of `verify`: whether the leaf signed the report and chains to the root. -/
def certified (requireChain : Bool) (arkSha256 : Option String) (ev : Json) (b : Bytes) (f : Snp) :
    Bool :=
  match (do
    let (cert, der) ← leafOf P V ev f
    verifySignature V cert b
    if requireChain then return (← chainOk P V arkSha256 der f).1 else return true) with
  | .ok ok => ok
  | .error _ => false

/-- `sevsnp_verifier(require_chain, allow_debug, measurement, ark_sha256)`. -/
def sevsnp (requireChain allowDebug : Bool) (measurement : Option Bytes)
    (arkSha256 : Option String) : Json → Bytes → Except Exn (Bool × Option Claims) :=
  sevsnpVerifier b64decode (certified P V requireChain arkSha256) allowDebug measurement

end Certified

end Hatls.Tee
