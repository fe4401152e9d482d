import Hatls.Primitives

/-!
# Authority-signed permissions

`hatls/transfer.py`: the signature on a transfer grant, and the authorisation of one
enrolment.  Both are JSON values from outside.

## Main definitions

* `Transfer.makeGrant`, `Transfer.verifyGrant`.
* `Transfer.makeEnrolmentAuthorisation`, `Transfer.verifyEnrolmentAuthorisation`.
* `Transfer.withinWindow` — the window check the two kinds of permission share.
* `Transfer.Authorises` — what a permission to enrol says.
-/

namespace Hatls.Transfer

variable (P : Primitives)

def grantVersion : ℤ := 1

/-- The fields of a grant; an empty origin is none. -/
def grantFields (tikPub toInstance : Bytes) (fromInstance : Option Bytes) (anyOrigin : Bool)
    (now validFor : ℤ) (nonce : Bytes) : List (String × Json) := [
  ("v", .int grantVersion),
  ("tik", .str (Bytes.hex tikPub)),
  ("to", .str (Bytes.hex toInstance)),
  ("from", match fromInstance with
    | some b => if b = [] then .null else .str (Bytes.hex b)
    | none => .null),
  ("any_origin", .bool anyOrigin),
  ("nbf", .int now),
  ("exp", .int (now + validFor)),
  ("nonce", .str (Bytes.hex nonce))]

/-- Issue a single-use, time-bounded permission to move an identity; `nonce` is drawn,
and `rnd` is what the signature draws. -/
def makeGrant (authorityKey rnd tikPub toInstance : Bytes) (fromInstance : Option Bytes)
    (anyOrigin : Bool) (now validFor : ℤ) (nonce : Bytes) : Except Exn (Json × Bytes) :=
  if fromInstance.isNone && !anyOrigin then .error .valueError
  else
    let grant : Json := .obj (grantFields tikPub toInstance fromInstance anyOrigin now validFor nonce)
    .ok (grant, P.ecdsa.sign authorityKey rnd grant.canonical)

/-- Returns when `signature` is this authority's over exactly these grant fields. -/
def verifyGrant (authoritySpkiDer : Bytes) (grant : Json) (signature : Bytes) :
    Except Exn Unit := do
  P.ecdsa.loadPublicKey authoritySpkiDer
  P.ecdsa.verify authoritySpkiDer signature grant.canonical

/-- An authority signed what it signed. -/
theorem verifyGrant_sign (authorityKey rnd : Bytes) (grant : Json) :
    verifyGrant P (P.ecdsa.publicKey authorityKey) grant
      (P.ecdsa.sign authorityKey rnd grant.canonical) = .ok () := by
  simp [verifyGrant]

/-- `int(d.get("nbf", 0)) <= now <= int(d.get("exp", 0))`. -/
def withinWindow (fields : List (String × Json)) (now : ℤ) : Except Exn Bool := do
  let nbf ← (Json.getD fields "nbf" (.int 0)).toInt
  if !(decide (nbf ≤ now)) then return false
  let exp ← (Json.getD fields "exp" (.int 0)).toInt
  return decide (now ≤ exp)

theorem withinWindow_eq_true {fields : List (String × Json)} {now : ℤ} :
    withinWindow fields now = .ok true ↔
      ∃ nbf exp, (Json.getD fields "nbf" (.int 0)).toInt = .ok nbf ∧
        (Json.getD fields "exp" (.int 0)).toInt = .ok exp ∧ nbf ≤ now ∧ now ≤ exp := by
  simp only [withinWindow]
  cases (Json.getD fields "nbf" (.int 0)).toInt with
  | error x => simp
  | ok nbf =>
      rcases lt_or_ge now nbf with hlt | hge
      · simp [hlt, not_le.mpr hlt]
      · cases (Json.getD fields "exp" (.int 0)).toInt with
        | error x => simp [not_lt.mpr hge]
        | ok exp => simp [not_lt.mpr hge, hge]

/-- Whether the authority has permitted this enrolment, and why not. -/
def verifyEnrolmentAuthorisation (authoritySpkiDer : Bytes) (body : Json) (signature : Bytes)
    (tikPub nonce : Bytes) (now : ℤ) : Except Exn (Bool × String) :=
  match body with
  | .obj fields =>
    if !(Json.getD fields "v" .null).eqInt grantVersion ||
        !(Json.getD fields "kind" .null).eqStr "enrol" then
      .ok (false, "unsupported enrolment authorisation")
    else if !(Json.getD fields "tik" .null).eqStr (Bytes.hex tikPub) then
      .ok (false, "enrolment authorisation is for a different identity")
    else if !(Json.getD fields "nonce" .null).eqStr (Bytes.hex nonce) then
      .ok (false, "enrolment authorisation is for a different challenge")
    else
      match withinWindow fields now with
      | .error x => .error x
      | .ok false =>
        .ok (false, "enrolment authorisation is outside its validity window " ++
          "(times are the issuer's clock; allow for skew)")
      | .ok true =>
        match verifyGrant P authoritySpkiDer body signature with
        | .ok () => .ok (true, "authorised")
        | .error _ =>
          .ok (false,
            "enrolment authorisation is not signed by this mandate's enrolment authority")
  | _ => .ok (false, "unsupported enrolment authorisation")

/-- The fields of a permission to enrol. -/
def authorisationFields (tikPub nonce : Bytes) (now validFor : ℤ) : List (String × Json) := [
  ("v", .int grantVersion),
  ("kind", .str "enrol"),
  ("tik", .str (Bytes.hex tikPub)),
  ("nonce", .str (Bytes.hex nonce)),
  ("nbf", .int now),
  ("exp", .int (now + validFor))]

/-- Permission for one enrolment of one identity against one challenge; `rnd` is what the
signature draws. -/
def makeEnrolmentAuthorisation (authorityKey rnd tikPub nonce : Bytes) (now validFor : ℤ) :
    Json × Bytes :=
  let body : Json := .obj (authorisationFields tikPub nonce now validFor)
  (body, P.ecdsa.sign authorityKey rnd body.canonical)

/-- Within its window a permission is good for what it was made for. -/
theorem verifyEnrolmentAuthorisation_make (authorityKey rnd tikPub nonce : Bytes)
    {made validFor now : ℤ} (hnbf : made ≤ now) (hexp : now ≤ made + validFor) :
    verifyEnrolmentAuthorisation P (P.ecdsa.publicKey authorityKey)
      (makeEnrolmentAuthorisation P authorityKey rnd tikPub nonce made validFor).1
      (makeEnrolmentAuthorisation P authorityKey rnd tikPub nonce made validFor).2
      tikPub nonce now = .ok (true, "authorised") := by
  have hwindow : withinWindow (authorisationFields tikPub nonce made validFor) now = .ok true :=
    withinWindow_eq_true.mpr ⟨made, made + validFor, rfl, rfl, hnbf, hexp⟩
  have hsigned := verifyGrant_sign P authorityKey rnd
    (.obj (authorisationFields tikPub nonce made validFor))
  have hkind : (!(Json.getD (authorisationFields tikPub nonce made validFor) "v" .null).eqInt
        grantVersion ||
      !(Json.getD (authorisationFields tikPub nonce made validFor) "kind" .null).eqStr "enrol") =
        false := rfl
  have htik : (Json.getD (authorisationFields tikPub nonce made validFor) "tik" .null).eqStr
      (Bytes.hex tikPub) = true := by
    simp [authorisationFields, Json.getD, Json.lookup, Json.eqStr]
  have hnonce : (Json.getD (authorisationFields tikPub nonce made validFor) "nonce" .null).eqStr
      (Bytes.hex nonce) = true := by
    simp [authorisationFields, Json.getD, Json.lookup, Json.eqStr]
  simp only [makeEnrolmentAuthorisation, verifyEnrolmentAuthorisation, hkind, htik, hnonce, hwindow,
    hsigned, Bool.false_eq_true, if_false, Bool.not_true]

/-- What a permission to enrol says: it is this authority's, for this identity and this
challenge, now. -/
structure Authorises (authoritySpkiDer : Bytes) (fields : List (String × Json)) (signature : Bytes)
    (tikPub nonce : Bytes) (now : ℤ) : Prop where
  kind : (Json.getD fields "kind" .null).eqStr "enrol" = true
  identity : (Json.getD fields "tik" .null).eqStr (Bytes.hex tikPub) = true
  challenge : (Json.getD fields "nonce" .null).eqStr (Bytes.hex nonce) = true
  window : ∃ nbf exp, (Json.getD fields "nbf" (.int 0)).toInt = .ok nbf ∧
    (Json.getD fields "exp" (.int 0)).toInt = .ok exp ∧ nbf ≤ now ∧ now ≤ exp
  signed : verifyGrant P authoritySpkiDer (.obj fields) signature = .ok ()

theorem authorises_of_verify {authoritySpkiDer signature tikPub nonce : Bytes} {body : Json} {now : ℤ}
    {why : String}
    (h : verifyEnrolmentAuthorisation P authoritySpkiDer body signature tikPub nonce now =
      .ok (true, why)) :
    ∃ fields, body = .obj fields ∧
      Authorises P authoritySpkiDer fields signature tikPub nonce now := by
  simp only [verifyEnrolmentAuthorisation] at h
  split at h
  next fields =>
    split at h
    · cases h
    next hkind =>
    split at h
    · cases h
    next htik =>
    split at h
    · cases h
    next hnonce =>
    split at h
    · cases h
    · cases h
    next hwin =>
    split at h
    next hsig =>
      refine ⟨fields, rfl, ?_, by simpa using htik, by simpa using hnonce,
        withinWindow_eq_true.mp hwin, hsig⟩
      rw [Bool.not_eq_true, Bool.or_eq_false_iff] at hkind
      simpa using hkind.2
    · cases h
  · cases h

end Hatls.Transfer
