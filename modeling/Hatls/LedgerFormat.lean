import Hatls.Lib.JsonDict
import Hatls.Mandate
import Hatls.Store

/-!
# A record as the ledger keeps it

The dictionary that `hatls/protocol.py` builds for an identity: `_BLANK` and the keys that its
operations set, instances and places in hexadecimal, times as numbers.  The store writes it as
a JSON text and reads it back with its dictionaries in the order of their keys, and `_rec` lays
what was read over `_BLANK`.  What a mandate then holds is the record that was written, but
that the nonces of its grants, which may be any JSON value, have been put in order as well.

## Main definitions

* `Record.blankFields` — `_BLANK`; `Record.dict` — the dictionary of a record.
* `Record.ofStored` — `_rec`, for what the store returned.
* `Record.settled` — a record with its nonces in order.
* `Record.ofStored_loaded` — the round trip through a file.
-/

namespace Hatls

/-! ## Written -/

/-- `b.hex()`, or `None`. -/
def hexOrNull (b : Option Bytes) : Json :=
  match b with
  | some b => .str (Bytes.hex b)
  | none => .null

def textOrNull (s : Option String) : Json :=
  match s with
  | some s => .str s
  | none => .null

def Witness.dict (w : Witness) : Json :=
  .obj [("instance", .str (Bytes.hex w.inst)), ("place", hexOrNull w.place), ("at", .int w.at_)]

def Dispute.dict (d : Dispute) : Json := .obj [("at", .int d.at_), ("why", .str d.why)]

def TransferRecord.dict (t : TransferRecord) : Json :=
  .obj [("at", .int t.at_), ("from", hexOrNull t.from_), ("to", .str (Bytes.hex t.to_)),
    ("nonce", t.nonce), ("any_origin", .bool t.anyOrigin)]

namespace Record

/-- `_BLANK`. -/
def blankFields : List (String × Json) := [
  ("enrolled_instance", .null), ("enrolled_place", .null),
  ("observed_instance", .null), ("observed_place", .null),
  ("revoked", .bool false), ("reason", .null), ("contention", .arr []),
  ("transfer_authority", .null), ("transfers", .arr []), ("consumed_grants", .arr []),
  ("witnessed", .arr [])]

/-- The items of a record. -/
def fields (r : Record) : List (String × Json) := [
  ("enrolled_instance", hexOrNull r.enrolledInstance), ("enrolled_place", hexOrNull r.enrolledPlace),
  ("observed_instance", hexOrNull r.observedInstance), ("observed_place", hexOrNull r.observedPlace),
  ("revoked", .bool r.revoked), ("reason", textOrNull r.reason),
  ("contention", .arr (r.contention.map Dispute.dict)),
  ("transfer_authority", hexOrNull r.transferAuthority),
  ("transfers", .arr (r.transfers.map TransferRecord.dict)),
  ("consumed_grants", .arr r.consumedGrants),
  ("witnessed", .arr (r.witnessed.map Witness.dict))]

/-- What `_save` is given. -/
def dict (r : Record) : Json := .obj r.fields

example : blank.fields = blankFields := rfl

/-- A record has the keys of the blank one, each once. -/
theorem map_fst_fields (r : Record) : r.fields.map Prod.fst = blankFields.map Prod.fst := rfl

theorem nodup_fields (r : Record) : (r.fields.map Prod.fst).Nodup := by
  rw [map_fst_fields]
  decide

end Record

/-! ## Read -/

/-- `bytes.fromhex(j)`, where `j` is not `None`. -/
def readHex (j : Json) : Except Exn (Option Bytes) :=
  match j with
  | .null => .ok none
  | j => j.fromHex.map some

def readText (j : Json) : Except Exn (Option String) :=
  match j with
  | .null => .ok none
  | .str s => .ok (some s)
  | _ => .error .typeError

def readInt (j : Json) : Except Exn ℤ :=
  match j with
  | .int i => .ok i
  | _ => .error .typeError

def readBool (j : Json) : Except Exn Bool :=
  match j with
  | .bool b => .ok b
  | _ => .error .typeError

def readList {A : Type} (read : Json → Except Exn A) (j : Json) : Except Exn (List A) :=
  match j with
  | .arr xs => xs.mapM read
  | _ => .error .typeError

def readWitness (j : Json) : Except Exn Witness := do
  return ⟨← (← j.item "instance").fromHex, ← readHex (← j.item "place"), ← readInt (← j.item "at")⟩

def readDispute (j : Json) : Except Exn Dispute := do
  match ← j.item "why" with
  | .str why => return ⟨← readInt (← j.item "at"), why⟩
  | _ => .error .typeError

def readTransfer (j : Json) : Except Exn TransferRecord := do
  return ⟨← readInt (← j.item "at"), ← readHex (← j.item "from"), ← (← j.item "to").fromHex,
    ← j.item "nonce", ← readBool (← j.item "any_origin")⟩

namespace Record

/-- The record that a dictionary with its items spells. -/
def ofFields (fields : List (String × Json)) : Except Exn Record := do
  let j : Json := .obj fields
  return {
    enrolledInstance := ← readHex (← j.item "enrolled_instance")
    enrolledPlace := ← readHex (← j.item "enrolled_place")
    observedInstance := ← readHex (← j.item "observed_instance")
    observedPlace := ← readHex (← j.item "observed_place")
    revoked := ← readBool (← j.item "revoked")
    reason := ← readText (← j.item "reason")
    contention := ← readList readDispute (← j.item "contention")
    transferAuthority := ← readHex (← j.item "transfer_authority")
    transfers := ← readList readTransfer (← j.item "transfers")
    consumedGrants := ← readList .ok (← j.item "consumed_grants")
    witnessed := ← readList readWitness (← j.item "witnessed") }

/-- `_rec(k)`, for what `store.get(k)` returned: a blank record, or what was read over one. -/
def ofStored (stored : Option Json) : Except Exn Record :=
  match stored with
  | none => ofFields blankFields
  | some (.obj fields) => ofFields (Json.merge blankFields fields)
  | some _ => .error .typeError

end Record

/-! ## Written and read back -/

/-- A move with its nonce in order. -/
def TransferRecord.settled (t : TransferRecord) : TransferRecord := { t with nonce := t.nonce.normal }

/-- A record with the nonces it holds in order. -/
def Record.settled (r : Record) : Record :=
  { r with
    transfers := r.transfers.map TransferRecord.settled
    consumedGrants := r.consumedGrants.map Json.normal }

section RoundTrip

theorem readHex_hexOrNull (b : Option Bytes) : readHex (hexOrNull b).normal = .ok b := by
  cases b with
  | none => rfl
  | some b => simp [hexOrNull, Json.normal, readHex, Json.fromHex, Except.map]

theorem readText_textOrNull (s : Option String) : readText (textOrNull s).normal = .ok s := by
  cases s <;> rfl

theorem fromHex_normal (b : Bytes) : (Json.str (Bytes.hex b)).normal.fromHex = .ok b := by
  simp [Json.normal, Json.fromHex]

/-- What is read of each is read of all. -/
theorem readList_map {A B : Type} {read : Json → Except Exn B} {write : A → Json} {g : A → B}
    (h : ∀ a, read (write a).normal = .ok (g a)) (as : List A) :
    readList read (Json.arr (as.map write)).normal = .ok (as.map g) := by
  rw [Json.normal, Json.normalList_eq, readList]
  induction as with
  | nil => rfl
  | cons a as ih =>
      simp only [List.map_cons, List.mapM_cons, h, Exn.ok_bind, ih]
      rfl

theorem readInt_normal (i : ℤ) : readInt (Json.int i).normal = .ok i := rfl

theorem readBool_normal (b : Bool) : readBool (Json.bool b).normal = .ok b := rfl

theorem readWitness_dict (w : Witness) : readWitness w.dict.normal = .ok w := by
  have hitem : ∀ key {v}, Json.lookup _ key = some v → w.dict.normal.item key = .ok v.normal :=
    fun _ _ h => Json.item_normal (by simp) h
  simp only [readWitness, hitem "instance" rfl, hitem "place" rfl,
    hitem "at" rfl, Exn.ok_bind, fromHex_normal, readHex_hexOrNull, readInt_normal,
    Exn.pure_eq_ok]

theorem readDispute_dict (d : Dispute) : readDispute d.dict.normal = .ok d := by
  have hitem : ∀ key {v}, Json.lookup _ key = some v → d.dict.normal.item key = .ok v.normal :=
    fun _ _ h => Json.item_normal (by simp) h
  have hwhy : (Json.str d.why).normal = .str d.why := rfl
  simp only [readDispute, hitem "at" rfl, hitem "why" rfl, Exn.ok_bind, readInt_normal, hwhy,
    Exn.pure_eq_ok]

theorem readTransfer_dict (t : TransferRecord) : readTransfer t.dict.normal = .ok t.settled := by
  have hitem : ∀ key {v}, Json.lookup _ key = some v → t.dict.normal.item key = .ok v.normal :=
    fun _ _ h => Json.item_normal (by simp) h
  simp only [readTransfer, hitem "at" rfl, hitem "from" rfl, hitem "to" rfl,
    hitem "nonce" rfl, hitem "any_origin" rfl, Exn.ok_bind, fromHex_normal,
    readHex_hexOrNull, readInt_normal, readBool_normal, Exn.pure_eq_ok]
  rfl

theorem readNonces (nonces : List Json) :
    readList .ok (Json.arr nonces).normal = .ok (nonces.map Json.normal) := by
  have hread := @readList_map Json Json .ok id Json.normal (fun _ => rfl) nonces
  rwa [List.map_id] at hread

/-- What a dictionary that holds the items of a record, in order, spells. -/
theorem Record.ofFields_of_lookup (r : Record) {fields : List (String × Json)}
    (h : ∀ key v, Json.lookup r.fields key = some v → Json.lookup fields key = some v.normal) :
    ofFields fields = .ok r.settled := by
  have hitem : ∀ key {v}, Json.lookup r.fields key = some v →
      (Json.obj fields).item key = .ok v.normal := by
    intro key v hv
    rw [Json.item, h key v hv]
  simp only [ofFields, hitem "enrolled_instance" rfl, hitem "enrolled_place" rfl,
    hitem "observed_instance" rfl, hitem "observed_place" rfl,
    hitem "revoked" rfl, hitem "reason" rfl, hitem "contention" rfl,
    hitem "transfer_authority" rfl, hitem "transfers" rfl,
    hitem "consumed_grants" rfl, hitem "witnessed" rfl, Exn.ok_bind,
    readHex_hexOrNull, readText_textOrNull, readBool_normal, readNonces,
    readList_map readDispute_dict, readList_map readTransfer_dict, readList_map readWitness_dict,
    Exn.pure_eq_ok]
  simp [settled]

/-- **The round trip of a record**: what `_rec` makes of the dictionary that was read back is
the record, its nonces in order. -/
theorem Record.ofStored_loaded (r : Record) : ofStored (some r.dict.normal) = .ok r.settled := by
  have hnodup : ((Json.sorted (Json.normalFields r.fields)).map Prod.fst).Nodup := by
    rw [((Json.sorted_perm _).map Prod.fst).nodup_iff, Json.map_fst_normalFields]
    exact r.nodup_fields
  rw [dict, Json.normal, ofStored]
  apply ofFields_of_lookup
  intro key v hv
  rw [Json.lookup_merge _ hnodup, Json.lookup_sorted_normalFields r.nodup_fields, hv, Option.map_some,
    Option.some_or]

end RoundTrip

/-! ## Settled records -/

namespace Record

theorem settled_settled (r : Record) : r.settled.settled = r.settled := by
  have hnonce : Json.normal ∘ Json.normal = Json.normal := funext Json.normal_normal
  have htransfer : TransferRecord.settled ∘ TransferRecord.settled = TransferRecord.settled := by
    funext t
    simp [TransferRecord.settled, Json.normal_normal]
  simp only [settled, List.map_map, hnonce, htransfer]

end Record

end Hatls
