import Hatls.Lib.Directory
import Hatls.Lib.JsonText
import Hatls.Lib.Run
import Mathlib.Data.List.DropRight

/-!
# The stores of the ledger

`hatls/store.py`.  A file store keeps one JSON file for each key.  Its `put` takes several
steps, each of which may raise, and the process may stop after any of them; what is on the disk
stays.  A temporary file holds any part of its text until it is synchronised.

Durability of the directory itself is not modelled: a replacement that took place is there
after a crash.

## Main definitions

* `LedgerRecord` — what a store is given.
* `MemoryStore` — the store that forgets.
* `FileStore.file`, `FileStore.get`, `FileStore.keys`.
* `FileStore.Action`, `FileStore.step` — `put`, one step at a time.
-/

namespace Hatls

/-- A value that Python can hold: no key occurs twice in a dictionary. -/
structure LedgerRecord where
  json : Json
  keysOnce : json.KeysOnce

/-- What `json.dump` writes for a record. -/
def LedgerRecord.text (record : LedgerRecord) : String := record.json.dump

/-- What `json.load` makes of it: the record, its dictionaries in the order of their keys. -/
def LedgerRecord.loaded (record : LedgerRecord) : Json := record.json.normal

@[simp] theorem LedgerRecord.load_text (record : LedgerRecord) :
    Json.load record.text = .ok record.loaded := Json.load_dump record.keysOnce

/-! ## The store that forgets -/

/-- A dictionary of records. -/
structure MemoryStore where
  d : Directory String LedgerRecord := ∅

namespace MemoryStore

def get (m : MemoryStore) (key : String) : Option LedgerRecord := m.d.lookup key

def put (m : MemoryStore) (key : String) (record : LedgerRecord) : MemoryStore :=
  ⟨m.d.insert key record⟩

def keys (m : MemoryStore) : List String := m.d.keys

/-- The store after several calls of `put`. -/
def after (puts : List (String × LedgerRecord)) : MemoryStore := ⟨Directory.written puts⟩

theorem after_concat (puts : List (String × LedgerRecord)) (key : String) (record : LedgerRecord) :
    after (puts ++ [(key, record)]) = (after puts).put key record := by
  rw [after, Directory.written_concat, after, put]

theorem get_after (puts : List (String × LedgerRecord)) (key : String) :
    (after puts).get key = Directory.lastAt key puts := Directory.lookup_written key puts

theorem mem_keys {m : MemoryStore} {key : String} : key ∈ m.keys ↔ (m.get key).isSome := by
  rw [keys, get, AList.lookup_isSome, AList.mem_keys]

theorem mem_keys_after {puts : List (String × LedgerRecord)} {key : String} :
    key ∈ (after puts).keys ↔ ∃ record, (key, record) ∈ puts := by
  rw [keys, ← AList.mem_keys]
  exact Directory.mem_written

@[simp] theorem get_put_self (m : MemoryStore) (key : String) (record : LedgerRecord) :
    (m.put key record).get key = some record := AList.lookup_insert m.d

theorem get_put_ne (m : MemoryStore) {key other : String} (h : other ≠ key) (record : LedgerRecord) :
    (m.put key record).get other = m.get other := AList.lookup_insert_ne h

end MemoryStore

/-! ## The store of files -/

/-- How far a call of `put` has come. -/
inductive FileStore.Stage
  /-- The name of the file is known. -/
  | started
  /-- The temporary file exists and is being written. -/
  | writing (tmp : String)
  /-- Its text is on the disk. -/
  | synced (tmp : String)
  /-- It has taken the place of the file. -/
  | replaced
  /-- The handler, before it removes the temporary file. -/
  | failed (tmp : String)
  deriving DecidableEq

/-- A call of `put`. -/
structure FileStore.Putting where
  target : String
  record : LedgerRecord
  stage : FileStore.Stage

/-- The files in the directory, and the call that is being served. -/
structure FileStore where
  files : Directory String String := ∅
  putting : Option FileStore.Putting := none

namespace FileStore

/-- `name.endswith(suffix)`. -/
def endsWith (name suffix : String) : Bool := suffix.toList.isSuffixOf name.toList

/-- Whether a key is spelled in hexadecimal digits, lower case. -/
def isHex (key : String) : Bool := key.toList.all fun c => c ∈ "0123456789abcdef".toList

/-- `_file(key)`: the name within the directory. -/
def file (key : String) : Except Exn String :=
  if isHex key then .ok (key ++ ".json") else .error .valueError

/-- `get(key)`, on a disk that takes every name: one too long to open is read as a file that is
not there. -/
def get (s : FileStore) (key : String) : Except Exn (Option Json) := do
  let name ← file key
  match s.files.lookup name with
  | some text => return some (← Json.load text)
  | none => return none

/-- `keys()`, for a listing of the directory in whatever order. -/
def keys (listing : List String) : List String :=
  (listing.filter fun f => endsWith f ".json").map fun f => String.ofList (f.toList.rdrop 5)

/-- What can happen to a store. -/
inductive Action
  /-- `put(key, record)` is called. -/
  | put (key : String) (record : LedgerRecord)
  /-- `tempfile.mkstemp` returns. -/
  | mkstemp (tmp : String)
  /-- The first `n` characters of the text are in the temporary file. -/
  | write (n : ℕ)
  /-- The file is written, flushed, synchronised and closed. -/
  | fsync
  /-- `os.replace` succeeds. -/
  | replace
  /-- `put` returns. -/
  | returns
  /-- The step that was to come raises an `Exception`. -/
  | raises
  /-- The handler has tried `os.unlink`, and raises again. -/
  | unlink (removed : Bool)
  /-- The process stops and another is started on the directory. -/
  | crash

/-- Between two calls. -/
def begin (s : FileStore) : Action → Option FileStore
  | .put key record =>
    match file key with
    | .ok target => some { s with putting := some ⟨target, record, .started⟩ }
    | .error _ => some s
  | .crash => some s
  | _ => none

/-- Within a call. -/
def advance (files : Directory String String) (p : Putting) : Action → Option FileStore
  | .mkstemp tmp =>
    match p.stage with
    | .started =>
      if endsWith tmp ".tmp" ∧ tmp ∉ files then
        some ⟨files.insert tmp "", some { p with stage := .writing tmp }⟩
      else none
    | _ => none
  | .write n =>
    match p.stage with
    | .writing tmp => some ⟨files.insert tmp (String.ofList (p.record.text.toList.take n)), some p⟩
    | _ => none
  | .fsync =>
    match p.stage with
    | .writing tmp => some ⟨files.insert tmp p.record.text, some { p with stage := .synced tmp }⟩
    | _ => none
  | .replace =>
    match p.stage with
    | .synced tmp => (files.move tmp p.target).map fun files => ⟨files, some { p with stage := .replaced }⟩
    | _ => none
  | .returns => if p.stage = .replaced then some ⟨files, none⟩ else none
  | .raises =>
    match p.stage with
    -- `mkstemp` stands before the `try`.
    | .started => some ⟨files, none⟩
    | .writing tmp => some ⟨files, some { p with stage := .failed tmp }⟩
    | .synced tmp => some ⟨files, some { p with stage := .failed tmp }⟩
    | _ => none
  | .unlink removed =>
    match p.stage with
    | .failed tmp => some ⟨if removed then files.erase tmp else files, none⟩
    | _ => none
  | .crash => some ⟨files, none⟩
  | .put _ _ => none

def step (s : FileStore) (a : Action) : Option FileStore :=
  match s.putting with
  | none => s.begin a
  | some p => advance s.files p a

/-! ### Names -/

theorem endsWith_append (name suffix : String) : endsWith (name ++ suffix) suffix = true := by
  rw [endsWith, List.isSuffixOf_iff_suffix, String.toList_append]
  exact List.suffix_append _ _

/-- A temporary file is no record. -/
theorem not_json_of_tmp {name : String} (h : endsWith name ".tmp" = true) :
    endsWith name ".json" = false := by
  rw [endsWith, List.isSuffixOf_iff_suffix] at h
  rw [← Bool.not_eq_true, endsWith, List.isSuffixOf_iff_suffix]
  intro hjson
  have hsuffix := List.suffix_of_suffix_length_le h hjson (by decide)
  revert hsuffix
  decide

theorem file_of_hex {key : String} (h : isHex key = true) : file key = .ok (key ++ ".json") := if_pos h

theorem file_of_not_hex {key : String} (h : isHex key = false) : file key = .error .valueError := by
  rw [file, h]
  rfl

/-- Different keys have different files. -/
theorem append_json_inj {key other : String} (h : key ++ ".json" = other ++ ".json") : key = other := by
  rw [← String.toList_inj, String.toList_append, String.toList_append] at h
  exact String.toList_inj.mp (List.append_cancel_right h)

theorem ne_of_tmp {name key : String} (h : endsWith name ".tmp" = true) : key ++ ".json" ≠ name := by
  intro heq
  have hjson := endsWith_append key ".json"
  rw [heq, not_json_of_tmp h] at hjson
  cases hjson

@[simp] theorem rdrop_json (key : String) :
    String.ofList ((key ++ ".json").toList.rdrop 5) = key := by
  have hdrop : (key.toList ++ ".json".toList).rdrop 5 = key.toList := by
    rw [List.rdrop, List.length_append]
    exact List.take_left
  rw [String.toList_append, hdrop, String.ofList_toList]

end FileStore

end Hatls
