import Hatls.Store

/-!
# A file store survives crashes

Whatever calls of `put` do — return, raise, or stop for good after any of their steps — the
files of a store are those of a memory store that was given exactly the records whose files
were replaced.  What a call leaves behind it otherwise are temporary files, which no key names.

## Main definitions

* `FileStore.reached` — the puts of a history that reached their replacement.
* `FileStore.Mirrors` — the files of a directory against a memory store.
* `FileStore.mirrored_of_steps` — every run of a file store mirrors a memory store.
* `FileStore.crash_atomic` — what `get` and `keys` return after any run.
* `FileStore.put_returns` — a put that nothing disturbs.
-/

namespace Hatls.FileStore

/-! ## Histories -/

/-- The last call of `put`, and those that reached their replacement, oldest first. -/
structure Account where
  call : Option (String × LedgerRecord) := none
  reached : List (String × LedgerRecord) := []

def Account.next (c : Account) : Action → Account
  | .put key record => { c with call := some (key, record) }
  | .replace => { c with reached := c.reached ++ c.call.toList }
  | _ => c

def account (acts : List Action) : Account := acts.foldl Account.next {}

/-- The puts that reached their replacement, oldest first. -/
def reached (acts : List Action) : List (String × LedgerRecord) := (account acts).reached

theorem account_concat (acts : List Action) (a : Action) :
    account (acts ++ [a]) = (account acts).next a := List.foldl_concat _ _ _ _

/-! ## Files against records -/

/-- **The files of a directory against a memory store**: a file for each record, and no others
but temporary ones. -/
structure Mirrors (files : Directory String String) (m : MemoryStore) : Prop where
  recorded : ∀ key, isHex key = true →
    files.lookup (key ++ ".json") = (m.get key).map LedgerRecord.text
  named : ∀ name ∈ files, endsWith name ".tmp" = true ∨ ∃ key, isHex key = true ∧ name = key ++ ".json"
  keyed : ∀ key ∈ m.keys, isHex key = true

theorem mirrors_empty : Mirrors ∅ {} where
  recorded _ _ := rfl
  named _ h := absurd h (AList.notMem_empty _)
  keyed _ h := nomatch h

section Mirrors

variable {files : Directory String String} {m : MemoryStore} {tmp : String}

/-- Writing a temporary file. -/
theorem Mirrors.insert_tmp (h : Mirrors files m) (htmp : endsWith tmp ".tmp" = true) (text : String) :
    Mirrors (files.insert tmp text) m where
  recorded key hkey := by
    rw [AList.lookup_insert_ne (ne_of_tmp htmp)]
    exact h.recorded key hkey
  named name hname := by
    rcases (AList.mem_insert files).mp hname with rfl | hold
    · exact .inl htmp
    · exact h.named name hold
  keyed := h.keyed

/-- Removing one. -/
theorem Mirrors.erase_tmp (h : Mirrors files m) (htmp : endsWith tmp ".tmp" = true) :
    Mirrors (files.erase tmp) m where
  recorded key hkey := by
    rw [AList.lookup_erase_ne (ne_of_tmp htmp)]
    exact h.recorded key hkey
  named name hname := h.named name (AList.mem_erase.mp hname).2
  keyed := h.keyed

/-- A file in place of that of a key. -/
theorem Mirrors.insert_record (h : Mirrors files m) {key : String} (hkey : isHex key = true)
    (record : LedgerRecord) : Mirrors (files.insert (key ++ ".json") record.text) (m.put key record) where
  recorded other hother := by
    by_cases heq : other = key
    · rw [heq, AList.lookup_insert, MemoryStore.get_put_self, Option.map_some]
    · have hname : other ++ ".json" ≠ key ++ ".json" := fun h => heq (append_json_inj h)
      rw [AList.lookup_insert_ne hname, MemoryStore.get_put_ne m heq]
      exact h.recorded other hother
  named name hname := by
    rcases (AList.mem_insert files).mp hname with rfl | hold
    · exact .inr ⟨key, hkey, rfl⟩
    · exact h.named name hold
  keyed other hother := by
    rw [MemoryStore.mem_keys] at hother
    by_cases heq : other = key
    · rw [heq]
      exact hkey
    · rw [MemoryStore.get_put_ne m heq] at hother
      exact h.keyed other (MemoryStore.mem_keys.mpr hother)

/-- **What a store over such files returns** is the record, read back. -/
theorem Mirrors.get_eq {s : FileStore} (h : Mirrors s.files m) {key : String} (hkey : isHex key = true) :
    s.get key = .ok ((m.get key).map LedgerRecord.loaded) := by
  rw [get, file_of_hex hkey, Exn.ok_bind, h.recorded key hkey]
  cases m.get key with
  | none => rfl
  | some record => simp

/-- A file that is listed is that of a key. -/
theorem Mirrors.exists_key (h : Mirrors files m) {name : String} (hname : name ∈ files)
    (hjson : endsWith name ".json" = true) : ∃ key, isHex key = true ∧ name = key ++ ".json" := by
  rcases h.named name hname with htmp | hkey
  · rw [not_json_of_tmp htmp] at hjson
    cases hjson
  · exact hkey

theorem Mirrors.mem_iff (h : Mirrors files m) {key : String} (hkey : isHex key = true) :
    key ++ ".json" ∈ files ↔ key ∈ m.keys := by
  rw [← AList.lookup_isSome, h.recorded key hkey, Option.isSome_map, MemoryStore.mem_keys]

/-- **What it lists** are the keys of the records. -/
theorem Mirrors.mem_keys (h : Mirrors files m) {listing : List String}
    (hlisting : listing.Perm files.keys) {key : String} : key ∈ keys listing ↔ key ∈ m.keys := by
  have hfile : ∀ name, name ∈ listing ↔ name ∈ files := by
    intro name
    rw [hlisting.mem_iff, AList.mem_keys]
  constructor
  · intro hmem
    obtain ⟨name, hname, hdrop⟩ := List.mem_map.mp hmem
    obtain ⟨hlisted, hjson⟩ := List.mem_filter.mp hname
    obtain ⟨found, hfound, rfl⟩ := h.exists_key ((hfile name).mp hlisted) hjson
    rw [rdrop_json] at hdrop
    rw [← hdrop]
    exact (h.mem_iff hfound).mp ((hfile _).mp hlisted)
  · intro hmem
    have hlisted := (hfile _).mpr ((h.mem_iff (h.keyed key hmem)).mpr hmem)
    have hname : key ++ ".json" ∈ listing.filter fun f => endsWith f ".json" :=
      List.mem_filter.mpr ⟨hlisted, endsWith_append key ".json"⟩
    exact List.mem_map.mpr ⟨key ++ ".json", hname, rdrop_json key⟩

/-- It lists none of them twice. -/
theorem Mirrors.nodup_keys (h : Mirrors files m) {listing : List String}
    (hlisting : listing.Perm files.keys) : (keys listing).Nodup := by
  have hnodup : listing.Nodup := hlisting.nodup_iff.mpr files.keys_nodup
  apply (hnodup.filter _).map_on
  intro name hname other hother heq
  obtain ⟨hname, hjson⟩ := List.mem_filter.mp hname
  obtain ⟨hother, hjson'⟩ := List.mem_filter.mp hother
  obtain ⟨key, _, rfl⟩ := h.exists_key (AList.mem_keys.mpr (hlisting.mem_iff.mp hname)) hjson
  obtain ⟨key', _, rfl⟩ := h.exists_key (AList.mem_keys.mpr (hlisting.mem_iff.mp hother)) hjson'
  rw [rdrop_json, rdrop_json] at heq
  rw [heq]

end Mirrors

/-! ## Steps of a call -/

/-- What a step of a call can be. -/
inductive Advances (files : Directory String String) (p : Putting) : Action → FileStore → Prop
  | mkstemp (tmp : String) (hstage : p.stage = .started) (htmp : endsWith tmp ".tmp" = true)
      (hfresh : tmp ∉ files) :
      Advances files p (.mkstemp tmp) ⟨files.insert tmp "", some { p with stage := .writing tmp }⟩
  | write (tmp : String) (n : ℕ) (hstage : p.stage = .writing tmp) :
      Advances files p (.write n)
        ⟨files.insert tmp (String.ofList (p.record.text.toList.take n)), some p⟩
  | fsync (tmp : String) (hstage : p.stage = .writing tmp) :
      Advances files p .fsync
        ⟨files.insert tmp p.record.text, some { p with stage := .synced tmp }⟩
  | replace (tmp : String) (content : String) (hstage : p.stage = .synced tmp)
      (hcontent : files.lookup tmp = some content) :
      Advances files p .replace
        ⟨(files.erase tmp).insert p.target content, some { p with stage := .replaced }⟩
  | handled (tmp : String) (hstage : p.stage = .writing tmp ∨ p.stage = .synced tmp) :
      Advances files p .raises ⟨files, some { p with stage := .failed tmp }⟩
  | removed (tmp : String) (hstage : p.stage = .failed tmp) :
      Advances files p (.unlink true) ⟨files.erase tmp, none⟩
  | returned (hstage : p.stage = .replaced) : Advances files p .returns ⟨files, none⟩
  | raised (hstage : p.stage = .started) : Advances files p .raises ⟨files, none⟩
  | left (a : Action) (ha : a = .unlink false ∨ a = .crash) : Advances files p a ⟨files, none⟩

theorem advances_of_advance {files : Directory String String} {p : Putting} {a : Action} {s : FileStore}
    (h : advance files p a = some s) : Advances files p a s := by
  cases a with
  | put key record => cases h
  | mkstemp tmp =>
      simp only [advance] at h
      split at h
      · rename_i hstage
        split_ifs at h with hok
        rw [← Option.some.inj h]
        exact .mkstemp tmp hstage hok.1 hok.2
      · cases h
  | write n =>
      simp only [advance] at h
      split at h
      · rename_i tmp hstage
        rw [← Option.some.inj h]
        exact .write tmp n hstage
      · cases h
  | fsync =>
      simp only [advance] at h
      split at h
      · rename_i tmp hstage
        rw [← Option.some.inj h]
        exact .fsync tmp hstage
      · cases h
  | replace =>
      simp only [advance] at h
      split at h
      · rename_i tmp hstage
        obtain ⟨moved, hmove, rfl⟩ := Option.map_eq_some_iff.mp h
        obtain ⟨content, hcontent, rfl⟩ := Directory.move_eq_some hmove
        exact .replace tmp content hstage hcontent
      · cases h
  | returns =>
      simp only [advance] at h
      split_ifs at h with hstage
      rw [← Option.some.inj h]
      exact .returned hstage
  | raises =>
      simp only [advance] at h
      split at h
      · rename_i hstage
        rw [← Option.some.inj h]
        exact .raised hstage
      · rename_i tmp hstage
        rw [← Option.some.inj h]
        exact .handled tmp (.inl hstage)
      · rename_i tmp hstage
        rw [← Option.some.inj h]
        exact .handled tmp (.inr hstage)
      · cases h
  | unlink removed =>
      simp only [advance] at h
      split at h
      · rename_i tmp hstage
        rw [← Option.some.inj h]
        cases removed with
        | true => exact .removed tmp hstage
        | false => exact .left _ (.inl rfl)
      · cases h
  | crash =>
      rw [← Option.some.inj h]
      exact .left _ (.inr rfl)

/-! ## Runs -/

/-- The temporary file of a call. -/
def Stage.tmp? : Stage → Option String
  | .writing tmp => some tmp
  | .synced tmp => some tmp
  | .failed tmp => some tmp
  | _ => none

/-- A call serves what was asked for; once its file is synchronised, the file holds the text. -/
structure Serves (files : Directory String String) (p : Putting) (key : String) (record : LedgerRecord) :
    Prop where
  hex : isHex key = true
  target : p.target = key ++ ".json"
  given : p.record = record
  tmp : ∀ tmp, p.stage.tmp? = some tmp → endsWith tmp ".tmp" = true
  text : ∀ tmp, p.stage = .synced tmp → files.lookup tmp = some record.text

/-- **A file store against its history.** -/
structure Mirrored (s : FileStore) (c : Account) : Prop where
  files : Mirrors s.files (.after c.reached)
  serves : ∀ p, s.putting = some p →
    ∃ key record, c.call = some (key, record) ∧ Serves s.files p key record

theorem Mirrored.of_idle {files : Directory String String} {c : Account}
    (h : Mirrors files (.after c.reached)) : Mirrored ⟨files, none⟩ c where
  files := h
  serves _ hp := nomatch hp

theorem Mirrored.of_serves {files : Directory String String} {p : Putting} {c : Account}
    {key : String} {record : LedgerRecord} (h : Mirrors files (.after c.reached))
    (hcall : c.call = some (key, record)) (hserves : Serves files p key record) :
    Mirrored ⟨files, some p⟩ c where
  files := h
  serves q hq := by
    rw [← Option.some.inj hq]
    exact ⟨key, record, hcall, hserves⟩

section Serves

variable {files files' : Directory String String} {p : Putting} {key : String} {record : LedgerRecord}

/-- A call that comes to another stage, with a temporary file or none. -/
theorem Serves.stage (h : Serves files p key record) {stage : Stage}
    (htmp : ∀ tmp, stage.tmp? = some tmp → endsWith tmp ".tmp" = true)
    (htext : ∀ tmp, stage = .synced tmp → files'.lookup tmp = some record.text) :
    Serves files' { p with stage := stage } key record :=
  ⟨h.hex, h.target, h.given, htmp, htext⟩

theorem Serves.tmp_of_writing (h : Serves files p key record) {tmp : String}
    (hstage : p.stage = .writing tmp) : endsWith tmp ".tmp" = true :=
  h.tmp tmp (by rw [hstage, Stage.tmp?])

theorem Serves.tmp_of_synced (h : Serves files p key record) {tmp : String}
    (hstage : p.stage = .synced tmp) : endsWith tmp ".tmp" = true :=
  h.tmp tmp (by rw [hstage, Stage.tmp?])

theorem Serves.tmp_of_failed (h : Serves files p key record) {tmp : String}
    (hstage : p.stage = .failed tmp) : endsWith tmp ".tmp" = true :=
  h.tmp tmp (by rw [hstage, Stage.tmp?])

end Serves

theorem mirrored_begin {files : Directory String String} {t : FileStore} {c : Account} {a : Action}
    (h : Mirrors files (.after c.reached)) (hstep : begin ⟨files, none⟩ a = some t) :
    Mirrored t (c.next a) := by
  cases a with
  | put key record =>
      simp only [begin] at hstep
      cases hkey : isHex key with
      | true =>
          rw [file_of_hex hkey] at hstep
          rw [← Option.some.inj hstep]
          apply Mirrored.of_serves (c := c.next (.put key record)) h rfl
          exact ⟨hkey, rfl, rfl, fun _ htmp => (nomatch htmp), fun _ hsynced => (nomatch hsynced)⟩
      | false =>
          rw [file_of_not_hex hkey] at hstep
          rw [← Option.some.inj hstep]
          exact Mirrored.of_idle h
  | crash =>
      rw [← Option.some.inj hstep]
      exact Mirrored.of_idle h
  | _ => cases hstep

/-- **One step of a call**: a replacement adds its put, no other step adds or loses a record. -/
theorem mirrored_advance {files : Directory String String} {p : Putting} {t : FileStore} {c : Account}
    {a : Action} {key : String} {record : LedgerRecord} (h : Mirrors files (.after c.reached))
    (hcall : c.call = some (key, record)) (hserves : Serves files p key record)
    (hstep : advance files p a = some t) : Mirrored t (c.next a) := by
  cases advances_of_advance hstep with
  | mkstemp tmp hstage htmp hfresh =>
      apply Mirrored.of_serves (h.insert_tmp htmp "") hcall
      apply hserves.stage
      · intro tmp' htmp'
        rw [← Option.some.inj htmp']
        exact htmp
      · intro _ hsynced
        cases hsynced
  | write tmp n hstage =>
      apply Mirrored.of_serves (h.insert_tmp (hserves.tmp_of_writing hstage) _) hcall
      apply hserves.stage hserves.tmp
      intro _ hsynced
      rw [hstage] at hsynced
      cases hsynced
  | fsync tmp hstage =>
      apply Mirrored.of_serves (h.insert_tmp (hserves.tmp_of_writing hstage) _) hcall
      apply hserves.stage
      · intro tmp' htmp'
        rw [← Option.some.inj htmp']
        exact hserves.tmp_of_writing hstage
      · intro tmp' hsynced
        rw [← Stage.synced.inj hsynced, AList.lookup_insert, hserves.given]
  | replace tmp content hstage hcontent =>
      have htext := hserves.text tmp hstage
      have hmoved := (h.erase_tmp (hserves.tmp_of_synced hstage)).insert_record hserves.hex record
      have hreached : (c.next .replace).reached = c.reached ++ [(key, record)] := by
        rw [Account.next, hcall, Option.toList_some]
      rw [hcontent] at htext
      rw [← MemoryStore.after_concat, ← hreached, ← hserves.target, ← Option.some.inj htext] at hmoved
      apply Mirrored.of_serves hmoved hcall
      apply hserves.stage
      · intro _ htmp
        cases htmp
      · intro _ hsynced
        cases hsynced
  | handled tmp hstage =>
      apply Mirrored.of_serves h hcall
      apply hserves.stage
      · intro tmp' htmp'
        rw [← Option.some.inj htmp']
        rcases hstage with hstage | hstage
        · exact hserves.tmp_of_writing hstage
        · exact hserves.tmp_of_synced hstage
      · intro _ hsynced
        cases hsynced
  | removed tmp hstage => exact Mirrored.of_idle (h.erase_tmp (hserves.tmp_of_failed hstage))
  | returned hstage => exact Mirrored.of_idle h
  | raised hstage => exact Mirrored.of_idle h
  | left a ha =>
      apply Mirrored.of_idle
      rcases ha with rfl | rfl
      · exact h
      · exact h

theorem mirrored_step {s t : FileStore} {c : Account} {a : Action} (h : Mirrored s c)
    (hstep : s.step a = some t) : Mirrored t (c.next a) := by
  obtain ⟨files, putting⟩ := s
  cases putting with
  | none => exact mirrored_begin h.files hstep
  | some p =>
      obtain ⟨key, record, hcall, hserves⟩ := h.serves p rfl
      exact mirrored_advance h.files hcall hserves hstep

/-- **Every run of a file store mirrors a memory store** that was given the puts that reached
their replacement. -/
theorem mirrored_of_steps {acts : List Action} {s : FileStore} (h : Run.steps step {} acts = some s) :
    Mirrored s (account acts) := by
  apply Run.steps_history (fun t is => Mirrored t (account is)) _ _ h
  · exact ⟨mirrors_empty, fun p hp => nomatch hp⟩
  · intro t is a u hmirrored hstep
    rw [account_concat]
    exact mirrored_step hmirrored hstep

/-- Whether a call begins. -/
def Action.isPut : Action → Bool
  | .put _ _ => true
  | _ => false

/-- What happens until the next call is about the key of this one. -/
theorem reached_during {c : Account} {key : String} {record : LedgerRecord}
    (hcall : c.call = some (key, record)) {during : List Action}
    (h : ∀ a ∈ during, a.isPut = false) :
    ∃ more, (during.foldl Account.next c).reached = c.reached ++ more ∧ ∀ kv ∈ more, kv.1 = key := by
  induction during generalizing c with
  | nil => exact ⟨[], by simp, fun kv hkv => nomatch hkv⟩
  | cons a during ih =>
      obtain ⟨ha, hrest⟩ := List.forall_mem_cons.mp h
      cases a with
      | put key record => cases ha
      | replace =>
          obtain ⟨more, hmore, hkeys⟩ := ih (c := c.next .replace) hcall hrest
          refine ⟨(key, record) :: more, ?_, List.forall_mem_cons.mpr ⟨rfl, hkeys⟩⟩
          rw [List.foldl_cons, hmore, Account.next, hcall, Option.toList_some, List.append_assoc]
          rfl
      | _ => exact ih hcall hrest

/-- **The ledger on disk is crash-atomic.**  Let calls of `put` return, raise, or be cut by a
crash after any of their steps, with any part of a temporary file written.  At every moment
`get` returns the record of the last put for its key that reached its replacement, or nothing
where none did; `keys` lists exactly the keys with such a put, each once; and what happens
during a put for one key does not change what `get` returns for another. -/
theorem crash_atomic {acts : List Action} {s : FileStore} (h : Run.steps step {} acts = some s) :
    (∀ key, isHex key = true →
      s.get key = .ok ((Directory.lastAt key (reached acts)).map LedgerRecord.loaded)) ∧
    (∀ listing, listing.Perm s.files.keys →
      (keys listing).Nodup ∧ ∀ key, key ∈ keys listing ↔ ∃ record, (key, record) ∈ reached acts) ∧
    ∀ before key record during t, acts = before ++ .put key record :: during →
      (∀ a ∈ during, a.isPut = false) → Run.steps step {} before = some t →
        ∀ other, other ≠ key → s.get other = t.get other := by
  have hget : ∀ {acts : List Action} {s : FileStore}, Run.steps step {} acts = some s →
      ∀ key, isHex key = true →
        s.get key = .ok ((Directory.lastAt key (reached acts)).map LedgerRecord.loaded) := by
    intro acts s h key hkey
    rw [(mirrored_of_steps h).files.get_eq hkey, MemoryStore.get_after]
    rfl
  refine ⟨hget h, ?_, ?_⟩
  · intro listing hlisting
    have hfiles := (mirrored_of_steps h).files
    refine ⟨hfiles.nodup_keys hlisting, ?_⟩
    intro key
    rw [hfiles.mem_keys hlisting]
    exact MemoryStore.mem_keys_after
  · intro before key record during t hacts hduring hbefore other hother
    have hreached : ∃ more, reached acts = reached before ++ more ∧ ∀ kv ∈ more, kv.1 = key := by
      rw [reached, hacts, account, List.foldl_append, List.foldl_cons]
      exact reached_during rfl hduring
    obtain ⟨more, hmore, hkeys⟩ := hreached
    have hlast : Directory.lastAt other (reached acts) = Directory.lastAt other (reached before) := by
      rw [hmore]
      apply Directory.lastAt_append_of_ne
      intro kv hkv heq
      exact hother (heq.symm.trans (hkeys kv hkv))
    cases hhex : isHex other with
    | true => rw [hget h other hhex, hget hbefore other hhex, hlast]
    | false => rw [get, get, file_of_not_hex hhex, Exn.error_bind, Exn.error_bind]

/-- `{"n": n}`. -/
def numbered (n : ℤ) : LedgerRecord where
  json := .obj [("n", .int n)]
  keysOnce := by simp [Json.KeysOnce, Json.KeysOnceFields]

/-- A put that returns, one that is cut while it writes, and one whose replacement fails and
whose handler does. -/
def interrupted : List Action :=
  [.put "ab" (numbered 1), .mkstemp "x.tmp", .write 3, .fsync, .replace, .returns,
    .put "cd" (numbered 2), .mkstemp "y.tmp", .write 3, .crash,
    .put "ab" (numbered 3), .mkstemp "z.tmp", .fsync, .raises, .unlink false]

theorem crash_atomic_interrupted : ∃ s, Run.steps step {} interrupted = some s ∧
    s.get "ab" = .ok (some (numbered 1).loaded) ∧ s.get "cd" = .ok none ∧
    ∀ listing, listing.Perm s.files.keys → ∀ key, key ∈ keys listing ↔ key = "ab" := by
  have hruns : (Run.steps step {} interrupted).isSome = true := by decide
  obtain ⟨s, hs⟩ := Option.isSome_iff_exists.mp hruns
  have hreached : reached interrupted = [("ab", numbered 1)] := rfl
  obtain ⟨hget, hkeys, _⟩ := crash_atomic hs
  rw [hreached] at hget hkeys
  refine ⟨s, hs, hget "ab" rfl, hget "cd" rfl, ?_⟩
  intro listing hlisting key
  rw [(hkeys listing hlisting).2 key]
  simp

/-! ## Calls that are not disturbed -/

/-- **A put that nothing disturbs** returns, its record is there, and its temporary file is not. -/
theorem put_returns {files : Directory String String} {key tmp : String} (hkey : isHex key = true)
    (htmp : endsWith tmp ".tmp" = true) (hfresh : tmp ∉ files) (record : LedgerRecord) :
    ∃ s, Run.steps step ⟨files, none⟩ [.put key record, .mkstemp tmp, .fsync, .replace, .returns] = some s ∧
      s.putting = none ∧ s.get key = .ok (some record.loaded) ∧
      ∀ name ∈ s.files, name ∈ files ∨ name = key ++ ".json" := by
  refine ⟨⟨((files.insert tmp record.text).erase tmp).insert (key ++ ".json") record.text, none⟩,
    ?_, rfl, ?_, ?_⟩
  · simp [Run.steps, step, begin, advance, file_of_hex hkey, htmp, hfresh, Directory.move_insert]
  · rw [get, file_of_hex hkey, Exn.ok_bind, AList.lookup_insert]
    simp
  · intro name hname
    rcases (AList.mem_insert _).mp hname with rfl | hold
    · exact .inr rfl
    · obtain ⟨hne, hold⟩ := AList.mem_erase.mp hold
      exact .inl (((AList.mem_insert files).mp hold).resolve_left hne)

end Hatls.FileStore
