import Mathlib.Data.Set.Finite.Lemmas
import Hatls.Custody
import Hatls.Deployment

/-!
# What a directory keeps

Every run of a process over a ledger also happens over a directory, so nothing is said of the one
that is not possible on the other.  What the ledger promises, the directory keeps through crashes
and failing writes: a revocation that was answered is read back ever after, and an enrolled
identity is on disk where it was enrolled, or where a grant that its authority signed has moved it,
even if the process did not live to say so.

## Main definitions

* `FileStore.exists_puts` — a call of `put` can return.
* `Record.KeysOnce` — a record that the store can hold.
* `Nameable` — an identity that has a file.
* `Deployment.exists_run` — every run happens on disk.
* `Deployment.revocation_survives`, `Deployment.custody_survives` — what survives.
-/

namespace Hatls

open Mandate

/-! ## A put that returns -/

namespace FileStore

/-- There is a name for one more temporary file. -/
theorem exists_tmp (files : Directory String String) :
    ∃ tmp, endsWith tmp ".tmp" = true ∧ tmp ∉ files := by
  have hinj : Function.Injective fun n : ℕ => String.ofList (List.replicate n 'x') ++ ".tmp" := by
    intro n n' h
    have hlist := congrArg String.toList h
    simp only [String.toList_append, String.toList_ofList] at hlist
    have hlength := congrArg List.length (List.append_cancel_right hlist)
    simpa using hlength
  obtain ⟨n, hn⟩ := (Set.infinite_range_of_injective hinj).exists_notMem_finset files.keys.toFinset
  obtain ⟨⟨i, rfl⟩, hfresh⟩ := hn
  refine ⟨String.ofList (List.replicate i 'x') ++ ".tmp", endsWith_append _ _, fun hmem => hfresh ?_⟩
  exact List.mem_toFinset.mpr (AList.mem_keys.mp hmem)

/-- Between two calls, one can be made that returns. -/
theorem exists_puts {s : FileStore} (hidle : s.putting = none) {key : String} (hkey : isHex key = true)
    (record : LedgerRecord) : ∃ t, Puts key record .returned s t ∧
      ∀ name ∈ t.files, name ∈ s.files ∨ name = key ++ ".json" := by
  obtain ⟨files, putting⟩ := s
  obtain rfl : putting = none := hidle
  obtain ⟨tmp, htmp, hfresh⟩ := exists_tmp files
  obtain ⟨t, hsteps, hover, -, hnames⟩ := put_returns hkey htmp hfresh record
  refine ⟨t, ⟨hover, [.mkstemp tmp, .fsync, .replace], .returns, ?_, rfl, hsteps⟩, hnames⟩
  simp [Action.isPut]

end FileStore

/-! ## Records that the store can hold -/

/-- The nonces of a record are values whose dictionaries are dictionaries. -/
structure Record.KeysOnce (r : Record) : Prop where
  transfers : ∀ t ∈ r.transfers, t.nonce.KeysOnce
  consumedGrants : ∀ nonce ∈ r.consumedGrants, nonce.KeysOnce

namespace Record

theorem keysOnce_blank : blank.KeysOnce := ⟨by simp [blank], by simp [blank]⟩

theorem keysOnce_hexOrNull (b : Option Bytes) : (hexOrNull b).KeysOnce := by
  cases b <;> trivial

/-- Its dictionary is one. -/
theorem KeysOnce.dict {r : Record} (h : r.KeysOnce) : r.dict.KeysOnce := by
  rw [Record.dict, Json.KeysOnce, Json.keysOnceFields_iff]
  refine ⟨r.nodup_fields, ?_⟩
  simp only [fields, List.forall_mem_cons]
  refine ⟨keysOnce_hexOrNull _, keysOnce_hexOrNull _, keysOnce_hexOrNull _, keysOnce_hexOrNull _, trivial,
    by cases r.reason <;> trivial, ?_, keysOnce_hexOrNull _, ?_, ?_, ?_, by simp⟩
  · rw [Json.KeysOnce, Json.keysOnceList_iff]
    intro j hj
    obtain ⟨d, -, rfl⟩ := List.mem_map.mp hj
    simp [Dispute.dict, Json.KeysOnce, Json.KeysOnceFields]
  · rw [Json.KeysOnce, Json.keysOnceList_iff]
    intro j hj
    obtain ⟨t, ht, rfl⟩ := List.mem_map.mp hj
    simp [TransferRecord.dict, Json.KeysOnce, Json.KeysOnceFields, keysOnce_hexOrNull, h.transfers t ht]
  · rw [Json.KeysOnce, Json.keysOnceList_iff]
    exact h.consumedGrants
  · rw [Json.KeysOnce, Json.keysOnceList_iff]
    intro j hj
    obtain ⟨w, -, rfl⟩ := List.mem_map.mp hj
    simp [Witness.dict, Json.KeysOnce, Json.KeysOnceFields, keysOnce_hexOrNull]

theorem KeysOnce.settled {r : Record} (h : r.KeysOnce) : r.settled.KeysOnce where
  transfers t ht := by
    obtain ⟨old, hold, rfl⟩ := List.mem_map.mp ht
    exact Json.keysOnce_normal _ (h.transfers old hold)
  consumedGrants nonce hnonce := by
    obtain ⟨old, hold, rfl⟩ := List.mem_map.mp hnonce
    exact Json.keysOnce_normal _ (h.consumedGrants old hold)

end Record

/-- A grant is a value whose dictionaries are dictionaries. -/
def Call.KeysOnce : Call → Prop
  | .acceptTransfer _ grant _ => grant.KeysOnce
  | _ => True

/-- The identity a call is about. -/
def Call.identity : Call → Option Bytes
  | .challenge _ => none
  | .enroll k .. => some k
  | .revoke k _ => some k
  | .acceptTransfer k _ _ => some k
  | .present k .. => some k

/-- A file system has room for the name of its file: it takes 255 characters, of which a key of
125 bytes leaves none. -/
def Nameable (k : Bytes) : Prop := (Bytes.hex k ++ ".json").length ≤ 255

instance (k : Bytes) : Decidable (Nameable k) :=
  inferInstanceAs (Decidable ((Bytes.hex k ++ ".json").length ≤ 255))

variable {P : Primitives} {cfg : Config} {m : Mandate} {t : Moment} {k : Bytes} {c : Call}

theorem identity_of_writes {r' : Record} (h : Writes P cfg m t k c r') : c.identity = some k := by
  cases h with
  | objected h =>
      cases h
      rfl
  | _ => rfl

/-- What is true of the old ones and of the new one is true of those that are kept. -/
theorem forall_mem_lastN {A : Type} {p : A → Prop} {xs : List A} {x : A} (hold : ∀ y ∈ xs, p y)
    (hnew : p x) (n : ℕ) : ∀ y ∈ lastN n (xs ++ [x]), p y := by
  intro y hy
  rcases List.mem_append.mp (List.mem_of_mem_drop hy) with hmem | hmem
  · exact hold y hmem
  · rw [List.mem_singleton.mp hmem]
    exact hnew

/-- A call leaves a record that the store can hold. -/
theorem Change.keysOnce {reply : Reply} {r' : Record} (h : Change P cfg m t k c reply r')
    (hc : c.KeysOnce) (hr : (m.record k).KeysOnce) : r'.KeysOnce := by
  cases h with
  | enrolled => exact ⟨hr.transfers, hr.consumedGrants⟩
  | revoked => exact ⟨hr.transfers, hr.consumedGrants⟩
  | @transferred grant sig fields toInstance w nonce hg hnonce =>
      obtain rfl := hg.object
      have hgrant : (Json.obj fields).KeysOnce := hc
      rw [Json.KeysOnce] at hgrant
      have hmem := (Json.lookup_eq_some_iff hgrant.1).mp hnonce
      have hkeys : nonce.KeysOnce := Json.KeysOnceFields.of_mem hgrant.2 _ hmem
      constructor
      · exact forall_mem_lastN hr.transfers hkeys 64
      · rw [consumedGrants_moved]
        exact forall_mem_lastN hr.consumedGrants hkeys 256
  | presented => exact ⟨hr.transfers, hr.consumedGrants⟩
  | noted _ hn =>
      constructor
      · rw [hn.transfers]
        exact hr.transfers
      · rw [hn.consumedGrants]
        exact hr.consumedGrants
  | same => exact hr

/-! ## Every run happens on disk -/

namespace Deployment

/-- A turn is an event, with its answer. -/
inductive Turn.Answers : Turn → Event × Option Reply → Prop
  | call {i : Moment × Call} {reply : Reply} : Answers (.answered i reply) (.call i, some reply)
  | restart {cfg : Config} : Answers (.restart cfg) (.restart cfg, none)

variable {d d' : Deployment} {s : Process}

/-- A file system has room for every name in the directory. -/
def Fits (d : Deployment) : Prop := ∀ name ∈ d.store.files, name.length ≤ 255

/-- The records that are read can be held. -/
theorem Realises.keysOnce (h : Realises d s) (hkeys : ∀ k, (s.mandate.record k).KeysOnce)
    {ledger : Bytes → Option Record} (hreads : d.Reads ledger) (k : Bytes) :
    ((d.memory.over ledger).record k).KeysOnce := by
  have hk : ledger k = (s.mandate.ledger k).map Record.settled :=
    Except.ok.inj ((hreads k).symm.trans (h.reads k))
  have hrecord := hkeys k
  have hover : (d.memory.over ledger).record k = (ledger k).getD .blank := rfl
  rw [Mandate.record] at hrecord
  rw [hover, hk]
  cases hm : s.mandate.ledger k with
  | none => exact Record.keysOnce_blank
  | some r =>
      rw [hm] at hrecord
      exact hrecord.settled

/-- **A call can be made on disk**, and is answered as it is over the ledger. -/
theorem Realises.exists_answered (h : Realises d s) (hkeys : ∀ k, (s.mandate.record k).KeysOnce)
    {i : Moment × Call} (hi : i.2.KeysOnce) :
    ∃ d', d.Step P (.answered i (s.mandate.step P s.cfg i).1) d' ∧
      Realises d' (s.step P (.call i)).2 ∧
      (d.Fits → (∀ k, i.2.identity = some k → Nameable k) → d'.Fits) := by
  obtain ⟨t, c⟩ := i
  obtain ⟨ledger, hreads⟩ : ∃ ledger, d.Reads ledger := ⟨_, h.reads⟩
  by_cases hquiet : ∀ k r', ¬ Writes P d.cfg (d.memory.over ledger) t k c r'
  · obtain ⟨hreply, hnext⟩ := h.quiet hreads hquiet
    exact ⟨_, hreply ▸ .quiet hreads hquiet, hnext, fun hfits _ => hfits⟩
  · push Not at hquiet
    obtain ⟨k, r', hwrites⟩ := hquiet
    have hchange := (d.memory.over ledger).step_change P d.cfg t c k
    rw [record_of_writes hwrites] at hchange
    have hdict := (hchange.keysOnce hi (h.keysOnce hkeys hreads k)).dict
    obtain ⟨store, hputs, hnames⟩ :=
      FileStore.exists_puts h.idle (FileStore.isHex_hex k) ⟨r'.dict, hdict⟩
    obtain ⟨hreply, hnext⟩ := h.written hreads hwrites rfl hputs
    refine ⟨_, hreply ▸ .written hreads hwrites rfl hputs, hnext, fun hfits hnameable name hname => ?_⟩
    rcases hnames name hname with hold | rfl
    · exact hfits name hold
    · exact hnameable k (identity_of_writes hwrites)

/-- **What happens to a process happens on disk**, one event after the other. -/
theorem Realises.exists_runs (h : Realises d s) (hkeys : ∀ k, (s.mandate.record k).KeysOnce)
    {events : List Event} (hevents : ∀ i, Event.call i ∈ events → i.2.KeysOnce) :
    ∃ turns d', List.Forall₂ Turn.Answers turns (Run.trace (Process.step P) s events) ∧
      d.Runs P turns d' ∧ d'.Realises (Run.exec (Process.step P) s events) ∧
      (∀ k, ((Run.exec (Process.step P) s events).mandate.record k).KeysOnce) ∧
      (d.Fits → (∀ i, Event.call i ∈ events → ∀ k, i.2.identity = some k → Nameable k) → d'.Fits) := by
  induction events using List.reverseRecOn with
  | nil => exact ⟨[], d, .nil, .nil, h, hkeys, fun hfits _ => hfits⟩
  | append_singleton events e ih =>
      obtain ⟨turns, d', hanswers, hruns, hreal, hkept, hfit⟩ :=
        ih fun i hi => hevents i (List.mem_append_left _ hi)
      rw [Run.trace_append, Run.exec_append]
      generalize Run.exec (Process.step P) s events = s' at hreal hkept ⊢
      cases e with
      | call i =>
          have hi : i.2.KeysOnce := hevents i (by simp)
          obtain ⟨d'', hstep, hnext, hnamed⟩ := hreal.exists_answered (P := P) hkept hi
          refine ⟨_, d'', List.rel_append hanswers (.cons .call .nil), hruns.concat hstep, hnext, ?_, ?_⟩
          · intro k
            exact (s'.mandate.step_change P s'.cfg i.1 i.2 k).keysOnce hi (hkept k)
          · intro hfits hnames
            exact hnamed (hfit hfits fun j hj => hnames j (List.mem_append_left _ hj))
              (hnames i (by simp))
      | restart cfg' =>
          exact ⟨_, _, List.rel_append hanswers (.cons .restart .nil), hruns.concat .restart,
            Realises.restarted hreal.idle hreal.mirrors hreal.reads, hkept,
            fun hfits hnames => hfit hfits fun j hj => hnames j (List.mem_append_left _ hj)⟩

/-- **Every run happens on disk.**  Over an empty directory a process can be called and restarted
in any way in which grants are dictionaries of a program and identities have a file, and answers
every call as it does over an empty ledger; the files then read back as that ledger, and the file
system has room for their names. -/
theorem exists_run (cfg : Config) {events : List Event}
    (h : ∀ i, Event.call i ∈ events → i.2.KeysOnce)
    (hnames : ∀ i, Event.call i ∈ events → ∀ k, i.2.identity = some k → Nameable k) :
    ∃ turns d, List.Forall₂ Turn.Answers turns
        (Run.trace (Process.step P) ⟨cfg, .new P fun _ => none⟩ events) ∧
      (init P cfg).Runs P turns d ∧ d.Realises (Process.after P cfg (fun _ => none) events) ∧
      d.Fits := by
  obtain ⟨turns, d, hanswers, hruns, hreal, -, hfit⟩ :=
    (realises_init P cfg).exists_runs (fun _ => Record.keysOnce_blank) h
  have hempty : (init P cfg).Fits := fun name hname => absurd hname (AList.notMem_empty name)
  exact ⟨turns, d, hanswers, hruns, hreal, hfit hempty hnames⟩

/-! ## What survives -/

theorem Runs.split {before later : List Turn} (h : d.Runs P (before ++ later) d') :
    ∃ between, d.Runs P before between ∧ between.Runs P later d' := by
  induction later using List.reverseRecOn generalizing d' with
  | nil =>
      rw [List.append_nil] at h
      exact ⟨d', h, .nil⟩
  | append_singleton later turn ih =>
      rw [← List.append_assoc] at h
      generalize hturns : before ++ later ++ [turn] = turns at h
      cases h with
      | nil => simp at hturns
      | concat hruns hstep =>
          obtain ⟨heq, hlast⟩ := List.append_inj' hturns rfl
          subst heq
          obtain rfl := List.singleton_inj.mp hlast
          obtain ⟨between, hbefore, hlater⟩ := ih hruns
          exact ⟨between, hbefore, hlater.concat hstep⟩

theorem Runs.step_of_singleton {turn : Turn} (h : d.Runs P [turn] d') : d.Step P turn d' := by
  generalize hturns : [turn] = turns at h
  cases h with
  | nil => cases hturns
  | @concat turns _ _ turn' hruns hstep =>
      obtain ⟨rfl, hlast⟩ := @List.append_inj' _ [] [turn] turns [turn'] hturns rfl
      obtain rfl := List.singleton_inj.mp hlast
      generalize hnil : ([] : List Turn) = turns at hruns
      cases hruns with
      | nil => exact hstep
      | concat => simp at hnil

/-- What a caller is told is what the process says, over a store that takes the write or not. -/
theorem Realises.reply_of_answered (h : Realises d s) {t : Moment} {c : Call} {reply : Reply}
    (hstep : d.Step P (.answered (t, c) reply) d') :
    reply = (s.mandate.step P s.cfg (t, c)).1 ∧ d'.Realises (s.step P (.call (t, c))).2 ∨
      reply = (s.mandate.serve P s.cfg t.refused c).1 := by
  obtain ⟨part, hpart, htrace, hnext⟩ := h.step hstep
  cases hpart with
  | called => exact .inl ⟨(Option.some.inj (Prod.mk.inj (List.singleton_inj.mp htrace)).2).symm, hnext⟩
  | refused => exact .inr (Option.some.inj (Prod.mk.inj (List.singleton_inj.mp htrace)).2).symm

/-- A record that is not the blank one is on disk, settled. -/
theorem Realises.readRecord_eq (h : Realises d s) {k : Bytes} (hne : s.mandate.record k ≠ .blank) :
    d.store.readRecord k = .ok (some (s.mandate.record k).settled) := by
  have hreads : d.store.readRecord k = .ok ((s.mandate.ledger k).map Record.settled) := h.reads k
  rw [Mandate.record] at hne ⊢
  cases hm : s.mandate.ledger k with
  | none =>
      rw [hm] at hne
      exact absurd rfl hne
  | some r =>
      rw [hm] at hreads
      exact hreads

/-- A record on disk is that of the ledger, settled. -/
theorem Realises.settled_eq (h : Realises d s) {k : Bytes} {r : Record}
    (hr : d.store.readRecord k = .ok (some r)) : (s.mandate.record k).settled = r := by
  have hreads : d.store.readRecord k = .ok ((s.mandate.ledger k).map Record.settled) := h.reads k
  obtain ⟨r', hr', hsettled⟩ := Option.map_eq_some_iff.mp (Except.ok.inj (hreads.symm.trans hr))
  rw [Mandate.record, hr']
  exact hsettled

end Deployment

/-! ### A revocation -/

/-- A revoked record stays revoked. -/
theorem Change.stays_revoked {reply : Reply} {r' : Record} (h : Change P cfg m t k c reply r')
    (hr : (m.record k).revoked = true) : r'.revoked = true := by
  cases h with
  | enrolled => exact hr
  | revoked => rfl
  | transferred => exact hr
  | presented => exact hr
  | noted _ hn => rw [hn.revoked, hr]
  | same => exact hr

/-- What a presentation of a revoked identity is answered. -/
theorem Mandate.serve_present_of_revoked (hr : (m.record k).revoked = true) (env : Env)
    (ctx exporter : Bytes) (msg : Json) (head : Option Bytes) (bundle : Option Json) :
    (m.serve P cfg env (.present k ctx exporter msg head bundle)).1 =
        .decision ⟨false, "identity revoked", none⟩ ∨
      ∃ x, msg.item "counter" = .error x ∧
        (m.serve P cfg env (.present k ctx exporter msg head bundle)).1 = .raised x := by
  simp only [serve, present, appraise, appraiseWith, hr, if_true, refuse]
  cases msg.item "counter" with
  | error x => exact .inr ⟨x, rfl, rfl⟩
  | ok _ => exact .inl rfl

/-- What a transfer of it is answered. -/
theorem Mandate.serve_acceptTransfer_of_revoked (hr : (m.record k).revoked = true) (env : Env)
    (grant : Json) (sig : Bytes) :
    (m.serve P cfg env (.acceptTransfer k grant sig)).1 =
      .decision ⟨false, "identity revoked", none⟩ := by
  simp only [serve, acceptTransfer, checkGrant, hr, if_true]
  rfl

namespace Deployment

variable {d d' : Deployment} {s : Process}

/-- What is promised of an identity that was revoked, by what is on disk. -/
structure Revoked (P : Primitives) (k : Bytes) (d : Deployment) : Prop where
  onDisk : ∃ r, d.store.readRecord k = .ok (some r) ∧ r.revoked = true
  notPresented : ∀ t ctx exporter msg head bundle reply d',
    d.Step P (.answered (t, .present k ctx exporter msg head bundle) reply) d' →
      reply = .decision ⟨false, "identity revoked", none⟩ ∨
        ∃ x, msg.item "counter" = .error x ∧ reply = .raised x
  notMoved : ∀ t grant sig reply d', d.Step P (.answered (t, .acceptTransfer k grant sig) reply) d' →
    reply = .decision ⟨false, "identity revoked", none⟩

theorem Realises.revoked (h : Realises d s) {k : Bytes} (hr : (s.mandate.record k).revoked = true) :
    d.Revoked P k where
  onDisk := by
    refine ⟨_, h.readRecord_eq ?_, hr⟩
    intro hblank
    rw [hblank] at hr
    cases hr
  notPresented t ctx exporter msg head bundle reply d' hstep := by
    rcases h.reply_of_answered hstep with ⟨hreply, -⟩ | hreply
    · rw [hreply, ← serve_env]
      exact serve_present_of_revoked hr ..
    · rw [hreply]
      exact serve_present_of_revoked hr ..
  notMoved t grant sig reply d' hstep := by
    rcases h.reply_of_answered hstep with ⟨hreply, -⟩ | hreply
    · rw [hreply, ← serve_env]
      exact serve_acceptTransfer_of_revoked hr ..
    · rw [hreply]
      exact serve_acceptTransfer_of_revoked hr ..

/-- A revocation that is answered with success is in the ledger. -/
theorem Realises.revoked_of_answered (h : Realises d s) {t : Moment} {k : Bytes} {reason : String}
    {reply : Reply} (hstep : d.Step P (.answered (t, .revoke k reason) reply) d')
    (hok : reply.accepted = true) :
    ∃ s', Realises d' s' ∧ (s'.mandate.record k).revoked = true := by
  rcases h.reply_of_answered hstep with ⟨-, hnext⟩ | hreply
  · refine ⟨_, hnext, ?_⟩
    rw [Process.step_call, step_revoke, record_recordDecision, record_put_self]
    rfl
  · have hraised : (s.mandate.serve P s.cfg t.refused (.revoke k reason)).1 = .raised .osError := by
      rw [Mandate.serve, revoke, revokeWith, @save_of_not_putOk _ t.refused _ rfl]
      rfl
    rw [hreply, hraised] at hok
    cases hok

/-- **A revocation survives.**  Once a revocation of `k` was answered with success, the record on
disk says so after whatever follows: calls, writes that fail, crashes within a write, and restarts
with any arguments; and no presentation or transfer of `k` is ever accepted again. -/
theorem revocation_survives (cfg : Config) {before later : List Turn} {t : Moment} {k : Bytes}
    {reason : String} {reply : Reply} (hok : reply.accepted = true)
    (hruns : (init P cfg).Runs P (before ++ .answered (t, .revoke k reason) reply :: later) d) :
    d.Revoked P k := by
  rw [← List.singleton_append] at hruns
  obtain ⟨d₁, hbefore, hrest⟩ := hruns.split
  obtain ⟨d₂, hrevoke, hlater⟩ := hrest.split
  obtain ⟨_, -, -, hreal⟩ := (realises_init P cfg).runs hbefore
  obtain ⟨s, hs, hrevoked⟩ := hreal.revoked_of_answered hrevoke.step_of_singleton hok
  obtain ⟨parts, -, -, hend⟩ := hs.runs hlater
  apply hend.revoked
  exact Process.record_relation (R := fun r r' => r.revoked = true → r'.revoked = true) (fun _ => id)
    (fun _ _ _ h h' => h' ∘ h) (fun _ _ _ _ _ _ hch => hch.stays_revoked) s _ hrevoked

/-- The call a turn is about. -/
def Turn.call? : Turn → Option (Moment × Call)
  | .answered i _ => some i
  | .cut i _ => some i
  | .restart _ => none

/-- A call that was made was made in a turn. -/
theorem Turn.exists_of_mem {turns : List Turn} {parts : List (List (Incident × Option Reply))}
    (h : List.Forall₂ Turn.Is turns parts) {i : Moment × Call}
    (hi : .call i ∈ parts.flatten.map Prod.fst) : ∃ turn ∈ turns, turn.call? = some i := by
  induction h with
  | nil => simp at hi
  | cons his _ ih =>
      rw [List.flatten_cons, List.map_append, List.mem_append] at hi
      rcases hi with hfirst | hrest
      · refine ⟨_, List.mem_cons_self, ?_⟩
        cases his <;> simp at hfirst <;> rw [hfirst] <;> rfl
      · obtain ⟨turn, hmem, hcall⟩ := ih hrest
        exact ⟨turn, List.mem_cons_of_mem _ hmem, hcall⟩

/-- A turn asks for a move of `k` to an instance, with a grant for it that `authority` signed. -/
structure Turn.Moves (P : Primitives) (k authority inst : Bytes) (t : Moment) (fields : List (String × Json))
    (sig : Bytes) (turn : Turn) : Prop where
  call : turn.call? = some (t, .acceptTransfer k (.obj fields) sig)
  identity : (Json.getD fields "tik" .null).eqStr (Bytes.hex k) = true
  signed : Transfer.verifyGrant P authority (.obj fields) sig = .ok ()
  destination : Json.getD fields "to" .null = .str (Bytes.hex inst)

end Deployment

/-! ### Custody -/

/-- What brings an identity to an instance: it was not enrolled, or it is moved there by a grant that
its authority signed. -/
def Process.Moves (P : Primitives) (k inst : Bytes) (s : Process) (i : Incident) : Prop :=
  (s.mandate.record k).enrolledInstance = none ∨
    ∃ t fields sig w, i = .call (t, .acceptTransfer k (.obj fields) sig) ∧
      Grants P s.cfg t.env (s.mandate.record k) k (.obj fields) sig fields inst w

/-- Nothing else does. -/
theorem Process.moves_of_endure {s : Process} {i : Incident} {k inst : Bytes}
    (h : ((s.endure P i).2.mandate.record k).enrolledInstance = some inst) :
    s.Moves P k inst i ∨ (s.mandate.record k).enrolledInstance = some inst := by
  rcases s.record_endure i k with ⟨t, c, rfl, hch⟩ | heq
  · generalize (s.mandate.step P s.cfg (t, c)).1 = reply,
      (s.endure P (.call (t, c))).2.mandate.record k = r' at hch h
    cases hch with
    | enrolled henr => exact .inl (.inl henr.fresh)
    | revoked => exact .inr h
    | @transferred grant sig fields toInstance w nonce hg =>
        obtain rfl := hg.object
        obtain rfl := Option.some.inj h
        exact .inl (.inr ⟨t, fields, sig, w, rfl, hg⟩)
    | presented => exact .inr h
    | noted _ hn => exact .inr (hn.enrolledInstance ▸ h)
    | same => exact .inr h
  · exact .inr (heq ▸ h)

variable (P) in
/-- What a run of incidents keeps of an identity that is enrolled. -/
theorem Process.enrolled_endure {s : Process} {k : Bytes} (h : (s.mandate.record k).enrolledInstance.isSome)
    (incidents : List Incident) :
    ((Run.exec (endure P) s incidents).mandate.record k).enrolledInstance.isSome ∧
      ((Run.exec (endure P) s incidents).mandate.record k).transferAuthority =
        (s.mandate.record k).transferAuthority :=
  Process.record_relation
    (R := fun r r' => r.enrolledInstance.isSome →
      r'.enrolledInstance.isSome ∧ r'.transferAuthority = r.transferAuthority)
    (fun _ h => ⟨h, rfl⟩)
    (fun _ _ _ h h' hr => ⟨(h' (h hr).1).1, (h' (h hr).1).2.trans (h hr).2⟩)
    (fun _ _ _ _ _ _ hch => hch.enrolled_stays) s incidents h

variable (P) in
/-- A history of moves stays contiguous. -/
theorem Process.contiguous_endure {s : Process} {k : Bytes}
    (h : Contiguous (s.mandate.record k).transfers (s.mandate.record k).enrolledInstance)
    (incidents : List Incident) :
    Contiguous ((Run.exec (endure P) s incidents).mandate.record k).transfers
      ((Run.exec (endure P) s incidents).mandate.record k).enrolledInstance :=
  Process.record_relation
    (R := fun r r' => Contiguous r.transfers r.enrolledInstance → Contiguous r'.transfers r'.enrolledInstance)
    (fun _ => id) (fun _ _ _ h h' => h' ∘ h) (fun _ _ _ _ _ _ hch => hch.contiguous) s incidents h

/-- Where an identity is that was on another instance before, its authority has moved it. -/
theorem Process.moved_endure {s : Process} {k inst inst' : Bytes}
    (h : (s.mandate.record k).enrolledInstance = some inst) (hne : inst' ≠ inst)
    {incidents : List Incident}
    (h' : ((Run.exec (endure P) s incidents).mandate.record k).enrolledInstance = some inst') :
    ∃ t fields sig authority, .call (t, .acceptTransfer k (.obj fields) sig) ∈ incidents ∧
      (s.mandate.record k).transferAuthority = some authority ∧
      (Json.getD fields "tik" .null).eqStr (Bytes.hex k) = true ∧
      Transfer.verifyGrant P authority (.obj fields) sig = .ok () ∧
      Json.getD fields "to" .null = .str (Bytes.hex inst') := by
  rcases Run.origin (endure P) (fun s => (s.mandate.record k).enrolledInstance = some inst')
      (Moves P k inst') (fun _ _ => True)
      (fun s i hi => (moves_of_endure hi).imp_right fun hT => ⟨hT, trivial⟩) h' with
    ⟨hno, -⟩ | ⟨pre, i, post, rfl, hmoves, -⟩
  · exact absurd (Option.some.inj (hno.symm.trans h)) hne
  · obtain ⟨hsome, hauthority⟩ := enrolled_endure P (Option.isSome_of_eq_some h) pre
    rcases hmoves with hnone | ⟨t, fields, sig, w, rfl, hg⟩
    · rw [hnone] at hsome
      cases hsome
    · obtain ⟨authority, hsigned, hverified⟩ := hg.signed
      obtain ⟨toHex, hto, -, hfind⟩ := hg.destination
      have hhex := List.find?_some hfind
      simp only [Bool.and_eq_true, decide_eq_true_eq, hg.inst_eq] at hhex
      refine ⟨t, fields, sig, authority, by simp, hauthority ▸ hsigned, hg.identity, hverified, ?_⟩
      rw [hto, hhex.1]

/-- Reading a record back does not change its history. -/
theorem Contiguous.settled {r : Record} (h : Contiguous r.transfers r.enrolledInstance) :
    Contiguous r.settled.transfers r.settled.enrolledInstance where
  linked := by
    rw [Record.settled, List.isChain_map]
    exact h.linked
  ends last hlast := by
    rw [Record.settled, List.getLast?_map] at hlast
    obtain ⟨old, hold, rfl⟩ := Option.map_eq_some_iff.mp hlast
    exact h.ends old hold

namespace Deployment

variable {d d' : Deployment}

/-- **What is on disk of an identity**, when `r` was, and it was enrolled on `inst`, before some
turns.  It names the same authority, its history of moves is contiguous, and it says the same
instance, or one to which a grant signed by that authority asked to move it. -/
structure InCustody (P : Primitives) (k inst : Bytes) (r : Record) (turns : List Turn) (d : Deployment)
    (r' : Record) : Prop where
  onDisk : d.store.readRecord k = .ok (some r')
  authority : r'.transferAuthority = r.transferAuthority
  contiguous : Contiguous r'.transfers r'.enrolledInstance
  enrolled : r'.enrolledInstance = some inst ∨
    ∃ inst' authority t fields sig turn, r'.enrolledInstance = some inst' ∧
      r.transferAuthority = some authority ∧ turn ∈ turns ∧
      turn.Moves P k authority inst' t fields sig

/-- **Custody survives.**  An identity that is enrolled on disk stays in custody, whatever follows:
calls, writes that fail, crashes within a write, and restarts with any arguments. -/
theorem custody_survives (cfg : Config) {before later : List Turn} {k inst : Bytes} {r : Record}
    (hbefore : (init P cfg).Runs P before d) (hlater : d.Runs P later d')
    (hr : d.store.readRecord k = .ok (some r)) (henrolled : r.enrolledInstance = some inst) :
    ∃ r', InCustody P k inst r later d' r' := by
  obtain ⟨parts, -, -, hreal⟩ := (realises_init P cfg).runs hbefore
  have hblank : Contiguous (Record.blank).transfers (Record.blank).enrolledInstance :=
    ⟨.nil, fun _ h => nomatch h⟩
  have hborn := @Process.contiguous_endure P ⟨cfg, .new P fun _ => none⟩ k hblank
    (parts.flatten.map Prod.fst)
  generalize Run.exec (Process.endure P) ⟨cfg, .new P fun _ => none⟩ (parts.flatten.map Prod.fst) = s
    at hreal hborn
  obtain ⟨parts', hparts, -, hend⟩ := hreal.runs hlater
  have hsettled := hreal.settled_eq hr
  have hinst : (s.mandate.record k).enrolledInstance = some inst := by
    rw [← henrolled, ← hsettled]
    rfl
  have hauthority : (s.mandate.record k).transferAuthority = r.transferAuthority := by
    rw [← hsettled]
    rfl
  obtain ⟨hsome, hkept⟩ := Process.enrolled_endure P (Option.isSome_of_eq_some hinst)
    (parts'.flatten.map Prod.fst)
  have hchain := Process.contiguous_endure P hborn (parts'.flatten.map Prod.fst)
  have hmoved := @Process.moved_endure P s k inst
  generalize hs' : Run.exec (Process.endure P) s (parts'.flatten.map Prod.fst) = s'
    at hend hsome hkept hchain
  refine ⟨_, hend.readRecord_eq ?_, hkept.trans hauthority, hchain.settled, ?_⟩
  · intro hblank
    rw [hblank] at hsome
    cases hsome
  · obtain ⟨inst', hinst'⟩ := Option.isSome_iff_exists.mp hsome
    by_cases hne : inst' = inst
    · rw [hne] at hinst'
      exact .inl hinst'
    · obtain ⟨t, fields, sig, authority, hcall, hsigner, hidentity, hverified, hto⟩ :=
        hmoved hinst hne (by rw [hs']; exact hinst')
      obtain ⟨turn, hturn, hcall⟩ := Turn.exists_of_mem hparts hcall
      exact .inr ⟨inst', authority, t, fields, sig, turn, hinst', hauthority ▸ hsigner, hturn, hcall,
        hidentity, hverified, hto⟩

section Witness

open Tee

/-- The second chip shows itself, and the owner moves the identity there. -/
def migration : List Event :=
  [.call (opening teeB [1] [2] 2), .call (move teeB (some teeA.inst) false [1] 4)]

theorem keysOnce_birth : ∀ i, Event.call i ∈ (birth (some owner)).map Event.call → i.2.KeysOnce := by
  intro i hi
  simp only [birth, List.map_cons, List.map_nil, List.mem_cons, Event.call.injEq, List.not_mem_nil,
    or_false] at hi
  rcases hi with rfl | rfl
  · trivial
  · trivial

theorem keysOnce_migration : ∀ i, Event.call i ∈ migration → i.2.KeysOnce := by
  intro i hi
  simp only [migration, List.mem_cons, Event.call.injEq, List.not_mem_nil, or_false] at hi
  rcases hi with rfl | rfl
  · trivial
  · have hnonempty : teeA.inst ≠ [] := by decide
    simp [move, Call.KeysOnce, Json.KeysOnce, Json.KeysOnceFields, Transfer.grantFields, hnonempty]

/-- An identity that is born on disk is in custody after it was moved. -/
theorem custody_survives_migration : ∃ before later d d' r r',
    (init .plain twoChips).Runs .plain before d ∧ d.Runs .plain later d' ∧
      d.store.readRecord tik = .ok (some r) ∧ InCustody .plain tik teeA.inst r later d' r' := by
  obtain ⟨before, d, -, hbefore, hreal, hkeys, -⟩ :=
    (realises_init .plain twoChips).exists_runs (fun _ => Record.keysOnce_blank) keysOnce_birth
  obtain ⟨later, d', -, hlater, -⟩ := hreal.exists_runs hkeys keysOnce_migration
  have hborn : (Run.exec (Process.step .plain) ⟨twoChips, .new .plain fun _ => none⟩
      ((birth (some owner)).map Event.call)).mandate.record tik = bornOnA (some owner) := by
    have hafter := Process.after_calls (P := .plain) twoChips (fun _ => none) (birth (some owner))
    rw [Process.after] at hafter
    rw [hafter, record_birth trustsChips]
  have hwritten : bornOnA (some owner) ≠ Record.blank := by
    intro hblank
    have hinst := congrArg Record.enrolledInstance hblank
    simp [bornOnA, Record.blank] at hinst
  have hdisk := hreal.readRecord_eq (k := tik) (by rwa [hborn])
  rw [hborn] at hdisk
  obtain ⟨r', hr'⟩ := custody_survives twoChips hbefore hlater hdisk rfl
  exact ⟨before, later, d, d', _, r', hbefore, hlater, hdisk, hr'⟩

/-- A revocation, and a restart. -/
def revocation : List Event := [.call (instant 1, .revoke tik "lost"), .restart twoChips]

theorem keysOnce_revocation : ∀ i, Event.call i ∈ revocation → i.2.KeysOnce := by
  intro i hi
  simp only [revocation, List.mem_cons, Event.call.injEq, List.not_mem_nil, or_false, reduceCtorEq] at hi
  rw [hi]
  trivial

/-- It happens on disk. -/
theorem exists_run_revocation : ∃ turns d, List.Forall₂ Turn.Answers turns
      (Run.trace (Process.step .plain) ⟨twoChips, .new .plain fun _ => none⟩ revocation) ∧
    (init .plain twoChips).Runs .plain turns d ∧
      d.Realises (Process.after .plain twoChips (fun _ => none) revocation) ∧ d.Fits := by
  apply exists_run twoChips keysOnce_revocation
  intro i hi k hk
  simp only [revocation, List.mem_cons, Event.call.injEq, List.not_mem_nil, or_false, reduceCtorEq] at hi
  subst hi
  obtain rfl := Option.some.inj hk
  decide

/-- The revocation is answered, and the process is restarted. -/
theorem runs_revocation : ∃ reply d, reply.accepted = true ∧
    (init .plain twoChips).Runs .plain
      ([] ++ .answered (instant 1, .revoke tik "lost") reply :: [.restart twoChips]) d := by
  obtain ⟨turns, d, hanswers, hruns, -⟩ :=
    (realises_init .plain twoChips).exists_runs (fun _ => Record.keysOnce_blank) keysOnce_revocation
  rw [revocation, Run.trace_cons, Run.trace_cons, Run.trace_nil, Process.step_call, step_revoke] at hanswers
  obtain ⟨_, _, hfirst, hmore, rfl⟩ := List.forall₂_cons_right_iff.mp hanswers
  obtain ⟨_, _, hsecond, hnil, rfl⟩ := List.forall₂_cons_right_iff.mp hmore
  obtain rfl := List.forall₂_nil_right_iff.mp hnil
  cases hfirst
  cases hsecond
  exact ⟨_, d, rfl, hruns⟩

/-- It survives the restart. -/
theorem revocation_survives_restart : ∃ reply d, reply.accepted = true ∧
    (init .plain twoChips).Runs .plain
      ([] ++ .answered (instant 1, .revoke tik "lost") reply :: [.restart twoChips]) d ∧
    d.Revoked .plain tik := by
  obtain ⟨reply, d, hok, hruns⟩ := runs_revocation
  exact ⟨reply, d, hok, hruns, revocation_survives twoChips hok hruns⟩

end Witness

end Deployment

end Hatls
