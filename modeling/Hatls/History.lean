import Hatls.Heads
import Hatls.Replay

/-!
# The history behind one signing key

The heads a mandate signs while it runs and is restarted, and whether it can show of
two of them that one extends the other.  Within one process the log only grows, so it
can, unless the older head is that of the empty log: no proof of that is ever
accepted.  The log is not in the store: a process that is restarted once its log has
entries signs a second history with the same key.

## Main definitions

* `Offers` — the proofs a mandate can give.
* `honest_heads_believed_iff` — the heads of one process.
* `Process`, `Event`, `Process.step`, `Signed` — restarts, and the heads that are signed.
* `one_history` — the heads of all processes.
-/

namespace Hatls

open Mandate Heads

variable {P : Primitives} {cfg : Config}

/-! ## One process -/

/-- The log only grows. -/
theorem entries_step (m : Mandate) (i : Moment × Call) :
    m.merkle.entries <+: (m.step P cfg i).2.merkle.entries := by
  obtain ⟨t, c⟩ := i
  rcases m.step_log P cfg t c with ⟨hm, -, -⟩ | ⟨e, env, hm, -, -⟩
  · rw [hm]
  · rw [hm, MerkleLog.entries_append]
    exact List.prefix_append _ _

/-- What a mandate can give to show that its log extends the one of a size: the proof
it generates, or an empty list. -/
def Offers (P : Primitives) (m : Mandate) (size : ℕ) (proof : Json) : Prop :=
  proof = .arr [] ∨ m.proveExtension P size = .ok proof

theorem offers_iff {m : Mandate} {size : ℕ} {proof : Json} :
    Offers P m size proof ↔ Offered P m.merkle.entries size proof := by
  simp only [Offers, Offered, proveExtension, MerkleLog.proveConsistency]
  cases Log.consistencyProof P m.merkle.entries size <;>
    simp [Except.map, hexList, eq_comm]

/-- Two states of which the later has the earlier log and more. -/
theorem offers_believed_iff {m m' : Mandate} (hlog : m.merkle.entries <+: m'.merkle.entries)
    {key : Bytes} (rnd rnd' : Bytes) (t t' : ℤ) :
    (∃ proof, Offers P m' m.merkle.size proof ∧
      Believed P (P.ecdsa.publicKey key)
        (Receipt.signSth P key rnd m.merkle.size (m.merkle.head P) t)
        (Receipt.signSth P key rnd' m'.merkle.size (m'.merkle.head P) t')
        m.merkle.size (m.merkle.head P) proof) ↔
      1 ≤ m.merkle.size ∨ m.merkle.size = m'.merkle.size := by
  have hle : m.merkle.size ≤ m'.merkle.size := hlog.length_le
  have htake := List.prefix_iff_eq_take.mp hlog
  have hcore := exists_offered_shows_iff P hle
  rw [MerkleLog.size, ← htake] at hcore
  simp only [offers_iff, believed_iff P key rnd rnd' t t' _ hle]
  exact hcore

/-- Logs in order of their sizes are in order, where they are comparable. -/
theorem prefix_of_length_le {A B : List Bytes} (h : A <+: B ∨ B <+: A) (hlen : A.length ≤ B.length) :
    A <+: B := by
  rcases h with h | h
  · exact h
  · rw [h.eq_of_length_le hlen]

theorem entries_after {ledger : Bytes → Option Record} {p q : List (Moment × Call)} (h : p <+: q) :
    (after P cfg ledger p).merkle.entries <+: (after P cfg ledger q).merkle.entries :=
  Run.relation_of_prefix (Q := fun _ _ => True)
    (R := fun m m' : Mandate => m.merkle.entries <+: m'.merkle.entries) (step P cfg)
    (fun _ => List.prefix_rfl) (fun _ _ _ => List.IsPrefix.trans) (fun m i _ => entries_step m i)
    ((Run.along_const _).mpr fun _ _ => trivial) List.prefix_rfl h

/-- **No false accusation, but of a log that was empty.**  Of two heads signed in one run,
at sizes `a ≤ b`, the mandate has a proof to give that all three checks accept, if and
only if `1 ≤ a` or `a = b`. -/
theorem honest_heads_believed_iff (ledger : Bytes → Option Record) {run p q : List (Moment × Call)}
    (hp : p <+: run) (hq : q <+: run) (env env' : Env) :
    let m := after P cfg ledger p
    let m' := after P cfg ledger q
    m.merkle.size ≤ m'.merkle.size →
    ((∃ proof, Offers P m' m.merkle.size proof ∧
      Believed P (publicKey P cfg) (m.sth P cfg env) (m'.sth P cfg env') m.merkle.size
        (m.merkle.head P) proof) ↔ 1 ≤ m.merkle.size ∨ m.merkle.size = m'.merkle.size) := by
  intro m m' hsize
  have hlog : m.merkle.entries <+: m'.merkle.entries :=
    prefix_of_length_le ((List.prefix_or_prefix_of_prefix hp hq).imp entries_after entries_after) hsize
  exact offers_believed_iff hlog env.rnd env'.rnd env.time env'.time

/-- The head of the empty log is held against any later one, whatever is offered. -/
theorem accused_of_empty {m m' : Mandate} (hm : m.merkle.size = 0) (hm' : 0 < m'.merkle.size)
    (env env' : Env) (proof proof' : Json) :
    Accused P (publicKey P cfg) (m.sth P cfg env) (m'.sth P cfg env') m.merkle.size
      (m.merkle.head P) proof proof' := by
  refine accused_of_not_shows P cfg.signingKey env.rnd env'.rnd env.time env'.time proof proof'
    (by omega) (fun h => by omega) ?_
  rintro ⟨p, -, hp⟩
  rcases Log.verifyConsistency_range hp with heq | ⟨hpos, -⟩
  · omega
  · omega

/-- Two heads of one size with different roots are held against each other. -/
theorem accused_of_head_ne {m m' : Mandate} (hsize : m.merkle.size = m'.merkle.size)
    (hne : m.merkle.head P ≠ m'.merkle.head P) (env env' : Env) (proof proof' : Json) :
    Accused P (publicKey P cfg) (m.sth P cfg env) (m'.sth P cfg env') m.merkle.size
      (m.merkle.head P) proof proof' := by
  refine accused_of_not_shows P cfg.signingKey env.rnd env'.rnd env.time env'.time proof proof'
    hsize.le (fun _ => hne) fun h => hne ?_
  rw [← hsize] at h
  exact shows_self P _ h

section Revocations

open Tee

/-- A decision on the record. -/
def revocation (reason : String) (now : ℕ) : Moment × Call := (instant now, .revoke tik reason)

theorem entries_revocation (m : Mandate) (reason : String) (now : ℕ) :
    (m.step .plain twoChips (revocation reason now)).2.merkle.entries = m.merkle.entries ++
      [Receipt.makeEntry .plain "revoke" tik true reason none now m.merkle.size] := by
  rw [revocation, step_revoke, merkle_recordDecision, MerkleLog.entries_append, time_instant]
  rfl

theorem entries_first_revocation {m : Mandate} (h : m.merkle.entries = []) (reason : String)
    (now : ℕ) :
    (m.step .plain twoChips (revocation reason now)).2.merkle.entries =
      [Receipt.makeEntry .plain "revoke" tik true reason none now 0] := by
  rw [entries_revocation, MerkleLog.size, h, List.nil_append, List.length_nil]

theorem size_revocation (m : Mandate) (reason : String) (now : ℕ) :
    (m.step .plain twoChips (revocation reason now)).2.merkle.size = m.merkle.size + 1 := by
  rw [MerkleLog.size, entries_revocation]
  simp [MerkleLog.size]

/-- After its first and its second decision, a mandate is believed. -/
theorem honest_heads_believed_twoChips :
    let m := after .plain twoChips (fun _ => none) [revocation "lost" 0]
    let m' := after .plain twoChips (fun _ => none) [revocation "lost" 0, revocation "stolen" 1]
    ∃ proof, Offers .plain m' m.merkle.size proof ∧
      Believed .plain (publicKey .plain twoChips) (m.sth .plain twoChips (instant 0).env)
        (m'.sth .plain twoChips (instant 1).env) m.merkle.size (m.merkle.head .plain) proof := by
  have hsize : (after .plain twoChips (fun _ => none) [revocation "lost" 0]).merkle.size = 1 := by
    rw [after, Run.exec_cons, Run.exec_nil, size_revocation]
    rfl
  have hsize' : (after .plain twoChips (fun _ => none)
      [revocation "lost" 0, revocation "stolen" 1]).merkle.size = 2 := by
    rw [after, Run.exec_cons, Run.exec_cons, Run.exec_nil, size_revocation, size_revocation]
    rfl
  have hprefix : [revocation "lost" 0] <+: [revocation "lost" 0, revocation "stolen" 1] :=
    ⟨[revocation "stolen" 1], rfl⟩
  exact (honest_heads_believed_iff (fun _ => none) hprefix
    List.prefix_rfl (instant 0).env (instant 1).env (by rw [hsize, hsize']; omega)).mpr
    (.inl (by rw [hsize]))

/-- **An honest mandate is accused** of equivocation between the head it signed before
its first decision and the one after it, whatever it offers. -/
theorem empty_head_accused :
    let m := after .plain twoChips (fun _ => none) []
    let m' := after .plain twoChips (fun _ => none) [revocation "lost" 0]
    m.merkle.size = 0 ∧ m'.merkle.size = 1 ∧ ∀ proof proof',
      Accused .plain (publicKey .plain twoChips) (m.sth .plain twoChips (instant 0).env)
        (m'.sth .plain twoChips (instant 1).env) m.merkle.size (m.merkle.head .plain) proof proof' := by
  have hsize : (after .plain twoChips (fun _ => none) []).merkle.size = 0 := rfl
  have hsize' : (after .plain twoChips (fun _ => none) [revocation "lost" 0]).merkle.size = 1 := by
    rw [after, Run.exec_cons, Run.exec_nil, size_revocation]
    rfl
  exact ⟨hsize, hsize', accused_of_empty hsize (by rw [hsize']; omega) _ _⟩

end Revocations

/-! ## All processes -/

namespace Process

/-- A restart is given the key the process had. -/
def SameKey (s : Process) (e : Event) : Prop :=
  ∀ cfg, e = .restart cfg → cfg.signingKey = s.cfg.signingKey

/-- A restart that loses entries of the log. -/
def Loses (s : Process) (e : Event) : Prop :=
  ∃ cfg, e = .restart cfg ∧ s.mandate.merkle.entries ≠ []

end Process

/-- The heads a process signs: when asked for one, in a receipt it is asked for, and in
the receipt it keeps of its last decision. -/
inductive Signed (P : Primitives) (s : Process) : Json → Prop
  | sth (env : Env) : Signed P s (s.mandate.sth P s.cfg env)
  | receipt (env : Env) (index : ℕ) {receipt head : Json}
      (h : s.mandate.receipt P s.cfg env index = .ok receipt) (hhead : receipt.item "sth" = .ok head) :
      Signed P s head
  | last {receipt head : Json} (h : s.mandate.lastReceipt = some receipt)
      (hhead : receipt.item "sth" = .ok head) : Signed P s head

/-- The receipt a process keeps holds its head. -/
def Kept (P : Primitives) (s : Process) : Prop :=
  ∀ receipt, s.mandate.lastReceipt = some receipt →
    ∃ env, receipt.item "sth" = .ok (s.mandate.sth P s.cfg env)

theorem receipt_sth {m : Mandate} {env : Env} {index : ℕ} {receipt : Json}
    (h : m.receipt P cfg env index = .ok receipt) : receipt.item "sth" = .ok (m.sth P cfg env) := by
  simp only [Mandate.receipt] at h
  split at h
  · cases h
  · cases hp : m.merkle.proveInclusion P index with
    | error x => simp [hp, Except.map] at h
    | ok proof =>
        simp only [hp, Except.map, Except.ok.injEq] at h
        subst h
        rfl

theorem kept_step {s : Process} (e : Event) (h : Kept P s) : Kept P (s.step P e).2 := by
  cases e with
  | restart cfg => rintro receipt ⟨⟩
  | call i =>
      obtain ⟨t, c⟩ := i
      intro receipt hr
      rcases s.mandate.step_log P s.cfg t c with ⟨hm, -, hlast⟩ | ⟨e, env, -, -, hlast⟩
      · obtain ⟨env, hsth⟩ := h receipt (hlast ▸ hr)
        refine ⟨env, hsth.trans ?_⟩
        simp only [Mandate.sth, Process.step, hm]
      · have hsome := hlast.symm.trans hr
        cases hrec : (s.mandate.step P s.cfg (t, c)).2.receipt P s.cfg env
            ((s.mandate.step P s.cfg (t, c)).2.merkle.size - 1) with
        | error x => simp [hrec, Except.toOption] at hsome
        | ok r =>
            simp only [hrec, Except.toOption, Option.some.injEq] at hsome
            rw [← hsome]
            exact ⟨env, receipt_sth hrec⟩

/-- A signed head is the head of the log at that moment. -/
theorem Signed.eq {s : Process} {head : Json} (hkept : Kept P s) (h : Signed P s head) :
    ∃ rnd t, head = Receipt.signSth P s.cfg.signingKey rnd s.mandate.merkle.size
      (s.mandate.merkle.head P) t := by
  cases h with
  | sth env => exact ⟨_, _, rfl⟩
  | receipt env index h hhead =>
      rw [receipt_sth h] at hhead
      exact ⟨_, _, (Except.ok.inj hhead).symm⟩
  | last h hhead =>
      obtain ⟨env, hsth⟩ := hkept _ h
      rw [hsth] at hhead
      exact ⟨_, _, (Except.ok.inj hhead).symm⟩

namespace Process

variable {ledger : Bytes → Option Record}

theorem kept_after (events : List Event) : Kept P (after P cfg ledger events) :=
  Run.exec_invariant' (step P) (Kept P) (fun s e => kept_step e) events (by rintro receipt ⟨⟩)

/-- One key, and a log that only grows. -/
structure Grows (s s' : Process) : Prop where
  key : s'.cfg.signingKey = s.cfg.signingKey
  entries : s.mandate.merkle.entries <+: s'.mandate.merkle.entries

theorem grows_step {s : Process} {e : Event} (hkey : SameKey s e) (hlose : ¬ Loses s e) :
    Grows s (s.step P e).2 := by
  cases e with
  | call i => exact ⟨rfl, entries_step s.mandate i⟩
  | restart cfg =>
      refine ⟨hkey cfg rfl, ?_⟩
      have hnil : s.mandate.merkle.entries = [] := by
        by_contra hne
        exact hlose ⟨cfg, rfl, hne⟩
      rw [hnil]
      exact List.nil_prefix

theorem grows_after {events p q : List Event}
    (hrun : Run.Along (step P) (fun s e => SameKey s e ∧ ¬ Loses s e) ⟨cfg, .new P ledger⟩ events)
    (hq : q <+: events) (h : p <+: q) : Grows (after P cfg ledger p) (after P cfg ledger q) :=
  Run.relation_of_prefix (R := Grows) (step P) (fun _ => ⟨rfl, List.prefix_rfl⟩)
    (fun _ _ _ h₁ h₂ => ⟨h₂.key.trans h₁.key, h₁.entries.trans h₂.entries⟩)
    (fun _ _ he => grows_step he.1 he.2) hrun hq h

end Process

/-- Two moments of a run, with what is promised of the heads signed then. -/
structure OneHistory (P : Primitives) (s s' : Process) : Prop where
  /-- The smaller log is the beginning of the larger. -/
  entries : s.mandate.merkle.entries <+: s'.mandate.merkle.entries
  /-- The mandate has a proof to give that all checks accept, if the smaller log has an
  entry or the sizes are equal. -/
  believed : (1 ≤ s.mandate.merkle.size ∨ s.mandate.merkle.size = s'.mandate.merkle.size) →
    ∀ head head', Signed P s head → Signed P s' head' →
      ∃ proof, Offers P s'.mandate s.mandate.merkle.size proof ∧
        Believed P (publicKey P s.cfg) head head' s.mandate.merkle.size (s.mandate.merkle.head P) proof

/-- **One signing key, one history**, in every sequence of calls and restarts with one
key of which no restart loses a log with entries. -/
theorem one_history (cfg : Config) (ledger : Bytes → Option Record) {events p q : List Event}
    (hkeys : Run.Along (Process.step P) Process.SameKey ⟨cfg, .new P ledger⟩ events)
    (hlose : Run.Along (Process.step P) (fun s e => ¬ Process.Loses s e) ⟨cfg, .new P ledger⟩ events)
    (hp : p <+: events) (hq : q <+: events)
    (hsize : (Process.after P cfg ledger p).mandate.merkle.size ≤
      (Process.after P cfg ledger q).mandate.merkle.size) :
    OneHistory P (Process.after P cfg ledger p) (Process.after P cfg ledger q) := by
  have hrun := Run.Along.and (Process.step P) hkeys hlose
  have hgrows := (List.prefix_or_prefix_of_prefix hp hq).imp (Process.grows_after hrun hq)
    (Process.grows_after hrun hp)
  have hlog := prefix_of_length_le (hgrows.imp (·.entries) (·.entries)) hsize
  have hkey : (Process.after P cfg ledger q).cfg.signingKey =
      (Process.after P cfg ledger p).cfg.signingKey := by
    rcases hgrows with h | h
    · exact h.key
    · exact h.key.symm
  refine ⟨hlog, fun hcond head head' hhead hhead' => ?_⟩
  obtain ⟨rnd, t, rfl⟩ := hhead.eq (Process.kept_after p)
  obtain ⟨rnd', t', rfl⟩ := hhead'.eq (Process.kept_after q)
  rw [hkey]
  exact (offers_believed_iff hlog rnd rnd' t t').mpr hcond

section Restarts

open Tee

/-- A restart before the first decision: the decisions after it are one history. -/
theorem one_history_twoChips :
    let s := Process.after .plain twoChips (fun _ => none)
      [.restart twoChips, .call (revocation "lost" 0)]
    let s' := Process.after .plain twoChips (fun _ => none)
      [.restart twoChips, .call (revocation "lost" 0), .call (revocation "stolen" 1)]
    OneHistory .plain s s' := by
  have hkeys : Run.Along (Process.step .plain) Process.SameKey ⟨twoChips, .new .plain fun _ => none⟩
      [.restart twoChips, .call (revocation "lost" 0), .call (revocation "stolen" 1)] :=
    ⟨by rintro cfg ⟨⟩; rfl, by rintro cfg ⟨⟩, by rintro cfg ⟨⟩, trivial⟩
  have hlose : Run.Along (Process.step .plain) (fun s e => ¬ Process.Loses s e)
      ⟨twoChips, .new .plain fun _ => none⟩
      [.restart twoChips, .call (revocation "lost" 0), .call (revocation "stolen" 1)] :=
    ⟨fun h => h.choose_spec.2 rfl, by rintro ⟨_, ⟨⟩, -⟩, by rintro ⟨_, ⟨⟩, -⟩, trivial⟩
  have hp : [Event.restart twoChips, .call (revocation "lost" 0)] <+:
      [.restart twoChips, .call (revocation "lost" 0), .call (revocation "stolen" 1)] :=
    ⟨[.call (revocation "stolen" 1)], rfl⟩
  have hgrows := Process.grows_after (Run.Along.and _ hkeys hlose) List.prefix_rfl hp
  exact one_history twoChips (fun _ => none) hkeys hlose hp List.prefix_rfl
    hgrows.entries.length_le

/-- **One key signs two histories.**  The first decision of a process and the first
after its restart are heads of one size with different roots: the prefix is lost, and
every proof leaves the mandate accused. -/
theorem two_histories :
    let s := Process.after .plain twoChips (fun _ => none) [.call (revocation "lost" 0)]
    let s' := Process.after .plain twoChips (fun _ => none)
      [.call (revocation "lost" 0), .restart twoChips, .call (revocation "stolen" 1)]
    s.mandate.merkle.size = 1 ∧ s'.mandate.merkle.size = 1 ∧
      ¬ s.mandate.merkle.entries <+: s'.mandate.merkle.entries ∧
      ∀ proof proof', Accused .plain (publicKey .plain twoChips)
        (s.mandate.sth .plain twoChips (instant 0).env)
        (s'.mandate.sth .plain twoChips (instant 1).env)
        s.mandate.merkle.size (s.mandate.merkle.head .plain) proof proof' := by
  intro s s'
  have hs : s.mandate.merkle.entries =
      [Receipt.makeEntry .plain "revoke" tik true "lost" none (0 : ℕ) 0] := by
    simp only [s, Process.after, Run.exec_cons, Run.exec_nil, Process.step]
    rw [entries_first_revocation (entries_new ..)]
  have hs' : s'.mandate.merkle.entries =
      [Receipt.makeEntry .plain "revoke" tik true "stolen" none (1 : ℕ) 0] := by
    simp only [s', Process.after, Run.exec_cons, Run.exec_nil, Process.step]
    rw [entries_first_revocation (entries_new ..)]
  have hroot : Log.root .plain [Receipt.makeEntry .plain "revoke" tik true "lost" none (0 : ℕ) 0] ≠
      Log.root .plain [Receipt.makeEntry .plain "revoke" tik true "stolen" none (1 : ℕ) 0] := by
    decide +kernel
  clear_value s s'
  have hsize : s.mandate.merkle.size = 1 := by rw [MerkleLog.size, hs]; rfl
  have hsize' : s'.mandate.merkle.size = 1 := by rw [MerkleLog.size, hs']; rfl
  have hne : s.mandate.merkle.head .plain ≠ s'.mandate.merkle.head .plain := by
    rwa [MerkleLog.head, MerkleLog.head, hs, hs']
  refine ⟨hsize, hsize', ?_, accused_of_head_ne (hsize.trans hsize'.symm) hne _ _⟩
  rw [hs, hs']
  exact fun h => hroot (congrArg (Log.root .plain) (h.eq_of_length (by simp)))

end Restarts

end Hatls
