import Hatls.History

/-!
# The log and the decisions

Every call that returns a decision is logged by exactly one entry, which says what was
decided and at which position of the log it stands.  Nothing else is logged, and nothing
logged is ever changed; the receipt for an entry is in order from the call on that made
it, at every later size of the log.

## Main definitions

* `decisions` — the decisions of a run, in call order.
* `Mirrors` — the entries of a log are those of a list of decisions.
* `Vouches` — a receipt that is in order.
* `log_mirrors_decisions` — the log of a run.
-/

namespace Hatls

open Mandate

variable {P : Primitives} {cfg : Config}

/-! ## Entries -/

/-- The entry of a decision at a position; the instance is the one thing a caller does
not see. -/
def Decision.IsLeaf (P : Primitives) (d : Decision) (seq : ℕ) (e : Bytes) : Prop :=
  ∃ inst, e = Receipt.makeEntry P d.kind d.tikPub d.accepted d.reason inst d.at_ seq

/-- Decisions at different positions have different entries. -/
theorem Decision.IsLeaf.seq_inj {d d' : Decision} {i j : ℕ} {e : Bytes} (h : d.IsLeaf P i e)
    (h' : d'.IsLeaf P j e) : i = j := by
  obtain ⟨inst, heq⟩ := h
  obtain ⟨inst', heq'⟩ := h'
  exact Receipt.makeEntry_seq_inj P (heq.symm.trans heq')

/-- The entries are those of the decisions, one for each, in order. -/
structure Mirrors (P : Primitives) (entries : List Bytes) (ds : List Decision) : Prop where
  length : entries.length = ds.length
  leaf : ∀ (i : ℕ) (d : Decision) (e : Bytes), ds[i]? = some d → entries[i]? = some e → d.IsLeaf P i e

namespace Mirrors

variable {entries : List Bytes} {ds : List Decision}

theorem nil : Mirrors P [] [] := ⟨rfl, fun i d e h => by simp at h⟩

theorem concat (h : Mirrors P entries ds) {d : Decision} {e : Bytes}
    (hleaf : d.IsLeaf P entries.length e) : Mirrors P (entries ++ [e]) (ds ++ [d]) := by
  constructor
  · rw [List.length_append, List.length_append, h.length]
    rfl
  · intro i d' e' hd he
    rcases Nat.lt_trichotomy i entries.length with hlt | rfl | hgt
    · rw [List.getElem?_append_left (h.length ▸ hlt)] at hd
      rw [List.getElem?_append_left hlt] at he
      exact h.leaf i d' e' hd he
    · rw [List.getElem?_concat_length] at he
      rw [h.length, List.getElem?_concat_length] at hd
      rw [← Option.some.inj hd, ← Option.some.inj he]
      exact hleaf
    · rw [List.getElem?_eq_none (by simp only [List.length_append, List.length_singleton]; omega)] at he
      exact nomatch he

/-- No two entries are equal. -/
theorem nodup (h : Mirrors P entries ds) : entries.Nodup := by
  rw [List.nodup_iff_pairwise_ne, List.pairwise_iff_getElem]
  intro i j hi hj hlt heq
  have hleaf : ∀ (n : ℕ) (hn : n < entries.length), ∃ d : Decision, d.IsLeaf P n entries[n] := by
    intro n hn
    have hds : ∃ d, ds[n]? = some d := ⟨_, List.getElem?_eq_getElem (h.length ▸ hn)⟩
    exact hds.imp fun d hd => h.leaf n d _ hd (List.getElem?_eq_getElem hn)
  obtain ⟨d, hd⟩ := hleaf i hi
  obtain ⟨d', hd'⟩ := hleaf j hj
  rw [heq] at hd
  exact absurd (hd.seq_inj hd') hlt.ne

end Mirrors

/-! ## Receipts -/

/-- A receipt for an entry at a position, which whoever holds it finds in order. -/
structure Vouches (P : Primitives) (cfg : Config) (receipt : Json) (index : ℕ) (e : Bytes) : Prop where
  entry : receipt.item "entry" = .ok (.str (Bytes.hex e))
  index : receipt.item "index" = .ok (.int index)
  verifies : ∀ describe, Receipt.verifyReceipt P describe (publicKey P cfg) receipt =
    .ok (true, "receipt verifies")

/-- The receipt of an entry, with a proof and a head. -/
def receiptOf (e : Bytes) (index : ℕ) (proof : List Bytes) (sth : Json) : Json :=
  .obj [("entry", .str (Bytes.hex e)), ("index", .int index), ("proof", hexList proof), ("sth", sth)]

section ReceiptOf

variable (e : Bytes) (index : ℕ) (proof : List Bytes) (sth : Json)

@[simp] theorem receiptOf_entry :
    (receiptOf e index proof sth).item "entry" = .ok (.str (Bytes.hex e)) := rfl

@[simp] theorem receiptOf_index : (receiptOf e index proof sth).item "index" = .ok (.int index) := rfl

@[simp] theorem receiptOf_proof : (receiptOf e index proof sth).item "proof" = .ok (hexList proof) := rfl

@[simp] theorem receiptOf_sth : (receiptOf e index proof sth).item "sth" = .ok sth := rfl

end ReceiptOf

/-- A receipt with a proof the verifier accepts, under a head the mandate signed. -/
theorem verifyReceipt_receiptOf {key : Bytes} {e root : Bytes} {index size : ℕ} {proof : List Bytes}
    (h : Log.verifyInclusion P e index size proof root = true) (describe : Exn → String)
    (rnd : Bytes) (t : ℤ) :
    Receipt.verifyReceipt P describe (P.ecdsa.publicKey key)
      (receiptOf e index proof (Receipt.signSth P key rnd size root t)) =
        .ok (true, "receipt verifies") := by
  have hincl : Receipt.inclusionOf P e (.int index) (.int size) proof root = .ok true := by
    rw [← h]
    rfl
  have hproof : Receipt.proofBytes (hexList proof) = .ok proof := Heads.proofBytes_hex proof
  simp [Receipt.verifyReceipt, hproof, hincl]

variable (cfg) in
/-- **Every entry has a receipt that is in order**, at any size of the log. -/
theorem receipt_vouches {m : Mandate} {i : ℕ} {e : Bytes} (h : m.merkle.entries[i]? = some e)
    (env : Env) : ∃ receipt, m.receipt P cfg env i = .ok receipt ∧ Vouches P cfg receipt i e := by
  obtain ⟨proof, hproof, hver⟩ := Log.verifyInclusion_inclusionProof P h
  have hreceipt : m.receipt P cfg env i = .ok (receiptOf e i proof (m.sth P cfg env)) := by
    simp only [receipt, h, MerkleLog.proveInclusion, hproof]
    rfl
  exact ⟨_, hreceipt, rfl, rfl, fun describe => verifyReceipt_receiptOf hver describe env.rnd env.time⟩

/-! ## Runs -/

/-- The decisions of a run, in call order. -/
def decisions (P : Primitives) (cfg : Config) (ledger : Bytes → Option Record)
    (run : List (Moment × Call)) : List Decision :=
  (Run.trace (step P cfg) (new P ledger) run).filterMap fun x => x.1.2.decision x.1.1 x.2

theorem decisions_concat (ledger : Bytes → Option Record) (run : List (Moment × Call))
    (i : Moment × Call) :
    decisions P cfg ledger (run ++ [i]) = decisions P cfg ledger run ++
      (i.2.decision i.1 ((after P cfg ledger run).step P cfg i).1).toList := by
  rw [decisions, Run.trace_append, List.filterMap_append]
  rfl

theorem lastReceipt_recordDecision (m : Mandate) (env : Env) (kind : String) (k : Bytes) (ok : Bool)
    (why : String) (inst : Option Bytes) :
    (m.recordDecision P cfg env kind k ok why inst).lastReceipt =
      ((m.recordDecision P cfg env kind k ok why inst).receipt P cfg env m.merkle.size).toOption := by
  have hsize : (m.merkle.append (Receipt.makeEntry P kind k ok why inst env.time
      m.merkle.size)).size - 1 = m.merkle.size := by
    rw [MerkleLog.size_append, Nat.add_sub_cancel]
  rw [← hsize]
  rfl

theorem at_of_decision {t : Moment} {c : Call} {reply : Reply} {d : Decision}
    (h : c.decision t reply = some d) : d.at_ = t.env.time := by
  simp only [Call.decision] at h
  split at h <;> cases h <;> rfl

/-- What a call that returned leaves at the end of the log. -/
theorem leaf_of_decision {m : Mandate} {i : Moment × Call} {d : Decision}
    (h : i.2.decision i.1 (m.step P cfg i).1 = some d) :
    ∃ e, d.IsLeaf P m.merkle.size e ∧
      (m.step P cfg i).2.merkle.entries = m.merkle.entries ++ [e] ∧
      ∃ receipt, (m.step P cfg i).2.lastReceipt = some receipt ∧
        Vouches P cfg receipt m.merkle.size e := by
  obtain ⟨m', hlog, hstep⟩ := step_recorded P cfg m i.1 i.2
  rw [h] at hstep
  obtain ⟨inst, hstep⟩ := hstep
  have hentries : (m.step P cfg i).2.merkle.entries = m.merkle.entries ++
      [Receipt.makeEntry P d.kind d.tikPub d.accepted d.reason inst d.at_ m.merkle.size] := by
    rw [hstep, merkle_recordDecision, hlog.merkle, at_of_decision h]
    rfl
  refine ⟨_, ⟨inst, rfl⟩, hentries, ?_⟩
  have hlast : (m.step P cfg i).2.lastReceipt =
      ((m.step P cfg i).2.receipt P cfg i.1.env m.merkle.size).toOption := by
    rw [hstep, lastReceipt_recordDecision, hlog.merkle]
  have hat : (m.step P cfg i).2.merkle.entries[m.merkle.size]? = some
      (Receipt.makeEntry P d.kind d.tikPub d.accepted d.reason inst d.at_ m.merkle.size) := by
    rw [hentries, MerkleLog.size, List.getElem?_concat_length]
  obtain ⟨receipt, hreceipt, hvouches⟩ := receipt_vouches cfg hat i.1.env
  exact ⟨receipt, by rw [hlast, hreceipt]; rfl, hvouches⟩

variable (P cfg) in
theorem mirrors_after (ledger : Bytes → Option Record) (run : List (Moment × Call)) :
    Mirrors P (after P cfg ledger run).merkle.entries (decisions P cfg ledger run) := by
  induction run using List.reverseRecOn with
  | nil => exact .nil
  | append_singleton run i ih =>
      rw [decisions_concat, after_concat]
      cases h : i.2.decision i.1 ((after P cfg ledger run).step P cfg i).1 with
      | none =>
          obtain ⟨m', hlog, hstep⟩ := step_recorded P cfg (after P cfg ledger run) i.1 i.2
          rw [h] at hstep
          rw [hstep, hlog.merkle, Option.toList_none, List.append_nil]
          exact ih
      | some d =>
          obtain ⟨e, hleaf, hentries, -⟩ := leaf_of_decision h
          rw [hentries]
          exact ih.concat hleaf

/-- **The log and the decisions correspond.**  The log of a run has one entry for each
call that returned a decision, in call order, which says what was decided and at which
position it stands, and no two entries are equal.  Every entry has a receipt that is in
order, now and at any later moment; so is the one a call leaves for the entry it made.
No later call alters an entry. -/
theorem log_mirrors_decisions (ledger : Bytes → Option Record) (run : List (Moment × Call)) :
    Mirrors P (after P cfg ledger run).merkle.entries (decisions P cfg ledger run) ∧
    (after P cfg ledger run).merkle.entries.Nodup ∧
    (∀ env index e, (after P cfg ledger run).merkle.entries[index]? = some e →
      ∃ receipt, (after P cfg ledger run).receipt P cfg env index = .ok receipt ∧
        Vouches P cfg receipt index e) ∧
    (∀ i d, i.2.decision i.1 ((after P cfg ledger run).step P cfg i).1 = some d →
      ∃ e receipt,
        (after P cfg ledger (run ++ [i])).merkle.entries =
          (after P cfg ledger run).merkle.entries ++ [e] ∧
        (after P cfg ledger (run ++ [i])).lastReceipt = some receipt ∧
        Vouches P cfg receipt (after P cfg ledger run).merkle.size e) ∧
    ∀ more, (after P cfg ledger run).merkle.entries <+:
      (after P cfg ledger (run ++ more)).merkle.entries := by
  have hmirrors := mirrors_after P cfg ledger run
  refine ⟨hmirrors, hmirrors.nodup, ?_, ?_, ?_⟩
  · intro env index e h
    exact receipt_vouches cfg h env
  · intro i d h
    obtain ⟨e, -, hentries, receipt, hlast, hvouches⟩ := leaf_of_decision h
    rw [after_concat]
    exact ⟨e, receipt, hentries, hlast, hvouches⟩
  · intro more
    exact entries_after (List.prefix_append run more)

section Revoked

open Tee

theorem decisions_birth : decisions .plain twoChips (fun _ => none) (birth none) =
    [⟨"enroll", tik, true, "enrolled", (1 : ℕ)⟩] := by
  have hborn := @decisions_concat .plain twoChips (fun _ => none)
    [(instant 0, .challenge [9])] (enrolment teeA [9] none 1)
  rw [step_birth trustsChips none] at hborn
  rw [birth, ← List.singleton_append, hborn, enrolment, Call.decision, time_instant]
  rfl

/-- An identity is enrolled, and revoked.  The revocation leaves a receipt for the second of
two entries, and one for the first is made later. -/
theorem log_mirrors_decisions_revoked : ∃ e e' receipt receipt',
    (after .plain twoChips (fun _ => none) (birth none ++ [revocation "lost" 2])).merkle.entries =
      [e, e'] ∧
    Decision.IsLeaf .plain ⟨"enroll", tik, true, "enrolled", (1 : ℕ)⟩ 0 e ∧
    Decision.IsLeaf .plain ⟨"revoke", tik, true, "lost", (2 : ℕ)⟩ 1 e' ∧ e ≠ e' ∧
    (after .plain twoChips (fun _ => none) (birth none ++ [revocation "lost" 2])).lastReceipt =
      some receipt' ∧ Vouches .plain twoChips receipt' 1 e' ∧
    (after .plain twoChips (fun _ => none) (birth none ++ [revocation "lost" 2])).receipt .plain
      twoChips (instant 5).env 0 = .ok receipt ∧ Vouches .plain twoChips receipt 0 e := by
  obtain ⟨hborn, -, -, hleaves, -⟩ :=
    @log_mirrors_decisions .plain twoChips (fun _ => none) (birth none)
  obtain ⟨hmirrors, hnodup, hreceipts, -, -⟩ :=
    @log_mirrors_decisions .plain twoChips (fun _ => none) (birth none ++ [revocation "lost" 2])
  have hdecision : (revocation "lost" 2).2.decision (revocation "lost" 2).1
      ((after .plain twoChips (fun _ => none) (birth none)).step .plain twoChips
        (revocation "lost" 2)).1 = some ⟨"revoke", tik, true, "lost", (2 : ℕ)⟩ := by
    rw [revocation, step_revoke, Call.decision, time_instant]
  have hdecisions : decisions .plain twoChips (fun _ => none) (birth none ++ [revocation "lost" 2]) =
      [⟨"enroll", tik, true, "enrolled", (1 : ℕ)⟩, ⟨"revoke", tik, true, "lost", (2 : ℕ)⟩] := by
    rw [decisions_concat, decisions_birth, hdecision]
    rfl
  obtain ⟨e', receipt', hentries, hlast, hvouches⟩ := hleaves _ _ hdecision
  obtain ⟨e, he⟩ := List.length_eq_one_iff.mp (hborn.length.trans (by rw [decisions_birth]; rfl))
  rw [MerkleLog.size, he, List.length_singleton] at hvouches
  rw [he, List.singleton_append] at hentries
  rw [hdecisions] at hmirrors
  rw [hentries] at hnodup
  obtain ⟨receipt, hreceipt, hfirst⟩ := hreceipts (instant 5).env 0 e (by rw [hentries]; rfl)
  refine ⟨e, e', receipt, receipt', hentries, ?_, ?_, ?_, hlast, hvouches, hreceipt, hfirst⟩
  · exact hmirrors.leaf 0 _ e rfl (by rw [hentries]; rfl)
  · exact hmirrors.leaf 1 _ e' rfl (by rw [hentries]; rfl)
  · rintro rfl
    simp at hnodup

end Revoked

end Hatls
