import Hatls.Views

/-!
# Restarts that do not show

A restart loses the session chains, the challenges and the log.  What decides about an
identity is in its record, which the store keeps, so a mandate that is restarted
answers as one that is not, wherever it is asked about nothing that it lost.

The two mandates are followed side by side.  Their ledgers are the same, and so are
the chains of the sessions that no restart has cut and the challenges issued since.

## Main definitions

* `Alike` — what the two mandates share, and `Alike.step`, that a call keeps it.
* `replies` — what the callers see.
* `Resumable` — the calls ask about nothing that was lost.
* `restart_transparent` — the restarts do not show.
-/

namespace Hatls

open Mandate

/-- What a mandate shares with one that was not restarted: the ledger, the chains of the
sessions not lost, and the challenges in hand. -/
structure Alike (lost : Bytes × Bytes → Prop) (inHand : Bytes → Prop) (m m' : Mandate) : Prop where
  ledger : m'.ledger = m.ledger
  sessions : ∀ key, ¬ lost key → m'.sessions key = m.sessions key
  challenges : ∀ nonce, inHand nonce → m'.challenges nonce = m.challenges nonce

/-- Two mandates answer the same, and are alike afterwards. -/
def Agree {A : Type} (lost : Bytes × Bytes → Prop) (inHand : Bytes → Prop) (out out' : A × Mandate) :
    Prop :=
  out'.1 = out.1 ∧ Alike lost inHand out.2 out'.2

variable {P : Primitives} {cfg : Config} {lost : Bytes × Bytes → Prop} {inHand : Bytes → Prop}
  {m m' : Mandate}

namespace Alike

/-- What is lost besides does not show. -/
theorem mono (h : Alike lost inHand m m') {lost' : Bytes × Bytes → Prop} {inHand' : Bytes → Prop}
    (hlost : ∀ key, lost key → lost' key) (hin : ∀ nonce, inHand' nonce → inHand nonce) :
    Alike lost' inHand' m m' where
  ledger := h.ledger
  sessions key hkey := h.sessions key fun hl => hkey (hlost key hl)
  challenges nonce hn := h.challenges nonce (hin nonce hn)

/-- They share all records. -/
theorem shares (h : Alike lost inHand m m') :
    Shares (fun _ => True) (fun key => ¬ lost key) inHand m m' where
  ledger k _ := congrFun h.ledger k
  sessions := h.sessions
  challenges := h.challenges

theorem of_shares (h : Shares (fun _ => True) (fun key => ¬ lost key) inHand m m') :
    Alike lost inHand m m' where
  ledger := funext fun k => h.ledger k trivial
  sessions := h.sessions
  challenges := h.challenges

end Alike

/-- The call asks about nothing that was lost: a chain that was, a challenge that was, or
the log. -/
def Call.Within (P : Primitives) (lost : Bytes × Bytes → Prop) (inHand : Bytes → Prop) : Call → Prop
  | .enroll _ _ nonce .. => inHand nonce
  | .present k ctx _ _ head _ => ¬ lost (sessionKey P k ctx) ∧ head = none
  | _ => True

/-- **Such a call is answered alike, and leaves the two alike.** -/
theorem Alike.step (h : Alike lost inHand m m') {i : Moment × Call}
    (hi : i.2.Within P lost inHand) :
    Agree lost (fun nonce => i.2.Issues nonce ∨ inHand nonce) (m.step P cfg i) (m'.step P cfg i) := by
  have hreads : i.2.Reads P (fun _ => True) (fun key => ¬ lost key) inHand := by
    obtain ⟨t, c⟩ := i
    cases c with
    | challenge => trivial
    | enroll => exact ⟨trivial, hi⟩
    | revoke => trivial
    | acceptTransfer => trivial
    | present => exact ⟨trivial, hi⟩
  obtain ⟨heq, hshares⟩ := h.shares.step hreads
  exact ⟨heq, Alike.of_shares hshares⟩

/-! ## Runs -/

/-- The call an event is. -/
def Event.call? : Event → Option (Moment × Call)
  | .call i => some i
  | .restart _ => none

/-- What the callers of a mandate see. -/
def Mandate.replies (P : Primitives) (cfg : Config) (ledger : Bytes → Option Record)
    (run : List (Moment × Call)) : List Reply :=
  (Run.trace (Mandate.step P cfg) (.new P ledger) run).map Prod.snd

/-- What the callers of a process see. -/
def Process.replies (P : Primitives) (cfg : Config) (ledger : Bytes → Option Record)
    (events : List Event) : List Reply :=
  (Run.trace (Process.step P) ⟨cfg, .new P ledger⟩ events).filterMap Prod.snd

/-- A presentation in a session context. -/
def Call.Opens (ctx : Bytes) : Call → Prop
  | .present _ ctx' .. => ctx' = ctx
  | _ => False

/-- A session context is used. -/
def Uses (ctx : Bytes) (events : List Event) : Prop :=
  ∃ i, Event.call i ∈ events ∧ i.2.Opens ctx

/-- A nonce was issued, since the last restart. -/
def Issued (nonce : Bytes) (events : List Event) : Prop :=
  ∃ before i since, events = before ++ .call i :: since ∧ i.2.Issues nonce ∧
    ∀ cfg, Event.restart cfg ∉ since

/-- What is asked of the events of a process.  It is restarted as it was built; a session
context is used on one side of a restart only, and the hashes that sessions are kept
under tell the contexts apart; an enrolment uses a nonce issued since the last restart;
and no presentation comes with a head or a bundle. -/
structure Resumable (P : Primitives) (cfg : Config) (events : List Event) : Prop where
  config : ∀ cfg', Event.restart cfg' ∈ events → cfg' = cfg
  contexts : ∀ pre cfg' post ctx, events = pre ++ .restart cfg' :: post → Uses ctx pre →
    ¬ Uses ctx post
  hashes : ∀ ctx ctx', Uses ctx events → Uses ctx' events →
    (P.sha256 ctx).take 16 = (P.sha256 ctx').take 16 → ctx = ctx'
  nonces : ∀ pre i post nonce, events = pre ++ .call i :: post → i.2.Redeems nonce →
    Issued nonce pre
  headless : ∀ i, Event.call i ∈ events → ¬ i.2.Witnesses

theorem Uses.append {ctx : Bytes} {pre : List Event} (h : Uses ctx pre) (post : List Event) :
    Uses ctx (pre ++ post) := by
  obtain ⟨i, hi, hopens⟩ := h
  exact ⟨i, List.mem_append_left post hi, hopens⟩

theorem uses_concat {ctx : Bytes} {i : Moment × Call} (h : i.2.Opens ctx) (pre : List Event) :
    Uses ctx (pre ++ [.call i]) :=
  ⟨i, List.mem_append_right pre (List.mem_singleton_self _), h⟩

/-- So every beginning of them is. -/
theorem Resumable.of_append {pre post : List Event} (h : Resumable P cfg (pre ++ post)) :
    Resumable P cfg pre where
  config cfg' hmem := h.config cfg' (List.mem_append_left post hmem)
  contexts a cfg' b ctx heq huse huse' := by
    apply h.contexts a cfg' (b ++ post) ctx _ huse (huse'.append post)
    simp [heq]
  hashes ctx ctx' huse huse' := h.hashes ctx ctx' (huse.append post) (huse'.append post)
  nonces a i b nonce heq hred := by
    apply h.nonces a i (b ++ post) nonce _ hred
    simp [heq]
  headless i hmem := h.headless i (List.mem_append_left post hmem)

/-- The sessions that restarts have cut. -/
def Cut (P : Primitives) (events : List Event) (key : Bytes × Bytes) : Prop :=
  ∃ before cfg' since k ctx, events = before ++ .restart cfg' :: since ∧ Uses ctx before ∧
    sessionKey P k ctx = key

/-- A process that is restarted follows a mandate that is not. -/
structure Follows (P : Primitives) (cfg : Config) (events : List Event) (m : Mandate) (s : Process) :
    Prop where
  config : s.cfg = cfg
  alike : Alike (Cut P events) (fun nonce => Issued nonce events) m s.mandate
  live : ∀ key, m.sessions key ≠ none → ∃ k ctx, Uses ctx events ∧ sessionKey P k ctx = key

theorem Cut.append {events : List Event} {key : Bytes × Bytes} (h : Cut P events key)
    (more : List Event) : Cut P (events ++ more) key := by
  obtain ⟨before, cfg', since, k, ctx, rfl, huse, hkey⟩ := h
  exact ⟨before, cfg', since ++ more, k, ctx, by simp, huse, hkey⟩

/-- The last event issued it, or it was issued before and there was no restart. -/
theorem issued_concat {nonce : Bytes} {events : List Event} {e : Event}
    (h : Issued nonce (events ++ [e])) :
    ∃ i, e = .call i ∧ (i.2.Issues nonce ∨ Issued nonce events) := by
  obtain ⟨before, i, since, heq, hissues, hsince⟩ := h
  rcases List.eq_nil_or_concat since with rfl | ⟨since, e', rfl⟩
  · obtain ⟨-, he⟩ := List.append_inj' heq rfl
    exact ⟨i, List.singleton_inj.mp he, .inl hissues⟩
  · rw [List.concat_eq_append] at heq hsince
    rw [← List.cons_append, ← List.append_assoc] at heq
    obtain ⟨hev, he⟩ := List.append_inj' heq rfl
    obtain rfl := List.singleton_inj.mp he
    cases e with
    | restart cfg' => exact absurd (by simp) (hsince cfg')
    | call j =>
        refine ⟨j, rfl, .inr ⟨before, i, since, hev, hissues, fun c hc => hsince c ?_⟩⟩
        exact List.mem_append_left _ hc

/-- A call within the bounds asks about nothing that was lost. -/
theorem Resumable.within {events : List Event} {i : Moment × Call}
    (h : Resumable P cfg (events ++ [.call i])) :
    i.2.Within P (Cut P events) (fun nonce => Issued nonce events) := by
  obtain ⟨t, c⟩ := i
  cases c with
  | enroll k evidence nonce => exact h.nonces events _ [] nonce rfl rfl
  | present k ctx exporter msg head bundle =>
      constructor
      · rintro ⟨before, cfg', since, k', ctx', rfl, huse, hkey⟩
        have hopens : (t, Call.present k ctx exporter msg head bundle).2.Opens ctx := rfl
        obtain rfl : ctx' = ctx := by
          apply h.hashes
          · rw [List.append_assoc]
            exact huse.append _
          · exact uses_concat hopens _
          · exact congrArg Prod.snd hkey
        exact h.contexts before cfg' _ ctx' (List.append_assoc ..) huse (uses_concat hopens since)
      · by_contra hhead
        exact h.headless (t, .present k ctx exporter msg head bundle)
          (List.mem_append_right events (List.mem_singleton_self _)) (Or.inl hhead)
  | _ => trivial

/-- **A call keeps a process in step**, with the same answer. -/
theorem Follows.call {events : List Event} {s : Process} (h : Follows P cfg events m s)
    {i : Moment × Call}
    (hi : i.2.Within P (Cut P events) fun nonce => Issued nonce events) :
    (s.step P (.call i)).1 = some (m.step P cfg i).1 ∧
      Follows P cfg (events ++ [.call i]) (m.step P cfg i).2 (s.step P (.call i)).2 := by
  obtain ⟨heq, halike⟩ := h.alike.step hi
  rw [Process.step_call, h.config]
  refine ⟨congrArg some heq, rfl, halike.mono (fun key hkey => hkey.append _) ?_, ?_⟩
  · intro nonce hnonce
    obtain ⟨j, hj, hin⟩ := issued_concat hnonce
    obtain rfl := Event.call.inj hj
    exact hin
  · intro key hlive
    obtain ⟨t, c⟩ := i
    have hadv := m.step_advance P cfg t c key
    generalize (m.step P cfg (t, c)).1 = reply, (m.step P cfg (t, c)).2.sessions key = session
      at hadv hlive
    cases hadv with
    | ended => exact absurd rfl hlive
    | @moved k ctx _ _ _ _ _ _ _ _ _ hkey =>
        refine ⟨k, ctx, uses_concat ?_ events, hkey⟩
        rfl
    | kept =>
        obtain ⟨k, ctx, huse, hkey⟩ := h.live key hlive
        exact ⟨k, ctx, huse.append _, hkey⟩

/-- **A restart keeps it in step.** -/
theorem Follows.restart {events : List Event} {s : Process} (h : Follows P cfg events m s) :
    Follows P cfg (events ++ [.restart cfg]) m (s.step P (.restart cfg)).2 where
  config := rfl
  alike := {
    ledger := h.alike.ledger
    sessions := fun key hkey => by
      by_contra hne
      obtain ⟨k, ctx, huse, hsk⟩ := h.live key fun hnone => hne hnone.symm
      exact hkey ⟨events, cfg, [], k, ctx, rfl, huse, hsk⟩
    challenges := fun nonce hnonce => by
      obtain ⟨i, hi, -⟩ := issued_concat hnonce
      cases hi }
  live := fun key hlive => by
    obtain ⟨k, ctx, huse, hkey⟩ := h.live key hlive
    exact ⟨k, ctx, huse.append _, hkey⟩

/-- A process follows the mandate that is never restarted, answer by answer. -/
theorem follows_after (ledger : Bytes → Option Record) {events : List Event}
    (h : Resumable P cfg events) :
    Process.replies P cfg ledger events =
        Mandate.replies P cfg ledger (events.filterMap Event.call?) ∧
      Follows P cfg events (Mandate.after P cfg ledger (events.filterMap Event.call?))
        (Process.after P cfg ledger events) := by
  induction events using List.reverseRecOn with
  | nil =>
      refine ⟨rfl, rfl, ⟨rfl, fun _ _ => rfl, fun _ _ => rfl⟩, ?_⟩
      intro key hlive
      exact absurd rfl hlive
  | append_singleton events e ih =>
      obtain ⟨hreplies, hfollows⟩ := ih h.of_append
      simp only [Process.replies, Mandate.replies] at hreplies ⊢
      rw [List.filterMap_append, Run.trace_append, List.filterMap_append, hreplies,
        Process.after_concat]
      cases e with
      | call i =>
          obtain ⟨hanswer, hnext⟩ := hfollows.call h.within
          have hcall : List.filterMap Event.call? [.call i] = [i] := rfl
          rw [hcall, Mandate.after_concat, Run.trace_append, List.map_append]
          refine ⟨congrArg _ ?_, hnext⟩
          have hs : Run.exec (Process.step P) ⟨cfg, .new P ledger⟩ events =
            Process.after P cfg ledger events := rfl
          simp only [hs, Run.trace_cons, Run.trace_nil, List.filterMap_cons, hanswer]
          rfl
      | restart cfg' =>
          obtain rfl := h.config cfg' (by simp)
          have hnone : List.filterMap Event.call? [.restart cfg'] = [] := rfl
          rw [hnone, List.append_nil]
          exact ⟨List.append_nil _, hfollows.restart⟩

/-- **The restarts do not show.**  Over any ledger, every call returns what it returns
without them, and the ledger ends up the same. -/
theorem restart_transparent (ledger : Bytes → Option Record) {events : List Event}
    (h : Resumable P cfg events) :
    Process.replies P cfg ledger events =
        Mandate.replies P cfg ledger (events.filterMap Event.call?) ∧
      (Process.after P cfg ledger events).mandate.ledger =
        (Mandate.after P cfg ledger (events.filterMap Event.call?)).ledger := by
  obtain ⟨hreplies, hfollows⟩ := follows_after ledger h
  exact ⟨hreplies, hfollows.alike.ledger⟩

section Witness

open Tee

/-- An identity is enrolled, the process restarts, and the owner opens a session. -/
def servedAfterRestart : List Event :=
  [.call (instant 0, .challenge [9]), .call (enrolment teeA [9] none 1), .restart twoChips,
    .call (opening teeA [3] [4] 2)]

theorem uses_servedAfterRestart {ctx : Bytes} (h : Uses ctx servedAfterRestart) : ctx = [3] := by
  obtain ⟨i, hi, hopens⟩ := h
  simp only [servedAfterRestart, List.mem_cons, Event.call.injEq, List.not_mem_nil, or_false,
    reduceCtorEq, false_or] at hi
  rcases hi with rfl | rfl | rfl
  · exact hopens.elim
  · exact hopens.elim
  · exact hopens.symm

theorem resumable_servedAfterRestart : Resumable .plain twoChips servedAfterRestart where
  config cfg' hmem := by
    simpa [servedAfterRestart] using hmem
  contexts pre cfg' post ctx heq huse := by
    rcases pre with _ | ⟨a, _ | ⟨b, _ | ⟨c, _ | ⟨d, pre⟩⟩⟩⟩ <;>
      simp [servedAfterRestart] at heq
    obtain ⟨rfl, rfl, rfl, rfl⟩ := heq
    obtain ⟨i, hi, hopens⟩ := huse
    simp at hi
    rcases hi with rfl | rfl
    · exact hopens.elim
    · exact hopens.elim
  hashes ctx ctx' huse huse' _ := by
    rw [uses_servedAfterRestart huse, uses_servedAfterRestart huse']
  nonces pre i post nonce heq hred := by
    rcases pre with _ | ⟨a, _ | ⟨b, _ | ⟨c, _ | ⟨d, pre⟩⟩⟩⟩ <;>
      simp [servedAfterRestart] at heq
    · obtain ⟨rfl, -⟩ := heq
      exact hred.elim
    · obtain ⟨rfl, rfl, -⟩ := heq
      exact ⟨[], _, [], rfl, hred, by simp⟩
    · obtain ⟨-, -, -, rfl, -⟩ := heq
      exact hred.elim
  headless i hi := by
    simp only [servedAfterRestart, List.mem_cons, Event.call.injEq, List.not_mem_nil, or_false,
      reduceCtorEq, false_or] at hi
    rcases hi with rfl | rfl | rfl
    · exact id
    · exact id
    · exact fun h => h.elim (fun h => h rfl) fun h => h rfl

/-- There a restart does not show. -/
theorem restart_transparent_served :
    Process.replies .plain twoChips (fun _ => none) servedAfterRestart =
        Mandate.replies .plain twoChips (fun _ => none)
          (servedAfterRestart.filterMap Event.call?) ∧
      (Process.after .plain twoChips (fun _ => none) servedAfterRestart).mandate.ledger =
        (Mandate.after .plain twoChips (fun _ => none)
          (servedAfterRestart.filterMap Event.call?)).ledger :=
  restart_transparent _ resumable_servedAfterRestart

end Witness

end Hatls
