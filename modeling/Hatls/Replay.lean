import Hatls.Lockstep

/-!
# Nothing is accepted twice

Two things a mandate must not accept again: a step of a session, and a transfer grant.
What it remembers of each is bounded: the chain of a session is forgotten when its
identity is transferred, and of the grants an identity has spent the last 256 are
kept.  Within those bounds neither is accepted twice; beyond them both are.

## Main definitions

* `Remembers`, `step_accepted_once` — steps of a session.
* `SpentWithin`, `grant_single_use` — transfer grants.
-/

namespace Hatls

open Mandate Binder

variable {P : Primitives} {cfg : Config}

/-! ## Steps of a session -/

/-- A presentation in the session finds its chain in the table. -/
def Remembers (key : Bytes × Bytes) (P : Primitives) (m : Mandate) (i : Moment × Call) : Prop :=
  Call.Continues P key i.2 → (m.sessions key).isSome

/-- The chain of a session is forgotten, or stands at `n` or beyond. -/
def Beyond (key : Bytes × Bytes) (n : ℕ) (m : Mandate) : Prop :=
  ∀ session, m.sessions key = some session → n ≤ session.counter

/-- **A chain that is remembered only moves on.** -/
theorem beyond_step {m : Mandate} {i : Moment × Call} {key : Bytes × Bytes} {n : ℕ}
    (hrem : Remembers key P m i) (h : Beyond key n m) : Beyond key n (m.step P cfg i).2 := by
  obtain ⟨t, c⟩ := i
  intro session' hs
  have hadv := m.step_advance P cfg t c key
  simp only [Remembers] at hrem
  generalize (m.step P cfg (t, c)).1 = reply, (m.step P cfg (t, c)).2.sessions key = s' at hadv hs
  cases hadv with
  | ended => cases hs
  | moved hadm hkey =>
      obtain ⟨session, hsome⟩ := Option.isSome_iff_exists.mp (hrem hkey)
      obtain ⟨base, hexp, -⟩ := hadm.chain
      rw [Expects, hkey, hsome] at hexp
      obtain rfl := Option.some.inj hs
      have hle := h session hsome
      have hnext := hexp.1
      dsimp only
      omega
  | kept => exact h session' hs

/-- An accepted step leaves its chain at its counter. -/
theorem beyond_of_accepted {m : Mandate} {i : Moment × Call} {k ctx : Bytes} {n : ℤ}
    (hacc : Accepted P cfg (Call.Counts k ctx n) m i) :
    ∃ n' : ℕ, n = n' ∧ (∀ session, m.sessions (sessionKey P k ctx) = some session →
        n' = session.counter + 1) ∧ Beyond (sessionKey P k ctx) n' (m.step P cfg i).2 := by
  obtain ⟨t, c⟩ := i
  obtain ⟨hc, hacc⟩ := hacc
  cases c with
  | present k' ctx' exporter msg head bundle =>
      obtain ⟨rfl, rfl, c, hcounter, hn⟩ := hc
      obtain ⟨inst, place, pl, n', hadm, hstep⟩ := m.admits_of_accepted t hacc
      obtain ⟨c', hcounter', hn'⟩ := hadm.counter
      rw [hcounter] at hcounter'
      obtain rfl := Except.ok.inj hcounter'
      simp only [Json.eqInt, decide_eq_true_eq] at hn hn'
      obtain rfl : n = n' := Option.some.inj (hn.symm.trans hn')
      obtain ⟨base, hexp, -⟩ := hadm.chain
      refine ⟨n', rfl, fun session hs => ?_, fun session hs => ?_⟩
      · rw [Expects, hs] at hexp
        exact hexp.1
      · rw [hstep, sessions_recordDecision, sessions_admitted, Function.update_self] at hs
        rw [← Option.some.inj hs]
  | _ => exact absurd hc (by simp [Call.Counts])

/-- A step that is accepted is accepted at its counter. -/
theorem counts_of_accepted {m : Mandate} {t : Moment} {k ctx exporter : Bytes} {msg : Json}
    {head : Option Bytes} {bundle : Option Json}
    (hacc : (m.step P cfg (t, .present k ctx exporter msg head bundle)).1.accepted = true) :
    ∃ n : ℤ, ∀ exporter' head' bundle',
      Call.Counts k ctx n (.present k ctx exporter' msg head' bundle') := by
  obtain ⟨inst, place, pl, n, hadm, -⟩ := m.admits_of_accepted t hacc
  exact ⟨n, fun _ _ _ => ⟨rfl, rfl, hadm.counter⟩⟩

/-- A chain is forgotten only when its identity is transferred. -/
theorem remembered_step {m : Mandate} {i : Moment × Call} {key : Bytes × Bytes}
    (hno : ¬ Accepted P cfg (Call.Transfers key.1) m i) (h : (m.sessions key).isSome) :
    ((m.step P cfg i).2.sessions key).isSome := by
  obtain ⟨t, c⟩ := i
  have hadv := m.step_advance P cfg t c key
  simp only [Accepted] at hno
  generalize (m.step P cfg (t, c)).1 = reply, (m.step P cfg (t, c)).2.sessions key = s' at hadv hno ⊢
  cases hadv with
  | ended hkey => exact absurd ⟨hkey.symm, rfl⟩ hno
  | moved => rfl
  | kept => exact h

/-- What is promised about the steps of a session, in the runs of a mandate, between two
presentations of which each in between and the last finds the chain of the session. -/
structure StepsOnce (P : Primitives) (cfg : Config) (ledger : Bytes → Option Record)
    (k ctx : Bytes) : Prop where
  /-- No counter is accepted twice. -/
  counter : ∀ (n : ℤ) run i mid i', Accepted P cfg (Call.Counts k ctx n) (after P cfg ledger run) i →
    Run.Along (step P cfg) (Remembers (sessionKey P k ctx) P)
      ((after P cfg ledger run).step P cfg i).2 (mid ++ [i']) →
    ¬ Accepted P cfg (Call.Counts k ctx n) (after P cfg ledger (run ++ i :: mid)) i'
  /-- No message is accepted twice. -/
  message : ∀ run t exporter msg head bundle mid t' exporter' head' bundle',
    let i := (t, Call.present k ctx exporter msg head bundle)
    let i' := (t', Call.present k ctx exporter' msg head' bundle')
    ((after P cfg ledger run).step P cfg i).1.accepted = true →
    Run.Along (step P cfg) (Remembers (sessionKey P k ctx) P)
      ((after P cfg ledger run).step P cfg i).2 (mid ++ [i']) →
    ((after P cfg ledger (run ++ i :: mid)).step P cfg i').1.accepted = false
  /-- Short of a transfer of the identity, every presentation finds the chain. -/
  remembered : ∀ run i mid,
    Accepted P cfg (Call.Continues P (sessionKey P k ctx)) (after P cfg ledger run) i →
    Run.Along (step P cfg) (fun m c => ¬ Accepted P cfg (Call.Transfers k) m c)
      ((after P cfg ledger run).step P cfg i).2 mid →
    Run.Along (step P cfg) (Remembers (sessionKey P k ctx) P)
      ((after P cfg ledger run).step P cfg i).2 mid

/-- No counter is accepted twice while the chain is remembered. -/
theorem counter_once (ledger : Bytes → Option Record) (k ctx : Bytes) (n : ℤ)
    {run mid : List (Moment × Call)} {i i' : Moment × Call}
    (hacc : Accepted P cfg (Call.Counts k ctx n) (after P cfg ledger run) i)
    (hmid : Run.Along (step P cfg) (Remembers (sessionKey P k ctx) P)
      ((after P cfg ledger run).step P cfg i).2 (mid ++ [i'])) :
    ¬ Accepted P cfg (Call.Counts k ctx n) (after P cfg ledger (run ++ i :: mid)) i' := by
  intro hacc'
  obtain ⟨hmid, hlast, -⟩ := (Run.along_append _ _ _ _).mp hmid
  obtain ⟨n₁, rfl, -, hbeyond⟩ := beyond_of_accepted hacc
  have hend : Beyond (sessionKey P k ctx) n₁ (after P cfg ledger (run ++ i :: mid)) := by
    rw [after_append]
    exact Run.exec_invariant (Q := Remembers (sessionKey P k ctx) P) (step P cfg)
      (Beyond (sessionKey P k ctx) n₁) (fun m c hc h => beyond_step hc h) hmid hbeyond
  rw [← after_append] at hlast
  have hcont : Call.Continues P (sessionKey P k ctx) i'.2 := by
    obtain ⟨t, c⟩ := i'
    cases c with
    | present k' ctx' _ _ _ _ =>
        obtain ⟨rfl, rfl, -⟩ := hacc'.1
        rfl
    | _ => exact absurd hacc'.1 (by simp [Call.Counts])
  obtain ⟨session, hs⟩ := Option.isSome_iff_exists.mp (hlast hcont)
  obtain ⟨n₂, heq, hnext, -⟩ := beyond_of_accepted hacc'
  have hlater := hend session hs
  have hcounter := hnext session hs
  omega

/-- **No step is accepted twice** while the chain of its session is remembered. -/
theorem steps_once (P : Primitives) (cfg : Config) (ledger : Bytes → Option Record)
    (k ctx : Bytes) : StepsOnce P cfg ledger k ctx where
  counter n _ _ _ _ hacc hmid := counter_once ledger k ctx n hacc hmid
  message run t exporter msg head bundle mid t' exporter' head' bundle' := by
    intro i i' hacc hmid
    obtain ⟨n, hcounts⟩ := counts_of_accepted hacc
    rw [← Bool.not_eq_true]
    exact fun hacc' => counter_once ledger k ctx n ⟨hcounts .., hacc⟩ hmid ⟨hcounts .., hacc'⟩
  remembered run i mid hacc hmid := by
    refine Run.along_of_invariant (R := Remembers (sessionKey P k ctx) P)
      (step P cfg) (fun m : Mandate => (m.sessions (sessionKey P k ctx)).isSome)
      (fun m c hno h => remembered_step hno h) (fun _ _ _ h _ => h) hmid ?_
    obtain ⟨t, c⟩ := i
    obtain ⟨hc, hacc⟩ := hacc
    have hadv := (after P cfg ledger run).step_advance P cfg t c (sessionKey P k ctx)
    generalize ((after P cfg ledger run).step P cfg (t, c)).1 = reply,
      ((after P cfg ledger run).step P cfg (t, c)).2.sessions (sessionKey P k ctx) = s' at hadv hacc ⊢
    cases hadv with
    | ended => exact absurd hc (by simp [Call.Continues])
    | moved => rfl
    | kept hno => exact absurd hc (hno hacc).2

/-! ## Transfer grants -/

/-- An accepted transfer of the identity. -/
def isTransferOf (P : Primitives) (cfg : Config) (k : Bytes) (m : Mandate) (i : Moment × Call) : Bool :=
  decide (Call.Transfers k i.2) && (m.step P cfg i).1.accepted

/-- The nonce is on the record of spent ones, with at most `j` after it. -/
def SpentWithin (r : Record) (nonce : Json) (j : ℕ) : Prop :=
  ∃ older newer, r.consumedGrants = older ++ nonce :: newer ∧ newer.length ≤ j

/-- The list of spent nonces keeps its last 256. -/
theorem lastN_spent {older newer : List Json} {nonce : Json} (last : Json) (h : newer.length + 2 ≤ 256) :
    ∃ older', lastN 256 ((older ++ nonce :: newer) ++ [last]) = older' ++ nonce :: (newer ++ [last]) := by
  refine ⟨older.drop ((older ++ nonce :: newer ++ [last]).length - 256), ?_⟩
  rw [lastN, List.append_assoc, List.drop_append_of_le_length]
  · rfl
  · simp only [List.length_append, List.length_cons, List.length_nil]
    omega

/-- **A spent nonce is pushed down by one with each transfer**, and by nothing else. -/
theorem spent_step {m : Mandate} {i : Moment × Call} {k : Bytes} {nonce : Json} {j : ℕ}
    (hj : j + (if isTransferOf P cfg k m i then 1 else 0) < 256)
    (h : SpentWithin (m.record k) nonce j) :
    SpentWithin ((m.step P cfg i).2.record k) nonce
      (j + if isTransferOf P cfg k m i then 1 else 0) := by
  obtain ⟨t, c⟩ := i
  obtain ⟨older, newer, heq, hlen⟩ := h
  have hch := m.step_change P cfg t c k
  unfold isTransferOf at hj ⊢
  generalize (m.step P cfg (t, c)).1 = reply, (m.step P cfg (t, c)).2.record k = r' at hch hj ⊢
  have hkept (hsame : r'.consumedGrants = (m.record k).consumedGrants) :
      SpentWithin r' nonce (j + if decide (Call.Transfers k c) && reply.accepted then 1 else 0) :=
    ⟨older, newer, by rw [hsame, heq], by omega⟩
  cases hch with
  | enrolled => exact hkept rfl
  | revoked => exact hkept rfl
  | @transferred grant sig fields toInstance w last =>
      have htrue : (decide (Call.Transfers k (.acceptTransfer k grant sig)) &&
          (Reply.decision ⟨true, transferredText, none⟩).accepted) = true :=
        Bool.and_eq_true_iff.mpr ⟨decide_eq_true rfl, rfl⟩
      rw [htrue, if_pos rfl] at hj ⊢
      obtain ⟨older', hold⟩ := lastN_spent last (show newer.length + 2 ≤ 256 by omega)
      exact ⟨older', newer ++ [last], by rw [consumedGrants_moved, heq, hold], by simpa using hlen⟩
  | presented => exact hkept rfl
  | noted _ hn => exact hkept hn.consumedGrants
  | same => exact hkept rfl

/-- So it stays on the record while fewer than 256 transfers follow it. -/
theorem spent_exec {k : Bytes} {nonce : Json} {mid : List (Moment × Call)} :
    ∀ {m : Mandate} {j : ℕ}, SpentWithin (m.record k) nonce j →
      j + Run.count (step P cfg) (isTransferOf P cfg k) m mid < 256 →
      SpentWithin ((Run.exec (step P cfg) m mid).record k) nonce 255 := by
  induction mid with
  | nil =>
      rintro m j ⟨older, newer, heq, hlen⟩ hj
      exact ⟨older, newer, heq, by simp only [Run.count_nil] at hj; omega⟩
  | cons i mid ih =>
      intro m j h hj
      rw [Run.count_cons] at hj
      exact ih (spent_step (by omega) h) (by omega)

/-- An accepted transfer spends its nonce, and had not found it spent. -/
theorem spends_of_accepted {m : Mandate} {i : Moment × Call} {k : Bytes} {nonce : Json}
    (hacc : Accepted P cfg (Call.Spends k nonce) m i) :
    nonce.pyMem (m.record k).consumedGrants = false ∧
      SpentWithin ((m.step P cfg i).2.record k) nonce 0 := by
  obtain ⟨t, c⟩ := i
  obtain ⟨hc, hacc⟩ := hacc
  have hch := m.step_change P cfg t c k
  have hlast : ∃ older, lastN 256 ((m.record k).consumedGrants ++ [nonce]) = older ++ [nonce] :=
    ⟨_, lastN_append_singleton (by omega) _ _⟩
  cases c with
  | acceptTransfer k' grant sig =>
      cases grant with
      | obj fields =>
          obtain ⟨rfl, hnonce⟩ := hc
          rcases acceptTransfer_cases P cfg k' sig (.obj fields) m t.env_putOk with
            ⟨fields', toInstance, w, nonce', h, hnonce', -⟩ | ⟨x, heq⟩ | ⟨reason, heq⟩
          · obtain rfl := Json.obj.inj h.object
            rw [hnonce] at hnonce'
            obtain rfl := Option.some.inj hnonce'
            refine ⟨by simpa [Json.getD, hnonce] using h.unspent, ?_⟩
            rw [step_of_grants m t h hnonce, record_recordDecision, record_transferred_self]
            obtain ⟨older, hold⟩ := hlast
            exact ⟨older, [], by rw [consumedGrants_moved, hold], le_rfl⟩
          · simp [step, heq, Reply.ofAnswer, Reply.accepted] at hacc
          · simp [step, heq, Reply.ofAnswer, Reply.accepted] at hacc
      | _ => exact absurd hc (by simp [Call.Spends])
  | _ => exact absurd hc (by simp [Call.Spends])

/-- **A grant is used once**, as long as fewer than 256 transfers of the identity are
accepted after it: none with an equal nonce is then accepted. -/
theorem grant_single_use (ledger : Bytes → Option Record) {k : Bytes} {nonce nonce' : Json}
    {run mid : List (Moment × Call)} {i i' : Moment × Call}
    (hacc : Accepted P cfg (Call.Spends k nonce) (after P cfg ledger run) i)
    (hfew : Run.count (step P cfg) (isTransferOf P cfg k) ((after P cfg ledger run).step P cfg i).2 mid
      < 256) (hsame : nonce.pyEq nonce' = true) :
    ¬ Accepted P cfg (Call.Spends k nonce') (after P cfg ledger (run ++ i :: mid)) i' := by
  intro hacc'
  obtain ⟨hunspent, -⟩ := spends_of_accepted hacc'
  rw [after_append] at hunspent
  obtain ⟨older, newer, heq, -⟩ := spent_exec (spends_of_accepted hacc).2 (by simpa using hfew)
  rw [heq] at hunspent
  simp [Json.pyMem, hsame] at hunspent

/-! ## Beyond what is remembered -/

section Forgotten

open Tee

/-- Another instance is seen, and the owner moves the identity there. -/
theorem exec_relocation {m : Mandate} (here : MockTEE) {there : MockTEE} (ctx nonce : Bytes) (hthere : there.Trusted .plain ["0a", "0b"])
    (hne : there.inst ≠ here.inst) (h : Movable (m.record tik) here.inst)
    (hunspent : Json.pyMem (.str (Bytes.hex nonce)) (m.record tik).consumedGrants = false)
    (exporter : Bytes) (now : ℕ) :
    ∃ m', Run.exec (step .plain twoChips) m [opening there ctx exporter now,
        move there (some here.inst) false nonce now] = m' ∧
      Movable (m'.record tik) there.inst ∧ (m'.record tik).observedInstance = none ∧
      (m'.record tik).consumedGrants =
        lastN 256 ((m.record tik).consumedGrants ++ [.str (Bytes.hex nonce)]) ∧
      ∀ key, key.1 = tik → m'.sessions key = none := by
  obtain ⟨m₁, hm₁, hr, -⟩ := step_elsewhere twoChips there rfl hthere h hne ctx exporter now
  have hmov : Movable (m₁.record tik) here.inst := by
    rw [hr]
    exact movable_noticed twoChips there h now
  have hspent : (m₁.record tik).consumedGrants = (m.record tik).consumedGrants := by
    rw [hr]
    rfl
  have hdest := find_noticed twoChips there (m.record tik) now now (by simp [twoChips, mockMandate])
  rw [← hr] at hdest
  have hmove := step_move twoChips there nonce hmov (some here.inst) false (.inr rfl) now
    (by rw [hspent, hunspent]) hthere.usable hdest
  have hthere_ne : there.inst ≠ [] := fun heq => by simpa [heq] using hthere.usable
  refine ⟨_, rfl, ?_, ?_, ?_, fun key hkey => ?_⟩ <;>
    rw [Run.exec_cons, Run.exec_cons, Run.exec_nil, hm₁, hmove]
  · rw [record_recordDecision, record_transferred_self]
    exact movable_moved _ hmov hthere_ne _ _ _
  · rw [record_recordDecision, record_transferred_self]
    rfl
  · rw [record_recordDecision, record_transferred_self, consumedGrants_moved, hspent]
  · rw [sessions_recordDecision, sessions_transferred, if_pos hkey]

theorem counts_opening (tee : MockTEE) (ctx exporter : Bytes) (now : ℕ) :
    Call.Counts tik ctx 0 (opening tee ctx exporter now).2 :=
  ⟨rfl, rfl, .int 0, rfl, rfl⟩

/-- A first step, evidence from elsewhere, and the first step again: the chain of the session is
remembered, and the replay is refused. -/
theorem steps_once_replayed :
    ((after .plain twoChips (fun _ => none) (birth (some owner))).step .plain twoChips
      (opening teeA [3] [4] 2)).1.accepted = true ∧
    ((after .plain twoChips (fun _ => none) (birth (some owner) ++ opening teeA [3] [4] 2 ::
      [opening teeB [5] [6] 3])).step .plain twoChips (opening teeA [3] [4] 4)).1.accepted = false := by
  have hacc := accepted_opening trustsChips (some owner) (show [3].length < 256 by decide) [4] 2
  -- what comes in between is no transfer
  have hstay : ∀ m tee ctx exporter now, ¬ Accepted .plain twoChips (Call.Transfers tik) m
      (opening tee ctx exporter now) := fun _ _ _ _ _ h => h.1
  have honce := steps_once .plain twoChips (fun _ => none) tik [3]
  exact ⟨hacc, honce.message (birth (some owner)) _ _ _ _ _ [opening teeB [5] [6] 3] _ _ _ _ hacc
    (honce.remembered _ _ _ ⟨rfl, hacc⟩ ⟨hstay _ _ _ _ _, hstay _ _ _ _ _, trivial⟩)⟩

/-- **A step is accepted twice** when its identity was moved away and back in between:
the same message, in the same session, at the same counter. -/
theorem step_accepted_twice :
    Accepted .plain twoChips (Call.Counts tik [3] 0)
      (after .plain twoChips (fun _ => none) (birth (some owner))) (opening teeA [3] [4] 2) ∧
    Accepted .plain twoChips (Call.Counts tik [3] 0)
      (after .plain twoChips (fun _ => none) (birth (some owner) ++ opening teeA [3] [4] 2 ::
        ([opening teeB [1] [2] 3, move teeB (some teeA.inst) false [1] 3] ++
          [opening teeA [5] [6] 4, move teeA (some teeB.inst) false [2] 4])))
      (opening teeA [3] [4] 5) := by
  have hrec := record_birth trustsChips (some owner)
  have hfirst := step_hello .plain twoChips teeA
    (after .plain twoChips (fun _ => none) (birth (some owner))) tik rfl teeA_trusted
    (show [3].length < 256 by decide)
    (by rw [hrec]; exact movable_bornOnA.welcome fun _ h => nomatch h)
    (fun h => nomatch h) (sessions_birth trustsChips _ _) (instant 2) [] [4]
  refine ⟨⟨counts_opening .., by rw [opening, hfirst]; rfl⟩, counts_opening .., ?_⟩
  rw [after_append, Run.exec_append]
  -- the states of the run, by what matters about them
  obtain ⟨m₁, hm₁, hmov₁, hspent₁⟩ : ∃ m₁,
      ((after .plain twoChips (fun _ => none) (birth (some owner))).step .plain twoChips
        (opening teeA [3] [4] 2)).2 = m₁ ∧ Movable (m₁.record tik) teeA.inst ∧
      (m₁.record tik).consumedGrants = [] := by
    refine ⟨_, rfl, ?_⟩
    rw [opening, hfirst, record_recordDecision, record_admitted_self, hrec]
    exact ⟨⟨rfl, rfl, by decide, rfl⟩, rfl⟩
  obtain ⟨m₂, hm₂, hmov₂, -, hspent₂, -⟩ := exec_relocation teeA [1] [1] teeB_trusted (by decide) hmov₁
    (by rw [hspent₁]; rfl) [2] 3
  obtain ⟨m₃, hm₃, hmov₃, hobs₃, -, hsessions₃⟩ := exec_relocation teeB [5]
    [2] teeA_trusted (by decide) hmov₂ (by rw [hspent₂, hspent₁]; decide) [6] 4
  rw [hm₁, hm₂, hm₃]
  have hagain := step_hello .plain twoChips teeA m₃ tik rfl teeA_trusted
    (show [3].length < 256 by decide) (hmov₃.welcome (by simp [hobs₃])) (fun h => nomatch h)
    (hsessions₃ _ rfl) (instant 5) [] [4]
  rw [opening, hagain]
  rfl

/-- The nonce of the `j`th grant, and the grant: onto the second chip, from wherever. -/
def nonceOf (j : ℕ) : Json := .str (Bytes.hex (Bytes.toLittle 16 j))

def ontoB (j : ℕ) : Moment × Call := move teeB none true (Bytes.toLittle 16 j) 10

theorem spends_ontoB (j : ℕ) : Call.Spends tik (nonceOf j) (ontoB j).2 := ⟨rfl, rfl⟩

theorem nonceOf_unspent {j : ℕ} {js : List ℕ} (hj : j < 256 ^ 16) (h : ∀ i ∈ js, i < 256 ^ 16 ∧ i ≠ j) :
    (nonceOf j).pyMem (js.map nonceOf) = false := by
  simp only [Json.pyMem, List.any_map, List.any_eq_false, Function.comp_apply, nonceOf, Json.pyEq_str,
    decide_eq_true_eq, Bytes.hex_inj]
  intro i hi heq
  obtain ⟨hlt, hne⟩ := h i hi
  exact hne (Bytes.toLittle_injective hlt hj heq.symm)

theorem lastN_concat {A : Type} {n : ℕ} (hn : 0 < n) (xs : List A) (x : A) :
    lastN n (lastN n xs ++ [x]) = lastN n (xs ++ [x]) := by
  simp only [lastN, List.length_append, List.length_drop, List.length_singleton]
  by_cases h : xs.length ≤ n
  · simp [Nat.sub_eq_zero_of_le h]
  · rw [List.drop_append_of_le_length (by rw [List.length_drop]; omega),
      List.drop_append_of_le_length (by omega), List.drop_drop]
    congr 2
    omega

/-- `j` grants onto the second chip have been accepted. -/
structure Moved (j : ℕ) (m : Mandate) : Prop where
  movable : ∃ e, Movable (m.record tik) e
  witnessed : ∃ w, ((m.record tik).witnessed.find? fun w => Bytes.hex w.inst = Bytes.hex teeB.inst &&
    decide ((((instant 10).env.time - w.at_ : ℤ) : ℚ) < twoChips.witnessTtl)) = some w
  spent : (m.record tik).consumedGrants = lastN 256 ((List.range j).map nonceOf)

namespace Moved

variable {j : ℕ} {m : Mandate}

theorem step_ontoB (h : Moved j m) {i : ℕ}
    (hnew : (nonceOf i).pyMem (m.record tik).consumedGrants = false) :
    ∃ w, m.step .plain twoChips (ontoB i) =
      (.decision ⟨true, transferredText, none⟩,
        (transferred (instant 10).env m tik
          (Transfer.grantFields tik teeB.inst none true (10 : ℕ) 900 (Bytes.toLittle 16 i)) teeB.inst w
          (nonceOf i)).recordDecision .plain twoChips (instant 10).env "transfer" tik true
            transferredText (some teeB.inst)) := by
  obtain ⟨e, hmov⟩ := h.movable
  obtain ⟨w, hw⟩ := h.witnessed
  exact ⟨w, step_move twoChips teeB _ hmov none true (.inl ⟨rfl, rfl⟩) 10 hnew teeB_trusted.usable hw⟩

theorem next (h : Moved j m) (hnew : (nonceOf j).pyMem (m.record tik).consumedGrants = false) :
    Moved (j + 1) (m.step .plain twoChips (ontoB j)).2 := by
  obtain ⟨w, hstep⟩ := h.step_ontoB hnew
  obtain ⟨e, hmov⟩ := h.movable
  obtain ⟨w', hw'⟩ := h.witnessed
  rw [hstep]
  refine ⟨⟨teeB.inst, ?_⟩, ⟨w', ?_⟩, ?_⟩ <;> rw [record_recordDecision, record_transferred_self]
  · exact movable_moved _ hmov (by decide) _ _ _
  · exact hw'
  · rw [consumedGrants_moved, h.spent, lastN_concat (by omega), List.range_succ, List.map_append]
    rfl

theorem unspent (h : Moved j m) {i : ℕ} (hi : i < 256 ^ 16) (hj : j < 256 ^ 16)
    (hne : ∀ i' ∈ (List.range j).drop (j - 256), i' ≠ i) :
    (nonceOf i).pyMem (m.record tik).consumedGrants = false := by
  rw [h.spent, lastN, List.length_map, List.length_range, ← List.map_drop]
  refine nonceOf_unspent hi fun i' hi' => ⟨?_, hne i' hi'⟩
  have := List.mem_range.mp (List.mem_of_mem_drop hi')
  omega

theorem exec (h : Moved 0 m) : ∀ {j : ℕ}, j < 256 ^ 16 →
    Moved j (Run.exec (step .plain twoChips) m ((List.range j).map ontoB)) := by
  intro j
  induction j with
  | zero => exact fun _ => h
  | succ j ih =>
      intro hj
      have hlast := ih (by omega)
      rw [List.range_succ, List.map_append, List.map_singleton, Run.exec_append, Run.exec_cons,
        Run.exec_nil]
      refine hlast.next (hlast.unspent (by omega) (by omega) fun i hi => ?_)
      have := List.mem_range.mp (List.mem_of_mem_drop hi)
      omega

end Moved

/-- The second chip is seen at a mandate where the identity lives on the first. -/
def seen : List (Moment × Call) := birth (some owner) ++ [opening teeB [1] [2] 9]

theorem moved_seen : Moved 0 (after .plain twoChips (fun _ => none) seen) := by
  have hdest := find_noticed twoChips teeB (bornOnA (some owner)) 9 10
    (by norm_num [twoChips, mockMandate])
  refine ⟨⟨teeA.inst, ?_⟩, ⟨⟨teeB.inst, nonEmpty (Tee.present teeB.chip), (9 : ℕ)⟩, ?_⟩, ?_⟩ <;>
    rw [seen, record_elsewhere trustsChips teeB_trusted (by decide) [1] [2] 9]
  · exact movable_noticed twoChips teeB movable_bornOnA 9
  · exact hdest
  · rfl

/-- A grant that was accepted is refused after 255 others. -/
theorem grant_single_use_seen :
    Accepted .plain twoChips (Call.Spends tik (nonceOf 0))
      (after .plain twoChips (fun _ => none) seen) (ontoB 0) ∧
    ¬ Accepted .plain twoChips (Call.Spends tik (nonceOf 0)) (after .plain twoChips (fun _ => none)
      (seen ++ ontoB 0 :: (List.range 255).map fun j => ontoB (j + 1))) (ontoB 0) := by
  obtain ⟨w, hstep⟩ := moved_seen.step_ontoB (i := 0) (by rw [moved_seen.spent]; rfl)
  have hacc : Accepted .plain twoChips (Call.Spends tik (nonceOf 0))
      (after .plain twoChips (fun _ => none) seen) (ontoB 0) := ⟨spends_ontoB 0, by rw [hstep]; rfl⟩
  refine ⟨hacc, grant_single_use _ hacc ?_ (by simp [nonceOf])⟩
  refine (Run.count_le_length _ _ _ _).trans_lt ?_
  rw [List.length_map, List.length_range]
  omega

/-- **A grant is used twice** when 256 others were accepted in between. -/
theorem grant_used_twice :
    Accepted .plain twoChips (Call.Spends tik (nonceOf 0))
      (after .plain twoChips (fun _ => none) seen) (ontoB 0) ∧
    Accepted .plain twoChips (Call.Spends tik (nonceOf 0))
      (after .plain twoChips (fun _ => none) (seen ++ (List.range 257).map ontoB)) (ontoB 0) := by
  obtain ⟨w, hfirst⟩ := moved_seen.step_ontoB (i := 0) (by rw [moved_seen.spent]; rfl)
  have hend : Moved 257 (after .plain twoChips (fun _ => none) (seen ++ (List.range 257).map ontoB)) := by
    rw [after, Run.exec_append]
    exact moved_seen.exec (by norm_num)
  have hforgotten : ∀ i ∈ (List.range 257).drop (257 - 256), i ≠ 0 := by
    rw [List.range_succ_eq_map]
    simp
  obtain ⟨w', hagain⟩ := hend.step_ontoB (i := 0) (hend.unspent (by norm_num) (by norm_num) hforgotten)
  exact ⟨⟨spends_ontoB 0, by rw [hfirst]; rfl⟩, spends_ontoB 0, by rw [hagain]; rfl⟩

end Forgotten

end Hatls
