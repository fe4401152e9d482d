import Hatls.Enrolment

/-!
# Where witnesses come from

A witness is an instance of which the mandate has verified evidence; a transfer may
only point at one.  It is written when a presentation is objected to, before the
message is answered.  Every witness on record was written by such a presentation, at
the time it carries.

## Main definitions

* `Elsewhere` — one from an instance the record speaks against.
* `Witnessing` — one that makes a witness.
* `witnessed_step`, `witnessed_origin` — the witnesses of a step and of a history.
-/

namespace Hatls

open Mandate

variable {P : Primitives} {cfg : Config}

/-- **A presentation from elsewhere**: its evidence is valid, and the identity is enrolled
on another instance, or another was observed.  These are the refusals that note the
instance, with its place. -/
inductive Elsewhere (P : Primitives) (cfg : Config) (m : Mandate) (k : Bytes) (msg : Json)
    (head : Option Bytes) (bundle : Option Json) (i : Bytes) (place : Option Bytes) : Prop
  | enrolled {pl e : Bytes} (h : Verified P cfg m k msg head bundle (some i) place pl)
      (hen : nonEmpty (m.record k).enrolledInstance = some e) (hne : i ≠ e)
  | observed {pl o : Bytes} (h : Verified P cfg m k msg head bundle (some i) place pl)
      (henrolled : cfg.requireEnrolment = true → (nonEmpty (m.record k).enrolledInstance).isSome)
      (hhome : ∀ e, nonEmpty (m.record k).enrolledInstance = some e → i = e)
      (hplaced : cfg.requirePlace = true → place.isSome ∧
        ((nonEmpty (m.record k).enrolledPlace).isSome → place = nonEmpty (m.record k).enrolledPlace))
      (hob : nonEmpty (m.record k).observedInstance = some o) (hne : i ≠ o)

/-- **A presentation for `k` from elsewhere is not accepted**: it is refused, or, where the
message has no counter, ended by the exception of naming it.  The witness is that of its
evidence, at the time of the call. -/
inductive Witnessing (P : Primitives) (cfg : Config) (m : Mandate) (k : Bytes) :
    Json → Witness → Moment × Call → Prop
  | present {t : Moment} {ctx exporter : Bytes} {msg : Json} {head : Option Bytes}
      {bundle : Option Json} {evidence : Json} {anchor : Anchor}
      (hshows : Call.Shows P cfg k (.present k ctx exporter msg head bundle) evidence anchor)
      (helsewhere : Elsewhere P cfg m k msg head bundle anchor.inst anchor.place)
      (hno : (∃ v, (m.step P cfg (t, .present k ctx exporter msg head bundle)).1 = .decision v ∧
          v.ok = false) ∨
        ∃ x, msg.item "counter" = .error x ∧
          (m.step P cfg (t, .present k ctx exporter msg head bundle)).1 = .raised x) :
      Witnessing P cfg m k evidence ⟨anchor.inst, nonEmpty anchor.place, t.env.time⟩
        (t, .present k ctx exporter msg head bundle)

theorem Witnessing.time {m : Mandate} {i : Moment × Call} {k : Bytes} {evidence : Json} {w : Witness}
    (h : Witnessing P cfg m k evidence w i) : w.at_ = i.1.env.time := by
  cases h with
  | present => rfl

theorem Witnessing.shows {m : Mandate} {i : Moment × Call} {k : Bytes} {evidence : Json} {w : Witness}
    (h : Witnessing P cfg m k evidence w i) :
    ∃ anchor, i.2.Shows P cfg k evidence anchor ∧ anchor.inst = w.inst ∧
      nonEmpty anchor.place = w.place := by
  cases h with
  | present hshows => exact ⟨_, hshows, rfl, rfl⟩

/-- Noting an instance adds one witness. -/
theorem mem_witness {r : Record} {env : Env} {i : Bytes} {place : Option Bytes} {w : Witness}
    (hw : w ∈ (r.witness cfg env i place).witnessed) :
    w ∈ r.witnessed ∨ w = ⟨i, nonEmpty place, env.time⟩ := by
  have hmem := List.mem_of_mem_drop hw
  rcases List.mem_append.mp hmem with hold | hnew
  · exact .inl (List.mem_filter.mp hold).1
  · exact .inr (List.mem_singleton.mp hnew)

/-- An objection notes an instance where the presentation is from elsewhere, and there
only. -/
theorem Objects.witnessed {m : Mandate} {env : Env} {k ctx exporter : Bytes} {msg : Json}
    {head : Option Bytes} {bundle : Option Json} {r' : Record} {why : String} {inst : Option Bytes}
    (h : Objects P cfg env m k ctx exporter msg head bundle r' why inst) :
    r'.witnessed = (m.record k).witnessed ∨
      ∃ i place, Elsewhere P cfg m k msg head bundle i place ∧
        r'.witnessed = ((m.record k).witness cfg env i place).witnessed := by
  cases h with
  | impostor h hen hne => exact .inr ⟨_, _, .enrolled h hen hne, rfl⟩
  | silicon => exact .inl rfl
  | contention h henrolled hhome hplaced hob hne =>
      exact .inr ⟨_, _, .observed h henrolled hhome hplaced hob hne, rfl⟩
  | counter => exact .inl rfl
  | link => exact .inl rfl

theorem Elsewhere.verified {m : Mandate} {k : Bytes} {msg : Json} {head : Option Bytes}
    {bundle : Option Json} {i : Bytes} {place : Option Bytes}
    (h : Elsewhere P cfg m k msg head bundle i place) :
    ∃ pl, Verified P cfg m k msg head bundle (some i) place pl := by
  cases h with
  | enrolled h => exact ⟨_, h⟩
  | observed h => exact ⟨_, h⟩

theorem Elsewhere.shows {m : Mandate} {k : Bytes} {msg : Json} {head : Option Bytes}
    {bundle : Option Json} {i : Bytes} {place : Option Bytes}
    (h : Elsewhere P cfg m k msg head bundle i place) (ctx exporter : Bytes) :
    ∃ evidence anchor,
      Call.Shows P cfg k (.present k ctx exporter msg head bundle) evidence anchor ∧
        anchor.inst = i ∧ anchor.place = place := by
  obtain ⟨pl, hver⟩ := h.verified
  exact hver.shows ctx exporter

/-- **A call adds at most the witness of the evidence it shows.** -/
theorem witnessed_step {m : Mandate} {i : Moment × Call} {k : Bytes} {w : Witness}
    (hw : w ∈ ((m.step P cfg i).2.record k).witnessed) :
    w ∈ (m.record k).witnessed ∨ ∃ evidence, Witnessing P cfg m k evidence w i := by
  obtain ⟨t, c⟩ := i
  have hch := m.step_change P cfg t c k
  generalize hr : (m.step P cfg (t, c)).2.record k = r' at hch hw
  generalize hreply : (m.step P cfg (t, c)).1 = reply at hch
  cases hch with
  | enrolled => exact .inl hw
  | revoked => exact .inl hw
  | transferred => exact .inl hw
  | presented => exact .inl hw
  | same => exact .inl hw
  | noted _ _ hobj =>
      cases hobj with
      | @present ctx exporter msg _ _ _ _ _ h =>
          rcases h.witnessed with hsame | ⟨i, place, helse, hnew⟩
          · exact .inl (hsame ▸ hw)
          rw [hnew] at hw
          rcases mem_witness hw with hold | rfl
          · exact .inl hold
          obtain ⟨evidence, anchor, hshows, rfl, rfl⟩ := helse.shows ctx exporter
          refine .inr ⟨evidence, .present hshows helse ?_⟩
          rw [step_of_objects m t h]
          cases hc : msg.item "counter" with
          | error x => exact .inr ⟨x, rfl, rfl⟩
          | ok c => exact .inl ⟨_, rfl, rfl⟩

/-- **A witness on record was written in this history**, at the time it carries. -/
theorem witnessed_origin {events : List Event} {k : Bytes} {w : Witness}
    (hw : w ∈ ((Process.after P cfg (fun _ => none) events).mandate.record k).witnessed) :
    ∃ pre i post evidence, events = pre ++ .call i :: post ∧
      Witnessing P (Process.after P cfg (fun _ => none) pre).cfg
        (Process.after P cfg (fun _ => none) pre).mandate k evidence w i := by
  have hstep : ∀ (s : Process) (e : Event), w ∈ ((s.step P e).2.mandate.record k).witnessed →
      (∃ i evidence, e = .call i ∧ Witnessing P s.cfg s.mandate k evidence w i) ∨
        w ∈ (s.mandate.record k).witnessed ∧ True := by
    intro s e h
    cases e with
    | restart cfg' => exact .inr ⟨h, trivial⟩
    | call i =>
        rcases witnessed_step h with hold | ⟨evidence, hwit⟩
        · exact .inr ⟨hold, trivial⟩
        · exact .inl ⟨i, evidence, rfl, hwit⟩
  rcases Run.origin (Process.step P) (fun s => w ∈ (s.mandate.record k).witnessed)
      (fun s e => ∃ i evidence, e = .call i ∧ Witnessing P s.cfg s.mandate k evidence w i)
      (fun _ _ => True) hstep hw with
    ⟨hnone, -⟩ | ⟨pre, e, post, heq, ⟨i, evidence, rfl, hwit⟩, -⟩
  · cases hnone
  · exact ⟨pre, i, post, evidence, heq, hwit⟩

end Hatls
