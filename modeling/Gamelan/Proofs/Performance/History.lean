import Gamelan.Proofs.Arrangement.Invariant
import Gamelan.Proofs.Performance.Calls
import Gamelan.Proofs.Performance.Restart

namespace Gamelan.Performance

theorem IsComplete.after {p : Performance} (hp : p.IsComplete) (calls : List Call) : (p.after calls).IsComplete :=
  after_invariant (fun _ position? hp => hp.reset position?) (fun _ hp => hp.next) calls hp

/-- All calls on a performance whose jumps are set up are forgotten by a reset. -/
theorem IsComplete.reset_after {p : Performance} (hp : p.IsComplete) (calls : List Call)
    (position? : Option Position) : (p.after calls).reset position? = p.reset position? := by
  have hkept : (p.after calls).IsComplete ∧
      ∀ position?, (p.after calls).reset position? = p.reset position? := by
    refine after_invariant ?_ ?_ calls (I := fun q => q.IsComplete ∧
      ∀ position?, q.reset position? = p.reset position?) ⟨hp, fun _ => rfl⟩
    · rintro q position'? ⟨hq, hsame⟩
      exact ⟨hq.reset position'?, fun position? => (reset_reset q position? position'?).trans (hsame position?)⟩
    · rintro q ⟨hq, hsame⟩
      exact ⟨hq.next, fun position? => (hq.reset_next position?).trans (hsame position?)⟩
  exact hkept.2 position?

variable {p q : Performance}

theorem walk_congr {position? : Option Position} (h : p.reset position? = q.reset position?) :
    p.walk position? = q.walk position? := by
  rw [walk, walk, h]

theorem part_congr (settings : Settings) {position : Position} (instrument : Instrument)
    (h : p.reset (some position) = q.reset (some position)) :
    p.part settings position instrument = q.part settings position instrument := by
  rw [part, part, walk_congr h]

theorem conductor_congr (settings : Settings) (h : p.reset none = q.reset none) :
    p.conductor settings = q.conductor settings := by
  rw [conductor, conductor, walk_congr h]

/-- The file is made of walks only, so it depends on what a reset leaves. -/
theorem render_fst_congr (settings : Settings) (h : p.reset none = q.reset none) :
    (p.render settings).1 = (q.render settings).1 := by
  have hscore : (p.reset none).score = (q.reset none).score := by rw [h]
  change p.score = q.score at hscore
  rw [render, render, hscore, conductor_congr settings h]
  cases Midi.trackPlan q.score settings <;> rfl

/-- What is performed, and the file that is written, do not depend on what has been asked of the performance
before: resets, single steps, walks that end early or late, and files. -/
theorem walk_independent_of_history {s : Score} {settings : Settings} {a : Arrangement}
    (h : s.arrange settings = .ok a) (calls : List Call) :
    (∀ position?, ((a.performance.after calls).walk position?).1 = (a.performance.walk position?).1) ∧
      (∀ settings', ((a.performance.after calls).render settings').1 = (a.performance.render settings').1) ∧
      ∀ settings' position instrument, ((a.performance.after calls).part settings' position instrument).1 =
        (a.performance.part settings' position instrument).1 := by
  have hreset := (Score.arrange_isComplete h).reset_after calls
  refine ⟨?_, ?_, ?_⟩
  · intro position?
    rw [walk_congr (hreset position?)]
  · intro settings'
    exact render_fst_congr settings' (hreset none)
  · intro settings' position instrument
    rw [part_congr settings' instrument (hreset (some position))]

/-- A loop, a goto and changes of both quantities, with a walk that is given up on the way. -/
theorem walk_independent_of_history_abandoned :
    let m : Manuscript := { gongans := [
      { directives := [.label "A" 2, .loop 2, .tempo 90 { beatCount := 2 }, .dynamics "ff" {} ["reyong"]],
        beats := [{}, {}] },
      { directives := [.goto "A" none [1] none], beats := [{}] }] }
    let calls : List Call := [.walk (some "reyong"), .reset none, .next, .next, .next, .render {}, .next]
    ∃ s a, m.toScore = .ok s ∧ s.arrange {} = .ok a ∧
      ((a.performance.after calls).walk (some "gangsa")).1 = (a.performance.walk (some "gangsa")).1 := by
  intro m calls
  have harrangement : ∃ s a, m.toScore = .ok s ∧ s.arrange {} = .ok a ∧ True :=
    Manuscript.exists_arrangement (by decide +kernel)
  obtain ⟨s, a, hs, ha, -⟩ := harrangement
  exact ⟨s, a, hs, ha, (walk_independent_of_history ha calls).1 (some "gangsa")⟩

end Gamelan.Performance
