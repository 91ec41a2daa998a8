import Gamelan.Midi.Render

namespace Gamelan.Performance

/-- What can be asked of a performance once it is set up. -/
inductive Call where
  | reset (position? : Option Position)
  | next
  | walk (position? : Option Position)
  | render (settings : Settings)

/-- The performance that a call leaves behind. -/
def Call.run (p : Performance) : Call → Performance
  | reset position? => p.reset position?
  | next => p.next.2
  | walk position? => (p.walk position?).2
  | render settings => (p.render settings).2

/-- The performance after some calls in turn. -/
def after (p : Performance) (calls : List Call) : Performance := calls.foldl Call.run p

section Invariant

variable {I : Performance → Prop} (hreset : ∀ p position?, I p → I (p.reset position?))
  (hnext : ∀ p, I p → I p.next.2)

include hnext in
theorem finish_invariant (acc : Array Played) {p : Performance} (hp : I p) : I (finish acc p).2 := by
  have hstep := hnext p hp
  fun_induction finish acc p with
  | case1 acc p e q h => rwa [h] at hstep
  | case2 acc p q h => rwa [h] at hstep
  | case3 acc p b q h ih =>
    rw [h] at hstep
    exact ih hstep (hnext q hstep)

include hreset hnext

theorem walk_invariant (position? : Option Position) {p : Performance} (hp : I p) : I (p.walk position?).2 :=
  finish_invariant hnext _ (hreset p position? hp)

theorem parts_invariant (settings : Settings) (plan : List (Position × Instrument)) {p : Performance} (hp : I p) :
    I (parts settings plan p).2 := by
  induction plan generalizing p with
  | nil => exact hp
  | cons entry plan ih =>
    obtain ⟨position, instrument⟩ := entry
    have hpart : I (p.part settings position instrument).2 := walk_invariant hreset hnext (some position) hp
    rw [parts]
    generalize p.part settings position instrument = r at hpart ⊢
    obtain ⟨out, q⟩ := r
    cases out with
    | error e => exact hpart
    | ok track => exact ih hpart

theorem render_invariant (settings : Settings) {p : Performance} (hp : I p) : I (p.render settings).2 := by
  have hconductor : I (p.conductor settings).2 := walk_invariant hreset hnext none hp
  rw [render]
  cases Midi.trackPlan p.score settings with
  | error fault => exact hp
  | ok plan =>
    generalize p.conductor settings = r at hconductor ⊢
    obtain ⟨out, q⟩ := r
    cases out with
    | error e => exact hconductor
    | ok first =>
      have hparts := parts_invariant hreset hnext settings plan hconductor
      simp only
      generalize parts settings plan q = r at hparts ⊢
      obtain ⟨out, q⟩ := r
      cases out <;> exact hparts

/-- What resets and steps preserve holds after all calls, since the others are made of these two. -/
theorem after_invariant (calls : List Call) {p : Performance} (hp : I p) : I (p.after calls) := by
  induction calls generalizing p with
  | nil => exact hp
  | cons call calls ih =>
    refine ih (p := call.run p) ?_
    cases call with
    | reset position? => exact hreset p position? hp
    | next => exact hnext p hp
    | walk position? => exact walk_invariant hreset hnext position? hp
    | render settings => exact render_invariant hreset hnext settings hp

end Invariant

end Gamelan.Performance
