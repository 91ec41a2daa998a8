import Gamelan.Proofs.Arrangement.Defaults
import Gamelan.Proofs.Performance.Values
import Gamelan.Proofs.Ramp.Running

namespace Gamelan

theorem Performance.ofScore_eq_ok {s : Score} {settings : Settings} {p : Performance}
    (h : Performance.ofScore s settings = .ok p) :
    ∃ tempo dynamics, Schedule.ofDefault .tempo settings.defaultTempo = .ok tempo ∧
      Schedule.ofDefault .dynamics settings.defaultVelocity = .ok dynamics ∧
      p = {
        score := s, tempo, dynamics, maxSteps := settings.maxSteps
        jumps := Array.replicate s.beats.size none } := by
  rw [ofScore] at h
  cases htempo : Schedule.ofDefault .tempo settings.defaultTempo with
  | error fault => simp [htempo, Except.mapError, bind, Except.bind] at h
  | ok tempo =>
    cases hdynamics : Schedule.ofDefault .dynamics settings.defaultVelocity with
    | error fault => simp [htempo, hdynamics, Except.mapError, bind, Except.bind] at h
    | ok dynamics =>
      simp only [htempo, hdynamics, Except.mapError, bind, Except.bind] at h
      exact ⟨tempo, dynamics, rfl, rfl, (Except.ok.inj h).symm⟩

/-- What the computation from a manuscript to a performance shows holds of a score and its performance. -/
theorem Performance.exists_ofScore {m : Manuscript} {settings : Settings} {P : Score → Performance → Prop}
    [∀ s p, Decidable (P s p)]
    (h : (m.toScore.toOption.bind fun s => (ofScore s settings).toOption.map fun p => decide (P s p)) = some true) :
    ∃ s p, m.toScore = .ok s ∧ ofScore s settings = .ok p ∧ P s p := by
  obtain ⟨s, hs, hrest⟩ := Option.bind_eq_some_iff.1 h
  obtain ⟨p, hp, hP⟩ := Option.map_eq_some_iff.1 hrest
  exact ⟨s, p, toOption_eq_some_iff.1 hs, toOption_eq_some_iff.1 hp, of_decide_eq_true hP⟩

namespace Performance

/-- Ramps that are added are as they have been made: none is running already. -/
def Operation.AddsFresh : Operation → Prop
  | addRamp _ _ r => r.status? = none
  | _ => True

instance : (o : Operation) → Decidable o.AddsFresh
  | .addRamp _ _ r => inferInstanceAs (Decidable (r.status? = none))
  | .createJump _ | .addGoto .. | .extendJump .. | .setCounter .. | .setLoop .. | .reset _ | .next | .walk _ | .render _
  | .look => .isTrue trivial

/-- The performance after some operations in turn. -/
def afterOperations (p : Performance) (os : List Operation) : Performance := os.foldl (fun p o => (o.run p).2) p

theorem complete_afterOperations (p : Performance) (os : List Operation) :
    (p.afterOperations os).complete = p.complete.afterOperations os := by
  induction os generalizing p with
  | nil => rfl
  | cons o os ih =>
    have hrun : (o.run p.complete).2 = (o.run p).2.complete := by rw [Operation.run_complete]
    exact (ih _).trans (congrArg (·.afterOperations os) hrun.symm)

theorem complete_isComplete {p : Performance} (h : p.jumps.size = p.score.beats.size) : p.complete.IsComplete := by
  refine ⟨p.size_complete.trans h, fun b hb => ⟨p.jump b, ?_⟩⟩
  rw [getElem?_complete, if_pos (p.size_complete ▸ hb)]

/-- All jumps are set up, and of each quantity one ramp is running. -/
structure HasOneRunning (p : Performance) : Prop where
  complete : p.IsComplete
  schedules : ∀ quantity, (p.schedule quantity).HasOneRunning

variable {s : Score} {settings : Settings} {p q : Performance} {quantity : Quantity}

theorem ofScore_hasOneRunning (h : ofScore s settings = .ok p) : p.complete.HasOneRunning := by
  obtain ⟨tempo, dynamics, htempo, hdynamics, rfl⟩ := ofScore_eq_ok h
  refine ⟨complete_isComplete Array.size_replicate, fun quantity => ?_⟩
  cases quantity with
  | tempo => exact Schedule.ofDefault_hasOneRunning htempo
  | dynamics => exact Schedule.ofDefault_hasOneRunning hdynamics

namespace HasOneRunning

variable (hp : p.HasOneRunning)

include hp

theorem congr (hq : q.IsComplete) (htempo : p.tempo = q.tempo) (hdynamics : p.dynamics = q.dynamics) :
    q.HasOneRunning := by
  refine ⟨hq, fun quantity => ?_⟩
  cases quantity with
  | tempo => exact congrArg Schedule.HasOneRunning htempo ▸ hp.schedules .tempo
  | dynamics => exact congrArg Schedule.HasOneRunning hdynamics ▸ hp.schedules .dynamics

theorem setJump (b : BeatId) (j : Jump) : (p.setJump b j).HasOneRunning := hp.congr (hp.complete.setJump b j) rfl rfl

theorem setLoop (n : Nat) (l : Loop) : (p.setLoop n l).HasOneRunning := hp.congr hp.complete rfl rfl

theorem addRamp (quantity : Quantity) (b : BeatId) {r : Ramp} (hr : r.status? = none) :
    (p.addRamp quantity b r).HasOneRunning := by
  refine ⟨by cases quantity <;> exact hp.complete, fun quantity' => ?_⟩
  rw [schedule_addRamp]
  split
  · exact (hp.schedules quantity').add b hr
  · exact hp.schedules quantity'

theorem reset (position? : Option Position) : (p.reset position?).HasOneRunning := by
  refine ⟨hp.complete.reset position?, fun quantity => ?_⟩
  rw [schedule_reset]
  exact (hp.schedules quantity).reset

theorem visit (b : BeatId) : (p.visit b).HasOneRunning := by
  refine ⟨hp.complete.visit b, fun quantity => ?_⟩
  rw [hp.complete.schedule_visit]
  exact (hp.schedules quantity).enter b _ _ _

/-- A step that fails leaves all ramps as they are, and so does the one that comes to the end. -/
theorem next : p.next.2.HasOneRunning := by
  rcases hp.complete.next_cases with ⟨b, hb⟩ | ⟨-, cursor, steps, hstay⟩
  · rw [hb]
    exact hp.visit b
  · rw [hstay]
    exact hp.congr hp.complete rfl rfl

theorem run {o : Operation} (ho : o.AddsFresh) : (o.run p).2.HasOneRunning := by
  have hreset (p : Performance) (position? : Option Position) (hp : p.HasOneRunning) :
      (p.reset position?).HasOneRunning := hp.reset position?
  have hnext (p : Performance) (hp : p.HasOneRunning) : p.next.2.HasOneRunning := hp.next
  cases o with
  | createJump b => exact hp.setJump b _
  | addGoto a b passes cycle? => exact hp.setJump a _
  | extendJump b other skipOtherwise => exact hp.setJump b _
  | setCounter b n => exact hp.setJump b _
  | setLoop n l => exact hp.setLoop n l
  | addRamp quantity b r => exact hp.addRamp quantity b ho
  | reset position? => exact hp.reset position?
  | next => exact hp.next
  | walk position? => exact walk_invariant hreset hnext position? hp
  | render settings => exact render_invariant hreset hnext settings hp
  | look => exact hp

theorem afterOperations {os : List Operation} (hfresh : ∀ o ∈ os, o.AddsFresh) :
    (p.afterOperations os).HasOneRunning := by
  induction os generalizing p with
  | nil => exact hp
  | cons o os ih => exact ih (hp.run (hfresh o (.head os))) fun o' ho' => hfresh o' (.tail o ho')

/-- A ramp becomes the active one on a visit alone, where it starts from the value that has been reached. -/
theorem activeRamp?_next (quantity : Quantity)
    (hactive : (p.next.2.schedule quantity).active ≠ (p.schedule quantity).active) :
    ∃ r st new, (p.schedule quantity).activeRamp? = some r ∧ r.status? = some st ∧
      (p.schedule quantity).ramps[(p.next.2.schedule quantity).active]? = some new ∧
      (p.next.2.schedule quantity).activeRamp? = some (new.start st.span.stop).next := by
  rcases hp.complete.next_cases with ⟨b, hb⟩ | ⟨-, cursor, steps, hstay⟩
  · rw [hb, hp.complete.schedule_visit] at hactive ⊢
    exact (hp.schedules quantity).activeRamp?_enter hactive
  · rw [hstay] at hactive
    exact absurd (by cases quantity <;> rfl) hactive

end HasOneRunning

/-- Of a quantity one ramp is running, which the values are those of, so that they never fall back to the default. A
ramp that becomes the active one on a step starts from the value that the one before has reached and goes one beat on.
After a reset the default is the active one, at its own value. -/
structure RunsOneByOne (p : Performance) (quantity : Quantity) : Prop where
  one : (p.schedule quantity).HasOneRunning
  values : ∃ r st, (p.schedule quantity).activeRamp? = some r ∧ r.status? = some st ∧
    (p.schedule quantity).span = st.span
  takeover : (p.next.2.schedule quantity).active ≠ (p.schedule quantity).active →
    ∃ r st new, (p.schedule quantity).activeRamp? = some r ∧ r.status? = some st ∧
      (p.schedule quantity).ramps[(p.next.2.schedule quantity).active]? = some new ∧
      (p.next.2.schedule quantity).activeRamp? = some (new.start st.span.stop).next
  restart : ∀ position?, ((p.reset position?).schedule quantity).active = 0 ∧
    ((p.reset position?).schedule quantity).span = ⟨(p.schedule quantity).default, (p.schedule quantity).default⟩

/-- Jumps that the beats have anyway do not matter to ramps. -/
theorem runsOneByOne_of_complete (hp : p.complete.HasOneRunning) (quantity : Quantity) : p.RunsOneByOne quantity := by
  have hschedule (q : Performance) : q.complete.schedule quantity = q.schedule quantity := by cases quantity <;> rfl
  have hnext : p.complete.next.2.schedule quantity = p.next.2.schedule quantity := by rw [next_complete, hschedule]
  have hone := hp.schedules quantity
  have htakeover := hp.activeRamp?_next quantity
  rw [hschedule] at hone
  rw [hnext, hschedule] at htakeover
  refine ⟨hone, hone.exists_span_eq, htakeover, fun position? => ?_⟩
  rw [schedule_reset]
  exact ⟨rfl, hone.span_reset⟩

theorem hasOneRunning_of_follow {bs : List BeatId} (hp : p.complete.HasOneRunning) (h : p.follow bs = some q) :
    q.complete.HasOneRunning := by
  induction bs generalizing p with
  | nil => exact Option.some.inj h ▸ hp
  | cons b bs ih =>
    obtain ⟨r, hnext, hr⟩ := follow_cons_eq_some_iff.1 h
    have hstep := hp.next
    rw [next_complete, hnext] at hstep
    exact ih hstep hr

/-- Whatever is set up, whichever ramps are added, at any time and as they have been made, and however often a
performance is reset, taken on by steps that succeed or fail and walked: of each quantity, the active ramp is one of
those there are, it is running, and no other one is, and the ramps that may begin at a beat are among those added.
So the values are always those of a running ramp, and one that becomes active starts from the value that the one before
has reached. This holds after all operations and on the way of a walk. -/
theorem ramps_run_one_by_one (h : ofScore s settings = .ok p) {os : List Operation}
    (hfresh : ∀ o ∈ os, o.AddsFresh) (quantity : Quantity) :
    (p.afterOperations os).RunsOneByOne quantity ∧
      ∀ position? bs q, ((p.afterOperations os).reset position?).follow bs = some q → q.RunsOneByOne quantity := by
  have hrunning : (p.afterOperations os).complete.HasOneRunning := by
    rw [complete_afterOperations]
    exact (ofScore_hasOneRunning h).afterOperations hfresh
  refine ⟨runsOneByOne_of_complete hrunning quantity, fun position? bs q hq => ?_⟩
  refine runsOneByOne_of_complete (hasOneRunning_of_follow ?_ hq) quantity
  rw [complete_reset]
  exact hrunning.reset position?

/-- A ramp over two beats is overtaken after its first beat by one that has been added on the way. A walk has failed at
the limit in between, and so has a further step. -/
theorem ramps_run_one_by_one_overtaken :
    let m : Manuscript := { gongans := [{ beats := [{}, {}] }] }
    let settings : Settings := { defaultTempo := 60, maxSteps := 2 }
    let up : Ramp := { quantity := .tempo, target := 120, length := 2 }
    let down : Ramp := { quantity := .tempo, target := 30, length := 1 }
    let os : List Operation :=
      [.addRamp .tempo 0 up, .next, .addRamp .tempo 1 down, .addGoto 1 0 [] none, .walk none, .next, .reset none, .next]
    ∃ s p, m.toScore = .ok s ∧ ofScore s settings = .ok p ∧ (∀ o ∈ os, o.AddsFresh) ∧
      let q := p.afterOperations os
      q.tempo.active = 1 ∧ q.tempo.span = ⟨60, 90⟩ ∧ q.next.2.tempo.active = 2 ∧
        q.next.2.tempo.activeRamp? = some (down.start 90).next := by
  intro m settings up down os
  have hperformance : ∃ s p, m.toScore = .ok s ∧ ofScore s settings = .ok p ∧
      (p.afterOperations os).tempo.active = 1 ∧ (p.afterOperations os).tempo.span = ⟨60, 90⟩ ∧
        (p.afterOperations os).next.2.tempo.active = 2 ∧ (p.afterOperations os).tempo.ramps[2]? = some down :=
    exists_ofScore (by decide +kernel)
  obtain ⟨s, p, hs, hp, hactive, hspan, hturned, hdown⟩ := hperformance
  have hfresh : ∀ o ∈ os, o.AddsFresh := by decide
  have hone := (ramps_run_one_by_one hp hfresh .tempo).1
  refine ⟨s, p, hs, hp, hfresh, hactive, hspan, hturned, ?_⟩
  generalize p.afterOperations os = q at hone hactive hspan hturned hdown ⊢
  have hother : q.next.2.tempo.active ≠ q.tempo.active := by
    rw [hturned, hactive]
    decide
  obtain ⟨r, st, new, hr, hst, hnew, hnext⟩ := hone.takeover hother
  have hnew : q.tempo.ramps[q.next.2.tempo.active]? = some new := hnew
  have hreached : st.span = ⟨60, 90⟩ := (Schedule.span_eq hr hst).symm.trans hspan
  obtain rfl := Option.some.inj ((hturned ▸ hnew).symm.trans hdown)
  rw [hreached] at hnext
  exact hnext

end Performance

end Gamelan
