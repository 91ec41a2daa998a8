import Gamelan.Proofs.Performance.Step
import Gamelan.Proofs.SortedMap

namespace Gamelan

namespace Schedule

/-- A reset depends on the ramps only up to how far they have come. -/
theorem reset_congr {s t : Schedule} (hramps : s.ramps.map Ramp.clear = t.ramps.map Ramp.clear)
    (hbeats : s.byBeat = t.byBeat) : s.reset = t.reset := by
  have hdefault : s.default = t.default := by
    have hfirst := congrArg (fun rs : Array Ramp => (rs[0]?).elim 0 Ramp.target) hramps
    simpa [default, Option.elim_map, Ramp.clear, Function.comp_def] using hfirst
  change (⟨(s.ramps.map Ramp.clear).modify 0 _, s.byBeat, 0⟩ : Schedule) =
    ⟨(t.ramps.map Ramp.clear).modify 0 _, t.byBeat, 0⟩
  rw [hramps, hbeats, hdefault]

theorem map_clear_modify (rs : Array Ramp) (i : Nat) {f : Ramp → Ramp} (hf : ∀ r, (f r).clear = r.clear) :
    (rs.modify i f).map Ramp.clear = rs.map Ramp.clear := by
  apply Array.ext_getElem?
  intro j
  rw [Array.getElem?_map, Array.getElem?_map, Array.getElem?_modify]
  split
  · rw [Option.map_map]
    exact congrArg (fun g => rs[j]?.map g) (funext hf)
  · rfl

theorem map_clear_enter (s : Schedule) (b : BeatId) (position? : Option Position) (pass iteration : UInt32) :
    (s.enter b position? pass iteration).ramps.map Ramp.clear = s.ramps.map Ramp.clear := by
  have hnext (t : Schedule) : (t.ramps.modify t.active Ramp.next).map Ramp.clear = t.ramps.map Ramp.clear :=
    map_clear_modify t.ramps t.active fun r => (rfl : r.next.clear = r.clear)
  have hactivate (i : Nat) : (s.activate i).ramps.map Ramp.clear = s.ramps.map Ramp.clear := by
    rw [activate, map_clear_modify _ _ fun r => (rfl : (r.start s.span.stop).clear = r.clear)]
    exact map_clear_modify s.ramps s.active fun r => (rfl : r.clear.clear = r.clear)
  rw [enter]
  split
  · split
    · exact hnext s
    · exact (hnext _).trans (hactivate _)
  · exact hnext s

theorem byBeat_enter (s : Schedule) (b : BeatId) (position? : Option Position) (pass iteration : UInt32) :
    (s.enter b position? pass iteration).byBeat = s.byBeat := by
  rw [enter]
  split
  · split <;> rfl
  · rfl

/-- The ramps that a walk has gone through leave no trace behind a reset. -/
theorem reset_enter (s : Schedule) (b : BeatId) (position? : Option Position) (pass iteration : UInt32) :
    (s.enter b position? pass iteration).reset = s.reset :=
  reset_congr (s.map_clear_enter b position? pass iteration) (s.byBeat_enter b position? pass iteration)

theorem map_clear_reset (s : Schedule) : s.reset.ramps.map Ramp.clear = s.ramps.map Ramp.clear := by
  rw [reset, map_clear_modify _ _ fun r => (rfl : (r.start s.default).clear = r.clear), Array.map_map]
  rfl

theorem reset_reset (s : Schedule) : s.reset.reset = s.reset := reset_congr s.map_clear_reset rfl

end Schedule

namespace Performance

theorem reset_setLoop {p : Performance} {g : Nat} {l k : Loop} (hget : p.loops.get? g = some l)
    (hreset : k.reset = l.reset) (position? : Option Position) :
    (p.setLoop g k).reset position? = p.reset position? := by
  have hloops := SortedMap.mapValues_insert_of_get? Loop.reset hget hreset
  simp only [reset, setLoop, hloops]

theorem reset_reset (p : Performance) (position? position'? : Option Position) :
    (p.reset position'?).reset position? = p.reset position? := by
  have hloops : (p.loops.mapValues Loop.reset).mapValues Loop.reset = p.loops.mapValues Loop.reset := by
    apply SortedMap.ext_get?
    intro g
    simp only [SortedMap.get?_mapValues, Option.map_map]
    rfl
  have hjumps : (p.jumps.map (·.map Jump.reset)).map (·.map Jump.reset) = p.jumps.map (·.map Jump.reset) := by
    rw [Array.map_map]
    congr 1
    funext j?
    cases j? <;> rfl
  simp only [reset, hloops, hjumps, Schedule.reset_reset]

theorem jump_reset (p : Performance) (position? : Option Position) (b : BeatId) :
    (p.reset position?).jump b = (p.jump b).reset := by
  have hfind : (p.reset position?).findJump? b = (p.findJump? b).map Jump.reset := by
    simp only [findJump?, reset, Array.getElem?_map]
    cases p.jumps[b]? <;> rfl
  rw [jump, jump, hfind]
  cases p.findJump? b <;> rfl

theorem jump_reset_congr {p q : Performance} {position? : Option Position}
    (h : p.reset position? = q.reset position?) (b : BeatId) : (p.jump b).reset = (q.jump b).reset := by
  rw [← p.jump_reset position?, h, q.jump_reset]

theorem loops_reset_congr {p q : Performance} {position? : Option Position}
    (h : p.reset position? = q.reset position?) (n : Nat) :
    (p.loops.get? n).map Loop.reset = (q.loops.get? n).map Loop.reset := by
  have hloops := congrArg (·.loops.get? n) h
  change (p.loops.mapValues Loop.reset).get? n = (q.loops.mapValues Loop.reset).get? n at hloops
  rwa [SortedMap.get?_mapValues, SortedMap.get?_mapValues] at hloops

namespace IsComplete

variable {p : Performance}

theorem reset_modifyJump (hp : p.IsComplete) (b : BeatId) {f : Jump → Jump} (hf : ∀ j, (f j).reset = j.reset)
    (position? : Option Position) : (p.modifyJump b f).reset position? = p.reset position? := by
  have hjumps : (p.modifyJump b f).jumps.map (·.map Jump.reset) = p.jumps.map (·.map Jump.reset) := by
    apply Array.ext_getElem?
    intro c
    rw [Array.getElem?_map, Array.getElem?_map]
    by_cases hbc : b = c
    · subst hbc
      by_cases hb : b < p.jumps.size
      · obtain ⟨j, hj⟩ := hp.2 b hb
        have hjump : p.jump b = j := by simp [jump, findJump?, hj]
        rw [modifyJump, Performance.setJump, Array.getElem?_setIfInBounds_self_of_lt hb, hj, hjump]
        simp [hf]
      · rw [modifyJump, Performance.setJump, Array.setIfInBounds_eq_of_size_le (Nat.le_of_not_lt hb)]
    · rw [modifyJump, Performance.setJump, Array.getElem?_setIfInBounds_ne hbc]
  have hrest : (p.modifyJump b f).reset position? =
      { p.reset position? with jumps := (p.modifyJump b f).jumps.map (·.map Jump.reset) } := rfl
  rw [hrest, hjumps]
  rfl

theorem reset_apply (hp : p.IsComplete) (c : Count) (position? : Option Position) :
    (c.apply p).reset position? = p.reset position? := by
  cases c with
  | iteration g =>
    rw [Count.apply]
    cases hget : p.loops.get? g with
    | none => rfl
    | some l => exact reset_setLoop hget (rfl : l.increment.reset = l.reset) position?
  | pass b => exact hp.reset_modifyJump b (fun j => (rfl : j.increment.reset = j.reset)) position?
  | adopted b n => exact hp.reset_modifyJump b (fun j => (rfl : (j.setCounter n).reset = j.reset)) position?

theorem reset_foldl_apply (hp : p.IsComplete) (cs : List Count) (position? : Option Position) :
    (cs.foldl Count.apply p).reset position? = p.reset position? := by
  induction cs generalizing p with
  | nil => rfl
  | cons c cs ih =>
    rw [List.foldl_cons, ih (hp.apply c)]
    exact hp.reset_apply c position?

theorem reset_visit (hp : p.IsComplete) (b : BeatId) (position? : Option Position) :
    (p.visit b).reset position? = p.reset position? := by
  have hsteps : ({ p with steps := p.steps + 1 } : Performance).IsComplete := hp
  have harrive := hsteps.reset_foldl_apply
    (({ p with steps := p.steps + 1 } : Performance).counts p.currentBeat? b) position?
  rw [← hsteps.arrive_eq] at harrive
  refine Eq.trans ?_ harrive
  simp only [Performance.visit, enterRamps, Performance.reset, Schedule.reset_enter]

/-- A step is forgotten by a reset: it changes nothing but what a reset restores. -/
theorem reset_next (hp : p.IsComplete) (position? : Option Position) :
    p.next.2.reset position? = p.reset position? := by
  rcases hp.next_cases with ⟨b, hb⟩ | ⟨-, cursor, steps, hstay⟩
  · rw [hb]
    exact hp.reset_visit b position?
  · rw [hstay]
    rfl

end IsComplete

end Performance

end Gamelan
