import Gamelan.Proofs.Performance.Calls
import Gamelan.Proofs.Performance.Restart

namespace Gamelan.Performance

/-- The performance with the jump of every beat set up, those included that a beat has anyway. -/
def complete (p : Performance) : Performance :=
  { p with jumps := Array.ofFn fun b : Fin p.jumps.size => some (p.jump b) }

section Jumps

variable (p : Performance) (b : BeatId)

@[simp] theorem size_complete : p.complete.jumps.size = p.jumps.size := Array.size_ofFn

theorem getElem?_complete : p.complete.jumps[b]? = if b < p.jumps.size then some (some (p.jump b)) else none := by
  rw [complete, Array.getElem?_ofFn]
  split <;> rfl

theorem findJump?_complete : p.complete.findJump? b = if b < p.jumps.size then some (p.jump b) else none := by
  rw [findJump?, getElem?_complete]
  split <;> rfl

theorem findJump?_of_size_le {p : Performance} {b : BeatId} (h : p.jumps.size ≤ b) : p.findJump? b = none := by
  rw [findJump?, Array.getElem?_eq_none h]
  rfl

/-- A jump that is set up leads where it has led before. -/
@[simp] theorem jump_complete : p.complete.jump b = p.jump b := by
  rw [jump, findJump?_complete]
  split
  · rfl
  next hb =>
    rw [jump, findJump?_of_size_le (Nat.not_lt.1 hb)]
    rfl

/-- To set up the jump that a beat has anyway makes no difference to the others or to this one. -/
theorem jump_createJump (c : BeatId) : (p.createJump b).jump c = p.jump c := by
  change (p.modifyJump b id).jump c = p.jump c
  rw [jump_modifyJump]
  split
  next hcb => rw [hcb.1]; rfl
  · rfl

theorem complete_createJump : (p.createJump b).complete = p.complete := by
  have hjumps : (p.createJump b).complete.jumps = p.complete.jumps := by
    apply Array.ext_getElem?
    intro c
    rw [getElem?_complete, getElem?_complete, size_createJump, jump_createJump]
  exact congrArg (fun jumps => { p with jumps }) hjumps

theorem complete_modifyJump (f : Jump → Jump) : (p.modifyJump b f).complete = p.complete.modifyJump b f := by
  have hjumps : (p.modifyJump b f).complete.jumps = (p.complete.modifyJump b f).jumps := by
    apply Array.ext_getElem?
    intro c
    change _ = (p.complete.jumps.setIfInBounds b (some (f (p.complete.jump b))))[c]?
    rw [getElem?_complete, size_modifyJump, jump_modifyJump, Array.getElem?_setIfInBounds, getElem?_complete,
      size_complete, jump_complete]
    grind
  exact congrArg (fun jumps => { p with jumps }) hjumps

theorem createJump_complete : p.complete.createJump b = p.complete := by
  have hcreate := p.complete_modifyJump b id
  exact hcreate.symm.trans (p.complete_createJump b)

end Jumps

section Steps

variable (p : Performance) (b : BeatId)

theorem complete_foldl_modifyJump (f : Jump → Jump) (bs : List BeatId) :
    (bs.foldl (fun p b => p.modifyJump b f) p).complete = bs.foldl (fun p b => p.modifyJump b f) p.complete := by
  induction bs generalizing p with
  | nil => rfl
  | cons b bs ih => rw [List.foldl_cons, ih, complete_modifyJump, List.foldl_cons]

theorem complete_countIteration : (p.countIteration b).complete = p.complete.countIteration b := by
  have hloop : p.complete.loopAt? b = p.loopAt? b := rfl
  rw [countIteration, countIteration, hloop]
  cases p.loopAt? b with
  | none => rfl
  | some l =>
    simp only
    split <;> rfl

theorem complete_countPass : (p.countPass b).complete = p.complete.countPass b := by
  have hloop : p.complete.loopAt? b = p.loopAt? b := rfl
  rw [countPass, countPass, hloop]
  split
  · exact p.complete_modifyJump b _
  · rfl

theorem complete_adoptPass : (p.adoptPass b).complete = p.complete.adoptPass b := by
  rw [adoptPass, adoptPass, complete_foldl_modifyJump, complete_createJump, createJump_complete, jump_complete]
  rfl

/-- An arrival sets up jumps on its way where they are missing, and counts as if they had been there. -/
theorem complete_arrive (from? : Option BeatId) : (p.arrive from? b).complete = p.complete.arrive from? b := by
  have hcounted : ((p.countIteration b).countPass b).complete = (p.complete.countIteration b).countPass b := by
    rw [complete_countPass, complete_countIteration]
  rw [arrive, arrive, ← hcounted]
  split
  next hentered =>
    rw [complete_adoptPass]
    exact (if_pos hentered).symm
  next hentered => exact (if_neg hentered).symm

/-- A beat whose jump is not set up has not been counted, so it is on pass zero as without a jump. -/
theorem currentPass_complete : p.complete.currentPass = p.currentPass := by
  have hcurrent : p.complete.currentBeat? = p.currentBeat? := rfl
  rw [currentPass, currentPass, hcurrent]
  cases p.currentBeat? with
  | none => rfl
  | some b =>
    simp only [Option.bind_some, findJump?_complete, jump]
    split
    · cases p.findJump? b <;> rfl
    next hb => rw [findJump?_of_size_le (Nat.not_lt.1 hb)]

theorem complete_enterRamps : (p.enterRamps b).complete = p.complete.enterRamps b := by
  rw [enterRamps, enterRamps, currentPass_complete]
  rfl

theorem target?_complete : p.complete.target? b = ((p.target? b).1, (p.target? b).2.complete) := by
  have hloop : p.complete.loopAt? b = p.loopAt? b := rfl
  rw [target?, target?, hloop]
  cases (p.loopAt? b).bind (·.nextBeat? b) with
  | some target => rfl
  | none => simp only [jump_complete, createJump_complete, complete_createJump]

theorem go_complete (from? to? : Option BeatId) :
    next.go from? to? p.complete = ((next.go from? to? p).1, (next.go from? to? p).2.complete) := by
  cases to? with
  | none => rfl
  | some b =>
    have harrive := complete_arrive { p with steps := p.steps + 1 } b from?
    simp only [next.go]
    change (if p.maxSteps < p.steps + 1 then _ else _) = _
    split
    · rfl
    · rw [complete_enterRamps]
      exact congrArg (fun q : Performance =>
        (Except.ok (some b), { q with cursor := .at b }.enterRamps b)) harrive.symm

/-- A step with all jumps set up in advance gives the same beat or error as a step that sets them up on its way. -/
theorem next_complete : p.complete.next = (p.next.1, p.next.2.complete) := by
  have hcursor : p.complete.cursor = p.cursor := rfl
  rw [next, next, hcursor]
  cases p.cursor with
  | finished => rfl
  | notStarted => exact p.go_complete none _
  | «at» b =>
    simp only [target?_complete]
    exact go_complete _ (some b) _

theorem played_complete : p.complete.played b = p.played b := by
  rw [played, played, currentPass_complete]
  rfl

theorem finish_complete (acc : Array Played) :
    finish acc p.complete = ((finish acc p).1, (finish acc p).2.complete) := by
  have hnext := p.next_complete
  fun_induction finish acc p with
  | case1 acc p e q h =>
    rw [h] at hnext
    rw [finish_of_error hnext]
  | case2 acc p q h =>
    rw [h] at hnext
    rw [finish_of_end hnext]
  | case3 acc p b q h ih =>
    rw [h] at hnext
    rw [finish_of_beat hnext, played_complete]
    exact ih q.next_complete

theorem complete_reset (position? : Option Position) : (p.reset position?).complete = p.complete.reset position? := by
  have hjumps : (p.reset position?).complete.jumps = (p.complete.reset position?).jumps := by
    apply Array.ext_getElem?
    intro c
    change _ = (p.complete.jumps.map (·.map Jump.reset))[c]?
    rw [getElem?_complete, jump_reset, Array.getElem?_map, getElem?_complete]
    simp only [reset, Array.size_map]
    split <;> rfl
  exact congrArg (fun jumps => { p.complete.reset position? with jumps }) hjumps

theorem walk_complete (position? : Option Position) :
    p.complete.walk position? = ((p.walk position?).1, (p.walk position?).2.complete) := by
  rw [walk, ← complete_reset, finish_complete]
  rfl

theorem conductor_complete (settings : Settings) :
    p.complete.conductor settings = ((p.conductor settings).1, (p.conductor settings).2.complete) := by
  rw [conductor, conductor, walk_complete]
  rfl

theorem part_complete (settings : Settings) (position : Position) (instrument : Instrument) :
    p.complete.part settings position instrument =
      ((p.part settings position instrument).1, (p.part settings position instrument).2.complete) := by
  rw [part, part, walk_complete]
  rfl

theorem parts_complete (settings : Settings) (plan : List (Position × Instrument)) :
    parts settings plan p.complete = ((parts settings plan p).1, (parts settings plan p).2.complete) := by
  induction plan generalizing p with
  | nil => rfl
  | cons entry plan ih =>
    obtain ⟨position, instrument⟩ := entry
    rw [parts, parts, part_complete]
    generalize p.part settings position instrument = r
    obtain ⟨out, q⟩ := r
    cases out with
    | error e => rfl
    | ok track => simp only [ih]

/-- The file of a performance comes from its walks, which see no difference. -/
theorem render_complete (settings : Settings) :
    p.complete.render settings = ((p.render settings).1, (p.render settings).2.complete) := by
  have hscore : p.complete.score = p.score := rfl
  rw [render, render, hscore, conductor_complete]
  cases Midi.trackPlan p.score settings with
  | error fault => rfl
  | ok plan =>
    generalize p.conductor settings = r
    obtain ⟨out, q⟩ := r
    cases out with
    | error e => rfl
    | ok first =>
      simp only [parts_complete]
      generalize parts settings plan q = r
      obtain ⟨out, q⟩ := r
      cases out <;> rfl

end Steps

end Gamelan.Performance
