import Gamelan.Proofs.Arrangement.Related
import Gamelan.Proofs.Performance.Complete

namespace Gamelan

namespace Performance

/-- What can be done with a performance at any time: setting something up in it, asking for beats or looking at it. -/
inductive Operation where
  | createJump (b : BeatId)
  | addGoto (fromBeat toBeat : BeatId) (passes : List UInt32) (cycle? : Option UInt32)
  | extendJump (b : BeatId) (other : Jump) (skipOtherwise : Bool)
  | setCounter (b : BeatId) (n : UInt32)
  | setLoop (gongan : Nat) (l : Loop)
  | addRamp (quantity : Quantity) (b : BeatId) (r : Ramp)
  | reset (position? : Option Position)
  | next
  | walk (position? : Option Position)
  | render (settings : Settings)
  | look

/-- What is seen of a performance between two steps. -/
structure View where
  beat? : Option BeatId
  pass : UInt32
  iteration : UInt32
  tempo : Span
  dynamics : Span

def view (p : Performance) : View where
  beat? := p.currentBeat?
  pass := p.currentPass
  iteration := p.currentIteration
  tempo := p.tempo.span
  dynamics := p.dynamics.span

/-- The result of an operation. Where one changes a jump, it is the jump that the beat has from then on. -/
inductive Answer where
  | jump (j? : Option Jump)
  | next (out : Except Error (Option BeatId))
  | walk (out : Except Error (Array Played))
  | render (out : Except Error Midi.Bytes)
  | look (v : View)

namespace Operation

def isCreateJump : Operation → Bool
  | createJump _ => true
  | _ => false

/-- The answer of an operation, if it gives one, and the performance that it leaves behind. -/
def run (p : Performance) : Operation → Option Answer × Performance
  | createJump b => (none, p.createJump b)
  | addGoto a b passes cycle? =>
    let q := p.addGoto a b passes cycle?
    (some (.jump (q.findJump? a)), q)
  | extendJump b other skipOtherwise =>
    let q := p.extendJump b other skipOtherwise
    (some (.jump (q.findJump? b)), q)
  | setCounter b n =>
    let q := p.modifyJump b (·.setCounter n)
    (some (.jump (q.findJump? b)), q)
  | setLoop g l => (none, p.setLoop g l)
  | addRamp quantity b r => (none, p.addRamp quantity b r)
  | reset position? => (none, p.reset position?)
  | next =>
    let (out, q) := p.next
    (some (.next out), q)
  | walk position? =>
    let (out, q) := p.walk position?
    (some (.walk out), q)
  | render settings =>
    let (out, q) := p.render settings
    (some (.render out), q)
  | look => (some (.look p.view), p)

end Operation

/-- The answers to operations in turn. -/
def answers (p : Performance) : List Operation → List Answer
  | [] => []
  | o :: os => (o.run p).1.toList ++ (o.run p).2.answers os

theorem view_complete (p : Performance) : p.complete.view = p.view := by
  rw [view, currentPass_complete]
  rfl

theorem findJump?_modifyJump_complete (p : Performance) (b : BeatId) (f : Jump → Jump) :
    (p.complete.modifyJump b f).findJump? b = (p.modifyJump b f).findJump? b := by
  rw [modifyJump, modifyJump, findJump?_setJump, findJump?_setJump, size_complete, jump_complete,
    findJump?_complete]
  grind [findJump?_of_size_le]

/-- No operation makes a difference between jumps that are set up and those that a beat has anyway. -/
theorem Operation.run_complete (p : Performance) (o : Operation) :
    o.run p.complete = ((o.run p).1, (o.run p).2.complete) := by
  cases o with
  | createJump b =>
    simp only [run, createJump_complete, complete_createJump]
  | addGoto a b passes cycle? =>
    simp only [run, Performance.addGoto, findJump?_modifyJump_complete, complete_modifyJump]
  | extendJump b other skipOtherwise =>
    simp only [run, Performance.extendJump, findJump?_modifyJump_complete, complete_modifyJump]
  | setCounter b n =>
    simp only [run, findJump?_modifyJump_complete, complete_modifyJump]
  | setLoop g l => rfl
  | addRamp quantity b r => cases quantity <;> rfl
  | reset position? => simp only [run, complete_reset]
  | next => simp only [run, next_complete]
  | walk position? => simp only [run, walk_complete]
  | render settings => simp only [run, render_complete]
  | look => simp only [run, view_complete]

theorem answers_complete (p : Performance) (os : List Operation) : p.complete.answers os = p.answers os := by
  induction os generalizing p with
  | nil => rfl
  | cons o os ih => rw [answers, answers, Operation.run_complete, ih]

theorem answers_congr {p q : Performance} (h : p.complete = q.complete) : p.answers = q.answers := by
  funext os
  rw [← answers_complete, h, answers_complete]

/-- To set up jumps that the beats have anyway changes no answer, wherever among other operations it is done. -/
theorem answers_filter (p : Performance) (os : List Operation) :
    p.answers (os.filter (!·.isCreateJump)) = p.answers os := by
  induction os generalizing p with
  | nil => rfl
  | cons o os ih =>
    cases o with
    | createJump b =>
      have hcreate : (p.createJump b).answers = p.answers := answers_congr (p.complete_createJump b)
      exact (ih p).trans (congrFun hcreate os).symm
    | _ => exact congrArg (_ ++ ·) (ih _)

end Performance

namespace Arrangement

/-- Nothing that is set up depends on which jumps have been set up before that the beats have anyway. -/
theorem isCongruence_complete : IsCongruence fun p q => p.complete = q.complete where
  hasLoop h n := congrArg (·.hasLoop n) h
  links {p q} h taken beats := by
    have hscore : p.score = q.score := congrArg (·.score) h
    refine links_congr (fun _ => by rw [hscore]) (fun _ => by rw [hscore]) (fun b => ?_) taken beats
    rw [← p.jump_complete, h, q.jump_complete]
  modifyJump {p q} h b f := by rw [p.complete_modifyJump, h, q.complete_modifyJump]
  setLoop h n l := congrArg (·.setLoop n l) h
  addRamp h quantity b r := by
    cases quantity with
    | tempo => exact congrArg (·.addRamp .tempo b r) h
    | dynamics => exact congrArg (·.addRamp .dynamics b r) h

end Arrangement

open Arrangement

/-- The arrangement of a score where the jumps of some beats only are set up before the directives. -/
def Score.arrangeCreating (s : Score) (created : List BeatId) (settings : Settings) : Except Error Arrangement := do
  let p ← Performance.ofScore s settings
  let p := created.foldl Performance.createJump p
  let ds := directives s
  let (labels, labelFindings) := applyAll labelStep .empty ds
  let (p, directFindings) := applyAll (directStep settings labels) p ds
  let (p, sequenceFindings) := applyAll (sequenceStep labels) p ds
  if sequenceFindings.any (·.2.isOverflow) then throw .overflow
  return ⟨p, labelFindings ++ directFindings ++ sequenceFindings⟩

theorem Performance.complete_createJumps (bs : List BeatId) (p : Performance) :
    (bs.foldl createJump p).complete = p.complete := by
  induction bs generalizing p with
  | nil => rfl
  | cons b bs ih => rw [List.foldl_cons, ih, complete_createJump]

theorem Score.arrangeCreating_eq (s : Score) (created : List BeatId) (settings : Settings) :
    s.arrangeCreating created settings =
      ((Performance.ofScore s settings).map (created.foldl Performance.createJump)).bind fun p =>
        if s.overflows settings p then .error .overflow else .ok ⟨s.arranged settings p, s.findings settings p⟩ := by
  rw [arrangeCreating]
  cases Performance.ofScore s settings with
  | error e => rfl
  | ok p =>
    change (if s.overflows settings (created.foldl Performance.createJump p) then _ else _) =
      if s.overflows settings (created.foldl Performance.createJump p) then _ else _
    split <;> rfl

/-- Whichever jumps are set up before the directives, the arrangement fails alike, or it has the same findings and a
performance that gives the same answers. -/
theorem Score.arrangeCreating_congr (s : Score) (created created' : List BeatId) (settings : Settings) :
    (s.arrangeCreating created settings).map (fun a => (a.findings, a.performance.answers)) =
      (s.arrangeCreating created' settings).map fun a => (a.findings, a.performance.answers) := by
  rw [arrangeCreating_eq, arrangeCreating_eq]
  cases Performance.ofScore s settings with
  | error e => rfl
  | ok p =>
    have hcreated : (created.foldl Performance.createJump p).complete =
        (created'.foldl Performance.createJump p).complete := by
      rw [Performance.complete_createJumps, Performance.complete_createJumps]
    obtain ⟨harranged, hfindings, hoverflows⟩ := isCongruence_complete.arranged s settings hcreated
    simp only [Except.map, Except.bind, hoverflows]
    cases s.overflows settings (created'.foldl Performance.createJump p) with
    | true => rfl
    | false => exact congrArg Except.ok (Prod.ext hfindings (Performance.answers_congr harranged))

/-- To set up the jump that a beat has anyway makes no difference, however early or late it is done: the answers to all
other operations are the same with and without it. So it does not matter either which of these jumps are set up before
the directives of a score, all of them, as in its arrangement, or none. -/
theorem Performance.jumps_created_early_or_late :
    (∀ (p : Performance) (os : List Operation), p.answers (os.filter (!·.isCreateJump)) = p.answers os) ∧
      ∀ (s : Score) (created : List BeatId) (settings : Settings),
        (s.arrangeCreating created settings).map (fun a => (a.findings, a.performance.answers)) =
          (s.arrange settings).map fun a => (a.findings, a.performance.answers) := by
  refine ⟨answers_filter, fun s created settings => ?_⟩
  exact s.arrangeCreating_congr created (List.range s.beats.size) settings

end Gamelan
