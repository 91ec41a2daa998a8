import Gamelan.Error
import Gamelan.Score

namespace Gamelan

namespace Manuscript

/-- The notes of a beat by position, and the notes that replace them on single passes. -/
structure Beat where
  duration : Float := 1
  notes : SortedMap Position (List Note) := .empty
  passes : SortedMap UInt32 (SortedMap Position (List Note)) := .empty

structure Gongan where
  directives : List Directive := []
  beats : List Beat := []

end Manuscript

/-- A score as it is written down, gongan by gongan. -/
structure Manuscript where
  title? : Option String := none
  gongans : List Manuscript.Gongan := []

namespace Manuscript

/-- A duration is a finite number above zero. -/
def isDuration (x : Float) : Bool := x.isFinite && 0 < x

/-- By how much the notes of a beat may exceed its duration. -/
def tolerance : Float := 0.001

/-- Refuses notes that are no notes, or that do not fit their beat. A bad duration is found before a
bad key, and both before the sum of the durations is looked at. -/
def checkNotes (gongan index : Nat) (duration : Float) (position : Position) (notes : List Note) :
    Except ScoreFault Unit :=
  match notes.find? fun n => !isDuration n.duration with
  | some n => .error (.noteDuration gongan index position n.duration)
  | none =>
    match (notes.filterMap (·.key?)).find? (127 < ·) with
    | some key => .error (.noteKey gongan index position key)
    | none =>
      let total := notes.foldl (fun t n => t + n.duration) 0
      if duration + tolerance < total then .error (.overfull gongan index position total duration)
      else .ok ()

namespace Beat

/-- Checks the notes of every position, and that no notes are given for pass zero. -/
def check (b : Beat) (gongan index : Nat) : Except ScoreFault Unit := do
  if !isDuration b.duration then throw (.beatDuration gongan index b.duration)
  b.notes.entries.forM checkAt
  b.passes.entries.forM fun (pass, byPosition) => do
    if pass == 0 then throw (.passZero gongan index)
    byPosition.entries.forM checkAt
where
  checkAt : Position × List Note → Except ScoreFault Unit := fun (position, notes) =>
    checkNotes gongan index b.duration position notes

/-- The notes of each position that is named anywhere in the beat. -/
def measures (b : Beat) : SortedMap Position Measure :=
  let always := b.notes.mapValues fun notes => { notes : Measure }
  b.passes.entries.foldl (fun ms (pass, byPosition) =>
    byPosition.entries.foldl (fun ms (position, notes) =>
      ms.alter position {} fun m => { m with passes := m.passes.insert pass notes }) ms) always

/-- The beat with its place in a score of `total` beats. -/
def toBeat (b : Beat) (total id gongan index : Nat) : Except ScoreFault Gamelan.Beat := do
  b.check gongan index
  return {
    id, gongan, index
    duration := b.duration
    measures := b.measures
    prev? := if id = 0 then none else some (id - 1)
    next? := if id + 1 < total then some (id + 1) else none }

end Beat

/-- Places the beats of a gongan from a beat number and an index on. -/
def placeBeats (total gongan : Nat) : Nat → Nat → List Beat → Except ScoreFault (List Gamelan.Beat)
  | _, _, [] => .ok []
  | id, index, b :: rest => do
    let beat ← b.toBeat total id gongan index
    let beats ← placeBeats total gongan (id + 1) (index + 1) rest
    return beat :: beats

/-- Places the gongans from a gongan number and a beat number on. -/
def placeGongans (total : Nat) :
    Nat → Nat → List Gongan → Except ScoreFault (List Gamelan.Gongan × List Gamelan.Beat)
  | _, _, [] => .ok ([], [])
  | gongan, id, g :: rest => do
    if g.beats.isEmpty then throw (.emptyGongan gongan)
    let beats ← placeBeats total gongan id 1 g.beats
    let (gongans, more) ← placeGongans total (gongan + 1) (id + g.beats.length) rest
    return (⟨gongan, List.range' id g.beats.length, g.directives⟩ :: gongans, beats ++ more)

end Manuscript

/-- The score that a manuscript writes, or the first fault in its notation. -/
def Manuscript.toScore (m : Manuscript) : Except ScoreFault Score := do
  let total := (m.gongans.flatMap (·.beats)).length
  let (gongans, beats) ← Manuscript.placeGongans total 1 0 m.gongans
  return { title? := m.title?, gongans := gongans.toArray, beats := beats.toArray }

end Gamelan
