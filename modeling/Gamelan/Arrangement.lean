import Gamelan.Performance

namespace Gamelan

namespace Arrangement

/-- A directive that was left out: its gongan and what is wrong with it. -/
abbrev Finding := Nat × DirectiveFault

/-- Takes a state through directives. One that is refused leaves the state as it is. -/
def applyAll {σ : Type} (step : σ → Gongan → Directive → Except DirectiveFault σ) :
    σ → List (Gongan × Directive) → σ × List Finding
  | s, [] => (s, [])
  | s, (g, d) :: rest =>
    match step s g d with
    | .ok s => applyAll step s rest
    | .error fault =>
      let (s, findings) := applyAll step s rest
      (s, (g.id, fault) :: findings)

abbrev Labels := SortedMap String BeatId

def addLabel (labels : Labels) (g : Gongan) (name : String) (number : Nat) :
    Except DirectiveFault Labels :=
  match g.beatAt? number with
  | none => .error (.labelBeat name number)
  | some b => if labels.contains name then .error (.labelTwice name) else .ok (labels.insert name b)

def resolve (labels : Labels) (name : String) : Except DirectiveFault BeatId :=
  match labels.get? name with
  | some b => .ok b
  | none => .error (.undefinedLabel name)

/-- A goto starts at the last beat of its gongan unless it says otherwise. Every pass it lists has to
occur within the cycle. -/
def addGoto (labels : Labels) (p : Performance) (g : Gongan) (label : String) (fromBeat? : Option Nat)
    (passes : List UInt32) (cycle? : Option UInt32) : Except DirectiveFault Performance := do
  let target ← resolve labels label
  let number := fromBeat?.getD g.beats.length
  match g.beatAt? number with
  | none => .error (.gotoBeat label number)
  | some b =>
    if cycle? = some 0 then .error (.gotoCycle label)
    else
      let cycle := cycle?.getD Jump.defaultCycle
      match passes.find? fun n => n == 0 || cycle < n with
      | some pass => .error (.gotoPass label pass cycle)
      | none => .ok (p.addGoto b target passes cycle?)

def addLoop (p : Performance) (g : Gongan) (count : UInt32) : Except DirectiveFault Performance :=
  if count = 0 then .error .loopCount
  else if p.hasLoop g.id then .error .loopTwice
  else .ok (p.setLoop g.id (.ofCount g.lastBeat g.firstBeat count))

/-- A ramp has to end within its gongan. -/
def addRamp (p : Performance) (g : Gongan) (quantity : Quantity) (target : Int32) (extent : Extent)
    (positions : List Position) : Except DirectiveFault Performance :=
  match g.beatAt? extent.firstBeat with
  | none => .error (.rampBeat quantity extent.firstBeat)
  | some b =>
    if (g.beats.length : Int) < extent.firstBeat - 1 + extent.beatCount.toInt then
      .error (.rampEnd quantity extent.beatCount extent.firstBeat g.beats.length)
    else
      match Ramp.make quantity target extent.beatCount with
      | .error fault => .error (.ramp fault)
      | .ok r =>
        let r := { r with positions, passes := extent.passes, iterations := extent.iterations }
        .ok (p.addRamp quantity b r)

/-- A jump of a sequence: on a pass of one beat to another beat. -/
structure Link where
  fromBeat : BeatId
  pass : UInt32
  toBeat : BeatId
  deriving DecidableEq, Repr

/-- The jumps of a sequence of labelled beats. Each one starts where the gongan of its first beat ends,
on the pass after all passes taken there; `taken` holds those that the sequence itself has taken. -/
def links (p : Performance) : SortedMap BeatId UInt32 → List BeatId → Except DirectiveFault (List Link)
  | taken, a :: b :: rest => do
    let fromBeat := p.score.lastBeatOf a
    let jump := p.jump fromBeat
    match successor? ((taken.get? fromBeat).getD jump.maxPass) with
    | none => throw .overflow
    | some pass =>
      if jump.counter.cycle < pass then
        throw (.sequencePass pass (p.score.fullId fromBeat) jump.counter.cycle)
      let more ← links p (taken.insert fromBeat pass) (b :: rest)
      return ⟨fromBeat, pass, b⟩ :: more
  | _, _ => .ok []

/-- Sets up all jumps of a sequence or none. -/
def addSequence (labels : Labels) (p : Performance) (names : List String) :
    Except DirectiveFault Performance := do
  let beats ← names.mapM (resolve labels)
  let links ← links p .empty beats
  return links.foldl (fun p l => p.modifyJump l.fromBeat (·.set (.pass l.pass) (some l.toBeat))) p

def labelStep (labels : Labels) (g : Gongan) : Directive → Except DirectiveFault Labels
  | .label name beat => addLabel labels g name beat
  | _ => .ok labels

/-- Sets up everything but labels and sequences. -/
def directStep (settings : Settings) (labels : Labels) (p : Performance) (g : Gongan) :
    Directive → Except DirectiveFault Performance
  | .goto label fromBeat? passes cycle? => addGoto labels p g label fromBeat? passes cycle?
  | .loop count => addLoop p g count
  | .tempo value extent => addRamp p g .tempo value extent []
  | .dynamics mark extent positions =>
    match settings.velocityFor? mark with
    | none => .error (.unknownDynamics mark)
    | some velocity => addRamp p g .dynamics velocity extent positions
  | .label .. | .sequence .. => .ok p

def sequenceStep (labels : Labels) (p : Performance) (_ : Gongan) :
    Directive → Except DirectiveFault Performance
  | .sequence names => addSequence labels p names
  | _ => .ok p

/-- The directives of a score in order, each with its gongan. -/
def directives (s : Score) : List (Gongan × Directive) :=
  s.gongans.toList.flatMap fun g => g.directives.map (g, ·)

end Arrangement

/-- A performance together with the directives that were left out of it. -/
structure Arrangement where
  performance : Performance
  findings : List Arrangement.Finding

namespace Arrangement

def isClean (a : Arrangement) : Bool := a.findings.isEmpty

def errors (a : Arrangement) : List Error := a.findings.map fun (g, fault) => .directive g fault

end Arrangement

/-- Sets up the performance of a score. Labels come first, so that they can be used in front of their definition, and
sequences last, so that the passes they take are not used by any goto. A fault in the score is among the findings, so
this fails only if the defaults of the settings are out of range or if a sequence counts beyond the last pass. -/
def Score.arrange (s : Score) (settings : Settings) : Except Error Arrangement := do
  let p ← Performance.ofScore s settings
  let p := (List.range s.beats.size).foldl Performance.createJump p
  let ds := Arrangement.directives s
  let (labels, labelFindings) := Arrangement.applyAll Arrangement.labelStep .empty ds
  let (p, directFindings) := Arrangement.applyAll (Arrangement.directStep settings labels) p ds
  let (p, sequenceFindings) := Arrangement.applyAll (Arrangement.sequenceStep labels) p ds
  if sequenceFindings.any (·.2.isOverflow) then throw .overflow
  return ⟨p, labelFindings ++ directFindings ++ sequenceFindings⟩

end Gamelan
