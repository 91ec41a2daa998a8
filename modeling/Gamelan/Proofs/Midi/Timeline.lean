import Gamelan.Midi.Part
import Mathlib.Data.List.Basic

namespace Gamelan.Midi

/-- The time at which each of some beats starts, the first one at `start`. -/
def startTimes (start : Float) : List Float → List Float
  | [] => []
  | duration :: rest => start :: startTimes (start + duration) rest

/-- The time at which the last of some beats ends. -/
def endTime (start : Float) (durations : List Float) : Float := durations.foldl (· + ·) start

/-- The samples of beats with their durations, each beat from its start on. -/
def samplesAt (tick : Float → UInt32) (starts : List Float) (beats : List (Float × Span)) : List Sample :=
  (starts.zip beats).flatMap fun (start, duration, span) => beatSamples tick start duration span

/-- What sounds in measures, each measure from its start on. -/
def soundsAt (tick : Float → UInt32) (starts : List Float) (measures : List PlayedMeasure) : List Sound :=
  (starts.zip measures).flatMap fun (start, m) => beatSounds tick m.dynamics start m.duration m.notes

/-- A sweep that adds up durations places each element at its start. -/
theorem sweep_startTimes {α β : Type} (duration : α → Float) (out : Float → α → List β) (start : Float)
    (xs : List α) :
    sweep (fun start x => (start + duration x, out start x)) start xs =
      (endTime start (xs.map duration),
        ((startTimes start (xs.map duration)).zip xs).flatMap fun (start, x) => out start x) := by
  induction xs generalizing start with
  | nil => simp [endTime, startTimes]
  | cons x xs ih =>
    rw [sweep_cons, ih]
    rfl

theorem samples_eq (tick : Float → UInt32) (beats : List (Float × Span)) :
    samples tick beats =
      (endTime 0 (beats.map (·.1)), samplesAt tick (startTimes 0 (beats.map (·.1))) beats) :=
  sweep_startTimes (fun beat : Float × Span => beat.1)
    (fun start beat => beatSamples tick start beat.1 beat.2) 0 beats

theorem playMeasures_eq (tick : Float → UInt32) (measures : List PlayedMeasure) :
    playMeasures tick measures =
      (endTime 0 (measures.map (·.duration)),
        soundsAt tick (startTimes 0 (measures.map (·.duration))) measures) :=
  sweep_startTimes (fun m : PlayedMeasure => m.duration)
    (fun start m => beatSounds tick m.dynamics start m.duration m.notes) 0 measures

/-- The track of the title and the tempo, each beat of it from its start on. -/
def conductorAt (tick : Float → UInt32) (title : String) (durations : List Float) (beats : List (Float × Span)) :
    Track :=
  finishTrack (⟨0, 0, .trackName title⟩ :: tempoChanges none (samplesAt tick (startTimes 0 durations) beats))
    (tick (endTime 0 durations))

/-- The track of a position, each beat of it from its start on. -/
def partAt (tick : Float → UInt32) (position : Position) (instrument : Instrument) (durations : List Float)
    (measures : List PlayedMeasure) : Except Error Track := do
  let channel := instrument.channel &&& 0x0f
  let events ← (soundsAt tick (startTimes 0 durations) measures).mapM (noteEvents channel)
  return finishTrack (⟨0, 0, .trackName position⟩ ::
    ⟨0, 0, .programChange channel (instrument.program &&& 0x7f)⟩ :: events.flatten) (tick (endTime 0 durations))

theorem conductorTrack_eq (tick : Float → UInt32) (title : String) (beats : List (Float × Span)) :
    conductorTrack tick title beats = conductorAt tick title (beats.map (·.1)) beats := by
  rw [conductorTrack, samples_eq, conductorAt]

theorem partTrack_eq (tick : Float → UInt32) (position : Position) (instrument : Instrument)
    (measures : List PlayedMeasure) :
    partTrack tick position instrument measures =
      partAt tick position instrument (measures.map (·.duration)) measures := by
  rw [partTrack, playMeasures_eq, partAt]

end Gamelan.Midi
