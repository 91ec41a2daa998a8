import Gamelan.Midi.Part
import Gamelan.Proofs.Midi.Spacing

namespace Gamelan

section Sweep

variable {σ α β γ : Type} {f : σ → α → σ × List β}

/-- Where the states make no difference, what is contributed is known from the list. -/
theorem map_sweep {k : β → γ} {h : α → List γ} (hk : ∀ s x, (f s x).2.map k = h x) (s : σ) (xs : List α) :
    (sweep f s xs).2.map k = xs.flatMap h := by
  induction xs generalizing s with
  | nil => simp
  | cons x xs ih => rw [sweep_cons, List.map_append, hk, ih, List.flatMap_cons]

theorem forall_mem_sweep {P : β → Prop} (hP : ∀ s x, ∀ y ∈ (f s x).2, P y) (s : σ) (xs : List α) :
    ∀ y ∈ (sweep f s xs).2, P y := by
  induction xs generalizing s with
  | nil => simp
  | cons x xs ih =>
    rw [sweep_cons]
    exact List.forall_mem_append.2 ⟨hP s x, ih _⟩

theorem length_sweep_le {most : Nat} (h : ∀ s x, (f s x).2.length ≤ most) (s : σ) (xs : List α) :
    (sweep f s xs).2.length ≤ most * xs.length := by
  induction xs generalizing s with
  | nil => simp
  | cons x xs ih =>
    have hfirst := h s x
    have hrest := ih (f s x).1
    rw [sweep_cons, List.length_append, List.length_cons, Nat.mul_succ]
    omega

end Sweep

/-- Where there is only one way to fail, a list has results if all of its elements do. -/
theorem mapM_eq_if {α β ε : Type} {f : α → Except ε β} {P : α → Prop} [DecidablePred P] {g : α → β} {e : ε}
    (h : ∀ x, f x = if P x then .ok (g x) else .error e) (xs : List α) :
    xs.mapM f = if ∀ x ∈ xs, P x then .ok (xs.map g) else .error e := by
  induction xs with
  | nil => rfl
  | cons x xs ih =>
    rw [List.mapM_cons, h, ih]
    by_cases hx : P x
    · by_cases hxs : ∀ y ∈ xs, P y
      · rw [if_pos hx, if_pos hxs, if_pos (List.forall_mem_cons.2 ⟨hx, hxs⟩)]
        rfl
      · rw [if_pos hx, if_neg hxs, if_neg fun hall => hxs (List.forall_mem_cons.1 hall).2]
        rfl
    · rw [if_neg hx, if_neg fun hall => hx (List.forall_mem_cons.1 hall).1]
      rfl

namespace Midi

inductive NoteKind where
  | on
  | off
  deriving DecidableEq, Repr

/-- Whether an event begins or ends a note, on which channel and with which key. -/
def Event.note? : Event → Option (NoteKind × UInt8 × UInt8)
  | .noteOn channel key _ => some (.on, channel, key)
  | .noteOff channel key _ => some (.off, channel, key)
  | _ => none

/-- A beginning and an end for each of some keys. -/
def notesOf (channel : UInt8) (keys : List UInt8) : List (Option (NoteKind × UInt8 × UInt8)) :=
  keys.flatMap fun key => [some (.on, channel, key), some (.off, channel, key)]

/-- The events of notes on a channel: keys and velocities are those that there are, beginnings are not silent, and ends
have a lower order than beginnings. -/
inductive IsNoteEvent (channel : UInt8) : Timed → Prop where
  | on {tick : UInt32} {key velocity : UInt8} (hkey : key ≤ 127) (hpos : 1 ≤ velocity) (hle : velocity ≤ 127) :
    IsNoteEvent channel ⟨tick, 2, .noteOn channel key velocity⟩
  | off {tick : UInt32} {key : UInt8} (hkey : key ≤ 127) : IsNoteEvent channel ⟨tick, 1, .noteOff channel key 0⟩

/-- The last tick there is. There is none after it for the end of a note. -/
def lastOfAllTicks : UInt32 := 0xffffffff

namespace Sound

/-- Whether a note has its events: its loudness has room in 32 bits, and there is a tick after that of its onset. -/
def IsPlayable (x : Sound) : Prop := isInt32 x.loudness ∧ x.onset ≠ lastOfAllTicks

instance : DecidablePred IsPlayable := fun x =>
  inferInstanceAs (Decidable (isInt32 x.loudness ∧ x.onset ≠ lastOfAllTicks))

/-- The tick where a note is ended, which is after that of its onset unless that is the last one. -/
def off (x : Sound) : UInt32 := max x.stop (x.onset + 1)

def onEvent (channel : UInt8) (x : Sound) : Timed := ⟨x.onset, 2, .noteOn channel x.key x.velocity⟩

def offEvent (channel : UInt8) (x : Sound) : Timed := ⟨x.off, 1, .noteOff channel x.key 0⟩

def events (channel : UInt8) (x : Sound) : List Timed := [x.onEvent channel, x.offEvent channel]

/-- A velocity is one that sounds. -/
theorem velocity_bounds (x : Sound) : 1 ≤ x.velocity ∧ x.velocity ≤ 127 := by
  have hlow : 1 ≤ min (max x.loudness 1) 127 := by omega
  have hhigh : min (max x.loudness 1) 127 ≤ 127 := by omega
  have hnat : x.velocity.toNat = (min (max x.loudness 1) 127).toNat :=
    UInt8.toNat_ofNat_of_lt' (by change _ < 2 ^ 8; omega)
  rw [UInt8.le_iff_toNat_le, UInt8.le_iff_toNat_le, hnat]
  change 1 ≤ _ ∧ _ ≤ 127
  omega

end Sound

/-- What sounds in measures one after the other. -/
def partSounds (tick : Float → UInt32) (measures : List PlayedMeasure) : List Sound := (playMeasures tick measures).2

/-- What the track of a position begins with. -/
def partHead (position : Position) (instrument : Instrument) : List Timed :=
  [⟨0, 0, .trackName position⟩, ⟨0, 0, .programChange (instrument.channel &&& 0x0f) (instrument.program &&& 0x7f)⟩]

section Events

variable (channel : UInt8)

/-- A note has its two events if it is playable. -/
theorem noteEvents_eq (x : Sound) :
    noteEvents channel x = if x.IsPlayable then .ok (x.events channel) else .error .overflow := by
  rw [noteEvents]
  by_cases hloudness : isInt32 x.loudness
  · rw [if_pos hloudness]
    cases hlater : successor? x.onset with
    | none => exact (if_neg fun h => h.2 (successor?_eq_none_iff.1 hlater)).symm
    | some later =>
      have hlast : x.onset ≠ lastOfAllTicks := fun hlast => by
        rw [successor?_eq_none_iff.2 hlast] at hlater
        cases hlater
      have hlater' : later = x.onset + 1 := by
        have hnat := successor?_eq_some_iff.1 hlater
        rw [← UInt32.toNat_inj, UInt32.toNat_add, hnat]
        exact (Nat.mod_eq_of_lt (hnat ▸ later.toNat_lt)).symm
      rw [if_pos ⟨hloudness, hlast⟩, hlater']
      rfl
  · rw [if_neg hloudness, if_neg fun h => hloudness h.1]

/-- Notes have their events if all of them are playable. -/
theorem mapM_noteEvents (sounds : List Sound) :
    sounds.mapM (noteEvents channel) =
      if ∀ x ∈ sounds, x.IsPlayable then .ok (sounds.map (Sound.events channel)) else .error .overflow :=
  mapM_eq_if (noteEvents_eq channel) sounds

variable (tick : Float → UInt32) (position : Position) (instrument : Instrument) (measures : List PlayedMeasure)

/-- The track of a position is made if all its notes are playable. -/
theorem partTrack_eq_if :
    partTrack tick position instrument measures =
      if ∀ x ∈ partSounds tick measures, x.IsPlayable then
        .ok (finishTrack (partHead position instrument ++
          (partSounds tick measures).flatMap (Sound.events (instrument.channel &&& 0x0f)))
          (tick (playMeasures tick measures).1))
      else .error .overflow := by
  rw [partTrack]
  change Except.bind (List.mapM _ (partSounds tick measures)) _ = _
  rw [mapM_noteEvents]
  split
  · rw [List.flatMap_def]
    rfl
  · rfl

variable {tick position instrument measures}

theorem partTrack_eq_ok_iff {track : Track} : partTrack tick position instrument measures = .ok track ↔
    (∀ x ∈ partSounds tick measures, x.IsPlayable) ∧
      track = finishTrack (partHead position instrument ++
        (partSounds tick measures).flatMap (Sound.events (instrument.channel &&& 0x0f)))
        (tick (playMeasures tick measures).1) := by
  rw [partTrack_eq_if]
  split
  next h => exact ⟨fun hok => ⟨h, (Except.ok.inj hok).symm⟩, fun hok => congrArg Except.ok hok.2.symm⟩
  next h => exact iff_of_false nofun fun hok => h hok.1

/-- If the track of a position is not made, it is for a note that is not playable. -/
theorem partTrack_eq_error_iff {e : Error} : partTrack tick position instrument measures = .error e ↔
    e = .overflow ∧ ∃ x ∈ partSounds tick measures, ¬ x.IsPlayable := by
  rw [partTrack_eq_if]
  split
  next h => exact iff_of_false nofun fun ⟨_, x, hx, hplayable⟩ => hplayable (h x hx)
  next h =>
    push Not at h
    exact ⟨fun herror => ⟨(Except.error.inj herror).symm, h⟩, fun herror => congrArg Except.error herror.1.symm⟩

end Events

/-- The keys of notes, without the rests. -/
def keysOf (notes : List Note) : List UInt8 := notes.filterMap (·.key?)

section Parts

variable (tick : Float → UInt32)

theorem keys_beatSounds (dynamics : Span) (start duration : Float) (notes : List Note) :
    (beatSounds tick dynamics start duration notes).map (·.key) = (keysOf notes).map (· &&& 0x7f) := by
  have hkeys : (keysOf notes).map (· &&& 0x7f) = notes.flatMap fun n => (n.key?.map (· &&& 0x7f)).toList := by
    rw [keysOf, List.map_filterMap, List.filterMap_eq_flatMap_toList]
  rw [hkeys]
  refine map_sweep (fun offset n => ?_) 0 notes
  cases n.key? <;> rfl

theorem keys_partSounds (measures : List PlayedMeasure) :
    (partSounds tick measures).map (·.key) = measures.flatMap fun m => (keysOf m.notes).map (· &&& 0x7f) :=
  map_sweep (fun start m => keys_beatSounds tick m.dynamics start m.duration m.notes) 0 measures

theorem masked_key_le (key : UInt8) : key &&& 0x7f ≤ 127 := by
  rw [UInt8.le_iff_toNat_le, UInt8.toNat_and]
  exact Nat.and_le_right

theorem key_le_of_mem_beatSounds (dynamics : Span) (start duration : Float) (notes : List Note) :
    ∀ x ∈ beatSounds tick dynamics start duration notes, x.key ≤ 127 := by
  refine forall_mem_sweep (fun offset n => ?_) 0 notes
  cases n.key? with
  | none => nofun
  | some key => simpa using masked_key_le key

theorem key_le_of_mem_partSounds (measures : List PlayedMeasure) : ∀ x ∈ partSounds tick measures, x.key ≤ 127 := by
  rw [partSounds]
  refine forall_mem_sweep (fun start m => ?_) 0 measures
  exact key_le_of_mem_beatSounds tick m.dynamics start m.duration m.notes

end Parts

end Midi

end Gamelan
