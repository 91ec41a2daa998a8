import Gamelan.Proofs.Midi.Sounds
import Gamelan.Proofs.Performance.Positions
import Gamelan.Proofs.Settings

namespace Gamelan

namespace Midi

/-- A track of sounds, in the order of the performance: it is made from the events of the sounds, which have been put
in order, and from a head and an end. -/
structure IsTrackOf (position : Position) (channel program : UInt8) (sounds : List Sound) (ordered : List Timed)
    (track : Track) : Prop where
  /-- By tick, at one tick by the order, and otherwise as they are performed. -/
  order : IsOrderOf (sounds.flatMap (Sound.events channel)) ordered
  events : track.map (·.event) =
    .trackName position :: .programChange channel program :: (ordered.map (·.event) ++ [.endOfTrack])
  spaced : ∃ stop, track = (space 0 (closed
    (⟨0, 0, .trackName position⟩ :: ⟨0, 0, .programChange channel program⟩ :: ordered) stop)).2
  /-- Every sound has one beginning and one end, and nothing else is there. -/
  notes : (ordered.map (·.event.note?)).Perm (notesOf channel (sounds.map (·.key)))
  noteEvents : ∀ e ∈ ordered, IsNoteEvent channel e
  /-- Once a note begins at a tick, no other one ends at this tick. -/
  endsFirst : ordered.Pairwise fun a b => a.tick = b.tick →
    ∀ note, a.event.note? = some (.on, note) → ∃ note', b.event.note? = some (.on, note')

theorem notes_flatMap_events (channel : UInt8) (sounds : List Sound) :
    (sounds.flatMap (Sound.events channel)).map (·.event.note?) = notesOf channel (sounds.map (·.key)) := by
  rw [List.map_flatMap, notesOf, List.flatMap_map]
  rfl

theorem isNoteEvent_of_mem {channel : UInt8} {sounds : List Sound}
    (h : ∀ x ∈ sounds, x.key ≤ 127) {e : Timed}
    (he : e ∈ sounds.flatMap (Sound.events channel)) : IsNoteEvent channel e := by
  obtain ⟨x, hx, he⟩ := List.mem_flatMap.1 he
  rcases List.mem_pair.1 he with rfl | rfl
  · exact .on (h x hx) x.velocity_bounds.1 x.velocity_bounds.2
  · exact .off (h x hx)

/-- Events in order that are all of notes have the ends in front at every tick. -/
theorem pairwise_endsFirst {channel : UInt8} {ordered : List Timed}
    (hsorted : ordered.Pairwise fun a b => a.tick < b.tick ∨ a.tick = b.tick ∧ a.order ≤ b.order)
    (hnotes : ∀ e ∈ ordered, IsNoteEvent channel e) :
    ordered.Pairwise fun a b => a.tick = b.tick →
      ∀ note, a.event.note? = some (.on, note) → ∃ note', b.event.note? = some (.on, note') := by
  refine hsorted.imp_of_mem fun {a b} ha hb hab htick note hnote => ?_
  have horder : a.order ≤ b.order := by
    rcases hab with hlt | ⟨-, hle⟩
    · exact absurd htick (UInt32.ne_of_lt hlt)
    · exact hle
  cases hnotes a ha with
  | off => cases hnote
  | on =>
    cases hnotes b hb with
    | on => exact ⟨_, rfl⟩
    | off => exact absurd (show 2 ≤ 1 from horder) (by decide)

/-- The track of a part is one of what sounds in it, whatever the rule that turns times into ticks. -/
theorem exists_isTrackOf {tick : Float → UInt32} {position : Position} {instrument : Instrument}
    {measures : List PlayedMeasure} {track : Track} (h : partTrack tick position instrument measures = .ok track) :
    ∃ ordered, IsTrackOf position (instrument.channel &&& 0x0f) (instrument.program &&& 0x7f)
      (partSounds tick measures) ordered track := by
  let channel := instrument.channel &&& 0x0f
  let events := (partSounds tick measures).flatMap (Sound.events channel)
  let ordered := events.mergeSort Timed.isBefore
  have hevents : ∀ e ∈ events, IsNoteEvent channel e := fun e he =>
    isNoteEvent_of_mem (key_le_of_mem_partSounds tick measures) he
  have horder : IsOrderOf events ordered := isOrderOf_mergeSort events
  have hnotes : ∀ e ∈ ordered, IsNoteEvent channel e := fun e he => hevents e (horder.perm.mem_iff.1 he)
  -- Nothing comes in front of an event of order zero at the beginning.
  have hfirst (event : Event) (b : Timed) : Timed.isBefore ⟨0, 0, event⟩ b := by
    rw [Timed.isBefore_iff]
    rcases UInt32.lt_or_eq_of_le (UInt32.zero_le (a := b.tick)) with hlt | heq
    · exact .inl hlt
    · exact .inr ⟨heq, Nat.zero_le _⟩
  have hspaced : track =
      (space 0 (closed (partHead position instrument ++ ordered) (tick (playMeasures tick measures).1))).2 := by
    rw [(partTrack_eq_ok_iff.1 h).2, partHead, List.cons_append, List.singleton_append, finishTrack_eq,
      mergeSort_cons_of_isBefore fun b _ => hfirst _ b, mergeSort_cons_of_isBefore fun b _ => hfirst _ b]
    rfl
  refine ⟨ordered, horder, ?_, ⟨_, hspaced⟩, ?_, hnotes, pairwise_endsFirst horder.sorted hnotes⟩
  · rw [hspaced, map_event_space, closed, List.map_append]
    rfl
  · have hperm := horder.perm.map (·.event.note?)
    rwa [notes_flatMap_events] at hperm

theorem masked_eq (bits : Nat) {n mask : UInt8} (hmask : mask.toNat = 2 ^ bits - 1) (h : n.toNat < 2 ^ bits) :
    n &&& mask = n := by
  rw [← UInt8.toNat_inj, UInt8.toNat_and, hmask, Nat.and_two_pow_sub_one_of_lt_two_pow h]

theorem masked_key {key : UInt8} (h : key ≤ 127) : key &&& 0x7f = key :=
  masked_eq 7 rfl (Nat.lt_succ_of_le (UInt8.le_iff_toNat_le.1 h))

theorem channel_mem_of_assignChannels {channels : List UInt8} {positions : List Position}
    {plan : List (Position × Instrument)} (h : assignChannels channels positions = .ok plan) {entry}
    (hentry : entry ∈ plan) : entry.2.channel ∈ channels ∧ entry.2.program = 0 := by
  induction positions generalizing channels plan with
  | nil =>
    have hnil : plan = [] := by cases channels <;> exact (Except.ok.inj h).symm
    simp [hnil] at hentry
  | cons position rest ih =>
    cases channels with
    | nil => cases h
    | cons channel channels =>
      obtain ⟨more, hmore, h⟩ := bind_eq_ok_iff.1 h
      obtain rfl := Except.ok.inj h
      rcases List.mem_cons.1 hentry with rfl | hentry
      · exact ⟨.head _, rfl⟩
      · exact (ih hmore hentry).imp_left (.tail _)

/-- With valid settings the instruments of the plan are such that a file has room for them. -/
theorem instrument_le_of_mem_trackPlan {s : Score} {settings : Settings} {plan : List (Position × Instrument)}
    (hvalid : settings.validate = .ok ()) (hplan : trackPlan s settings = .ok plan) {entry} (hentry : entry ∈ plan) :
    entry.2.channel ≤ 15 ∧ entry.2.program ≤ 127 := by
  rw [trackPlan] at hplan
  split at hplan
  · obtain ⟨hchannel, hprogram⟩ := channel_mem_of_assignChannels hplan hentry
    have hfree : ∀ channel ∈ freeChannels, channel ≤ 15 := by simp [freeChannels, UInt8.le_iff_toNat_le]
    exact ⟨hfree _ hchannel, hprogram ▸ by decide⟩
  · obtain rfl := Except.ok.inj hplan
    exact (Settings.isValid_of_validate hvalid).instrument_le hentry

theorem keysOf_masked {notes : List Note} (h : ∀ n ∈ notes, ∀ key, n.key? = some key → key ≤ 127) :
    (keysOf notes).map (· &&& 0x7f) = keysOf notes := by
  refine (List.map_congr_left fun key hkey => ?_).trans (List.map_id _)
  obtain ⟨n, hn, hkey⟩ := List.mem_filterMap.1 hkey
  exact masked_key (h n hn key hkey)

end Midi

/-- What a position plays on a performed beat. -/
def Score.notesOn (s : Score) (position : Position) (b : Played) : List Note :=
  (s.beats[b.beat]?).elim [] (·.notes position b.pass)

/-- The keys of a score are such that a file has room for them. -/
theorem Manuscript.key_le_of_mem_notesOn {m : Manuscript} {s : Score} (hs : m.toScore = .ok s) {position : Position}
    {b : Played} {n : Note} (hn : n ∈ s.notesOn position b) {key : UInt8} (hkey : n.key? = some key) : key ≤ 127 := by
  rw [Score.notesOn] at hn
  cases hbeat : s.beats[b.beat]? with
  | none =>
    rw [hbeat] at hn
    cases hn
  | some beat =>
    rw [hbeat] at hn
    have hmem : beat ∈ s.beats.toList := Array.mem_toList_iff.2 (Array.mem_of_getElem? hbeat)
    exact (Manuscript.toScore_notes hs hmem position b.pass).key_le hn hkey

namespace Performance

open Midi

/-- What sounds in a part has the keys that the score gives its position on the performed beats. -/
theorem keys_partSounds_measures {m : Manuscript} {p : Performance} (hs : m.toScore = .ok p.score)
    (tick : Float → UInt32) (position : Position) (played : Array Played) :
    (partSounds tick (p.measures position played)).map (·.key) =
      played.toList.flatMap fun b => keysOf (p.score.notesOn position b) := by
  rw [keys_partSounds, measures, List.flatMap_map]
  refine List.flatMap_congr fun b _ => ?_
  exact keysOf_masked fun n hn key hkey => Manuscript.key_le_of_mem_notesOn hs hn hkey

/-- The track of a planned position holds all notes of the performed beats and no others: its name and its sound, then
one beginning and one end for each note with a key, in order, and then the only end of the track. This is so for every
rule that turns times into ticks. Channels and sounds of valid settings are those of the plan. -/
theorem part_holds_notes {m : Manuscript} {s : Score} (hs : m.toScore = .ok s) {p : Performance} (hp : p.score = s)
    {settings : Settings} {plan : List (Position × Instrument)} (hplan : trackPlan s settings = .ok plan)
    {position : Position} {instrument : Instrument} (hentry : (position, instrument) ∈ plan) {track : Track}
    (h : (p.part settings position instrument).1 = .ok track) :
    ∃ played, (p.walk (some position)).1 = .ok played ∧
      partTrack (toTick settings.ppq) position instrument (p.measures position played) = .ok track ∧
      (∀ tick, (partSounds tick (p.measures position played)).map (·.key) =
          played.toList.flatMap fun b => keysOf (s.notesOn position b)) ∧
      (∀ tick track', partTrack tick position instrument (p.measures position played) = .ok track' →
        ∃ ordered, IsTrackOf position (instrument.channel &&& 0x0f) (instrument.program &&& 0x7f)
          (partSounds tick (p.measures position played)) ordered track') ∧
      (settings.validate = .ok () →
        instrument.channel &&& 0x0f = instrument.channel ∧ instrument.program &&& 0x7f = instrument.program) := by
  subst hp
  obtain ⟨played, hwalk, htrack⟩ := part_eq_ok_iff.1 h
  refine ⟨played, hwalk, htrack, ?_, ?_, ?_⟩
  · exact fun tick => keys_partSounds_measures hs tick position played
  · exact fun tick track' htrack' => exists_isTrackOf htrack'
  · intro hvalid
    obtain ⟨hchannel, hprogram⟩ := instrument_le_of_mem_trackPlan hvalid hplan hentry
    exact ⟨masked_eq 4 rfl (Nat.lt_succ_of_le (UInt8.le_iff_toNat_le.1 hchannel)), masked_key hprogram⟩

/-- A beat with two notes of one key and a rest, and with other notes on the second pass. -/
theorem part_holds_notes_of_two_passes :
    let m : Manuscript := { gongans := [{
      directives := [.label "A" 1, .goto "A" none [1] none],
      beats := [{
        notes := .ofList [("gangsa", [⟨some 60, 0.5⟩, ⟨none, 0.25⟩, ⟨some 60, 0.25⟩])]
        passes := .ofList [(2, .ofList [("gangsa", [⟨some 62, 1⟩])])] }] }] }
    ∃ s a track, ∃ ordered : List Timed, m.toScore = .ok s ∧ s.arrange {} = .ok a ∧
      (a.performance.part {} "gangsa" { channel := 0 }).1 = .ok track ∧
      track.map (·.event) =
        .trackName "gangsa" :: .programChange 0 0 :: (ordered.map (·.event) ++ [.endOfTrack]) ∧
      (ordered.map (·.event.note?)).Perm (notesOf 0 [60, 60, 62]) := by
  intro m
  have harrangement : ∃ s a, m.toScore = .ok s ∧ s.arrange {} = .ok a ∧
      (a.performance.score.positions = ["gangsa"] ∧
        (a.performance.part {} "gangsa" { channel := 0 }).1.toOption.isSome ∧
        (a.performance.walk (some "gangsa")).1.toOption.map
          (fun played => played.toList.flatMap fun b => keysOf (s.notesOn "gangsa" b)) = some [60, 60, 62]) :=
    Manuscript.exists_arrangement (by decide +kernel)
  obtain ⟨s, a, hs, ha, hpositions, hpart, hkeys⟩ := harrangement
  have hscore := (Score.arrange_score ha).1
  have hplan : trackPlan s {} = .ok [("gangsa", { channel := 0 })] := by
    rw [trackPlan, ← hscore, hpositions]
    rfl
  obtain ⟨track, htrack⟩ := Option.isSome_iff_exists.1 hpart
  have hpart := toOption_eq_some_iff.1 htrack
  obtain ⟨played, hwalk, hmade, hkeys', htracks, -⟩ := part_holds_notes hs hscore hplan (.head _) hpart
  rw [hwalk] at hkeys
  have hlist : (played.toList.flatMap fun b => keysOf (s.notesOn "gangsa" b)) = [60, 60, 62] := Option.some.inj hkeys
  obtain ⟨ordered, htrack⟩ := htracks _ track hmade
  have hnotes := htrack.notes
  rw [hkeys', hlist] at hnotes
  exact ⟨s, a, track, ordered, hs, ha, hpart, htrack.events, hnotes⟩

end Performance

end Gamelan
