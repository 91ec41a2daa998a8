import Gamelan.Proofs.Midi.Parts
import Gamelan.Proofs.Midi.RoundTrip
import Gamelan.Proofs.Midi.Tracks

namespace Gamelan

namespace Midi

theorem mask28_lt (n : UInt32) : (mask28 n).toNat < 2 ^ 28 := by
  rw [toNat_mask28]
  exact Nat.mod_lt _ (by decide)

theorem delta_lt_of_mem_space {start : UInt32} {es : List Timed} {e : Spaced} (he : e ∈ (space start es).2) :
    e.delta.toNat < 2 ^ 28 := by
  refine forall_mem_sweep (P := fun e : Spaced => e.delta.toNat < 2 ^ 28) (fun before x y hy => ?_) start es e he
  obtain rfl := List.mem_singleton.1 hy
  exact mask28_lt _

namespace Timeline

/-- Whether a file has room for the numbers of all events, and none of them is the end of the track. -/
def Fits (t : Timeline) : Prop := ∀ e ∈ t.events, e.event.Fits ∧ e.event ≠ .endOfTrack

variable {t : Timeline}

theorem event_of_mem_space {e : Spaced} (he : e ∈ (space 0 (t.events.mergeSort Timed.isBefore)).2) :
    ∃ x ∈ t.events, x.event = e.event := by
  have hevent := List.mem_map_of_mem (f := fun e : Spaced => e.event) he
  rw [map_event_space] at hevent
  obtain ⟨x, hx, heq⟩ := List.mem_map.1 hevent
  exact ⟨x, (List.mergeSort_perm t.events Timed.isBefore).mem_iff.1 hx, heq⟩

theorem track_eq : ∃ delta, t.track = (space 0 (t.events.mergeSort Timed.isBefore)).2 ++ [⟨delta, .endOfTrack⟩] :=
  ⟨_, rfl⟩

theorem Fits.isWritable_track (h : t.Fits) : IsWritable t.track := by
  obtain ⟨delta, htrack⟩ := t.track_eq
  constructor
  · intro e he
    have hdelta : e.delta.toNat < 2 ^ 28 := by
      rw [track, finishTrack_eq] at he
      exact delta_lt_of_mem_space he
    refine ⟨hdelta, ?_⟩
    rw [htrack] at he
    rcases List.mem_append.1 he with he | he
    · obtain ⟨x, hx, heq⟩ := event_of_mem_space he
      exact heq ▸ (h x hx).1
    · obtain rfl := List.mem_singleton.1 he
      trivial
  · refine ⟨_, delta, htrack, fun e he => ?_⟩
    obtain ⟨x, hx, heq⟩ := event_of_mem_space he
    exact heq ▸ (h x hx).2

/-- A track is written if it has short names and not too many events. -/
theorem Fits.exists_trackChunk (h : t.Fits) {size : Nat} (hsize : size < 2 ^ 28)
    (hnames : ∀ e ∈ t.events, ∀ name, e.event = .trackName name → name.utf8ByteSize ≤ size)
    (hlength : (14 + size) * (t.events.length + 1) < 2 ^ 32) : ∃ bytes, trackChunk t.track = .ok bytes := by
  obtain ⟨delta, htrack⟩ := t.track_eq
  refine Midi.exists_trackChunk h.isWritable_track hsize (fun e he name hevent => ?_) ?_
  · rw [htrack] at he
    rcases List.mem_append.1 he with he | he
    · obtain ⟨x, hx, heq⟩ := event_of_mem_space he
      exact hnames x hx name (heq.trans hevent)
    · obtain rfl := List.mem_singleton.1 he
      cases hevent
  · rwa [htrack, List.length_append, length_space, List.length_mergeSort, List.length_singleton]

end Timeline

theorem event_of_mem_tempoChanges {before? : Option Int32} {ss : List Sample} :
    ∀ e ∈ tempoChanges before? ss, ∃ n, e.event = .tempo n ∧ n.toNat < 2 ^ 24 := by
  have htempo (bpm : Int32) : (beatLength bpm).toNat < 2 ^ 24 := by
    rw [beatLength, UInt32.toNat_and]
    exact Nat.lt_of_le_of_lt Nat.and_le_right (by decide)
  refine forall_mem_sweep (fun before? s => ?_) before? ss
  split
  · nofun
  · intro e he
    obtain rfl := List.mem_singleton.1 he
    exact ⟨_, rfl, htempo s.bpm⟩

section Conductor

variable (tick : Float → UInt32) (title : String) (beats : List (Float × Span))

theorem fits_conductorTimeline : (conductorTimeline tick title beats).Fits := by
  intro e he
  rcases List.mem_cons.1 he with rfl | he
  · exact ⟨trivial, nofun⟩
  · obtain ⟨n, hevent, hn⟩ := event_of_mem_tempoChanges e he
    rw [hevent]
    exact ⟨hn, nofun⟩

/-- The track of the title and the tempo is written if it does not have too many beats. -/
theorem exists_trackChunk_conductorTrack (htitle : title.utf8ByteSize < 2 ^ 28)
    (hlength : (14 + title.utf8ByteSize) * (2 + 4 * beats.length) < 2 ^ 32) :
    ∃ bytes, trackChunk (conductorTrack tick title beats) = .ok bytes := by
  have hchanges : (tempoChanges none (samples tick beats).2).length ≤ 1 * (samples tick beats).2.length := by
    refine length_sweep_le (fun before? s => ?_) none _
    split <;> simp
  have hsamples : (samples tick beats).2.length ≤ 4 * beats.length := by
    refine length_sweep_le (fun start beat => ?_) 0 beats
    simp only [beatSamples, List.length_map, List.length_range]
    split <;> decide
  refine (fits_conductorTimeline tick title beats).exists_trackChunk htitle (fun e he name hevent => ?_) ?_
  · rcases List.mem_cons.1 he with rfl | he
    · cases hevent
      exact Nat.le_refl _
    · obtain ⟨n, hn, -⟩ := event_of_mem_tempoChanges e he
      cases hn.symm.trans hevent
  · refine Nat.lt_of_le_of_lt (Nat.mul_le_mul_left _ ?_) hlength
    change (tempoChanges none (samples tick beats).2).length + 1 + 1 ≤ _
    omega

end Conductor

theorem IsNoteEvent.fits {channel : UInt8} (hchannel : channel.toNat < 16) {e : Timed} (h : IsNoteEvent channel e) :
    e.event.Fits ∧ e.event ≠ .endOfTrack := by
  cases h with
  | on hkey hpos hle =>
    rw [UInt8.le_iff_toNat_le] at hkey hle
    exact ⟨⟨hchannel, Nat.lt_succ_of_le hkey, Nat.lt_succ_of_le hle⟩, nofun⟩
  | off hkey =>
    rw [UInt8.le_iff_toNat_le] at hkey
    exact ⟨⟨hchannel, Nat.lt_succ_of_le hkey, by decide⟩, nofun⟩

section Part

variable {tick : Float → UInt32} {position : Position} {instrument : Instrument} {measures : List PlayedMeasure}

/-- A timeline that is made holds what the track of the position begins with, and the events of its notes. -/
theorem events_of_partTimeline (h : partTimeline tick position instrument measures = .ok t) :
    t.events = partHead position instrument ++
      (partSounds tick measures).flatMap (Sound.events (instrument.channel &&& 0x0f)) := by
  rw [partTimeline_eq_if] at h
  split at h
  · rw [← Except.ok.inj h]
  · cases h

theorem fits_partTimeline (h : partTimeline tick position instrument measures = .ok t) : t.Fits := by
  have hchannel : (instrument.channel &&& 0x0f).toNat < 16 := by
    rw [UInt8.toNat_and]
    exact Nat.lt_succ_of_le Nat.and_le_right
  have hprogram : (instrument.program &&& 0x7f).toNat < 128 :=
    Nat.lt_succ_of_le (UInt8.le_iff_toNat_le.1 (masked_key_le instrument.program))
  intro e he
  rw [events_of_partTimeline h] at he
  rcases List.mem_append.1 he with he | he
  · rcases List.mem_pair.1 he with rfl | rfl
    · exact ⟨trivial, nofun⟩
    · exact ⟨⟨hchannel, hprogram⟩, nofun⟩
  · exact (isNoteEvent_of_mem (key_le_of_mem_partSounds tick measures) he).fits hchannel

/-- The track of a position is written if it does not have too many notes. -/
theorem exists_trackChunk_partTrack {track : Track} (h : partTrack tick position instrument measures = .ok track)
    (hposition : position.utf8ByteSize < 2 ^ 28)
    (hlength : (14 + position.utf8ByteSize) * (3 + 2 * (partSounds tick measures).length) < 2 ^ 32) :
    ∃ bytes, trackChunk track = .ok bytes := by
  rw [← map_track_partTimeline] at h
  obtain ⟨t, ht, rfl⟩ := map_eq_ok_iff.1 h
  have hevents := events_of_partTimeline ht
  refine (fits_partTimeline ht).exists_trackChunk hposition (fun e he name hevent => ?_) ?_
  · rw [hevents] at he
    rcases List.mem_append.1 he with he | he
    · rcases List.mem_pair.1 he with rfl | rfl
      · cases hevent
        exact Nat.le_refl _
      · cases hevent
    · cases isNoteEvent_of_mem (key_le_of_mem_partSounds tick measures) he <;> cases hevent
  · have hnotes (channel : UInt8) (sounds : List Sound) :
        (sounds.flatMap (Sound.events channel)).length = 2 * sounds.length := by
      simp [List.length_flatMap, Sound.events, Nat.mul_comm]
    rw [hevents, List.length_append, hnotes]
    refine Nat.lt_of_le_of_lt (Nat.mul_le_mul_left _ ?_) hlength
    change 2 + 2 * (partSounds tick measures).length + 1 ≤ _
    omega

end Part

end Midi

namespace Performance

open Midi

variable {p q : Performance} {settings : Settings} {plan : List (Position × Instrument)}

/-- The performance that parts leave behind, one after the other. -/
def afterParts (settings : Settings) (p : Performance) (plan : List (Position × Instrument)) : Performance :=
  plan.foldl (fun q entry => (q.part settings entry.1 entry.2).2) p

theorem conductor_isWritable {track : Track} (h : (p.conductor settings).1 = .ok track) : IsWritable track := by
  obtain ⟨played, -, rfl⟩ := conductor_eq_ok_iff.1 h
  exact (fits_conductorTimeline _ _ _).isWritable_track

theorem part_isWritable {position : Position} {instrument : Instrument} {track : Track}
    (h : (p.part settings position instrument).1 = .ok track) : IsWritable track := by
  obtain ⟨played, -, hmade⟩ := part_eq_ok_iff.1 h
  rw [← map_track_partTimeline] at hmade
  obtain ⟨t, ht, rfl⟩ := map_eq_ok_iff.1 hmade
  exact (fits_partTimeline ht).isWritable_track

/-- The track of the title and the tempo is made and written if the flow ends before there are too many beats. -/
theorem exists_conductor_chunk {played : Array Played} (hwalk : (p.walk none).1 = .ok played) {title : String}
    (htitle : p.score.title?.getD "" = title) (hroom : title.utf8ByteSize < 2 ^ 28)
    (hlength : (14 + title.utf8ByteSize) * (2 + 4 * played.size) < 2 ^ 32) (settings : Settings) :
    ∃ track bytes, (p.conductor settings).1 = .ok track ∧ trackChunk track = .ok bytes := by
  have hbeats : (p.tempoBeats played).length = played.size := by rw [tempoBeats, List.length_map, Array.length_toList]
  obtain ⟨bytes, hbytes⟩ := exists_trackChunk_conductorTrack (toTick settings.ppq) title (p.tempoBeats played) hroom
    (hbeats.symm ▸ hlength)
  subst htitle
  exact ⟨_, bytes, conductor_eq_ok_iff.2 ⟨played, hwalk, rfl⟩, hbytes⟩

/-- The track of a position is written if the flow ends before there are too many notes. -/
theorem exists_part_chunk {m : Manuscript} (hs : m.toScore = .ok p.score) {position : Position}
    {instrument : Instrument} {track : Track} (h : (p.part settings position instrument).1 = .ok track)
    {played : Array Played} (hwalk : (p.walk (some position)).1 = .ok played) {keys : List UInt8}
    (hkeys : (played.toList.flatMap fun b => keysOf (p.score.notesOn position b)) = keys)
    (hroom : position.utf8ByteSize < 2 ^ 28)
    (hlength : (14 + position.utf8ByteSize) * (3 + 2 * keys.length) < 2 ^ 32) :
    ∃ bytes, trackChunk track = .ok bytes := by
  obtain ⟨played', hwalk', hmade⟩ := part_eq_ok_iff.1 h
  obtain rfl := Except.ok.inj (hwalk.symm.trans hwalk')
  have hsounds := congrArg List.length (keys_partSounds_measures hs (toTick settings.ppq) position played)
  rw [List.length_map, hkeys] at hsounds
  exact exists_trackChunk_partTrack hmade hroom (hsounds.symm ▸ hlength)

/-- The part of the first position succeeds, and then those of the others. -/
theorem parts_cons_eq_ok_iff {entry : Position × Instrument} {tracks : List Track} :
    (parts settings (entry :: plan) p).1 = .ok tracks ↔
      ∃ track more, (p.part settings entry.1 entry.2).1 = .ok track ∧
        (parts settings plan (p.part settings entry.1 entry.2).2).1 = .ok more ∧ tracks = track :: more := by
  obtain ⟨position, instrument⟩ := entry
  rw [parts]
  generalize p.part settings position instrument = r
  obtain ⟨out, q⟩ := r
  cases out with
  | error e => simp
  | ok track => simp [map_eq_ok_iff, @eq_comm _ tracks]

/-- Parts that succeed are those of the plan, in its order. -/
theorem parts_eq_ok {tracks : List Track} (h : (parts settings plan p).1 = .ok tracks) :
    tracks.length = plan.length ∧ ∀ n entry, plan[n]? = some entry → ∃ track, tracks[n]? = some track ∧
      ((p.afterParts settings (plan.take n)).part settings entry.1 entry.2).1 = .ok track := by
  induction plan generalizing p tracks with
  | nil =>
    obtain rfl := Except.ok.inj h
    exact ⟨rfl, nofun⟩
  | cons first plan ih =>
    obtain ⟨track, more, hpart, hmore, rfl⟩ := parts_cons_eq_ok_iff.1 h
    obtain ⟨hlength, hrest⟩ := ih hmore
    refine ⟨congrArg Nat.succ hlength, fun n entry hentry => ?_⟩
    cases n with
    | zero =>
      obtain rfl := Option.some.inj hentry
      exact ⟨track, rfl, hpart⟩
    | succ n => exact hrest n entry hentry

theorem render_eq_ok_iff {bytes : Bytes} : (p.render settings).1 = .ok bytes ↔
    ∃ plan first rest, trackPlan p.score settings = .ok plan ∧ (p.conductor settings).1 = .ok first ∧
      (parts settings plan (p.conductor settings).2).1 = .ok rest ∧
      fileBytes settings.ppq (first :: rest) = .ok bytes := by
  rw [render]
  cases trackPlan p.score settings with
  | error fault => simp
  | ok plan =>
    generalize p.conductor settings = r
    obtain ⟨out, q⟩ := r
    cases out with
    | error e => simp
    | ok first =>
      dsimp only
      generalize hparts : parts settings plan q = r
      obtain ⟨out, q'⟩ := r
      cases out with
      | error e => simp [hparts]
      | ok rest =>
        cases hfile : fileBytes settings.ppq (first :: rest) <;> simp [hparts, hfile, Except.mapError]

/-- The bytes of a file, read by the rules of its format, give back what they have been made from: the tempo and the
parts of the plan in its order, each of them event by event. -/
theorem render_decodes {bytes : Bytes} (h : (p.render settings).1 = .ok bytes) :
    ∃ plan first rest file, trackPlan p.score settings = .ok plan ∧ (p.conductor settings).1 = .ok first ∧
      rest.length = plan.length ∧
      (∀ n entry, plan[n]? = some entry → ∃ track, rest[n]? = some track ∧
        (((p.conductor settings).2.afterParts settings (plan.take n)).part settings entry.1 entry.2).1 = .ok track) ∧
      readFile bytes = some (file, []) ∧ file.format = 1 ∧ file.division = settings.ppq.toNat % 2 ^ 15 ∧
      file.tracks.length = 1 + plan.length ∧
      file.tracks.map (·.map fun x => (x.1, x.2.event?)) =
        (first :: rest).map (·.map fun e => (e.delta.toNat, some e.event)) := by
  obtain ⟨plan, first, rest, hplan, hfirst, hparts, hfile⟩ := render_eq_ok_iff.1 h
  obtain ⟨hlength, hrest⟩ := parts_eq_ok hparts
  have hwritable : ∀ t ∈ first :: rest, IsWritable t := by
    intro t ht
    rcases List.mem_cons.1 ht with rfl | ht
    · exact conductor_isWritable hfirst
    · obtain ⟨n, hn, rfl⟩ := List.mem_iff_getElem.1 ht
      obtain ⟨track, htrack, hpart⟩ := hrest n plan[n] (List.getElem?_eq_getElem (hlength ▸ hn))
      obtain rfl := Option.some.inj ((List.getElem?_eq_getElem hn).symm.trans htrack)
      exact part_isWritable hpart
  refine ⟨plan, first, rest, _, hplan, hfirst, hlength, hrest, readFile_fileBytes hwritable hfile, rfl, rfl, ?_, ?_⟩
  · rw [List.length_map, List.length_cons, hlength, Nat.add_comm]
  · rw [List.map_map]
    refine List.map_congr_left fun t ht => ?_
    rw [Function.comp_apply, messages, List.map_map]
    refine List.map_congr_left fun e he => congrArg (Prod.mk e.delta.toNat) ?_
    exact event?_message ((hwritable t ht).fits e he).2

/-- A note that is played twice. -/
theorem render_decodes_of_two_passes :
    let m : Manuscript := { title? := some "Lagu", gongans := [{
      directives := [.label "A" 1, .goto "A" none [1] none],
      beats := [{ notes := .ofList [("gangsa", [⟨some 60, 1⟩])] }] }] }
    ∃ s a bytes first track file, m.toScore = .ok s ∧ s.arrange {} = .ok a ∧
      (a.performance.render {}).1 = .ok bytes ∧ (a.performance.conductor {}).1 = .ok first ∧
      ((a.performance.conductor {}).2.part {} "gangsa" { channel := 0 }).1 = .ok track ∧
      readFile bytes = some (file, []) ∧ file.division = 96 ∧
      file.tracks.map (·.map fun x => (x.1, x.2.event?)) =
        [first, track].map (·.map fun e => (e.delta.toNat, some e.event)) := by
  intro m
  have harrangement : ∃ s a, m.toScore = .ok s ∧ s.arrange {} = .ok a ∧
      (a.performance.score.positions = ["gangsa"] ∧ a.performance.score.title? = some "Lagu" ∧
        (a.performance.walk none).1.toOption.map (·.size) = some 2 ∧
        ((a.performance.conductor {}).2.part {} "gangsa" { channel := 0 }).1.toOption.isSome ∧
        ((a.performance.conductor {}).2.walk (some "gangsa")).1.toOption.map (fun played =>
          played.toList.flatMap fun b => keysOf (s.notesOn "gangsa" b)) = some [60, 60]) :=
    Manuscript.exists_arrangement (by decide +kernel)
  obtain ⟨s, a, hs, ha, hpositions, htitle, hsize, hpart, hkeys⟩ := harrangement
  obtain ⟨beats, hbeats, hsize⟩ := Option.map_eq_some_iff.1 hsize
  obtain ⟨played, hplayed, hkeys⟩ := Option.map_eq_some_iff.1 hkeys
  obtain rfl := (walk_snd_score _ none).trans (Score.arrange_score ha).1
  obtain ⟨first, head, hfirst, hhead⟩ := exists_conductor_chunk (toOption_eq_some_iff.1 hbeats)
    (congrArg (·.getD "") htitle) (by decide) (hsize.symm ▸ by decide) {}
  obtain ⟨track, hpart⟩ := Option.isSome_iff_exists.1 hpart
  have htrack := toOption_eq_some_iff.1 hpart
  obtain ⟨tail, htail⟩ := exists_part_chunk hs htrack (toOption_eq_some_iff.1 hplayed) hkeys
    (by decide) (by decide)
  have hplan : trackPlan a.performance.score {} = .ok [("gangsa", { channel := 0 })] := by
    rw [trackPlan, hpositions]
    rfl
  have hparts : (parts {} [("gangsa", { channel := 0 })] (a.performance.conductor {}).2).1 = .ok [track] :=
    parts_cons_eq_ok_iff.2 ⟨track, [], htrack, rfl, rfl⟩
  have hchunks : ∀ t ∈ [first, track], ∃ bytes, trackChunk t = .ok bytes :=
    List.forall_mem_cons.2 ⟨⟨head, hhead⟩, List.forall_mem_singleton.2 ⟨tail, htail⟩⟩
  have hcount : [first, track].length < UInt16.size := show 2 < UInt16.size by decide
  obtain ⟨bytes, hfile⟩ := exists_fileBytes hcount hchunks 96
  have hrender := render_eq_ok_iff.2 ⟨_, _, _, hplan, hfirst, hparts, hfile⟩
  obtain ⟨plan, first', rest, file, hplan', hfirst', hlength, hrest, hread, -, hdivision, -, hevents⟩ :=
    render_decodes hrender
  obtain rfl := Except.ok.inj (hplan.symm.trans hplan')
  obtain rfl := Except.ok.inj (hfirst.symm.trans hfirst')
  obtain ⟨track', hfound, htrack'⟩ := hrest 0 _ rfl
  obtain rfl := Except.ok.inj (htrack.symm.trans htrack')
  obtain ⟨only, rfl⟩ := List.length_eq_one_iff.1 hlength
  obtain rfl := Option.some.inj hfound
  exact ⟨_, a, bytes, first, only, file, hs, ha, hrender, hfirst, htrack, hread, hdivision, hevents⟩

end Performance

end Gamelan
