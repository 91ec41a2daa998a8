import Gamelan.Compile
import Gamelan.Proofs.Arrangement.Extensions
import Gamelan.Proofs.Midi.Tracks
import Gamelan.Proofs.Settings

namespace Gamelan

/-- Every value in range can be a default. -/
theorem Schedule.exists_ofDefault {quantity : Quantity} {value : Int32} (h : quantity.accepts value) :
    ∃ s, ofDefault quantity value = .ok s := by
  have hmake : Ramp.make quantity value 0 = .ok { quantity, target := value, length := (0 : Int32).toUInt32 } := by
    rw [Ramp.make, if_neg (by decide), h]
    rfl
  exact ⟨_, bind_eq_ok_iff.2 ⟨_, hmake, rfl⟩⟩

/-- With valid settings every score has a plain performance. -/
theorem Score.exists_plain_of_validate {settings : Settings} (h : settings.validate = .ok ()) (s : Score) :
    ∃ p, s.plain settings = .ok p := by
  obtain ⟨htempo, hdynamics⟩ := (Settings.isValid_of_validate h).accepts
  obtain ⟨tempo, htempo⟩ := Schedule.exists_ofDefault htempo
  obtain ⟨dynamics, hdynamics⟩ := Schedule.exists_ofDefault hdynamics
  exact ⟨_, Score.plain_eq_ok_iff.2 ⟨tempo, dynamics, htempo, hdynamics, rfl⟩⟩

namespace Midi

variable {settings : Settings} {s : Score}

/-- Whether all positions that get a track get a channel: those of the settings have one, and there are fifteen for
the positions of a score. -/
def HasChannels (settings : Settings) (s : Score) : Prop :=
  settings.instruments.isEmpty = false ∨ s.positions.length ≤ 15

/-- The first position for which no channel is left gets none. -/
theorem assignChannels_eq (channels : List UInt8) (positions : List Position) :
    match positions[channels.length]? with
    | some position => assignChannels channels positions = .error (.noChannel position)
    | none => ∃ plan, assignChannels channels positions = .ok plan := by
  induction positions generalizing channels with
  | nil => exact ⟨[], by cases channels <;> rfl⟩
  | cons position rest ih =>
    cases channels with
    | nil => rfl
    | cons channel channels =>
      have hrest := ih channels
      rw [List.length_cons, List.getElem?_cons_succ]
      cases hlast : rest[channels.length]? with
      | some last =>
        rw [hlast] at hrest
        simp [assignChannels, hrest, bind, Except.bind]
      | none =>
        rw [hlast] at hrest
        obtain ⟨plan, hplan⟩ := hrest
        exact ⟨(position, { channel }) :: plan, by simp [assignChannels, hplan, bind, Except.bind, pure, Except.pure]⟩

theorem exists_trackPlan (h : HasChannels settings s) : ∃ plan, trackPlan s settings = .ok plan := by
  rw [trackPlan]
  split
  next hempty =>
    have hlength : s.positions.length ≤ 15 := h.resolve_left (by simp [hempty])
    have hassign := assignChannels_eq freeChannels s.positions
    rw [List.getElem?_eq_none (show s.positions.length ≤ freeChannels.length from hlength)] at hassign
    exact hassign
  · exact ⟨_, rfl⟩

theorem exists_trackPlan_eq_error (h : ¬ HasChannels settings s) :
    ∃ position, s.positions[15]? = some position ∧ trackPlan s settings = .error (.noChannel position) := by
  obtain ⟨hempty, hlength⟩ := not_or.1 h
  have hlast : s.positions[15]? = some s.positions[15] := List.getElem?_eq_getElem (by omega)
  have hassign := assignChannels_eq freeChannels s.positions
  rw [show freeChannels.length = 15 from rfl, hlast] at hassign
  rw [trackPlan, if_pos (by simpa using hempty)]
  exact ⟨_, hlast, hassign⟩

end Midi

namespace Performance

open Midi

variable {p : Performance} {settings : Settings}

/-- Walks that agree in timing succeed together. -/
theorem SameTiming.exists_walk (h : SameTiming p p) {position? : Option Position} {played : Array Played}
    (hplayed : (p.walk position?).1 = .ok played) (position'? : Option Position) :
    ∃ played', (p.walk position'?).1 = .ok played' := by
  have htiming := walk_timing_congr h position? position'?
  rw [hplayed] at htiming
  cases hwalk : (p.walk position'?).1 with
  | error e => simp [hwalk, Except.map] at htiming
  | ok played' => exact ⟨played', rfl⟩

/-- Whether all notes of some positions are playable. -/
def IsPlayable (p : Performance) (settings : Settings) (plan : List (Position × Instrument)) : Prop :=
  ∀ entry ∈ plan, ∀ played, (p.walk (some entry.1)).1 = .ok played →
    ∀ x ∈ partSounds (toTick settings.ppq) (p.measures entry.1 played), x.IsPlayable

/-- Where all walks succeed, timelines are made if all notes are playable. -/
theorem mapM_timeline (settings : Settings) (h : ∀ position, ∃ played, (p.walk (some position)).1 = .ok played)
    (plan : List (Position × Instrument)) :
    (p.IsPlayable settings plan → ∃ ts, plan.mapM (p.timeline settings) = .ok ts) ∧
      (¬ p.IsPlayable settings plan → plan.mapM (p.timeline settings) = .error .overflow) := by
  choose played hplayed using h
  have htimeline (entry : Position × Instrument) : p.timeline settings entry =
      partTimeline (toTick settings.ppq) entry.1 entry.2 (p.measures entry.1 (played entry.1)) := by
    rw [timeline, hplayed]
    rfl
  have hplayable : p.IsPlayable settings plan ↔ ∀ entry ∈ plan,
      ∀ x ∈ partSounds (toTick settings.ppq) (p.measures entry.1 (played entry.1)), x.IsPlayable := by
    refine forall₂_congr fun entry _ => ?_
    rw [hplayed]
    exact ⟨fun hall => hall _ rfl, fun hall _ heq => Except.ok.inj heq ▸ hall⟩
  rw [hplayable, mapM_eq_if fun entry => (htimeline entry).trans (partTimeline_eq_if ..)]
  exact ⟨fun hall => ⟨_, if_pos hall⟩, fun hsome => if_neg hsome⟩

/-- The tracks of a performance are assembled if its flow ends and all its notes are playable. -/
theorem SameTiming.timelines_outcome (h : SameTiming p p) {plan : List (Position × Instrument)}
    (hplan : trackPlan p.score settings = .ok plan) (hwalk : ∃ played, (p.walk none).1 = .ok played) :
    (p.IsPlayable settings plan → ∃ ts, p.timelines settings = .ok ts) ∧
      (¬ p.IsPlayable settings plan → p.timelines settings = .error .overflow) := by
  obtain ⟨played, hplayed⟩ := hwalk
  obtain ⟨hmade, hover⟩ := mapM_timeline settings
    (fun position => h.exists_walk hplayed (some position)) plan
  rw [timelines, hplan, hplayed]
  simp only [Except.mapError, bind, Except.bind]
  refine ⟨fun hnotes => ?_, fun hnotes => ?_⟩
  · obtain ⟨ts, hts⟩ := hmade hnotes
    rw [hts]
    exact ⟨_, rfl⟩
  · rw [hover hnotes]

end Performance

open Midi

variable {text : String} {settings : Settings} {s : Score} {a : Arrangement} {e : Error}

/-- The settings are valid, the text holds a score, and its performance is set up. -/
structure Prepares (text : String) (settings : Settings) (s : Score) (a : Arrangement) : Prop where
  valid : settings.validate = .ok ()
  parsed : Score.parse text = .ok s
  arranged : s.arrange settings = .ok a

/-- What keeps a performance from being set up. The settings come before the text, and the text before the sequences. -/
inductive Unprepared (text : String) (settings : Settings) : Error → Prop where
  | settings {fault : SettingsFault} (h : settings.validate = .error fault) : Unprepared text settings (.settings fault)
  | score {fault : ScoreFault} (hvalid : settings.validate = .ok ()) (h : Score.parse text = .error fault) :
    Unprepared text settings (.score fault)
  | sequence {s : Score} {p : Performance} (hvalid : settings.validate = .ok ()) (hparsed : Score.parse text = .ok s)
    (hplain : s.plain settings = .ok p) (h : s.CountsBeyond settings p) : Unprepared text settings .overflow

/-- A performance that is set up has a file. -/
structure Compiles (text : String) (settings : Settings) (s : Score) (a : Arrangement) : Prop extends
    Prepares text settings s a where
  channels : HasChannels settings s
  flow : ∃ played, (a.performance.walk none).1 = .ok played
  notes : ∀ plan, trackPlan s settings = .ok plan → a.performance.IsPlayable settings plan
  file : ∀ ts, a.performance.timelines settings = .ok ts →
    ∃ bytes, fileBytes settings.ppq (ts.map Timeline.track) = .ok bytes

/-- What keeps a file from being written. The channels come before the flow, the flow before the notes, and the notes
before the file. -/
inductive Uncompilable (text : String) (settings : Settings) : Error → Prop where
  | unprepared {e : Error} (h : Unprepared text settings e) : Uncompilable text settings e
  | channels {s : Score} {a : Arrangement} {position : Position} (h : Prepares text settings s a)
    (hchannels : ¬ HasChannels settings s) (hposition : s.positions[15]? = some position) :
    Uncompilable text settings (.midi (.noChannel position))
  | flow {s : Score} {a : Arrangement} (h : Prepares text settings s a) (hchannels : HasChannels settings s)
    (hwalk : ¬ ∃ played, (a.performance.walk none).1 = .ok played) :
    Uncompilable text settings (.stepLimit settings.maxSteps)
  | notes {s : Score} {a : Arrangement} {plan : List (Position × Instrument)} (h : Prepares text settings s a)
    (hplan : trackPlan s settings = .ok plan) (hwalk : ∃ played, (a.performance.walk none).1 = .ok played)
    (hnotes : ¬ a.performance.IsPlayable settings plan) : Uncompilable text settings .overflow
  | file {s : Score} {a : Arrangement} {ts : List Timeline} {fault : MidiFault} (h : Prepares text settings s a)
    (hts : a.performance.timelines settings = .ok ts)
    (hfile : fileBytes settings.ppq (ts.map Timeline.track) = .error fault) : Uncompilable text settings (.midi fault)

theorem Unprepared.prepare_eq (h : Unprepared text settings e) : prepare text settings = .error e := by
  cases h with
  | settings h => rw [prepare, h]; rfl
  | score hvalid h => rw [prepare, hvalid, h]; rfl
  | «sequence» hvalid hparsed hplain h =>
    have hover := (Score.arrange_eq_overflow_iff hplain).2 ((Score.overflows_iff hplain).2 h)
    rw [prepare, hvalid, hparsed]
    change ((Score.arrange _ settings).bind fun a => .ok a.performance) = _
    rw [hover]
    rfl

namespace Prepares

variable (h : Prepares text settings s a)

include h

theorem prepare_eq : prepare text settings = .ok a.performance := by
  rw [prepare, h.valid, h.parsed]
  change ((s.arrange settings).bind fun a => .ok a.performance) = _
  rw [h.arranged]
  rfl

theorem sameTiming : Performance.SameTiming a.performance a.performance :=
  have hcomplete := Score.arrange_isComplete h.arranged
  ⟨hcomplete, hcomplete, rfl, rfl, Score.arrange_tempo_isForAll h.arranged⟩

theorem compile_eq : compile text settings = (a.performance.timelines settings).bind fun ts =>
    (fileBytes settings.ppq (ts.map Timeline.track)).mapError .midi := by
  rw [compile, h.prepare_eq]
  exact (Score.arrange_isComplete h.arranged).render_fst settings

theorem trace_eq (position? : Option Position) : trace text settings position? = (a.performance.walk position?).1 := by
  rw [trace, h.prepare_eq]
  rfl

/-- A walk for some position fails if the walk for none does, and at the limit. -/
theorem walk_eq_error (hwalk : ¬ ∃ played, (a.performance.walk none).1 = .ok played) (position? : Option Position) :
    (a.performance.walk position?).1 = .error (.stepLimit settings.maxSteps) := by
  cases hresult : (a.performance.walk position?).1 with
  | ok played => exact absurd (h.sameTiming.exists_walk hresult none) hwalk
  | error e => rw [(Score.arrange_isComplete h.arranged).walk_error hresult, (Score.arrange_score h.arranged).2]

end Prepares

theorem Compiles.exists_bytes (h : Compiles text settings s a) : ∃ bytes, compile text settings = .ok bytes := by
  obtain ⟨plan, hplan⟩ := exists_trackPlan h.channels
  have hnotes := h.notes plan hplan
  rw [← (Score.arrange_score h.arranged).1] at hplan
  obtain ⟨ts, hts⟩ := (h.sameTiming.timelines_outcome hplan h.flow).1 hnotes
  obtain ⟨bytes, hbytes⟩ := h.file ts hts
  exact ⟨bytes, by rw [h.compile_eq, hts, Except.bind, hbytes]; rfl⟩

theorem Uncompilable.compile_eq (h : Uncompilable text settings e) : compile text settings = .error e := by
  cases h with
  | unprepared h => rw [compile, h.prepare_eq]; rfl
  | channels h hchannels hposition =>
    rw [← (Score.arrange_score h.arranged).1] at hchannels hposition
    obtain ⟨position', hposition', hplan⟩ := exists_trackPlan_eq_error hchannels
    obtain rfl := Option.some.inj (hposition.symm.trans hposition')
    rw [h.compile_eq, Performance.timelines, hplan]
    rfl
  | flow h hchannels hwalk =>
    rw [← (Score.arrange_score h.arranged).1] at hchannels
    obtain ⟨plan, hplan⟩ := exists_trackPlan hchannels
    rw [h.compile_eq, Performance.timelines, hplan, h.walk_eq_error hwalk none]
    rfl
  | notes h hplan hwalk hnotes =>
    rw [← (Score.arrange_score h.arranged).1] at hplan
    rw [h.compile_eq, (h.sameTiming.timelines_outcome hplan hwalk).2 hnotes]
    rfl
  | file h hts hfile =>
    rw [h.compile_eq, hts, Except.bind, hfile]
    rfl

/-- The settings, the text and the sequences are in order, or one of them is not. -/
theorem prepares_or_unprepared (text : String) (settings : Settings) :
    (∃ s a, Prepares text settings s a) ∨ ∃ e, Unprepared text settings e := by
  cases hvalid : settings.validate with
  | error fault => exact .inr ⟨_, .settings hvalid⟩
  | ok =>
    cases hparsed : Score.parse text with
    | error fault => exact .inr ⟨_, .score hvalid hparsed⟩
    | ok s =>
      obtain ⟨p, hplain⟩ := Score.exists_plain_of_validate hvalid s
      cases hover : s.overflows settings p with
      | true => exact .inr ⟨_, .sequence hvalid hparsed hplain ((Score.overflows_iff hplain).1 hover)⟩
      | false =>
        obtain ⟨a, ha, -⟩ := Score.exists_arrange hplain hover
        exact .inl ⟨s, a, hvalid, hparsed, ha⟩

theorem compiles_or_uncompilable (text : String) (settings : Settings) :
    (∃ s a, Compiles text settings s a) ∨ ∃ e, Uncompilable text settings e := by
  obtain ⟨s, a, h⟩ | ⟨e, h⟩ := prepares_or_unprepared text settings
  swap
  · exact .inr ⟨e, .unprepared h⟩
  -- The cases are split in the order in which the faults are found.
  by_cases hchannels : HasChannels settings s
  swap
  · have hmany : 15 < s.positions.length := Nat.lt_of_not_le fun hle => hchannels (.inr hle)
    exact .inr ⟨_, .channels h hchannels (List.getElem?_eq_getElem hmany)⟩
  by_cases hwalk : ∃ played, (a.performance.walk none).1 = .ok played
  swap
  · exact .inr ⟨_, .flow h hchannels hwalk⟩
  obtain ⟨plan, hplan⟩ := exists_trackPlan hchannels
  by_cases hnotes : a.performance.IsPlayable settings plan
  swap
  · exact .inr ⟨_, .notes h hplan hwalk hnotes⟩
  have hplan' := hplan
  rw [← (Score.arrange_score h.arranged).1] at hplan'
  obtain ⟨ts, hts⟩ := (h.sameTiming.timelines_outcome hplan' hwalk).1 hnotes
  cases hfile : fileBytes settings.ppq (ts.map Timeline.track) with
  | error fault => exact .inr ⟨_, .file h hts hfile⟩
  | ok bytes =>
    refine .inl ⟨s, a, { h with channels := hchannels, flow := hwalk, notes := ?_, file := fun ts' hts' => ⟨bytes, ?_⟩ }⟩
    · exact fun plan' hplan' => Except.ok.inj (hplan.symm.trans hplan') ▸ hnotes
    · rw [← Except.ok.inj (hts.symm.trans hts'), hfile]

theorem exists_compile_iff : (∃ bytes, compile text settings = .ok bytes) ↔ ∃ s a, Compiles text settings s a := by
  refine ⟨?_, fun ⟨s, a, h⟩ => h.exists_bytes⟩
  rintro ⟨bytes, hbytes⟩
  refine (compiles_or_uncompilable text settings).resolve_right ?_
  rintro ⟨e, h⟩
  cases hbytes.symm.trans h.compile_eq

theorem compile_eq_error_iff : compile text settings = .error e ↔ Uncompilable text settings e := by
  refine ⟨fun he => ?_, Uncompilable.compile_eq⟩
  obtain ⟨s, a, h⟩ | ⟨e', h⟩ := compiles_or_uncompilable text settings
  · obtain ⟨bytes, hbytes⟩ := h.exists_bytes
    cases he.symm.trans hbytes
  · obtain rfl := Except.error.inj (he.symm.trans h.compile_eq)
    exact h

theorem Unprepared.trace_eq (h : Unprepared text settings e) (position? : Option Position) :
    trace text settings position? = .error e := by
  rw [trace, h.prepare_eq]
  rfl

theorem exists_trace_iff {position? : Option Position} :
    (∃ played, trace text settings position? = .ok played) ↔
      ∃ s a, Prepares text settings s a ∧ ∃ played, (a.performance.walk none).1 = .ok played := by
  constructor
  · rintro ⟨played, hplayed⟩
    obtain ⟨s, a, h⟩ | ⟨e, h⟩ := prepares_or_unprepared text settings
    · rw [h.trace_eq] at hplayed
      exact ⟨s, a, h, h.sameTiming.exists_walk hplayed none⟩
    · cases hplayed.symm.trans (h.trace_eq position?)
  · rintro ⟨s, a, h, played, hplayed⟩
    rw [h.trace_eq]
    exact h.sameTiming.exists_walk hplayed position?

theorem trace_eq_error_iff {position? : Option Position} :
    trace text settings position? = .error e ↔
      Unprepared text settings e ∨ ∃ s a, Prepares text settings s a ∧
        (¬ ∃ played, (a.performance.walk none).1 = .ok played) ∧ e = .stepLimit settings.maxSteps := by
  constructor
  · intro he
    obtain ⟨s, a, h⟩ | ⟨e', h⟩ := prepares_or_unprepared text settings
    · rw [h.trace_eq] at he
      have hwalk : ¬ ∃ played, (a.performance.walk none).1 = .ok played := by
        rintro ⟨played, hplayed⟩
        obtain ⟨played', hplayed'⟩ := h.sameTiming.exists_walk hplayed position?
        cases he.symm.trans hplayed'
      exact .inr ⟨s, a, h, hwalk, Except.error.inj (he.symm.trans (h.walk_eq_error hwalk position?))⟩
    · obtain rfl := Except.error.inj (he.symm.trans (h.trace_eq position?))
      exact .inl h
  · rintro (h | ⟨s, a, h, hwalk, rfl⟩)
    · exact h.trace_eq position?
    · rw [h.trace_eq, h.walk_eq_error hwalk]

/-- A text has a file exactly if the settings are valid, the text holds a score, no sequence counts beyond the last
pass, there are channels for the positions, the flow ends and every note is playable, as far as the file has room for
the tracks. Otherwise the first of these that is missed is the fault. A sequence that counts too far and a note that is
not playable stop the program, and no fault of a directive is one. For the beats of a position, whichever it is, the
settings, the text, the sequences and the flow are what counts. -/
theorem compile_and_trace_outcomes (text : String) (settings : Settings) :
    ((∃ bytes, compile text settings = .ok bytes) ↔ ∃ s a, Compiles text settings s a) ∧
    (∀ e, compile text settings = .error e ↔ Uncompilable text settings e) ∧
    ∀ position?,
      ((∃ played, trace text settings position? = .ok played) ↔
        ∃ s a, Prepares text settings s a ∧ ∃ played, (a.performance.walk none).1 = .ok played) ∧
      ∀ e, trace text settings position? = .error e ↔
        Unprepared text settings e ∨ ∃ s a, Prepares text settings s a ∧
          (¬ ∃ played, (a.performance.walk none).1 = .ok played) ∧ e = .stepLimit settings.maxSteps :=
  ⟨exists_compile_iff, fun _ => compile_eq_error_iff, fun _ => ⟨exists_trace_iff, fun _ => trace_eq_error_iff⟩⟩

/-- A score with a note after a very long beat. -/
def longScore : String :=
  "gongans:\n  - beats:\n      - \x7bduration: 1.0e10\x7d\n" ++
    "      - \x7bnotes: \x7bgangsa: [\x7bkey: 60, duration: 1.0\x7d]\x7d\x7d\n"

/-- A score that is set up, with a channel for its position and a flow that ends, has no file: the note begins at the
last tick. -/
theorem compile_overflows_after_long_beat :
    ∃ s a played, Prepares longScore {} s a ∧ HasChannels {} s ∧ (a.performance.walk none).1 = .ok played ∧
      compile longScore {} = .error .overflow := by
  have hcomputed : ((Score.parse longScore).toOption.bind fun s => (s.arrange {}).toOption.map fun a =>
      decide (s.positions = ["gangsa"] ∧ (a.performance.walk none).1.toOption.isSome ∧
        (a.performance.walk (some "gangsa")).1.toOption.map (fun played =>
          (partSounds (toTick 96) (a.performance.measures "gangsa" played)).map (·.onset)) =
            some [lastOfAllTicks])) = some true := by decide +kernel
  obtain ⟨s, hs, hrest⟩ := Option.bind_eq_some_iff.1 hcomputed
  obtain ⟨a, ha, hfacts⟩ := Option.map_eq_some_iff.1 hrest
  obtain ⟨hpositions, hwalk, hsounds⟩ := of_decide_eq_true hfacts
  obtain ⟨played, hplayed⟩ := Option.isSome_iff_exists.1 hwalk
  obtain ⟨played', hplayed', honsets⟩ := Option.map_eq_some_iff.1 hsounds
  have hprepares : Prepares longScore {} s a := ⟨rfl, toOption_eq_some_iff.1 hs, toOption_eq_some_iff.1 ha⟩
  have hplan : trackPlan s {} = .ok [("gangsa", { channel := 0 })] := by
    rw [trackPlan, hpositions]
    rfl
  obtain ⟨x, hx, hlast⟩ := List.mem_map.1 (honsets ▸ List.mem_singleton_self _)
  have hnotes : ¬ a.performance.IsPlayable {} [("gangsa", { channel := 0 })] := fun hall =>
    (hall _ (.head _) played' (toOption_eq_some_iff.1 hplayed') x hx).2 hlast
  have hflow : (a.performance.walk none).1 = .ok played := toOption_eq_some_iff.1 hplayed
  refine ⟨s, a, played, hprepares, .inr (by rw [hpositions]; decide), hflow, ?_⟩
  exact (Uncompilable.notes hprepares hplan ⟨played, hflow⟩ hnotes).compile_eq

end Gamelan
