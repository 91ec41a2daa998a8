import Gamelan.Proofs.Midi.Sounds
import Gamelan.Proofs.Performance.Positions
import Gamelan.Proofs.Performance.Range

namespace Gamelan

section Sweep

variable {σ α β : Type} {f : σ → α → σ × List β}

/-- What the first elements contribute is there before the others are looked at. -/
theorem sweep_isPrefix_append (s : σ) (xs ys : List α) : (sweep f s xs).2 <+: (sweep f s (xs ++ ys)).2 := by
  induction xs generalizing s with
  | nil =>
    rw [sweep_nil]
    exact List.nil_prefix
  | cons x xs ih =>
    rw [List.cons_append, sweep_cons, sweep_cons, List.prefix_append_right_inj]
    exact ih _

/-- A sweep may look up its elements by their places in the list. -/
theorem sweep_zipIdx {g : σ → α × Nat → σ × List β} (xs : List α) (k : Nat)
    (h : ∀ s n x, xs[n]? = some x → g s (x, k + n) = f s x) (s : σ) : sweep g s (xs.zipIdx k) = sweep f s xs := by
  induction xs generalizing k s with
  | nil => rw [List.zipIdx_nil, sweep_nil, sweep_nil]
  | cons x xs ih =>
    have hfirst : g s (x, k) = f s x := h s 0 x rfl
    have hrest : ∀ s n y, xs[n]? = some y → g s (y, k + 1 + n) = f s y := by
      intro s n y hy
      rw [Nat.add_assoc, Nat.add_comm 1]
      exact h s (n + 1) y hy
    rw [List.zipIdx_cons, sweep_cons, sweep_cons, hfirst, ih (k + 1) hrest]

end Sweep

namespace Midi

/-- A faster beat is shorter by a microsecond at least. -/
theorem beatLength_lt_of_lt {m n : Nat} (hpos : 0 < m) (hlt : m < n) (hn : n ≤ 1000) : 60000000 / n < 60000000 / m := by
  have hlong : 1000 ≤ 60000000 / m := (Nat.le_div_iff_mul_le hpos).2 (by omega)
  rw [Nat.div_lt_iff_lt_mul (by omega)]
  calc
    60000000 < (60000000 / m + 1) * m := Nat.lt_mul_of_div_lt (Nat.lt_succ_self _) hpos
    _ = 60000000 / m * m + m := Nat.succ_mul ..
    _ ≤ 60000000 / m * m + 60000000 / m := by omega
    _ = 60000000 / m * (m + 1) := (Nat.mul_succ ..).symm
    _ ≤ 60000000 / m * n := Nat.mul_le_mul_left _ hlt

theorem isTempo_iff {bpm : Int32} : Quantity.isTempo bpm ↔ Quantity.minTempo ≤ bpm ∧ bpm ≤ Quantity.maxTempo := by
  rw [Quantity.isTempo, Bool.and_eq_true_iff, decide_eq_true_iff, decide_eq_true_iff]

/-- Different tempos are set by different events. -/
theorem beatLength_inj {a b : Int32} (ha : Quantity.isTempo a) (hb : Quantity.isTempo b)
    (h : beatLength a = beatLength b) : a = b := by
  obtain ⟨halow, hahigh⟩ := isTempo_iff.1 ha
  obtain ⟨hblow, hbhigh⟩ := isTempo_iff.1 hb
  have hlengths := congrArg UInt32.toNat h
  rw [(beatLength_eq halow).1, (beatLength_eq hblow).1] at hlengths
  rw [Int32.le_iff_toInt_le] at halow hahigh hblow hbhigh
  change (4 : Int) ≤ _ at halow hblow
  change _ ≤ (1000 : Int) at hahigh hbhigh
  have hequal : a.toInt.toNat = b.toInt.toNat := by
    rcases Nat.lt_trichotomy a.toInt.toNat b.toInt.toNat with hlt | heq | hlt
    · exact absurd hlengths (beatLength_lt_of_lt (by omega) hlt (by omega)).ne'
    · exact heq
    · exact absurd hlengths (beatLength_lt_of_lt (by omega) hlt (by omega)).ne
  exact Int32.toInt_inj.1 (by omega)

/-- The event that sets a tempo. -/
def setting (bpm : Int32) : Event := .tempo (beatLength bpm)

section Changes

variable (before? : Option Int32)

@[simp] theorem tempoChanges_nil : tempoChanges before? [] = [] := by
  rw [tempoChanges, sweep_nil]

theorem tempoChanges_cons (s : Sample) (rest : List Sample) :
    tempoChanges before? (s :: rest) =
      (if before? = some s.bpm then [] else [⟨s.tick, 1, setting s.bpm⟩]) ++ tempoChanges (some s.bpm) rest := by
  rw [tempoChanges, sweep_cons]
  by_cases h : before? = some s.bpm
  · simp only [if_pos h]
    rw [h]
    rfl
  · simp only [if_neg h]
    rfl

theorem tempoChanges_isPrefix_append (xs ys : List Sample) :
    tempoChanges before? xs <+: tempoChanges before? (xs ++ ys) :=
  sweep_isPrefix_append before? xs ys

/-- The last event, or the tempo from before if there is none, sets the tempo of the last sample. -/
theorem getLast?_tempoChanges (samples : List Sample) :
    (((tempoChanges before? samples).getLast?).map (·.event)).or (before?.map setting) =
      (((samples.getLast?).map (·.bpm)).or before?).map setting := by
  induction samples generalizing before? with
  | nil => rw [tempoChanges_nil]; rfl
  | cons s rest ih =>
    have hlast : ((s :: rest).getLast?.map (·.bpm)).or before? = (rest.getLast?.map (·.bpm)).or (some s.bpm) := by
      rw [List.getLast?_cons]
      cases rest.getLast? <;> rfl
    rw [hlast, ← ih, tempoChanges_cons]
    by_cases h : before? = some s.bpm
    · rw [if_pos h, List.nil_append, h]
    · rw [if_neg h, List.singleton_append, List.getLast?_cons]
      cases (tempoChanges (some s.bpm) rest).getLast? <;> rfl

/-- No event sets the tempo that is set already. -/
theorem isChain_tempoChanges {samples : List Sample} (hbefore : ∀ bpm ∈ before?, Quantity.isTempo bpm)
    (hsamples : ∀ s ∈ samples, Quantity.isTempo s.bpm) :
    ((before?.map setting).toList ++ (tempoChanges before? samples).map (·.event)).IsChain (· ≠ ·) := by
  induction samples generalizing before? with
  | nil => cases before? <;> simp
  | cons s rest ih =>
    obtain ⟨hs, hrest⟩ := List.forall_mem_cons.1 hsamples
    have hchain := ih (some s.bpm) (by simpa using hs) hrest
    rw [tempoChanges_cons]
    by_cases h : before? = some s.bpm
    · rw [if_pos h, List.nil_append, h]
      exact hchain
    · rw [if_neg h]
      cases before? with
      | none => exact hchain
      | some bpm =>
        refine List.IsChain.cons_cons (fun heq => h ?_) hchain
        rw [beatLength_inj (hbefore bpm rfl) hs (Event.tempo.inj heq)]

end Changes

/-- The tempos of samples can be read off their events. No event repeats the one before it, and after each sample the
last of the events so far is a minute in microseconds divided by the tempo of the sample. -/
structure KeepsTempos (samples : List Sample) : Prop where
  changes : ((tempoChanges none samples).map (·.event)).IsChain (· ≠ ·)
  soFar : ∀ n, tempoChanges none (samples.take n) <+: tempoChanges none samples
  held : ∀ n s, samples[n]? = some s → ∃ microseconds,
    ((tempoChanges none (samples.take (n + 1))).getLast?).map (·.event) = some (.tempo microseconds) ∧
      microseconds.toNat = 60000000 / s.bpm.toInt.toNat

theorem keepsTempos {samples : List Sample} (h : ∀ s ∈ samples, Quantity.isTempo s.bpm) : KeepsTempos samples where
  changes := isChain_tempoChanges none nofun h
  soFar n := by
    have hprefix := tempoChanges_isPrefix_append none (samples.take n) (samples.drop n)
    rwa [List.take_append_drop] at hprefix
  held n s hs := by
    have hlast := getLast?_tempoChanges none (samples.take (n + 1))
    have htake : (samples.take (n + 1)).getLast? = some s := by
      rw [List.getLast?_take]
      simp [hs]
    rw [htake, Option.map_none, Option.or_none] at hlast
    exact ⟨beatLength s.bpm, hlast, (beatLength_eq (isTempo_iff.1 (h s (List.mem_of_getElem? hs))).1).1⟩

/-- On how many steps of a beat the tempo is sampled. -/
def stepCount (span : Span) : Nat := if span.start = span.stop then 1 else 4

/-- The tempos of all samples of some beats, for a rule that gives the tempo of a beat on a step. -/
def tempos (tempo : Nat → Nat → Int32) (beats : List (Float × Span)) : List Int32 :=
  beats.zipIdx.flatMap fun ((_, span), n) => (List.range (stepCount span)).map (tempo n)

/-- The samples of beats with their durations, with the tempos of a rule, and the time when the last beat ends. -/
def samplesBy (tick : Float → UInt32) (tempo : Nat → Nat → Int32) (beats : List (Float × Span)) :
    Float × List Sample :=
  sweep (fun start ((duration, span), n) => (start + duration, (List.range (stepCount span)).map fun step =>
    ⟨tick (start + duration * (step.toFloat / (stepCount span).toFloat)), tempo n step⟩)) 0 beats.zipIdx

/-- The track of the title and the tempo, with the tempos of a rule. -/
def conductorTrackBy (tick : Float → UInt32) (tempo : Nat → Nat → Int32) (title : String)
    (beats : List (Float × Span)) : Track :=
  let (stop, samples) := samplesBy tick tempo beats
  finishTrack (⟨0, 0, .trackName title⟩ :: tempoChanges none samples) (tick stop)

/-- The rule of a performance, which takes the tempo of a step from between those at the ends of its beat. -/
def interpolated (beats : List (Float × Span)) (n step : Nat) : Int32 :=
  (beats[n]?).elim Quantity.minTempo fun (_, span) =>
    max (interpolate span (step.toFloat / (stepCount span).toFloat)).toInt32 1

section Rule

variable (tick : Float → UInt32) (tempo : Nat → Nat → Int32) (beats : List (Float × Span))

theorem map_bpm_samplesBy : (samplesBy tick tempo beats).2.map (·.bpm) = tempos tempo beats := by
  refine map_sweep (fun start e => ?_) 0 beats.zipIdx
  obtain ⟨⟨duration, span⟩, n⟩ := e
  rw [List.map_map]
  rfl

theorem samplesBy_interpolated : samplesBy tick (interpolated beats) beats = samples tick beats := by
  refine sweep_zipIdx beats 0 (fun start n beat hbeat => ?_) 0
  simp only [Nat.zero_add, interpolated, hbeat, Option.elim_some]
  rfl

theorem conductorTrackBy_interpolated (title : String) :
    conductorTrackBy tick (interpolated beats) title beats = conductorTrack tick title beats := by
  rw [conductorTrackBy, samplesBy_interpolated, conductorTrack]

end Rule

end Midi

namespace Performance

open Midi

/-- The tempo events of a performance keep all its tempos, whatever rule gives the tempos of the steps within the
range: what the last event sets is known at every sample of every beat, and is different for different tempos. -/
theorem conductor_keepsTempos {p : Performance} {played : Array Played} (hwalk : (p.walk none).1 = .ok played)
    (settings : Settings) :
    let tick := toTick settings.ppq
    let beats := p.tempoBeats played
    (p.conductor settings).1 = .ok (conductorTrackBy tick (interpolated beats) (p.score.title?.getD "") beats) ∧
      (∀ tempo, (∀ bpm ∈ tempos tempo beats, 4 ≤ bpm ∧ bpm ≤ 1000) →
        (samplesBy tick tempo beats).2.map (·.bpm) = tempos tempo beats ∧
          KeepsTempos (samplesBy tick tempo beats).2) ∧
      ∀ a b, 4 ≤ a ∧ a ≤ 1000 → 4 ≤ b ∧ b ≤ 1000 → a ≠ b → setting a ≠ setting b := by
  intro tick beats
  refine ⟨?_, fun tempo htempo => ⟨map_bpm_samplesBy tick tempo beats, keepsTempos fun s hs => ?_⟩, ?_⟩
  · rw [conductor_fst, hwalk, conductorTrackBy_interpolated]
    rfl
  · have hbpm : s.bpm ∈ tempos tempo beats := map_bpm_samplesBy tick tempo beats ▸ List.mem_map_of_mem hs
    exact isTempo_iff.2 (htempo s.bpm hbpm)
  · exact fun a b ha hb hne heq => hne (beatLength_inj (isTempo_iff.2 ha) (isTempo_iff.2 hb) (Event.tempo.inj heq))

/-- A gongan on which the tempo rises, played twice, with tempos that come back from beat to beat and within a beat. -/
theorem conductor_keepsTempos_of_ramp :
    let m : Manuscript := { gongans := [{ directives := [.loop 2, .tempo 120 { beatCount := 2 }], beats := [{}, {}] }] }
    let tempo : Nat → Nat → Int32 := fun n step => if n = 1 ∨ step = 2 then 1000 else 4
    ∃ s a played, m.toScore = .ok s ∧ s.arrange {} = .ok a ∧ (a.performance.walk none).1 = .ok played ∧
      tempos tempo (a.performance.tempoBeats played) = [4, 4, 1000, 4, 1000, 1000, 1000, 1000, 4, 4] ∧
      KeepsTempos (samplesBy (toTick 96) tempo (a.performance.tempoBeats played)).2 ∧ setting 4 ≠ setting 1000 := by
  intro m tempo
  have harrangement : ∃ s a, m.toScore = .ok s ∧ s.arrange {} = .ok a ∧
      ((a.performance.walk none).1.toOption.any fun played =>
        tempos tempo (a.performance.tempoBeats played) = [4, 4, 1000, 4, 1000, 1000, 1000, 1000, 4, 4]) :=
    Manuscript.exists_arrangement (by decide +kernel)
  obtain ⟨s, a, hs, ha, hrun⟩ := harrangement
  obtain ⟨played, hplayed, htempos⟩ := (Option.any_eq_true ..).1 hrun
  have hwalk := toOption_eq_some_iff.1 hplayed
  have hequal := of_decide_eq_true htempos
  have hrange : ∀ bpm ∈ tempos tempo (a.performance.tempoBeats played), 4 ≤ bpm ∧ bpm ≤ 1000 := by
    intro bpm hbpm
    obtain ⟨⟨beat, n⟩, -, hbeat⟩ := List.mem_flatMap.1 hbpm
    obtain ⟨step, -, rfl⟩ := List.mem_map.1 hbeat
    change 4 ≤ ite .. ∧ ite .. ≤ 1000
    split <;> decide
  obtain ⟨-, hkept, hdistinct⟩ := conductor_keepsTempos hwalk {}
  exact ⟨s, a, played, hs, ha, hwalk, hequal, (hkept tempo hrange).2,
    hdistinct 4 1000 (by decide) (by decide) (by decide)⟩

end Performance

end Gamelan
