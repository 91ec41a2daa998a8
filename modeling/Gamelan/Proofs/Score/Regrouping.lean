import Gamelan.Proofs.Score.Durations
import Gamelan.Proofs.Score.Written

namespace Gamelan.Manuscript

/-- What a beat of a score plays is what is written for it: the notes of a pass of its own replace the others, the
positions are those that are named anywhere, no pass is numbered zero, and no notes have a fault. -/
structure Beat.IsRegrouped (b : Manuscript.Beat) (beat : Gamelan.Beat) : Prop where
  duration : beat.duration = b.duration
  notes : ∀ position pass, beat.notes position pass = b.notesAt position pass
  positions : ∀ position, position ∈ beat.measures.keys ↔ position ∈ b.notes.keys ∨
    ∃ pass byPosition, b.passes.get? pass = some byPosition ∧ position ∈ byPosition.keys
  passes : ∀ position measure, beat.measures.get? position = some measure → 0 ∉ measure.passes.keys
  fit : ∀ position pass,
    checkNotes beat.gongan beat.index beat.duration position (beat.notes position pass) = .ok ()
  durations : ∀ position pass, ∀ n ∈ beat.notes position pass, n.duration.isFinite ∧ 0 < n.duration
  keys : ∀ position pass, ∀ n ∈ beat.notes position pass, ∀ key, n.key? = some key → key ≤ 127

/-- Notes that fit a beat have no fault there, also if there are none. -/
theorem NotesFit.checkNotes_eq_ok {gongan index : Nat} {duration : Float} {position : Position} {notes : List Note}
    (h : NotesFit gongan index duration position notes) (hduration : isDuration duration) :
    checkNotes gongan index duration position notes = .ok () := by
  rcases h with rfl | h
  · exact checkNotes_nil hduration gongan index position
  · exact h

theorem Beat.isRegrouped_of_toBeat {b : Manuscript.Beat} {total id gongan index : Nat} {beat : Gamelan.Beat}
    (h : b.toBeat total id gongan index = .ok beat) : b.IsRegrouped beat := by
  have hfits := toBeat_notes h
  obtain ⟨hcheck, rfl⟩ := toBeat_eq_ok h
  obtain ⟨hduration, -, hpasses⟩ := check_eq_ok hcheck
  have hfit := fun position pass => (hfits position pass).checkNotes_eq_ok hduration
  refine ⟨rfl, fun position pass => ?_, b.mem_keys_measures, fun position measure hmeasure => ?_, hfit,
    fun position pass n hn => ?_, fun position pass n hn => (checkNotes_eq_ok (hfit position pass) hn).2⟩
  · rw [Gamelan.Beat.notes_eq_measureAt]
    exact b.notesOn_measureAt_measures position pass
  · intro hmem
    obtain ⟨notes, hnotes⟩ := SortedMap.mem_keys_iff.1 hmem
    -- The passes of a measure are passes that are written, and those are counted from one.
    have hat : measureAt b.measures position = measure := by rw [measureAt, hmeasure, Option.getD_some]
    rw [← hat, b.get?_passes_measureAt_measures] at hnotes
    obtain ⟨byPosition, hpass, -⟩ := Option.bind_eq_some_iff.1 hnotes
    exact (hpasses 0 byPosition (SortedMap.mem_entries_of_get? hpass)).1 rfl
  · have hn := (checkNotes_eq_ok (hfit position pass) hn).1
    rw [isDuration, Bool.and_eq_true_iff, decide_eq_true_iff] at hn
    exact hn

/-- All that is written for a beat is in the score, under the numbers of its gongan and of the beat. -/
theorem toScore_isRegrouped {m : Manuscript} {s : Score} (h : m.toScore = .ok s) {i j : Nat} {b : Manuscript.Beat}
    (hb : writtenAt? m.gongans i j = some b) :
    ∃ c beat, s.beatAt? (i + 1) (j + 1) = some c ∧ s.beats[c]? = some beat ∧ b.IsRegrouped beat := by
  obtain ⟨c, beat, hc, hbeat, hplace⟩ := toScore_beatAt? h hb
  exact ⟨c, beat, hc, hbeat, Beat.isRegrouped_of_toBeat hplace⟩

theorem toScore_isRegrouped_of_passes :
    let b : Manuscript.Beat := {
      notes := .ofList [("ugal", [⟨some 64, 1⟩]), ("kantilan", [])]
      passes := .ofList [
        (2, .ofList [("ugal", [⟨some 60, 0.5⟩])]), (3, .ofList [("reyong", [⟨some 57, 1⟩]), ("ugal", [])])] }
    let m : Manuscript := { gongans := [{ beats := [{}, {}] }, { beats := [{}, b] }] }
    ∃ s, m.toScore = .ok s ∧ writtenAt? m.gongans 1 1 = some b ∧
      ∃ c beat, s.beatAt? 2 2 = some c ∧ s.beats[c]? = some beat ∧ b.IsRegrouped beat := by
  intro b m
  have hsome : m.toScore.toOption.isSome := by decide +kernel
  obtain ⟨s, hs⟩ := Option.isSome_iff_exists.1 hsome
  have hok : m.toScore = .ok s := toOption_eq_some_iff.1 hs
  exact ⟨s, hok, rfl, toScore_isRegrouped hok rfl⟩

end Gamelan.Manuscript
