import Gamelan.Proofs.Score.Measures
import Gamelan.Proofs.Score.Written

namespace Gamelan

/-- Actions go through a list without a fault if each of them does. -/
theorem forM_eq_ok_iff {α ε : Type} {f : α → Except ε Unit} {l : List α} :
    l.forM f = .ok () ↔ ∀ x ∈ l, f x = .ok () := by
  induction l with
  | nil => simp [pure, Except.pure]
  | cons x l ih =>
    rw [List.forall_mem_cons, ← ih]
    refine bind_eq_ok_iff.trans ?_
    exact ⟨fun ⟨(), hx, hl⟩ => ⟨hx, hl⟩, fun ⟨hx, hl⟩ => ⟨(), hx, hl⟩⟩

namespace Manuscript

/-- Whether notes of a position have no fault in a beat; no notes have none. -/
def NotesFit (gongan index : Nat) (duration : Float) (position : Position) (notes : List Note) : Prop :=
  notes = [] ∨ checkNotes gongan index duration position notes = .ok ()

/-- Notes without a fault have durations, and their keys are those that there are. -/
theorem checkNotes_eq_ok {gongan index : Nat} {duration : Float} {position : Position} {notes : List Note}
    (h : checkNotes gongan index duration position notes = .ok ()) {n : Note} (hn : n ∈ notes) :
    isDuration n.duration ∧ ∀ key, n.key? = some key → key ≤ 127 := by
  rw [checkNotes] at h
  split at h
  · cases h
  next hdurations =>
    split at h
    · cases h
    next hkeys =>
      refine ⟨by simpa using List.find?_eq_none.1 hdurations n hn, fun key hkey => ?_⟩
      simpa using List.find?_eq_none.1 hkeys key (List.mem_filterMap.2 ⟨n, hn, hkey⟩)

theorem NotesFit.key_le {gongan index : Nat} {duration : Float} {position : Position} {notes : List Note}
    (h : NotesFit gongan index duration position notes) {n : Note} (hn : n ∈ notes) {key : UInt8}
    (hkey : n.key? = some key) : key ≤ 127 := by
  rcases h with rfl | h
  · cases hn
  · exact (checkNotes_eq_ok h hn).2 key hkey

namespace Beat

/-- A beat without a fault has a duration, its passes are counted from one, and the notes of every position fit, on all
passes and on single ones. -/
theorem check_eq_ok {b : Manuscript.Beat} {gongan index : Nat} (h : b.check gongan index = .ok ()) :
    isDuration b.duration ∧
      (∀ position notes, (position, notes) ∈ b.notes.entries → NotesFit gongan index b.duration position notes) ∧
      ∀ pass byPosition, (pass, byPosition) ∈ b.passes.entries → pass ≠ 0 ∧ ∀ position notes,
        (position, notes) ∈ byPosition.entries → NotesFit gongan index b.duration position notes := by
  rw [check] at h
  split at h
  · cases h
  next hduration =>
    obtain ⟨⟨⟩, hnotes, hpasses⟩ := bind_eq_ok_iff.1 h
    refine ⟨by simpa using hduration, fun position notes hmem =>
      .inr (forM_eq_ok_iff.1 hnotes (position, notes) hmem), ?_⟩
    intro pass byPosition hpass
    have hchecked := forM_eq_ok_iff.1 hpasses (pass, byPosition) hpass
    simp only at hchecked
    split at hchecked
    · cases hchecked
    next hzero =>
      exact ⟨by simpa using hzero, fun position notes hmem =>
        .inr (forM_eq_ok_iff.1 hchecked (position, notes) hmem)⟩

/-- The notes that are written in a beat without a fault fit it. -/
theorem notesFit_notesAt {b : Manuscript.Beat} {gongan index : Nat} (h : b.check gongan index = .ok ())
    (position : Position) (pass : UInt32) : NotesFit gongan index b.duration position (b.notesAt position pass) := by
  obtain ⟨-, hnotes, hpasses⟩ := check_eq_ok h
  rw [notesAt]
  cases hown : (b.passes.get? pass).bind (·.get? position) with
  | some notes =>
    obtain ⟨byPosition, hpass, hget⟩ := Option.bind_eq_some_iff.1 hown
    exact (hpasses pass byPosition (SortedMap.mem_entries_of_get? hpass)).2 position notes
      (SortedMap.mem_entries_of_get? hget)
  | none =>
    cases hall : b.notes.get? position with
    | some notes => exact hnotes position notes (SortedMap.mem_entries_of_get? hall)
    | none => exact .inl rfl

/-- The notes that a beat of a score gives a position on a pass fit it. -/
theorem toBeat_notes {b : Manuscript.Beat} {total id gongan index : Nat} {beat : Gamelan.Beat}
    (h : b.toBeat total id gongan index = .ok beat) (position : Position) (pass : UInt32) :
    NotesFit beat.gongan beat.index beat.duration position (beat.notes position pass) := by
  obtain ⟨hcheck, rfl⟩ := toBeat_eq_ok h
  rw [Gamelan.Beat.notes_eq_measureAt, notesOn_measureAt_measures]
  exact notesFit_notesAt hcheck position pass

end Beat

/-- What a beat of a score gives a position to play on a pass has no fault. -/
theorem toScore_notes {m : Manuscript} {s : Score} (hs : m.toScore = .ok s) {beat : Gamelan.Beat}
    (hbeat : beat ∈ s.beats.toList) (position : Position) (pass : UInt32) :
    NotesFit beat.gongan beat.index beat.duration position (beat.notes position pass) := by
  obtain ⟨k, hk⟩ := List.getElem?_of_mem hbeat
  obtain ⟨i, j, b, -, hplace⟩ := toScore_written hs (by simpa using hk)
  exact Beat.toBeat_notes hplace position pass

end Manuscript

end Gamelan
