import Gamelan.Manuscript
import Gamelan.Proofs.SortedMap

namespace Gamelan

/-- The measure of a position, which is empty where there is none. -/
def measureAt (ms : SortedMap Position Measure) (position : Position) : Measure := (ms.get? position).getD {}

theorem Beat.notes_eq_measureAt (b : Beat) (position : Position) (pass : UInt32) :
    b.notes position pass = (measureAt b.measures position).notesOn pass := by
  rw [notes, measureAt]
  cases b.measures.get? position <;> rfl

namespace Manuscript.Beat

/-- The notes that are written for a position on a pass, where those of a pass of its own go before the others. -/
def notesAt (b : Manuscript.Beat) (position : Position) (pass : UInt32) : List Note :=
  (((b.passes.get? pass).bind (·.get? position)).or (b.notes.get? position)).getD []

/-- Adds the notes of a pass to measures. -/
def addPass (ms : SortedMap Position Measure) (pass : UInt32) (byPosition : SortedMap Position (List Note)) :
    SortedMap Position Measure :=
  byPosition.entries.foldl
    (fun ms e => ms.alter e.1 {} fun m => { m with passes := m.passes.insert pass e.2 }) ms

theorem measures_eq_foldl_addPass (b : Manuscript.Beat) :
    b.measures = b.passes.entries.foldl (fun ms e => addPass ms e.1 e.2)
      (b.notes.mapValues fun notes => { notes : Measure }) := rfl

theorem get?_addPass (ms : SortedMap Position Measure) (pass : UInt32)
    (byPosition : SortedMap Position (List Note)) (position : Position) :
    (addPass ms pass byPosition).get? position = (byPosition.get? position).elim (ms.get? position) fun notes =>
      some { measureAt ms position with passes := (measureAt ms position).passes.insert pass notes } :=
  SortedMap.get?_foldl_alter ms byPosition {} (fun notes m => { m with passes := m.passes.insert pass notes }) position

theorem measureAt_addPass (ms : SortedMap Position Measure) (pass : UInt32)
    (byPosition : SortedMap Position (List Note)) (position : Position) :
    (measureAt (addPass ms pass byPosition) position).notes = (measureAt ms position).notes ∧
      ∀ pass', (measureAt (addPass ms pass byPosition) position).passes.get? pass' =
        (if pass' = pass then byPosition.get? position else none).or ((measureAt ms position).passes.get? pass') := by
  rw [measureAt, get?_addPass]
  cases byPosition.get? position with
  | none => exact ⟨rfl, fun pass' => by rw [ite_self, Option.none_or]; rfl⟩
  | some notes =>
    refine ⟨rfl, fun pass' => ?_⟩
    rw [Option.elim_some, Option.getD_some, SortedMap.get?_insert]
    split <;> rfl

/-- The measures after some passes, each of which has notes of its own, have kept the notes for all passes and take the
others from the pass. -/
theorem measureAt_foldl_addPass {l : List (UInt32 × SortedMap Position (List Note))}
    (hl : l.Pairwise fun a b => compare a.1 b.1 = .lt) (ms : SortedMap Position Measure) (position : Position) :
    (measureAt (l.foldl (fun ms e => addPass ms e.1 e.2) ms) position).notes = (measureAt ms position).notes ∧
      ∀ pass, (measureAt (l.foldl (fun ms e => addPass ms e.1 e.2) ms) position).passes.get? pass =
        ((SortedMap.findEntry pass l).bind (·.get? position)).or ((measureAt ms position).passes.get? pass) := by
  induction l generalizing ms with
  | nil => exact ⟨rfl, fun _ => rfl⟩
  | cons head rest ih =>
    obtain ⟨hfirst, hrest⟩ := List.pairwise_cons.1 hl
    obtain ⟨hnotes, hpasses⟩ := measureAt_addPass ms head.1 head.2 position
    obtain ⟨ihnotes, ihpasses⟩ := ih hrest (addPass ms head.1 head.2)
    refine ⟨ihnotes.trans hnotes, fun pass => (ihpasses pass).trans ?_⟩
    rw [hpasses, SortedMap.findEntry]
    by_cases hpass : pass = head.1
    · rw [if_pos hpass, if_pos hpass, SortedMap.findEntry_eq_none (hpass ▸ hfirst), Option.bind_none, Option.none_or,
        Option.bind_some]
    · rw [if_neg hpass, if_neg hpass, Option.none_or]

theorem isSome_foldl_addPass (l : List (UInt32 × SortedMap Position (List Note))) (ms : SortedMap Position Measure)
    (position : Position) :
    ((l.foldl (fun ms e => addPass ms e.1 e.2) ms).get? position).isSome ↔
      (ms.get? position).isSome ∨ ∃ e ∈ l, (e.2.get? position).isSome := by
  induction l generalizing ms with
  | nil => simp
  | cons head rest ih =>
    rw [List.foldl_cons, ih, get?_addPass, List.exists_mem_cons_iff, ← or_assoc]
    cases head.2.get? position <;> simp

variable (b : Manuscript.Beat)

theorem notes_measureAt_measures (position : Position) :
    (measureAt b.measures position).notes = (b.notes.get? position).getD [] := by
  rw [measures_eq_foldl_addPass, (measureAt_foldl_addPass b.passes.sorted _ position).1, measureAt,
    SortedMap.get?_mapValues]
  cases b.notes.get? position <;> rfl

theorem get?_passes_measureAt_measures (position : Position) (pass : UInt32) :
    (measureAt b.measures position).passes.get? pass = (b.passes.get? pass).bind (·.get? position) := by
  rw [measures_eq_foldl_addPass, (measureAt_foldl_addPass b.passes.sorted _ position).2, measureAt,
    SortedMap.get?_mapValues]
  cases b.notes.get? position <;> exact Option.or_none

/-- What is found under a position and a pass is what is written for them. -/
theorem notesOn_measureAt_measures (position : Position) (pass : UInt32) :
    (measureAt b.measures position).notesOn pass = b.notesAt position pass := by
  rw [Measure.notesOn, get?_passes_measureAt_measures, notes_measureAt_measures, notesAt]
  cases (b.passes.get? pass).bind (·.get? position) <;> rfl

theorem mem_keys_measures (position : Position) :
    position ∈ b.measures.keys ↔ position ∈ b.notes.keys ∨
      ∃ pass byPosition, b.passes.get? pass = some byPosition ∧ position ∈ byPosition.keys := by
  simp only [SortedMap.mem_keys_iff, ← Option.isSome_iff_exists]
  rw [measures_eq_foldl_addPass, isSome_foldl_addPass, SortedMap.get?_mapValues, Option.isSome_map]
  simp [SortedMap.get?_eq_some_iff]

end Manuscript.Beat

end Gamelan
