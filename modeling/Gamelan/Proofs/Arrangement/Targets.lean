import Gamelan.Proofs.Arrangement.Accepted
import Gamelan.Proofs.Arrangement.Allocation
import Gamelan.Proofs.Arrangement.Gotos

namespace Gamelan

namespace Arrangement

/-- A directive as a label of this name, if it is one and its beat exists. -/
def labelled? (name : String) : Gongan × Directive → Option BeatId
  | (g, .label name' number) => if name' = name then g.beatAt? number else none
  | _ => none

/-- An accepted label is there for its name, unless there was one already. -/
theorem get?_labelStep {labels labels' : Labels} {g : Gongan} {d : Directive}
    (h : labelStep labels g d = .ok labels') (name : String) :
    labels'.get? name = (labels.get? name).or (labelled? name (g, d)) := by
  cases d with
  | label name' number =>
    rw [labelStep, addLabel] at h
    cases hbeat : g.beatAt? number with
    | none => simp [hbeat] at h
    | some b =>
      simp only [hbeat] at h
      split at h
      · cases h
      next hnew =>
        obtain rfl := Except.ok.inj h
        have hnone : labels.get? name' = none := by simpa [SortedMap.contains] using hnew
        rw [SortedMap.get?_insert, labelled?, hbeat]
        by_cases hname : name = name'
        · rw [if_pos hname, if_pos hname.symm, hname, hnone]
          rfl
        · rw [if_neg hname, if_neg (Ne.symm hname), Option.or_none]
  | _ =>
    obtain rfl := Except.ok.inj h
    exact (Option.or_none).symm

/-- A label that is refused has no beat or comes after another one of its name. -/
theorem or_labelled?_of_error {labels : Labels} {g : Gongan} {d : Directive} {fault : DirectiveFault}
    (h : labelStep labels g d = .error fault) (name : String) :
    (labels.get? name).or (labelled? name (g, d)) = labels.get? name := by
  cases d with
  | label name' number =>
    rw [labelStep, addLabel] at h
    rw [labelled?]
    cases hbeat : g.beatAt? number with
    | none => simp
    | some b =>
      simp only [hbeat] at h
      split at h
      next hthere =>
        by_cases hname : name' = name
        · obtain ⟨b', hb'⟩ := Option.isSome_iff_exists.1 (hname ▸ hthere : (labels.get? name).isSome)
          rw [hb', Option.some_or]
        · rw [if_neg hname, Option.or_none]
      · cases h
  | _ => cases h

/-- The first label of a name whose beat exists is the one that counts. -/
theorem get?_applyAll_labelStep (labels : Labels) (ds : List (Gongan × Directive)) (name : String) :
    (applyAll labelStep labels ds).1.get? name = (labels.get? name).or (ds.findSome? (labelled? name)) := by
  induction ds generalizing labels with
  | nil => exact (Option.or_none).symm
  | cons head rest ih =>
    obtain ⟨g, d⟩ := head
    have hfirst : ((g, d) :: rest).findSome? (labelled? name) =
        (labelled? name (g, d)).or (rest.findSome? (labelled? name)) := by
      rw [List.findSome?_cons]
      cases labelled? name (g, d) <;> rfl
    rw [applyAll, hfirst, ← Option.or_assoc]
    cases h : labelStep labels g d with
    | error fault => rw [or_labelled?_of_error h]; exact ih labels
    | ok labels' => rw [← get?_labelStep h]; exact ih labels'

end Arrangement

open Arrangement

namespace Jump

variable {j : Jump}

theorem otherwise_foldl_set (passes : List UInt32) (target : Target) :
    (passes.foldl (fun j n => j.set (.pass n) target) j).target? .otherwise = j.target? .otherwise := by
  induction passes generalizing j with
  | nil => rfl
  | cons m passes ih => rw [List.foldl_cons, ih, target?_set, if_neg PassKey.noConfusion]

theorem otherwise_applyTo (d : Departure) :
    (d.applyTo j).target? .otherwise =
      if d.passes.isEmpty then some (some d.target) else j.target? .otherwise := by
  have hcycle (j : Jump) : (d.cycle?.elim j j.setCycle).target? .otherwise = j.target? .otherwise := by
    cases d.cycle? <;> rfl
  rw [Departure.applyTo, hcycle]
  split
  · exact (j.target?_set _ _ _).trans (if_pos rfl)
  · exact otherwise_foldl_set _ _

/-- The last goto that lists no pass says where a beat leads on all passes that are not listed. -/
theorem otherwise_foldl_applyTo (l : List Departure) :
    (l.foldl (fun j d => d.applyTo j) j).target? .otherwise =
      ((l.filter (·.passes.isEmpty)).getLast?.map (some ·.target)).or (j.target? .otherwise) := by
  induction l generalizing j with
  | nil => rfl
  | cons d l ih =>
    rw [List.foldl_cons, ih, otherwise_applyTo]
    cases hd : d.passes.isEmpty with
    | true =>
      rw [if_pos rfl, List.filter_cons, hd, if_pos rfl, List.getLast?_cons]
      cases (l.filter (·.passes.isEmpty)).getLast? <;> rfl
    | false => rw [if_neg Bool.false_ne_true, List.filter_cons, hd, if_neg Bool.false_ne_true]

/-- The highest pass of a list, or zero if there is none, is the least number that no pass of it exceeds. -/
theorem max?_getD_le_iff {passes : List UInt32} {n : UInt32} : passes.max?.getD 0 ≤ n ↔ ∀ m ∈ passes, m ≤ n := by
  have hmax : Std.LawfulOrderSup UInt32 := by
    refine ⟨fun a b c => ?_⟩
    rw [UInt32.max_def]
    split
    next hle => exact ⟨fun h => ⟨UInt32.le_trans hle h, h⟩, And.right⟩
    next hlt => exact ⟨fun h => ⟨h, UInt32.le_trans (UInt32.le_of_lt (UInt32.not_le.1 hlt)) h⟩, And.left⟩
  cases h : passes.max? with
  | none =>
    rw [List.max?_eq_none_iff.1 h]
    exact ⟨fun _ m hm => (List.not_mem_nil hm).elim, fun _ => UInt32.zero_le⟩
  | some highest => exact List.max?_le_iff h

/-- The highest pass of a beat is the highest one that a goto lists. -/
theorem maxPass_foldl_applyTo (hj : ∀ n, j.target? (.pass n) = none) (l : List Departure) :
    (l.foldl (fun j d => d.applyTo j) j).maxPass = ((l.flatMap (·.passes)).max?).getD 0 := by
  have hle (n : UInt32) : (l.foldl (fun j d => d.applyTo j) j).maxPass ≤ n ↔
      ((l.flatMap (·.passes)).max?).getD 0 ≤ n := by
    have hlisted (m : UInt32) : (∃ target, (l.foldl (fun j d => d.applyTo j) j).target? (.pass m) = some target) ↔
        m ∈ l.flatMap (·.passes) := by
      rw [← Option.isSome_iff_exists, target?_foldl_applyTo, hj, Option.or_none, Option.isSome_map,
        List.getLast?_isSome]
      simp [List.filter_eq_nil_iff]
    rw [maxPass_le_iff, max?_getD_le_iff]
    simp only [← hlisted, forall_exists_index]
  exact UInt32.le_antisymm ((hle _).2 (UInt32.le_refl _)) ((hle _).1 (UInt32.le_refl _))

end Jump

namespace Score

variable {s : Score} {settings : Settings} {a : Arrangement} {ds : List (Gongan × Directive)} {b : BeatId}

/-- Without sequences the last stage does nothing. -/
theorem arranged_eq_direct (hnone : ∀ x ∈ directives s, x.2.isSequence = false) (p : Performance) :
    s.arranged settings p = s.direct settings p := by
  refine applyAll_invariant_of_verdicts (I := fun q => q = s.direct settings p) ?_ rfl
  intro i x q r hx _ hq hr
  rw [sequenceStep_of_not_isSequence (hnone x (List.mem_of_getElem? hx)) hr, hq]

/-- Without sequences, a beat leads where the accepted gotos that leave it say: on a pass that gotos list to the label
of the last of them, and on other passes to the label of the last goto that lists none, else to the next beat. It has
the last cycle that is given. A label is on the beat that the first label of its name with an existing beat names. -/
theorem arrange_targets (h : s.arrange settings = .ok a) (hds : s.acceptedDirectives settings = .ok ds)
    (hnone : ∀ x ∈ directives s, x.2.isSequence = false) (hb : b < s.beats.size) :
    ∃ j, a.performance.findJump? b = some j ∧
      (∀ n, j.target? (.pass n) = ((s.departures ds b).filter (n ∈ ·.passes)).getLast?.map (some ·.target)) ∧
      j.target? .otherwise =
        some ((((s.departures ds b).filter (·.passes.isEmpty)).getLast?.map (·.target)).or (s.next? b)) ∧
      j.counter.cycle = lastCycle (s.departures ds b) ∧
      j.maxPass = (((s.departures ds b).flatMap (·.passes)).max?).getD 0 ∧
      ∀ name, s.labels.get? name = (directives s).findSome? (labelled? name) := by
  obtain ⟨p, hp, ha, -⟩ := arrange_eq_ok_iff.1 h
  have hjump : a.performance.jump b = (s.departures ds b).foldl (fun j d => d.applyTo j) (.straight (s.next? b)) := by
    rw [ha, arranged_eq_direct hnone, direct_jump hp hds hb]
  have hsize : b < a.performance.jumps.size := by
    rw [(arrange_isComplete h).1, (arrange_score h).1]
    exact hb
  obtain ⟨j, hj⟩ := (arrange_isComplete h).2 b hsize
  have hfind : a.performance.findJump? b = some j := congrArg Option.join hj
  rw [Performance.jump, hfind, Option.getD_some] at hjump
  have hstraight (n : UInt32) : (Jump.straight (s.next? b)).target? (.pass n) = none := rfl
  refine ⟨j, hfind, fun n => ?_, ?_, ?_, ?_, fun name => ?_⟩
  · rw [hjump, Jump.target?_foldl_applyTo, hstraight, Option.or_none]
  · rw [hjump, Jump.otherwise_foldl_applyTo]
    cases ((s.departures ds b).filter (·.passes.isEmpty)).getLast? <;> rfl
  · rw [hjump, Jump.cycle_foldl_applyTo]
    rfl
  · rw [hjump, Jump.maxPass_foldl_applyTo hstraight]
  · rw [labels, get?_applyAll_labelStep]
    rfl

/-- Four of six gotos that leave one beat are accepted, and the labels that they name come later. -/
theorem arrange_targets_of_shared_beat :
    let m : Manuscript := { gongans := [
      { directives := [.goto "B" none [1, 2, 2] none, .goto "D" none [3] none, .goto "A" none [2] (some 4),
          .goto "B" none [7] (some 5), .goto "A" none [] none, .goto "B" (some 2) [] none], beats := [{}, {}] },
      { directives := [.label "A" 9, .label "A" 1, .label "B" 2], beats := [{}, {}] },
      { directives := [.label "A" 1], beats := [{}] }] }
    ∃ s a ds, m.toScore = .ok s ∧ s.arrange {} = .ok a ∧ s.acceptedDirectives {} = .ok ds ∧
      (∀ x ∈ directives s, x.2.isSequence = false) ∧ 1 < s.beats.size ∧
      s.labels.get? "A" = some 2 ∧ s.labels.get? "D" = none ∧
      ∃ j, a.performance.findJump? 1 = some j ∧ j.target? (.pass 1) = some (some 3) ∧
        j.target? (.pass 2) = some (some 2) ∧ j.target? (.pass 3) = none ∧ j.target? .otherwise = some (some 3) ∧
        j.counter.cycle = 4 ∧ j.maxPass = 2 := by
  intro m
  have harrangement : ∃ s a, m.toScore = .ok s ∧ s.arrange {} = .ok a ∧
      ((∀ x ∈ directives s, x.2.isSequence = false) ∧ 1 < s.beats.size ∧
        (directives s).findSome? (labelled? "A") = some 2 ∧ (directives s).findSome? (labelled? "D") = none ∧
        (s.acceptedDirectives {}).toOption.map (s.departures · 1) =
          some [⟨3, [1, 2, 2], none⟩, ⟨2, [2], some 4⟩, ⟨2, [], none⟩, ⟨3, [], none⟩]) :=
    Manuscript.exists_arrangement (by decide +kernel)
  obtain ⟨s, a, hs, ha, hnone, hsize, hA, hD, hdepartures⟩ := harrangement
  obtain ⟨ds, hds, hdepartures⟩ := Option.map_eq_some_iff.1 hdepartures
  rw [toOption_eq_some_iff] at hds
  obtain ⟨j, hj, hpass, hotherwise, hcycle, hmax, hlabels⟩ := arrange_targets ha hds hnone hsize
  rw [hdepartures] at hotherwise hcycle hmax
  simp only [hdepartures] at hpass
  exact ⟨s, a, ds, hs, ha, hds, hnone, hsize, (hlabels "A").trans hA, (hlabels "D").trans hD, j, hj, hpass 1, hpass 2,
    hpass 3, hotherwise, hcycle, hmax⟩

end Score

end Gamelan
