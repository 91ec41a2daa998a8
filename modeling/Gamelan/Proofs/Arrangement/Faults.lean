import Gamelan.Proofs.Arrangement.Accepted

namespace Gamelan

/-- The stages of an arrangement, in order. -/
inductive Arrangement.Stage where
  | labels
  | direct
  | sequences
  deriving DecidableEq, Repr

/-- The stage that a directive belongs to; the others take no notice of it. -/
def Directive.stage : Directive → Arrangement.Stage
  | label .. => .labels
  | «sequence» .. => .sequences
  | _ => .direct

namespace Arrangement

/-- What is found in each directive when a state is taken through directives: nothing in one that is accepted. -/
def verdicts {σ : Type} (step : σ → Gongan → Directive → Except DirectiveFault σ) :
    σ → List (Gongan × Directive) → List (Option DirectiveFault)
  | _, [] => []
  | s, (g, d) :: rest =>
    match step s g d with
    | .ok s => none :: verdicts step s rest
    | .error fault => some fault :: verdicts step s rest

/-- The elements that are marked, in order. -/
def pick {α : Type} : List α → List Bool → List α
  | x :: xs, mark :: marks => if mark then x :: pick xs marks else pick xs marks
  | _, _ => []

/-- Directives with their faults as findings. -/
def findingsOf (judged : List ((Gongan × Directive) × List DirectiveFault)) : List Finding :=
  judged.flatMap fun (x, faults) => faults.map (x.1.id, ·)

section Verdicts

variable {σ : Type} {step : σ → Gongan → Directive → Except DirectiveFault σ}

theorem length_verdicts (s : σ) (ds : List (Gongan × Directive)) : (verdicts step s ds).length = ds.length := by
  induction ds generalizing s with
  | nil => rfl
  | cons head rest ih =>
    obtain ⟨g, d⟩ := head
    rw [verdicts]
    cases step s g d <;> simp [ih]

theorem applyAll_findings (s : σ) (ds : List (Gongan × Directive)) :
    (applyAll step s ds).2 = (ds.zip (verdicts step s ds)).filterMap fun (x, v) => v.map (x.1.id, ·) := by
  induction ds generalizing s with
  | nil => rfl
  | cons head rest ih =>
    obtain ⟨g, d⟩ := head
    rw [applyAll, verdicts]
    cases step s g d with
    | ok t => simpa using ih t
    | error fault => simpa using ih s

/-- Nothing is found in a directive that a step takes no notice of. -/
theorem verdicts_of_ignored {s : σ} {ds : List (Gongan × Directive)} {i : Nat} {x : Gongan × Directive}
    (hx : ds[i]? = some x) (hignored : ∀ s, step s x.1 x.2 = .ok s) : (verdicts step s ds)[i]? = some none := by
  induction ds generalizing s i with
  | nil => cases hx
  | cons head rest ih =>
    cases i with
    | zero =>
      obtain rfl := Option.some.inj hx
      simp [verdicts, hignored s]
    | succ i =>
      obtain ⟨g, d⟩ := head
      rw [verdicts]
      cases step s g d with
      | ok t => exact ih hx
      | error fault => exact ih hx

/-- What every directive keeps that is accepted in its turn holds after all directives. -/
theorem applyAll_invariant_of_verdicts {I : σ → Prop} {s : σ} {ds : List (Gongan × Directive)}
    (hstep : ∀ (i : Nat) (x : Gongan × Directive) (t u : σ), ds[i]? = some x → (verdicts step s ds)[i]? = some none →
      I t → step t x.1 x.2 = .ok u → I u)
    (hs : I s) : I (applyAll step s ds).1 := by
  induction ds generalizing s with
  | nil => exact hs
  | cons head rest ih =>
    obtain ⟨g, d⟩ := head
    rw [verdicts] at hstep
    rw [applyAll]
    cases h : step s g d with
    | error fault =>
      rw [h] at hstep
      exact ih (fun i => hstep (i + 1)) hs
    | ok t =>
      rw [h] at hstep
      exact ih (fun i => hstep (i + 1)) (hstep 0 (g, d) s t rfl rfl hs h)

/-- The findings of a stage are the faults of its own directives. -/
theorem findings_eq_findingsOf {stage : Stage} {ds : List (Gongan × Directive)} {vs : List (Option DirectiveFault)}
    {faults : List (List DirectiveFault)} (hvs : vs.length = ds.length) (hfaults : faults.length = ds.length)
    (h : ∀ (i : Nat) (x : Gongan × Directive), ds[i]? = some x →
      (x.2.stage = stage → faults[i]? = some (vs[i]?).join.toList) ∧ (x.2.stage ≠ stage → vs[i]? = some none)) :
    (ds.zip vs).filterMap (fun (x, v) => v.map (x.1.id, ·)) =
      findingsOf ((ds.zip faults).filter (·.1.2.stage = stage)) := by
  induction ds generalizing vs faults with
  | nil => rfl
  | cons x ds ih =>
    cases vs with
    | nil => simp at hvs
    | cons v vs =>
      cases faults with
      | nil => simp at hfaults
      | cons fs faults =>
        have hrest := ih (by simpa using hvs) (by simpa using hfaults) fun i y hy => h (i + 1) y hy
        obtain ⟨hown, hother⟩ := h 0 x rfl
        rw [List.zip_cons_cons, List.zip_cons_cons, List.filterMap_cons]
        by_cases hx : x.2.stage = stage
        · have hfs : fs = v.toList := by simpa using hown hx
          rw [List.filter_cons_of_pos (by simpa using hx), findingsOf, List.flatMap_cons, ← findingsOf, ← hrest, hfs]
          cases v <;> rfl
        · have hv : v = none := by simpa using hother hx
          rw [List.filter_cons_of_neg (by simpa using hx), ← hrest, hv]
          rfl

end Verdicts

theorem mem_pick_iff {α : Type} {xs : List α} {marks : List Bool} {x : α} :
    x ∈ pick xs marks ↔ ∃ i : Nat, xs[i]? = some x ∧ marks[i]? = some true := by
  induction xs generalizing marks with
  | nil => simp [pick]
  | cons y xs ih =>
    cases marks with
    | nil => simp [pick]
    | cons mark marks =>
      rw [pick]
      constructor
      · intro hx
        cases mark with
        | false =>
          obtain ⟨i, hi⟩ := ih.1 hx
          exact ⟨i + 1, hi⟩
        | true =>
          rcases List.mem_cons.1 hx with rfl | hx
          · exact ⟨0, rfl, rfl⟩
          · obtain ⟨i, hi⟩ := ih.1 hx
            exact ⟨i + 1, hi⟩
      · rintro ⟨i, hi, hmark⟩
        cases i with
        | zero =>
          obtain rfl := Option.some.inj hi
          obtain rfl := Option.some.inj hmark
          exact .head _
        | succ i =>
          have hx := ih.2 ⟨i, hi, hmark⟩
          cases mark with
          | false => exact hx
          | true => exact .tail _ hx

variable {labels : Labels} {p q : Performance} {g : Gongan} {d : Directive}

theorem labelStep_of_stage_ne (h : d.stage ≠ .labels) (labels : Labels) (g : Gongan) :
    labelStep labels g d = .ok labels := by
  cases d with
  | label name beat => exact absurd rfl h
  | _ => rfl

theorem directStep_of_stage_ne (h : d.stage ≠ .direct) (settings : Settings) (labels : Labels) (p : Performance)
    (g : Gongan) : directStep settings labels p g d = .ok p := by
  cases d with
  | label name beat => rfl
  | «sequence» names => rfl
  | _ => exact absurd rfl h

theorem sequenceStep_of_stage_ne (h : d.stage ≠ .sequences) (labels : Labels) (p : Performance) (g : Gongan) :
    sequenceStep labels p g d = .ok p := by
  cases d with
  | «sequence» names => exact absurd rfl h
  | _ => rfl

end Arrangement

open Arrangement

/-- What a stage finds in each directive of a score. -/
def Score.verdicts (s : Score) (settings : Settings) (p : Performance) : Stage → List (Option DirectiveFault)
  | .labels => Arrangement.verdicts labelStep .empty (directives s)
  | .direct => Arrangement.verdicts (directStep settings s.labels) p (directives s)
  | .sequences => Arrangement.verdicts (sequenceStep s.labels) (s.direct settings p) (directives s)

/-- The faults that the stages find in each directive of a score. -/
def Score.faults (s : Score) (settings : Settings) : Except Error (List (List DirectiveFault)) :=
  (s.plain settings).map fun p =>
    (directives s).mapIdx fun i _ =>
      [Stage.labels, .direct, .sequences].flatMap fun stage => ((s.verdicts settings p stage)[i]?).join.toList

/-- The directives of a score in which no fault is found. -/
def Score.acceptedDirectives (s : Score) (settings : Settings) : Except Error (List (Gongan × Directive)) :=
  (s.faults settings).map fun faults => pick (directives s) (faults.map List.isEmpty)

namespace Score

variable {s : Score} {settings : Settings} {p : Performance}

theorem length_verdicts (s : Score) (settings : Settings) (p : Performance) (stage : Stage) :
    (s.verdicts settings p stage).length = (directives s).length := by
  cases stage <;> exact Arrangement.length_verdicts _ _

theorem verdicts_of_stage_ne {i : Nat} {x : Gongan × Directive} {stage : Stage} (hx : (directives s)[i]? = some x)
    (h : x.2.stage ≠ stage) : (s.verdicts settings p stage)[i]? = some none := by
  cases stage with
  | labels => exact verdicts_of_ignored hx fun labels => labelStep_of_stage_ne h labels x.1
  | direct => exact verdicts_of_ignored hx fun p => directStep_of_stage_ne h settings s.labels p x.1
  | sequences => exact verdicts_of_ignored hx fun p => sequenceStep_of_stage_ne h s.labels p x.1

/-- The faults of a directive are what its own stage finds, which is one at most. -/
theorem exists_faults (hp : s.plain settings = .ok p) :
    ∃ faults, s.faults settings = .ok faults ∧ faults.length = (directives s).length ∧
      ∀ (i : Nat) (x : Gongan × Directive), (directives s)[i]? = some x →
        faults[i]? = some ((s.verdicts settings p x.2.stage)[i]?).join.toList := by
  refine ⟨_, by rw [Score.faults, hp, Except.map], by simp, ?_⟩
  intro i x hx
  have hother (stage : Stage) (h : x.2.stage ≠ stage) : ((s.verdicts settings p stage)[i]?).join.toList = [] := by
    rw [verdicts_of_stage_ne hx h]
    rfl
  rw [List.getElem?_mapIdx, hx, Option.map_some, List.flatMap_cons, List.flatMap_cons, List.flatMap_cons,
    List.flatMap_nil, List.append_nil]
  cases hstage : x.2.stage with
  | labels => rw [hother .direct (by simp [hstage]), hother .sequences (by simp [hstage])]; simp
  | direct => rw [hother .labels (by simp [hstage]), hother .sequences (by simp [hstage])]; simp
  | sequences => rw [hother .labels (by simp [hstage]), hother .direct (by simp [hstage])]; simp

/-- A directive is accepted if its own stage finds nothing in it. -/
theorem mem_acceptedDirectives_iff {ds : List (Gongan × Directive)} (hp : s.plain settings = .ok p)
    (hds : s.acceptedDirectives settings = .ok ds) {x : Gongan × Directive} :
    x ∈ ds ↔ ∃ i : Nat, (directives s)[i]? = some x ∧ (s.verdicts settings p x.2.stage)[i]? = some none := by
  obtain ⟨faults, hfaults, -, hown⟩ := exists_faults hp
  rw [acceptedDirectives, hfaults] at hds
  obtain rfl := Except.ok.inj hds
  rw [mem_pick_iff]
  refine exists_congr fun i => and_congr_right fun hx => ?_
  have hi : i < (s.verdicts settings p x.2.stage).length := by
    rw [length_verdicts]
    exact (List.getElem?_eq_some_iff.1 hx).1
  rw [List.getElem?_map, hown i x hx, List.getElem?_eq_getElem hi]
  cases (s.verdicts settings p x.2.stage)[i] <;> simp

/-- What is reported are the faults of the directives, stage by stage. -/
theorem arrange_findings {a : Arrangement} {faults : List (List DirectiveFault)} (h : s.arrange settings = .ok a)
    (hfaults : s.faults settings = .ok faults) :
    a.findings = [Stage.labels, .direct, .sequences].flatMap fun stage =>
      findingsOf (((directives s).zip faults).filter (·.1.2.stage = stage)) := by
  obtain ⟨p, hp, -, hfindings, -⟩ := arrange_eq_ok_iff.1 h
  obtain ⟨faults', hfaults', hlength, hown⟩ := exists_faults hp
  obtain rfl := Except.ok.inj (hfaults.symm.trans hfaults')
  have hstage (stage : Stage) :
      ((directives s).zip (s.verdicts settings p stage)).filterMap (fun (x, v) => v.map (x.1.id, ·)) =
        findingsOf (((directives s).zip faults).filter (·.1.2.stage = stage)) := by
    refine findings_eq_findingsOf (s.length_verdicts settings p stage) hlength ?_
    intro i x hx
    refine ⟨?_, verdicts_of_stage_ne hx⟩
    rintro rfl
    exact hown i x hx
  rw [hfindings, findings, applyAll_findings, applyAll_findings, applyAll_findings, List.flatMap_cons, List.flatMap_cons,
    List.flatMap_cons, List.flatMap_nil, List.append_nil, ← hstage, ← hstage, ← hstage, List.append_assoc]
  rfl

end Score

end Gamelan
