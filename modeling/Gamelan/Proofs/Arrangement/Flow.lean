import Gamelan.Proofs.Arrangement.Invariant
import Gamelan.Proofs.Arrangement.Related
import Gamelan.Proofs.Performance.Flow

namespace Gamelan

/-- Whether a directive changes tempo or dynamics. -/
def Directive.isChange : Directive → Bool
  | tempo .. | dynamics .. => true
  | _ => false

/-- A score with the directives of a kind only. -/
def Score.only (s : Score) (keep : Directive → Bool) : Score :=
  { s with gongans := s.gongans.map fun g => { g with directives := g.directives.filter keep } }

theorem Score.bare_only (s : Score) (keep : Directive → Bool) : (s.only keep).bare = s.bare := by
  simp only [bare, only, Array.map_map]
  rfl

/-- A score without its changes of tempo and dynamics. -/
def Score.withoutChanges (s : Score) : Score :=
  { s with gongans := s.gongans.map fun g => { g with directives := g.directives.filter (!·.isChange) } }

namespace Arrangement

open Performance

/-- The directives of a score, each with its gongan but not with the others of it. -/
def bareDirectives (s : Score) : List (Gongan × Directive) := (directives s).map fun x => (x.1.bare, x.2)

theorem bareDirectives_only (s : Score) (keep : Directive → Bool) :
    bareDirectives (s.only keep) = (bareDirectives s).filter (keep ·.2) := by
  simp only [bareDirectives, directives, Score.only, Array.toList_map]
  induction s.gongans.toList with
  | nil => rfl
  | cons g gs ih =>
    simp only [List.map_cons, List.flatMap_cons, List.map_append, List.filter_append, ih]
    congr 1
    simp only [List.map_map, List.filter_map]
    rfl

/-- A step that looks at no other directives of the gongan works on the bare gongans as well. -/
theorem applyAll_bare {σ : Type} {step : σ → Gongan → Directive → Except DirectiveFault σ}
    (hstep : ∀ s g d, step s g.bare d = step s g d) (s : σ) (ds : List (Gongan × Directive)) :
    applyAll step s (ds.map fun x => (x.1.bare, x.2)) = applyAll step s ds := by
  induction ds generalizing s with
  | nil => rfl
  | cons head rest ih =>
    obtain ⟨g, d⟩ := head
    simp only [List.map_cons, applyAll, hstep, ih]
    rfl

/-- The labels of a score do not depend on its changes. -/
theorem labels_only (s : Score) {keep : Directive → Bool} (hkeep : ∀ d, keep d = false → d.isChange) :
    (s.only keep).labels = s.labels := by
  have hbare (t : Score) : t.labels = (applyAll labelStep .empty (bareDirectives t)).1 :=
    congrArg Prod.fst (applyAll_bare (fun _ _ d => by cases d <;> rfl) _ _).symm
  rw [hbare, hbare, bareDirectives_only]
  generalize (SortedMap.empty : Labels) = labels
  induction bareDirectives s generalizing labels with
  | nil => rfl
  | cons head rest ih =>
    obtain ⟨g, d⟩ := head
    cases hd : keep d with
    | true =>
      simp only [List.filter_cons, hd, if_true, applyAll]
      cases labelStep labels g d <;> exact ih _
    | false =>
      have hstep : labelStep labels g d = .ok labels := by
        cases d with
        | label name beat => cases hkeep _ hd
        | _ => rfl
      simp only [List.filter_cons, hd, Bool.false_eq_true, if_false, applyAll, hstep]
      exact ih labels

theorem links_bare (p : Performance) (taken : SortedMap BeatId UInt32) (beats : List BeatId) :
    links p.bare taken beats = links p taken beats :=
  links_congr (p := p.bare) (q := p) p.score.lastBeatOf_bare (fun _ => rfl) (fun _ => rfl) taken beats

/-- Nothing that is set up depends on more than what steers the flow. -/
theorem isCongruence_bare : IsCongruence fun p q => p.bare = q.bare where
  hasLoop h n := congrArg (·.hasLoop n) h
  links h taken beats := by rw [← links_bare, h, links_bare]
  modifyJump h b f := congrArg (·.modifyJump b f) h
  setLoop h n l := congrArg (·.setLoop n l) h
  addRamp h quantity b r := by cases quantity <;> exact h

theorem sequenceStep_of_isChange (labels : Labels) (p : Performance) (g : Gongan) {d : Directive}
    (hd : d.isChange) : sequenceStep labels p g d = .ok p := by
  cases d with
  | tempo value extent => rfl
  | dynamics mark extent positions => rfl
  | _ => simp [Directive.isChange] at hd

/-- A change of tempo or dynamics does nothing to the flow, whether it is accepted or not. -/
theorem directStep_bare_of_isChange {settings : Settings} {labels : Labels} {p q : Performance} {g : Gongan}
    {d : Directive} (hd : d.isChange) (h : directStep settings labels p g d = .ok q) : q.bare = p.bare := by
  cases d with
  | tempo value extent =>
    obtain ⟨b, r, -, -, -, rfl⟩ := addRamp_eq_ok_iff.1 h
    rfl
  | dynamics mark extent positions =>
    rw [directStep] at h
    cases hmark : settings.velocityFor? mark with
    | none => simp [hmark] at h
    | some velocity =>
      simp only [hmark] at h
      obtain ⟨b, r, -, -, -, rfl⟩ := addRamp_eq_ok_iff.1 h
      rfl
  | _ => simp [Directive.isChange] at hd

end Arrangement

open Arrangement

/-- What a score sets up stays related to what it sets up without some changes that the relation does not see, and the
changes do not decide whether it overflows. -/
theorem Score.arranged_only {R : Performance → Performance → Prop} (hR : IsCongruence R) (s : Score)
    (settings : Settings) {keep : Directive → Bool} (hkeep : ∀ d, keep d = false → d.isChange)
    (hdrop : ∀ p p' q labels g d, keep d = false → R p q → directStep settings labels p g d = .ok p' → R p' q)
    {p q : Performance} (h : R p q) :
    R (s.arranged settings p) ((s.only keep).arranged settings q) ∧
      s.overflows settings p = (s.only keep).overflows settings q := by
  have hdirect (t : Score) (p : Performance) :
      t.direct settings p = (applyAll (directStep settings t.labels) p (bareDirectives t)).1 := by
    rw [bareDirectives, applyAll_bare (fun _ _ d => by cases d <;> rfl)]
    rfl
  have hsequences (t : Score) (p : Performance) :
      applyAll (sequenceStep t.labels) p (directives t) = applyAll (sequenceStep t.labels) p (bareDirectives t) := by
    rw [bareDirectives, applyAll_bare (fun _ _ d => by cases d <;> rfl)]
  have hrelated : R (s.direct settings p) ((s.only keep).direct settings q) := by
    rw [hdirect, hdirect, labels_only s hkeep, bareDirectives_only]
    exact applyAll_filter (fun p q g d _ h => hR.directStep_alike h settings s.labels g d)
      (fun p p' q g d hd h hp => hdrop p p' q s.labels g d hd h hp) _ h
  have hignored (p : Performance) (g : Gongan) (d : Directive) (hd : keep d = false) :
      sequenceStep s.labels p g d = .ok p := sequenceStep_of_isChange s.labels p g (hkeep d hd)
  obtain ⟨harranged, hfindings⟩ :=
    applyAll_alike (fun p q g d h => hR.sequenceStep_alike h s.labels g d) (bareDirectives s) hrelated
  rw [arranged, arranged, overflows, overflows, hsequences, hsequences, labels_only s hkeep, bareDirectives_only,
    applyAll_filter_of_ignored hignored, hfindings]
  exact ⟨harranged, rfl⟩

/-- The flow of a score does not depend on its changes of tempo and dynamics. -/
theorem Score.arrange_withoutChanges {s : Score} {settings : Settings} {a : Arrangement}
    (h : s.arrange settings = .ok a) :
    ∃ b, s.withoutChanges.arrange settings = .ok b ∧ a.performance.bare = b.performance.bare := by
  obtain ⟨p, hp, ha, -, hoverflows⟩ := Score.arrange_eq_ok_iff.1 h
  obtain ⟨tempo, dynamics, htempo, hdynamics, rfl⟩ := Score.plain_eq_ok_iff.1 hp
  have hkeep (d : Directive) (hd : (!d.isChange) = false) : d.isChange := by simpa using hd
  have hscore : s.withoutChanges.bare = s.bare := s.bare_only (!·.isChange)
  have hplain := isCongruence_bare.createJumps
    (p := { score := s, tempo, dynamics, maxSteps := settings.maxSteps, jumps := Array.replicate s.beats.size none })
    (q := { score := s.withoutChanges, tempo, dynamics, maxSteps := settings.maxSteps
            jumps := Array.replicate s.beats.size none })
    (by simp only [Performance.bare, hscore]) (List.range s.beats.size)
  obtain ⟨hsame, hboth⟩ := Score.arranged_only isCongruence_bare s settings hkeep
    (fun p p' q labels g d hd h hp => (directStep_bare_of_isChange (hkeep d hd) hp).trans h) hplain
  obtain ⟨b, hb, hperformance⟩ := Score.exists_arrange (s := s.withoutChanges)
    (Score.plain_eq_ok_iff.2 ⟨tempo, dynamics, htempo, hdynamics, rfl⟩) (hboth.symm.trans hoverflows)
  refine ⟨b, hb, ?_⟩
  rw [ha, hperformance]
  exact hsame

end Gamelan
