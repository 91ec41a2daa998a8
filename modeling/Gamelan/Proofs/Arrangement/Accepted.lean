import Gamelan.Proofs.Arrangement.Flow

namespace Gamelan

/-- Whether a directive sets up a single jump or a loop. -/
def Directive.isDirectFlow : Directive → Bool
  | goto .. | loop .. => true
  | _ => false

def Directive.isSequence : Directive → Bool
  | «sequence» .. => true
  | _ => false

namespace Arrangement

/-- The directives that are accepted when a state is taken through directives. -/
def accepted {σ : Type} (step : σ → Gongan → Directive → Except DirectiveFault σ) :
    σ → List (Gongan × Directive) → List Directive
  | _, [] => []
  | s, (g, d) :: rest =>
    match step s g d with
    | .ok s => d :: accepted step s rest
    | .error _ => accepted step s rest

variable {σ : Type} {step : σ → Gongan → Directive → Except DirectiveFault σ} {keep : Directive → Bool}

/-- If no directive of a kind is accepted, an observer of that kind sees no change. -/
theorem applyAll_of_accepted_nil {β : Type} {f : σ → β}
    (hskip : ∀ s g d t, keep d = false → step s g d = .ok t → f t = f s) {s : σ} {ds : List (Gongan × Directive)}
    (h : (accepted step s ds).filter keep = []) : f (applyAll step s ds).1 = f s := by
  induction ds generalizing s with
  | nil => rfl
  | cons head rest ih =>
    obtain ⟨g, d⟩ := head
    rw [accepted] at h
    rw [applyAll]
    cases hstep : step s g d with
    | error fault =>
      rw [hstep] at h
      exact ih h
    | ok t =>
      simp only [hstep, List.filter_cons] at h
      cases hd : keep d with
      | true => simp [hd] at h
      | false =>
        simp only [hd, Bool.false_eq_true, if_false] at h
        exact (ih h).trans (hskip s g d t hd hstep)

/-- If one directive of a kind is accepted and the others do nothing, its step is the whole way. -/
theorem applyAll_of_accepted_singleton
    (hskip : ∀ s g d t, keep d = false → step s g d = .ok t → t = s) {s : σ} {ds : List (Gongan × Directive)}
    {d : Directive} (h : (accepted step s ds).filter keep = [d]) :
    ∃ g, step s g d = .ok (applyAll step s ds).1 := by
  induction ds generalizing s with
  | nil => cases h
  | cons head rest ih =>
    obtain ⟨g, e⟩ := head
    rw [accepted] at h
    rw [applyAll]
    cases hstep : step s g e with
    | error fault =>
      rw [hstep] at h
      exact ih h
    | ok t =>
      simp only [hstep, List.filter_cons] at h
      cases he : keep e with
      | true =>
        simp only [he, if_true, List.cons.injEq] at h
        obtain ⟨rfl, hrest⟩ := h
        have hstay := applyAll_of_accepted_nil (f := id) hskip hrest
        exact ⟨g, hstep.trans (congrArg Except.ok hstay.symm)⟩
      | false =>
        simp only [he, Bool.false_eq_true, if_false] at h
        obtain rfl := hskip s g e t he hstep
        exact ih h

theorem directStep_bare_of_not_isDirectFlow {settings : Settings} {labels : Labels} {p q : Performance} {g : Gongan}
    {d : Directive} (hd : d.isDirectFlow = false) (h : directStep settings labels p g d = .ok q) :
    q.bare = p.bare := by
  cases d with
  | label name beat => rw [← Except.ok.inj h]
  | «sequence» names => rw [← Except.ok.inj h]
  | tempo value extent => exact directStep_bare_of_isChange rfl h
  | dynamics mark extent positions => exact directStep_bare_of_isChange rfl h
  | goto label fromBeat? passes cycle? => cases hd
  | loop count => cases hd

theorem sequenceStep_of_not_isSequence {labels : Labels} {p q : Performance} {g : Gongan} {d : Directive}
    (hd : d.isSequence = false) (h : sequenceStep labels p g d = .ok q) : q = p := by
  cases d with
  | «sequence» names => cases hd
  | _ => exact (Except.ok.inj h).symm

end Arrangement

open Arrangement

/-- The accepted gotos, loops and sequences of a score. -/
def Score.acceptedFlow (s : Score) (settings : Settings) : Except Error (List Directive) :=
  (s.plain settings).map fun p =>
    (accepted (directStep settings s.labels) p (directives s)).filter Directive.isDirectFlow ++
      (accepted (sequenceStep s.labels) (s.direct settings p) (directives s)).filter Directive.isSequence

/-- Sets up the jumps of a sequence. -/
def Performance.setLinks (p : Performance) (ls : List Link) : Performance :=
  ls.foldl (fun p l => p.modifyJump l.fromBeat (·.set (.pass l.pass) (some l.toBeat))) p

theorem Performance.bare_setLinks (p : Performance) (ls : List Link) : (p.setLinks ls).bare = p.bare.setLinks ls := by
  induction ls generalizing p with
  | nil => rfl
  | cons l ls ih => exact ih (p.modifyJump l.fromBeat (·.set (.pass l.pass) (some l.toBeat)))

/-- Where a sequence is the only directive of the flow, the flow is that of the plain performance with the jumps
of the sequence. -/
theorem Score.arrange_of_acceptedFlow {s : Score} {settings : Settings} {a : Arrangement} {names : List String}
    (h : s.arrange settings = .ok a) (hflow : s.acceptedFlow settings = .ok [.sequence names]) :
    ∃ p beats ls, s.plain settings = .ok p ∧ names.mapM (resolve s.labels) = .ok beats ∧
      links p .empty beats = .ok ls ∧ a.performance.bare = (p.setLinks ls).bare := by
  obtain ⟨p, hp, ha⟩ := Score.arrange_performance h
  rw [Score.acceptedFlow, hp, Except.map] at hflow
  have hsplit := List.append_eq_singleton_iff.1 (Except.ok.inj hflow)
  rcases hsplit with ⟨hdirect, hsequence⟩ | ⟨hdirect, -⟩
  · have hbare : (s.direct settings p).bare = p.bare :=
      applyAll_of_accepted_nil (fun _ _ _ _ hd hr => directStep_bare_of_not_isDirectFlow hd hr) hdirect
    obtain ⟨g, hstep⟩ :=
      applyAll_of_accepted_singleton (fun _ _ _ _ hd hr => sequenceStep_of_not_isSequence hd hr) hsequence
    obtain ⟨beats, ls, hbeats, hls, hfinal⟩ := addSequence_eq_ok_iff.1 hstep
    refine ⟨p, beats, ls, hp, hbeats, ?_, ?_⟩
    · rw [← links_bare, ← hbare, links_bare]
      exact hls
    · rw [ha, Score.arranged, hfinal]
      change ((s.direct settings p).setLinks ls).bare = _
      rw [Performance.bare_setLinks, Performance.bare_setLinks, hbare]
  · have hmem : Directive.sequence names ∈ (accepted (directStep settings s.labels) p (directives s)).filter
        Directive.isDirectFlow := by
      rw [hdirect]
      exact .head _
    have hkind := (List.mem_filter.1 hmem).2
    cases hkind

end Gamelan
