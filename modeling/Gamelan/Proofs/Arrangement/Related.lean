import Gamelan.Proofs.Arrangement.Steps

namespace Gamelan

/-- The kinds of directives. -/
inductive Directive.Kind where
  | label
  | goto
  | loop
  | sequence
  | ramp (quantity : Quantity)
  deriving DecidableEq, Repr

def Directive.kind : Directive → Directive.Kind
  | label .. => .label
  | goto .. => .goto
  | loop .. => .loop
  | «sequence» .. => .sequence
  | tempo .. => .ramp .tempo
  | dynamics .. => .ramp .dynamics

namespace Arrangement

/-- What the jumps of a sequence depend on: where the gongans end, and what is set up there. -/
theorem links_congr {p q : Performance} (hlast : ∀ b, p.score.lastBeatOf b = q.score.lastBeatOf b)
    (hid : ∀ b, p.score.fullId b = q.score.fullId b) (hjump : ∀ b, p.jump b = q.jump b)
    (taken : SortedMap BeatId UInt32) (beats : List BeatId) : links p taken beats = links q taken beats := by
  induction beats generalizing taken with
  | nil => rfl
  | cons a beats ih =>
    cases beats with
    | nil => rfl
    | cons b rest =>
      rw [links_cons_cons, links_cons_cons]
      simp only [hlast, hid, hjump, ih]

/-- Whether two outcomes of a step are alike: both refuse for the same reason, or what they accept is related. -/
def Alike (R : Performance → Performance → Prop) :
    Except DirectiveFault Performance → Except DirectiveFault Performance → Prop
  | .ok p, .ok q => R p q
  | .error fault, .error fault' => fault = fault'
  | _, _ => False

theorem Alike.eq_map {R : Performance → Performance → Prop} {f : Performance → Performance}
    {out out' : Except DirectiveFault Performance} (h : Alike R out out') (hf : ∀ p q, R p q → q = f p) :
    out' = out.map f := by
  cases out with
  | error fault =>
    cases out' with
    | error fault' => exact congrArg Except.error h.symm
    | ok q => cases h
  | ok p =>
    cases out' with
    | error fault => cases h
    | ok q => exact congrArg Except.ok (hf p q h)

section Kinds

variable {R : Performance → Performance → Prop} {p q : Performance} {g : Gongan}

theorem addRamp_alike {quantity : Quantity}
    (hramp : ∀ b r, R (p.addRamp quantity b r) (q.addRamp quantity b r)) (target : Int32) (extent : Extent)
    (positions : List Position) :
    Alike R (addRamp p g quantity target extent positions) (addRamp q g quantity target extent positions) := by
  rw [addRamp, addRamp]
  cases g.beatAt? extent.firstBeat with
  | none => rfl
  | some b =>
    simp only
    split
    · rfl
    · cases Ramp.make quantity target extent.beatCount with
      | error fault => rfl
      | ok r => exact hramp b _

/-- Two performances accept and refuse the same directive, and are related after it, if they agree on what directives
of its kind look at. -/
theorem directStep_alike_of_kind {d : Directive} (h : R p q)
    (hgoto : d.kind = .goto → ∀ b f, R (p.modifyJump b f) (q.modifyJump b f))
    (hloop : d.kind = .loop → p.hasLoop g.id = q.hasLoop g.id ∧ ∀ n l, R (p.setLoop n l) (q.setLoop n l))
    (hramp : ∀ quantity, d.kind = .ramp quantity → ∀ b r, R (p.addRamp quantity b r) (q.addRamp quantity b r))
    (settings : Settings) (labels : Labels) :
    Alike R (directStep settings labels p g d) (directStep settings labels q g d) := by
  cases d with
  | label name beat => exact h
  | «sequence» names => exact h
  | goto label fromBeat? passes cycle? =>
    rw [directStep, directStep, addGoto, addGoto]
    cases resolve labels label with
    | error fault => rfl
    | ok target =>
      simp only [bind, Except.bind]
      cases g.beatAt? (fromBeat?.getD g.beats.length) with
      | none => rfl
      | some b =>
        simp only
        split
        · rfl
        · split
          · rfl
          · exact hgoto rfl b _
  | loop count =>
    obtain ⟨hhas, hset⟩ := hloop rfl
    rw [directStep, directStep, addLoop, addLoop, hhas]
    split
    · rfl
    · split
      · rfl
      · exact hset g.id _
  | tempo value extent => exact addRamp_alike (hramp .tempo rfl) value extent []
  | dynamics mark extent positions =>
    rw [directStep, directStep]
    cases settings.velocityFor? mark with
    | none => rfl
    | some velocity => exact addRamp_alike (hramp .dynamics rfl) velocity extent positions

end Kinds

/-- A relation of performances that agree on all that a directive looks at, whatever has been set up in both. -/
structure IsCongruence (R : Performance → Performance → Prop) : Prop where
  hasLoop : ∀ {p q}, R p q → ∀ n, p.hasLoop n = q.hasLoop n
  links : ∀ {p q}, R p q → ∀ taken beats, links p taken beats = links q taken beats
  modifyJump : ∀ {p q}, R p q → ∀ b f, R (p.modifyJump b f) (q.modifyJump b f)
  setLoop : ∀ {p q}, R p q → ∀ n l, R (p.setLoop n l) (q.setLoop n l)
  addRamp : ∀ {p q}, R p q → ∀ quantity b r, R (p.addRamp quantity b r) (q.addRamp quantity b r)

namespace IsCongruence

variable {R : Performance → Performance → Prop} (hR : IsCongruence R) {p q : Performance} (h : R p q)

include hR h

theorem createJumps (bs : List BeatId) :
    R (bs.foldl Performance.createJump p) (bs.foldl Performance.createJump q) := by
  induction bs generalizing p q with
  | nil => exact h
  | cons b bs ih => exact ih (hR.modifyJump h b id)

/-- Related performances accept and refuse the same directives, and stay related. -/
theorem directStep_alike (settings : Settings) (labels : Labels) (g : Gongan) (d : Directive) :
    Alike R (directStep settings labels p g d) (directStep settings labels q g d) :=
  directStep_alike_of_kind h (fun _ => hR.modifyJump h) (fun _ => ⟨hR.hasLoop h g.id, hR.setLoop h⟩)
    (fun quantity _ => hR.addRamp h quantity) settings labels

theorem sequenceStep_alike (labels : Labels) (g : Gongan) (d : Directive) :
    Alike R (sequenceStep labels p g d) (sequenceStep labels q g d) := by
  cases d with
  | «sequence» names =>
    rw [sequenceStep, sequenceStep, addSequence, addSequence]
    cases names.mapM (resolve labels) with
    | error fault => rfl
    | ok beats =>
      simp only [bind, Except.bind, hR.links h]
      cases Arrangement.links q .empty beats with
      | error fault => rfl
      | ok ls =>
        change R (ls.foldl _ p) (ls.foldl _ q)
        induction ls generalizing p q with
        | nil => exact h
        | cons l ls ih => exact ih (hR.modifyJump h l.fromBeat _)
  | _ => exact h

end IsCongruence

section Alike

variable {R : Performance → Performance → Prop}
  {step : Performance → Gongan → Directive → Except DirectiveFault Performance}
  (hstep : ∀ p q g d, R p q → Alike R (step p g d) (step q g d))

include hstep

/-- Steps that are alike come from related performances to related ones, and find the same faults on the way. -/
theorem applyAll_alike (ds : List (Gongan × Directive)) {p q : Performance} (h : R p q) :
    R (applyAll step p ds).1 (applyAll step q ds).1 ∧ (applyAll step p ds).2 = (applyAll step q ds).2 := by
  induction ds generalizing p q with
  | nil => exact ⟨h, rfl⟩
  | cons head rest ih =>
    obtain ⟨g, d⟩ := head
    have halike := hstep p q g d h
    rw [applyAll, applyAll]
    cases hp : step p g d with
    | error fault =>
      cases hq : step q g d with
      | error fault' =>
        rw [hp, hq] at halike
        obtain ⟨hrest, hfindings⟩ := ih h
        exact ⟨hrest, congrArg₂ (fun fault findings => (g.id, fault) :: findings) halike hfindings⟩
      | ok q' => simp [hp, hq, Alike] at halike
    | ok p' =>
      cases hq : step q g d with
      | error fault => simp [hp, hq, Alike] at halike
      | ok q' =>
        rw [hp, hq] at halike
        exact ih halike

end Alike

section Ignored

variable {σ : Type} {step : σ → Gongan → Directive → Except DirectiveFault σ} {keep : Directive → Bool}

/-- Directives that a step takes no notice of may as well be left out. -/
theorem applyAll_filter_of_ignored (hignored : ∀ s g d, keep d = false → step s g d = .ok s) (s : σ)
    (ds : List (Gongan × Directive)) : applyAll step s (ds.filter (keep ·.2)) = applyAll step s ds := by
  induction ds generalizing s with
  | nil => rfl
  | cons head rest ih =>
    obtain ⟨g, d⟩ := head
    cases hd : keep d with
    | false =>
      rw [List.filter_cons, hd, if_neg Bool.false_ne_true, ih, applyAll, hignored s g d hd]
    | true =>
      rw [List.filter_cons, hd, if_pos rfl, applyAll, applyAll]
      cases step s g d with
      | ok t => exact ih t
      | error fault => simp only [ih]

end Ignored

section Filter

variable {R : Performance → Performance → Prop} {keep : Directive → Bool}
  {step : Performance → Gongan → Directive → Except DirectiveFault Performance}
  (hkeep : ∀ p q g d, keep d → R p q → Alike R (step p g d) (step q g d))
  (hdrop : ∀ p p' q g d, keep d = false → R p q → step p g d = .ok p' → R p' q)

include hkeep hdrop

/-- Two performances stay related on the way through directives if one of them leaves out what the relation does not
see. -/
theorem applyAll_filter (ds : List (Gongan × Directive)) {p q : Performance} (h : R p q) :
    R (applyAll step p ds).1 (applyAll step q (ds.filter (keep ·.2))).1 := by
  induction ds generalizing p q with
  | nil => exact h
  | cons head rest ih =>
    obtain ⟨g, d⟩ := head
    rw [applyAll]
    cases hd : keep d with
    | false =>
      simp only [List.filter_cons, hd, Bool.false_eq_true, if_false]
      cases hp : step p g d with
      | error fault => exact ih h
      | ok p' => exact ih (hdrop p p' q g d hd h hp)
    | true =>
      simp only [List.filter_cons, hd, if_true]
      rw [applyAll]
      have halike := hkeep p q g d hd h
      cases hp : step p g d with
      | error fault =>
        cases hq : step q g d with
        | error fault' => exact ih h
        | ok q' => simp [hp, hq, Alike] at halike
      | ok p' =>
        cases hq : step q g d with
        | error fault => simp [hp, hq, Alike] at halike
        | ok q' =>
          rw [hp, hq] at halike
          exact ih halike

end Filter

namespace IsCongruence

variable {R : Performance → Performance → Prop} (hR : IsCongruence R) {p q : Performance}

include hR

/-- What a score sets up in related performances is related. The same is found on the way, and none or both of them
overflow. -/
theorem arranged (s : Score) (settings : Settings) (h : R p q) :
    R (s.arranged settings p) (s.arranged settings q) ∧ s.findings settings p = s.findings settings q ∧
      s.overflows settings p = s.overflows settings q := by
  obtain ⟨hdirect, hfindings⟩ :=
    applyAll_alike (fun p q g d h => hR.directStep_alike h settings s.labels g d) (directives s) h
  obtain ⟨hsequences, hfindings'⟩ :=
    applyAll_alike (fun p q g d h => hR.sequenceStep_alike h s.labels g d) (directives s) hdirect
  refine ⟨hsequences, ?_, congrArg (·.any (·.2.isOverflow)) hfindings'⟩
  exact congrArg₂ (fun found found' => (applyAll labelStep .empty (directives s)).2 ++ found ++ found') hfindings
    hfindings'

end IsCongruence

end Arrangement

end Gamelan
