import Gamelan.Proofs.Arrangement.Setup

namespace Gamelan

namespace Arrangement

/-- A goto that leaves a beat: where it leads, the passes that it lists and the cycle that it gives. -/
structure Departure where
  target : BeatId
  passes : List UInt32
  cycle? : Option UInt32
  deriving DecidableEq, Repr

/-- What a goto makes of the jump of the beat that it leaves. -/
def Departure.applyTo (d : Departure) (j : Jump) : Jump :=
  let j :=
    if d.passes.isEmpty then j.set .otherwise (some d.target)
    else d.passes.foldl (fun j n => j.set (.pass n) (some d.target)) j
  d.cycle?.elim j j.setCycle

/-- The cycle of a beat that gotos leave: the last one given or, if none is given, the cycle of every jump. -/
def lastCycle (departures : List Departure) : UInt32 :=
  (departures.filterMap (·.cycle?)).getLastD Jump.defaultCycle

end Arrangement

open Arrangement

/-- A directive as a goto that leaves a beat, if it is one and its label exists. -/
def Score.departure? (s : Score) (e : BeatId) : Gongan × Directive → Option Departure
  | (g, .goto label fromBeat? passes cycle?) =>
    if g.beatAt? (fromBeat?.getD g.beats.length) = some e then
      (s.labels.get? label).map ({ target := ·, passes, cycle? })
    else none
  | _ => none

/-- The gotos among directives that leave a beat, in order. -/
def Score.departures (s : Score) (ds : List (Gongan × Directive)) (e : BeatId) : List Departure :=
  ds.filterMap (s.departure? e)

namespace Jump

variable {j : Jump} {n : UInt32}

theorem target?_foldl_set (passes : List UInt32) (target : Target) :
    (passes.foldl (fun j n => j.set (.pass n) target) j).target? (.pass n) =
      if n ∈ passes then some target else j.target? (.pass n) := by
  induction passes generalizing j with
  | nil => simp
  | cons m passes ih =>
    rw [List.foldl_cons, ih, target?_set]
    by_cases hmem : n ∈ passes
    · simp [hmem]
    · by_cases hm : n = m <;> simp [hmem, hm]

theorem target?_applyTo (d : Departure) :
    (d.applyTo j).target? (.pass n) = if n ∈ d.passes then some (some d.target) else j.target? (.pass n) := by
  have hcycle (j : Jump) : (d.cycle?.elim j j.setCycle).target? (.pass n) = j.target? (.pass n) := by
    cases d.cycle? <;> rfl
  rw [Departure.applyTo, hcycle]
  split
  next hempty =>
    rw [List.isEmpty_iff.1 hempty]
    simp [target?_set]
  · exact target?_foldl_set _ _

theorem cycle_applyTo (d : Departure) : (d.applyTo j).counter.cycle = d.cycle?.getD j.counter.cycle := by
  have hcounter := j.counter_setAll d.passes (some d.target)
  rw [Departure.applyTo]
  cases d.cycle? with
  | none => exact congrArg (·.cycle) hcounter
  | some cycle => rfl

/-- The last goto that lists a pass says where a beat leads on it. -/
theorem target?_foldl_applyTo (l : List Departure) :
    (l.foldl (fun j d => d.applyTo j) j).target? (.pass n) =
      ((l.filter (n ∈ ·.passes)).getLast?.map (some ·.target)).or (j.target? (.pass n)) := by
  induction l generalizing j with
  | nil => rfl
  | cons d l ih =>
    rw [List.foldl_cons, ih, target?_applyTo]
    by_cases hd : n ∈ d.passes
    · rw [if_pos hd, List.filter_cons_of_pos (by simpa using hd), List.getLast?_cons]
      cases (l.filter (n ∈ ·.passes)).getLast? <;> rfl
    · rw [if_neg hd, List.filter_cons_of_neg (by simpa using hd)]

theorem cycle_foldl_applyTo (l : List Departure) :
    (l.foldl (fun j d => d.applyTo j) j).counter.cycle = (l.filterMap (·.cycle?)).getLastD j.counter.cycle := by
  induction l generalizing j with
  | nil => rfl
  | cons d l ih =>
    rw [List.foldl_cons, ih, cycle_applyTo]
    cases hd : d.cycle? with
    | none => rw [List.filterMap_cons_none hd, Option.getD_none]
    | some cycle => rw [List.filterMap_cons_some hd, List.getLastD_cons, Option.getD_some]

end Jump

namespace Arrangement

/-- Marks that agree on the elements that count pick the same of them. -/
theorem filterMap_pick_congr {α β : Type} {f : α → Option β} {xs : List α} {marks marks' : List Bool}
    (hmarks : marks.length = xs.length) (hmarks' : marks'.length = xs.length)
    (h : ∀ (i : Nat) x y, xs[i]? = some x → f x = some y → marks[i]? = marks'[i]?) :
    (pick xs marks).filterMap f = (pick xs marks').filterMap f := by
  induction xs generalizing marks marks' with
  | nil => rfl
  | cons x xs ih =>
    obtain ⟨mark, marks, rfl⟩ := List.exists_cons_of_length_eq_add_one hmarks
    obtain ⟨mark', marks', rfl⟩ := List.exists_cons_of_length_eq_add_one hmarks'
    have hrest := ih (by simpa using hmarks) (by simpa using hmarks') fun i => h (i + 1)
    cases hx : f x with
    | none => cases mark <;> cases mark' <;> simp [pick, hx, hrest]
    | some y =>
      have hmark : mark = mark' := by simpa using h 0 x y rfl hx
      rw [hmark]
      cases mark' <;> simp [pick, hx, hrest]

/-- A directive in which nothing is found has been accepted in some state. -/
theorem exists_step_of_verdict {σ : Type} {step : σ → Gongan → Directive → Except DirectiveFault σ} {s : σ}
    {ds : List (Gongan × Directive)} {i : Nat} {x : Gongan × Directive} (hx : ds[i]? = some x)
    (hverdict : (verdicts step s ds)[i]? = some none) : ∃ t u, step t x.1 x.2 = .ok u := by
  induction ds generalizing s i with
  | nil => cases hx
  | cons head rest ih =>
    obtain ⟨g, d⟩ := head
    rw [verdicts] at hverdict
    cases h : step s g d with
    | error fault =>
      rw [h] at hverdict
      cases i with
      | zero => cases hverdict
      | succ i => exact ih hx hverdict
    | ok t =>
      rw [h] at hverdict
      cases i with
      | zero =>
        obtain rfl := Option.some.inj hx
        exact ⟨s, t, h⟩
      | succ i => exact ih hx hverdict

end Arrangement

namespace Score

variable {s : Score} {settings : Settings} {p q : Performance} {e : BeatId} {ds : List (Gongan × Directive)}

theorem departure?_eq_some_iff {x : Gongan × Directive} {d : Departure} :
    s.departure? e x = some d ↔ ∃ label fromBeat?, x.2 = .goto label fromBeat? d.passes d.cycle? ∧
      x.1.beatAt? (fromBeat?.getD x.1.beats.length) = some e ∧ s.labels.get? label = some d.target := by
  obtain ⟨g, directive⟩ := x
  cases directive with
  | goto label fromBeat? passes cycle? =>
    simp only [departure?]
    constructor
    · intro h
      split at h
      next hbeat =>
        obtain ⟨target, htarget, rfl⟩ := Option.map_eq_some_iff.1 h
        exact ⟨label, fromBeat?, rfl, hbeat, htarget⟩
      · cases h
    · rintro ⟨label', fromBeat?', heq, hbeat, htarget⟩
      obtain ⟨rfl, rfl, rfl, rfl⟩ := Directive.goto.inj heq
      rw [if_pos hbeat, htarget]
      rfl
  | _ => simp [departure?]

/-- An accepted directive changes the jump of a beat if it is a goto that leaves it. -/
theorem jump_directStep {g : Gongan} {d : Directive} (he : e < p.jumps.size)
    (hq : directStep settings s.labels p g d = .ok q) :
    q.jump e = (s.departure? e (g, d)).elim (p.jump e) (·.applyTo (p.jump e)) := by
  cases d with
  | goto label fromBeat? passes cycle? =>
    obtain ⟨target, b, htarget, hb, -, -, rfl⟩ := addGoto_eq_ok_iff.1 hq
    change (p.modifyJump b (Departure.mk target passes cycle?).applyTo).jump e = _
    rw [Performance.jump_modifyJump, departure?, hb, htarget]
    by_cases heb : e = b
    · rw [if_pos ⟨heb, heb ▸ he⟩, if_pos (congrArg some heb.symm), heb]
      rfl
    · rw [if_neg fun h => heb h.1, if_neg fun h => heb (Option.some.inj h).symm]
      rfl
  | loop count =>
    obtain ⟨-, -, rfl⟩ := addLoop_eq_ok_iff.1 hq
    rfl
  | label name beat => exact Except.ok.inj hq ▸ rfl
  | «sequence» names => exact Except.ok.inj hq ▸ rfl
  | tempo value extent => exact congrArg (·.jump e) (directStep_bare_of_isChange rfl hq)
  | dynamics mark extent positions => exact congrArg (·.jump e) (directStep_bare_of_isChange rfl hq)

/-- The jump of a beat is what the accepted gotos make of it, one after the other. -/
theorem jump_applyAll_directStep (he : e < p.jumps.size) (ds : List (Gongan × Directive)) :
    (applyAll (directStep settings s.labels) p ds).1.jump e =
      (s.departures (Arrangement.pick ds
        ((Arrangement.verdicts (directStep settings s.labels) p ds).map Option.isNone)) e).foldl
          (fun j d => d.applyTo j) (p.jump e) := by
  induction ds generalizing p with
  | nil => rfl
  | cons head rest ih =>
    obtain ⟨g, d⟩ := head
    rw [applyAll, Arrangement.verdicts]
    cases h : directStep settings s.labels p g d with
    | error fault => exact ih he
    | ok q =>
      refine (ih (directStep_size h ▸ he)).trans ?_
      rw [jump_directStep he h]
      simp only [List.map_cons, Option.isNone_none, Arrangement.pick, if_true, departures, List.filterMap_cons]
      cases s.departure? e (g, d) <;> rfl

/-- The accepted gotos are those that the direct stage accepts. -/
theorem departures_eq (hp : s.plain settings = .ok p) (hds : s.acceptedDirectives settings = .ok ds) (e : BeatId) :
    s.departures ds e =
      s.departures (Arrangement.pick (directives s) ((s.verdicts settings p .direct).map Option.isNone)) e := by
  obtain ⟨faults, hfaults, hlength, hown⟩ := exists_faults hp
  rw [acceptedDirectives, hfaults] at hds
  obtain rfl := Except.ok.inj hds
  refine filterMap_pick_congr (by simpa using hlength) (by simpa using s.length_verdicts settings p .direct) ?_
  intro i x d hx hd
  obtain ⟨label, fromBeat?, hgoto, -⟩ := departure?_eq_some_iff.1 hd
  have hstage : x.2.stage = .direct := congrArg Directive.stage hgoto
  have hi : i < (s.verdicts settings p .direct).length := by
    rw [length_verdicts]
    exact (List.getElem?_eq_some_iff.1 hx).1
  rw [List.getElem?_map, hown i x hx, hstage, List.getElem?_map, List.getElem?_eq_getElem hi]
  cases (s.verdicts settings p .direct)[i] <;> rfl

/-- Before the sequences are set up, the jump of a beat is what the accepted gotos make of going straight on. -/
theorem direct_jump (hp : s.plain settings = .ok p) (hds : s.acceptedDirectives settings = .ok ds)
    (he : e < s.beats.size) :
    (s.direct settings p).jump e = (s.departures ds e).foldl (fun j d => d.applyTo j) (.straight (s.next? e)) := by
  have hsize : p.jumps.size = s.beats.size := by rw [(plain_isComplete hp).1, plain_score hp]
  rw [direct, jump_applyAll_directStep (hsize ▸ he), departures_eq hp hds, plain_jump hp]
  rfl

/-- Before the sequences are set up, a beat has the passes that the accepted gotos list, and their last cycle. -/
theorem direct_passes (hp : s.plain settings = .ok p) (hds : s.acceptedDirectives settings = .ok ds)
    (he : e < s.beats.size) :
    (∀ n, (((s.direct settings p).jump e).target? (.pass n)).isSome ↔ ∃ d ∈ s.departures ds e, n ∈ d.passes) ∧
      ((s.direct settings p).jump e).counter.cycle = lastCycle (s.departures ds e) := by
  rw [direct_jump hp hds he]
  refine ⟨fun n => ?_, Jump.cycle_foldl_applyTo _⟩
  have hnone : (Jump.straight (s.next? e)).target? (.pass n) = none := rfl
  rw [Jump.target?_foldl_applyTo, hnone, Option.or_none, Option.isSome_map, List.getLast?_isSome]
  simp [List.filter_eq_nil_iff]

/-- No accepted goto lists pass zero. -/
theorem ne_zero_of_mem_departures (hp : s.plain settings = .ok p) (hds : s.acceptedDirectives settings = .ok ds)
    {d : Departure} (hd : d ∈ s.departures ds e) {n : UInt32} (hn : n ∈ d.passes) : n ≠ 0 := by
  obtain ⟨⟨g, directive⟩, hmem, hdeparture⟩ := List.mem_filterMap.1 hd
  obtain ⟨label, fromBeat?, rfl, -⟩ := departure?_eq_some_iff.1 hdeparture
  obtain ⟨i, hi, hverdict⟩ := (mem_acceptedDirectives_iff hp hds).1 hmem
  obtain ⟨t, u, hstep⟩ := exists_step_of_verdict hi hverdict
  obtain ⟨-, -, -, -, -, hpasses, -⟩ := addGoto_eq_ok_iff.1 hstep
  exact (hpasses n hn).1

end Score

end Gamelan
