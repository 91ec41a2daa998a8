import Gamelan.Proofs.Performance.History
import Gamelan.Proofs.Performance.Lead
import Gamelan.Proofs.Ramp.Course

namespace Gamelan

/-- The value that a quantity has in front of the first change. -/
def Settings.default (settings : Settings) : Quantity → Int32
  | .tempo => settings.defaultTempo
  | .dynamics => settings.defaultVelocity

def Played.span (x : Played) : Quantity → Span
  | .tempo => x.tempo
  | .dynamics => x.dynamics

/-- The value that a quantity has reached after some beats. -/
def Settings.reached (settings : Settings) (quantity : Quantity) (played : List Played) : Int32 :=
  (played.getLast?).elim (settings.default quantity) fun x => (x.span quantity).stop

/-- Whether a sudden change to a value is set up at a beat, for a position, as the beat is played. -/
def Schedule.ChangesTo (s : Schedule) (position? : Option Position) (x : Played) (value : Int32) : Prop :=
  ∃ r ∈ s.rampsAt x.beat, r.length = 0 ∧ r.isFor position? x.pass x.iteration ∧ r.target = value

/-- A change that may begin at a beat is one that is set up there. -/
theorem Schedule.ChangesTo.of_reset_eq {s t : Schedule} {position? : Option Position} {x : Played} {value : Int32}
    (h : s.ChangesTo position? x value) (hreset : s.reset = t.reset) : t.ChangesTo position? x value := by
  obtain ⟨r, hr, hlength, hfor, htarget⟩ := h
  have hramps : (s.rampsAt x.beat).map Ramp.clear = (t.rampsAt x.beat).map Ramp.clear := by
    rw [← s.map_clear_rampsAt_reset, hreset, t.map_clear_rampsAt_reset]
  obtain ⟨r', hr', hclear⟩ := List.mem_map.1 (hramps ▸ List.mem_map_of_mem hr)
  refine ⟨r', hr', ?_, ?_, ?_⟩
  · exact (congrArg (·.length) hclear).trans hlength
  · exact (congrArg (·.isFor position? x.pass x.iteration) hclear).trans hfor
  · exact (congrArg (·.target) hclear).trans htarget

namespace Performance

def schedule (p : Performance) : Quantity → Schedule
  | .tempo => p.tempo
  | .dynamics => p.dynamics

/-- The schedules of both quantities are sound. -/
def IsSound (p : Performance) : Prop := ∀ quantity, (p.schedule quantity).IsSound quantity

variable {p q : Performance} {quantity : Quantity}

theorem span_played (p : Performance) (b : BeatId) (quantity : Quantity) :
    ((p.played b).span quantity) = (p.schedule quantity).span := by
  cases quantity <;> rfl

theorem schedule_reset (p : Performance) (position? : Option Position) (quantity : Quantity) :
    (p.reset position?).schedule quantity = (p.schedule quantity).reset := by
  cases quantity <;> rfl

theorem schedule_addRamp (p : Performance) (quantity quantity' : Quantity) (b : BeatId) (r : Ramp) :
    (p.addRamp quantity b r).schedule quantity' =
      if quantity = quantity' then (p.schedule quantity').add b r else p.schedule quantity' := by
  cases quantity <;> cases quantity' <;> rfl

/-- On a visit, both quantities enter the beat on the pass and in the repetition that it is played in. -/
theorem IsComplete.schedule_visit (hp : p.IsComplete) (b : BeatId) (quantity : Quantity) :
    (p.visit b).schedule quantity =
      (p.schedule quantity).enter b p.position? (p.visit b).currentPass (p.visit b).currentIteration := by
  rw [hp.visit_eq]
  cases quantity <;> rfl

theorem IsComplete.position?_visit (hp : p.IsComplete) (b : BeatId) : (p.visit b).position? = p.position? := by
  rw [hp.visit_eq, enterRamps]

namespace IsSound

theorem reset (h : p.IsSound) (position? : Option Position) : (p.reset position?).IsSound := by
  intro quantity
  rw [schedule_reset]
  exact (h quantity).reset

theorem visit (h : p.IsSound) (hp : p.IsComplete) (b : BeatId) : (p.visit b).IsSound := by
  intro quantity
  rw [hp.schedule_visit]
  exact (h quantity).enter b _ _ _

theorem next (h : p.IsSound) (hp : p.IsComplete) : p.next.2.IsSound := by
  rcases hp.next_cases with ⟨b, hb⟩ | ⟨-, cursor, steps, hstay⟩
  · rw [hb]
    exact h.visit hp b
  · rw [hstay]
    intro quantity
    cases quantity with
    | tempo => exact h .tempo
    | dynamics => exact h .dynamics

theorem after (h : p.IsSound) (hp : p.IsComplete) (calls : List Call) :
    (p.after calls).IsComplete ∧ (p.after calls).IsSound := by
  refine after_invariant ?_ ?_ calls (I := fun p => p.IsComplete ∧ p.IsSound) ⟨hp, h⟩
  · exact fun p position? hp => ⟨hp.1.reset position?, hp.2.reset position?⟩
  · exact fun p hp => ⟨hp.1.next, hp.2.next hp.1⟩

end IsSound

end Performance

open Performance

/-- All values of an arrangement are in range from the beginning on, where they are those of the settings. -/
theorem Score.arrange_isSound {s : Score} {settings : Settings} {a : Arrangement} (h : s.arrange settings = .ok a) :
    a.performance.IsSound ∧ ∀ quantity, (a.performance.schedule quantity).span.stop = settings.default quantity := by
  have hboth : ∀ quantity, (a.performance.schedule quantity).IsSound quantity ∧
      (a.performance.schedule quantity).span = ⟨settings.default quantity, settings.default quantity⟩ := by
    refine Score.arrange_invariant h ?_ ?_ ?_ ?_ (I := fun p => ∀ quantity,
      (p.schedule quantity).IsSound quantity ∧
        (p.schedule quantity).span = ⟨settings.default quantity, settings.default quantity⟩)
    · intro p hp quantity
      obtain ⟨tempo, dynamics, htempo, hdynamics, rfl⟩ := Score.plain_eq_ok_iff.1 hp
      rw [Performance.createJumps_eq]
      cases quantity with
      | tempo => exact Schedule.ofDefault_isSound htempo
      | dynamics => exact Schedule.ofDefault_isSound hdynamics
    · exact fun p b f _ hp => hp
    · exact fun p g count _ _ hp => hp
    · intro p quantity b r hset hp quantity'
      obtain ⟨hsound, hspan⟩ := hp quantity'
      rw [schedule_addRamp]
      split
      next heq =>
        obtain ⟨hadd, hkept⟩ := hsound.add b (heq ▸ hset.sound)
        exact ⟨hadd, hkept.trans hspan⟩
      · exact ⟨hsound, hspan⟩
  exact ⟨fun quantity => (hboth quantity).1, fun quantity => congrArg Span.stop (hboth quantity).2⟩

namespace Performance

variable {a p q : Performance} {position? : Option Position}

/-- A performance of an arrangement for a position, on its way. -/
structure IsOnCourse (a : Performance) (position? : Option Position) (p : Performance) : Prop where
  complete : p.IsComplete
  sound : p.IsSound
  position : p.position? = position?
  same : p.reset none = a.reset none

namespace IsOnCourse

theorem visit (hp : IsOnCourse a position? p) (b : BeatId) : IsOnCourse a position? (p.visit b) where
  complete := hp.complete.visit b
  sound := hp.sound.visit hp.complete b
  position := (hp.complete.position?_visit b).trans hp.position
  same := (hp.complete.reset_visit b none).trans hp.same

theorem follow (hp : IsOnCourse a position? p) {bs : List BeatId} (h : p.follow bs = some q) :
    IsOnCourse a position? q :=
  (hp.complete.follow_invariant (fun _ b _ hp => hp.visit b) hp h).2

/-- On a visit, a value goes on from the one that has been reached, unless it changes suddenly, and it goes towards
the target of the active ramp. -/
theorem span_visit (hp : IsOnCourse a position? p) {b : BeatId} {x : Played} (hx : x = (p.visit b).played b)
    (quantity : Quantity) :
    ((x.span quantity).start = (p.schedule quantity).span.stop ∨
      (x.span quantity).start = (x.span quantity).stop ∧
        (a.schedule quantity).ChangesTo position? x (x.span quantity).stop) ∧
    ∃ r, ((p.visit b).schedule quantity).activeRamp? = some r ∧ (x.span quantity).LeadsTo r.target := by
  have henter := (hp.sound quantity).span_enter b p.position? (p.visit b).currentPass (p.visit b).currentIteration
  rw [← hp.complete.schedule_visit, hp.position] at henter
  obtain ⟨hvalue, hleads⟩ := henter
  rw [hx, span_played]
  refine ⟨hvalue.imp_right ?_, hleads⟩
  rintro ⟨hsteady, r, hr, hlength, hfor, htarget⟩
  have hsame : (p.schedule quantity).reset = (a.schedule quantity).reset := by
    rw [← schedule_reset p none, hp.same, schedule_reset]
  exact ⟨hsteady, Schedule.ChangesTo.of_reset_eq ⟨r, hr, hlength, hfor, htarget.symm⟩ hsame⟩

end IsOnCourse

/-- Each beat that is played is the next one after those played before it, and the values reached are theirs. -/
theorem exists_next_of_playedAlong {bs : List BeatId} (hfollow : p.follow bs = some q) {before after : List Played}
    {x : Played} (hplayed : p.playedAlong bs = before ++ x :: after) :
    ∃ r t, p.follow (before.map (·.beat)) = some r ∧ r.next = (.ok (some x.beat), t) ∧ x = t.played x.beat ∧
      ∀ quantity, (r.schedule quantity).span =
        before.getLast?.elim (p.schedule quantity).span (·.span quantity) := by
  -- The beats before are gone through from the front, so the values at the start are general.
  induction before generalizing p bs with
  | nil =>
    cases bs with
    | nil => cases hplayed
    | cons b bs =>
      obtain ⟨t, hnext, -⟩ := follow_cons_eq_some_iff.1 hfollow
      rw [playedAlong, hnext, List.nil_append] at hplayed
      obtain ⟨rfl, -⟩ := List.cons.inj hplayed
      exact ⟨p, t, rfl, hnext, rfl, fun _ => rfl⟩
  | cons y before ih =>
    cases bs with
    | nil => cases hplayed
    | cons b bs =>
      obtain ⟨t, hnext, hrest⟩ := follow_cons_eq_some_iff.1 hfollow
      rw [playedAlong, hnext, List.cons_append] at hplayed
      obtain ⟨rfl, hbehind⟩ := List.cons.inj hplayed
      obtain ⟨r, u, hr, hu, hx, hspan⟩ := ih (p := t) hrest hbehind
      refine ⟨r, u, follow_cons_eq_some_iff.2 ⟨t, hnext, hr⟩, hu, hx, fun quantity => ?_⟩
      rw [hspan, List.getLast?_cons]
      cases before.getLast? with
      | none => exact (span_played t b quantity).symm
      | some z => rfl

/-- From beat to beat, and from the defaults of the settings to the first beat, tempo and dynamics go on without a
gap, but where a sudden change is set up that is for the position, the pass and the repetition of the beat: there
they are at its target from the beginning to the end of the beat. On every beat they go towards the target of the
active ramp, and not beyond it. So it is for all beats of a walk, and as far as a walk comes that is stopped. -/
theorem values_go_on {s : Score} {settings : Settings} {a : Arrangement} (h : s.arrange settings = .ok a)
    (calls : List Call) (position? : Option Position) :
    let p := a.performance.after calls
    let start := p.reset position?
    (∀ played, (p.walk position?).1 = .ok played →
      ∃ bs q, start.follow bs = some q ∧ start.playedAlong bs = played.toList) ∧
    ∀ bs q, start.follow bs = some q → ∀ before x after, start.playedAlong bs = before ++ x :: after →
      ∃ t, start.follow ((before ++ [x]).map (·.beat)) = some t ∧ ∀ quantity,
        ((x.span quantity).start = settings.reached quantity before ∨
          (x.span quantity).start = (x.span quantity).stop ∧
            (a.performance.schedule quantity).ChangesTo position? x (x.span quantity).stop) ∧
        ∃ r, (t.schedule quantity).activeRamp? = some r ∧ (x.span quantity).LeadsTo r.target := by
  intro p start
  have ha := Score.arrange_isComplete h
  obtain ⟨hsound, hdefault⟩ := Score.arrange_isSound h
  have hstart : start = a.performance.reset position? := ha.reset_after calls position?
  have hcourse : IsOnCourse a.performance position? start := by
    rw [hstart]
    exact ⟨ha.reset position?, hsound.reset position?, rfl, reset_reset a.performance none position?⟩
  -- An arrangement is fresh, so a reset takes its schedules back to the defaults it was set up with.
  have hbegin (quantity : Quantity) : (start.schedule quantity).span.stop = settings.default quantity := by
    have hfresh : (a.performance.reset none).schedule quantity = a.performance.schedule quantity := by
      rw [(Score.arrange_isFresh h).reset_eq]
    rw [hstart, schedule_reset, ← schedule_reset a.performance none, hfresh]
    exact hdefault quantity
  refine ⟨fun played hplayed => ?_, ?_⟩
  · obtain ⟨bs, q, hbs, hq, -⟩ := finish_eq_ok hplayed
    exact ⟨bs, q, hq, hbs.symm⟩
  intro bs q hq before x after hplayed
  obtain ⟨r, t, hr, hnext, hx, hreached⟩ := exists_next_of_playedAlong hq hplayed
  have hon := hcourse.follow hr
  obtain ⟨-, -, rfl⟩ := hon.complete.next_eq_beat_iff.1 hnext
  refine ⟨r.visit x.beat, ?_, fun quantity => ?_⟩
  · rw [List.map_append, List.map_singleton]
    exact follow_concat_eq_some_iff.2 ⟨r, hr, hnext⟩
  · have hvalue : (r.schedule quantity).span.stop = settings.reached quantity before := by
      rw [hreached, Settings.reached, ← hbegin]
      cases before.getLast? <;> rfl
    rw [← hvalue]
    exact hon.span_visit hx quantity

/-- A ramp that is overtaken by another one, and a sudden change of one position in the second round. -/
theorem values_go_on_overtaken :
    let m : Manuscript := { gongans := [
      { directives := [.loop 2, .tempo 120 { beatCount := 3 }, .tempo 30 { firstBeat := 2, beatCount := 2 },
          .dynamics "ff" { firstBeat := 2, iterations := [2] } ["reyong"]],
        beats := [{}, {}, {}] }] }
    ∃ s a played, m.toScore = .ok s ∧ s.arrange {} = .ok a ∧
      ((a.performance.after [.next]).walk (some "reyong")).1 = .ok played ∧
      ∀ before x after, played.toList = before ++ x :: after → ∀ quantity,
        (x.span quantity).start = Settings.reached {} quantity before ∨
          (x.span quantity).start = (x.span quantity).stop ∧
            (a.performance.schedule quantity).ChangesTo (some "reyong") x (x.span quantity).stop := by
  intro m
  have harrangement : ∃ s a, m.toScore = .ok s ∧ s.arrange {} = .ok a ∧
      ((a.performance.after [.next]).walk (some "reyong")).1.toOption.isSome :=
    Manuscript.exists_arrangement (by decide +kernel)
  obtain ⟨s, a, hs, ha, hwalk⟩ := harrangement
  obtain ⟨played, hplayed⟩ := Option.isSome_iff_exists.1 hwalk
  have hplayed := toOption_eq_some_iff.1 hplayed
  obtain ⟨hall, hvalues⟩ := values_go_on ha [.next] (some "reyong")
  obtain ⟨bs, q, hq, halong⟩ := hall played hplayed
  refine ⟨s, a, played, hs, ha, hplayed, fun before x after hbefore quantity => ?_⟩
  obtain ⟨t, -, hvalue⟩ := hvalues bs q hq before x after (halong.trans hbefore)
  exact (hvalue quantity).1

end Performance

end Gamelan
