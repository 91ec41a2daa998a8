import Gamelan.Proofs.Midi.Spacing
import Gamelan.Proofs.Performance.Values

namespace Gamelan

/-- The length of a beat fits a tempo event, unless the beat is too slow. -/
theorem Midi.beatLength_eq {bpm : Int32} (h : Quantity.minTempo ≤ bpm) :
    (beatLength bpm).toNat = 60000000 / bpm.toInt.toNat ∧ 60000000 / bpm.toInt.toNat < 2 ^ 24 := by
  have hmin : (4 : Int) ≤ bpm.toInt := Int32.le_iff_toInt_le.1 h
  have hbpm : bpm.toUInt32.toNat = bpm.toInt.toNat :=
    Int32.toNat_toUInt32_of_le (Int32.le_trans (by decide) h)
  have hlt : 60000000 / bpm.toInt.toNat < 2 ^ 24 :=
    Nat.lt_of_le_of_lt (Nat.div_le_div_left (show 4 ≤ bpm.toInt.toNat by omega) (by decide)) (by decide)
  have hdiv : (60000000 / bpm.toUInt32).toNat = 60000000 / bpm.toInt.toNat := by
    rw [UInt32.toNat_div, hbpm]
    rfl
  refine ⟨?_, hlt⟩
  rw [beatLength, UInt32.toNat_and, hdiv]
  exact (Nat.and_two_pow_sub_one_eq_mod _ 24).trans (Nat.mod_eq_of_lt hlt)

namespace Performance

variable {p q : Performance} {quantity : Quantity}

/-- Where a performance can be during and after some calls: a walk takes the steps that single calls take. -/
def During (p : Performance) (calls : List Call) (q : Performance) : Prop :=
  q = p.after calls ∨ ∃ position? bs, ((p.after calls).reset position?).follow bs = some q

theorem IsSound.during (h : p.IsSound) (hp : p.IsComplete) {calls : List Call} (hq : p.During calls q) :
    q.IsComplete ∧ q.IsSound := by
  obtain ⟨hcomplete, hsound⟩ := h.after hp calls
  rcases hq with rfl | ⟨position?, bs, hfollow⟩
  · exact ⟨hcomplete, hsound⟩
  · exact (hcomplete.reset position?).follow_invariant (fun _ b hp hsound => hsound.visit hp b)
      (hsound.reset position?) hfollow

/-- On a visit, the ramp that is active then is taken one beat on, and that overflows nowhere. -/
theorem IsSound.nextIsExact (h : p.IsSound) (hp : p.IsComplete) (b : BeatId) (quantity : Quantity) :
    ∃ r st, ((p.schedule quantity).turn b p.position? (p.visit b).currentPass
        (p.visit b).currentIteration).activeRamp? = some r ∧ r.status? = some st ∧
      ((p.visit b).schedule quantity).activeRamp? = some r.next ∧ st.NextIsExact r.target r.length := by
  have hturn := (h quantity).turn b p.position? (p.visit b).currentPass (p.visit b).currentIteration
  obtain ⟨r, st, hr, hst⟩ := hturn.running
  have hsound := hturn.ramps _ r hr
  refine ⟨r, st, hr, hst, ?_, (hsound.status st hst).nextIsExact hsound.target hsound.length⟩
  rw [hp.schedule_visit, Schedule.enter_eq, Schedule.activeRamp?_advance, hr, Option.map_some]

/-- During and after all calls the values are in range, no operation overflows or divides by zero when a ramp is taken
one beat on, and the length of a beat fits a tempo event for all tempos on the way from the beginning to the end of
a beat. -/
theorem values_in_range {s : Score} {settings : Settings} {a : Arrangement} (h : s.arrange settings = .ok a)
    (calls : List Call) {p : Performance} (hp : a.performance.During calls p) :
    ((4 ≤ p.tempo.span.start ∧ p.tempo.span.start ≤ 1000) ∧ 4 ≤ p.tempo.span.stop ∧ p.tempo.span.stop ≤ 1000) ∧
    ((0 ≤ p.dynamics.span.start ∧ p.dynamics.span.start ≤ 127) ∧
      0 ≤ p.dynamics.span.stop ∧ p.dynamics.span.stop ≤ 127) ∧
    (∀ b q, p.next = (.ok (some b), q) → ∀ quantity, ∃ r st,
      ((p.schedule quantity).turn b p.position? q.currentPass q.currentIteration).activeRamp? = some r ∧
        r.status? = some st ∧ (q.schedule quantity).activeRamp? = some r.next ∧ st.NextIsExact r.target r.length) ∧
    ∀ bpm, (p.tempo.span.start ≤ bpm ∧ bpm ≤ p.tempo.span.stop ∨ p.tempo.span.stop ≤ bpm ∧ bpm ≤ p.tempo.span.start) →
      (Midi.beatLength bpm).toNat = 60000000 / bpm.toInt.toNat ∧ 60000000 / bpm.toInt.toNat < 2 ^ 24 := by
  obtain ⟨hcomplete, hsound⟩ := (Score.arrange_isSound h).1.during (Score.arrange_isComplete h) hp
  have htempo := (hsound .tempo).accepts_span
  have hdynamics := (hsound .dynamics).accepts_span
  simp only [Quantity.accepts, Quantity.isTempo, Quantity.isVelocity, Bool.and_eq_true, decide_eq_true_eq]
    at htempo hdynamics
  refine ⟨htempo, hdynamics, ?_, ?_⟩
  · intro b q hnext quantity
    obtain ⟨-, -, rfl⟩ := hcomplete.next_eq_beat_iff.1 hnext
    exact hsound.nextIsExact hcomplete b quantity
  · rintro bpm (⟨hlow, -⟩ | ⟨hlow, -⟩)
    · exact Midi.beatLength_eq (Int32.le_trans htempo.1.1 hlow)
    · exact Midi.beatLength_eq (Int32.le_trans htempo.2.1 hlow)

/-- In the middle of a ramp from the slowest to the fastest tempo, after a walk that has been given up. -/
theorem values_in_range_on_the_way :
    let m : Manuscript := { gongans := [
      { directives := [.loop 3, .tempo 1000 { beatCount := 3 }, .dynamics "ppp" { beatCount := 2 } []],
        beats := [{}, {}, {}] }] }
    let settings : Settings := { defaultTempo := 4, maxSteps := 5 }
    ∃ s a p, m.toScore = .ok s ∧ s.arrange settings = .ok a ∧
      ((a.performance.after [.walk none, .next]).reset none).follow [0, 1] = some p ∧
      p.tempo.span = ⟨336, 668⟩ ∧ 4 ≤ p.tempo.span.stop ∧ p.tempo.span.stop ≤ 1000 ∧
      ∀ bpm, p.tempo.span.start ≤ bpm → bpm ≤ p.tempo.span.stop → 60000000 / bpm.toInt.toNat < 2 ^ 24 := by
  intro m settings
  have harrangement : ∃ s a, m.toScore = .ok s ∧ s.arrange settings = .ok a ∧
      ((((a.performance.after [.walk none, .next]).reset none).follow [0, 1]).any fun p =>
        p.tempo.span = ⟨336, 668⟩) :=
    Manuscript.exists_arrangement (by decide +kernel)
  obtain ⟨s, a, hs, ha, hrun⟩ := harrangement
  obtain ⟨p, hp, hspan⟩ := (Option.any_eq_true _ _).1 hrun
  have hrange := values_in_range ha [.walk none, .next] (.inr ⟨none, [0, 1], hp⟩)
  refine ⟨s, a, p, hs, ha, hp, of_decide_eq_true hspan, hrange.1.2.1, hrange.1.2.2, fun bpm hlow hhigh => ?_⟩
  exact (hrange.2.2.2 bpm (.inl ⟨hlow, hhigh⟩)).2

end Performance

end Gamelan
