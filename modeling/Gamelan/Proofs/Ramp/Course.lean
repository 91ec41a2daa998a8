import Gamelan.Proofs.Performance.Beginning
import Gamelan.Proofs.Ramp.Progress

namespace Gamelan

/-- A value that is at its target stays there. -/
theorem Span.stop_eq_of_leadsTo {span : Span} {target : Int32} (h : span.LeadsTo target)
    (hstart : span.start = target) : span.stop = target := by
  rcases h with ⟨hle, hge⟩ | ⟨hge, hle⟩
  · exact Int32.le_antisymm hge (hstart ▸ hle)
  · exact Int32.le_antisymm (hstart ▸ hle) hge

namespace Schedule

def activeRamp? (s : Schedule) : Option Ramp := s.ramps[s.active]?

/-- The ramps that may begin at a beat, in the order they were added. -/
def rampsAt (s : Schedule) (b : BeatId) : List Ramp := ((s.byBeat.get? b).getD []).filterMap (s.ramps[·]?)

/-- Turns to the ramp that begins at a beat, if there is one and it is not active already. -/
def turn (s : Schedule) (b : BeatId) (position? : Option Position) (pass iteration : UInt32) : Schedule :=
  match s.starting? b position? pass iteration with
  | some i => if i = s.active then s else s.activate i
  | none => s

/-- Takes the active ramp one beat on. -/
def advance (s : Schedule) : Schedule := { s with ramps := s.ramps.modify s.active (·.next) }

/-- All ramps are sound, and the active one is running. -/
structure IsSound (quantity : Quantity) (s : Schedule) : Prop where
  ramps : ∀ (i : Nat) (r : Ramp), s.ramps[i]? = some r → r.IsSound quantity
  running : ∃ r st, s.activeRamp? = some r ∧ r.status? = some st

variable {quantity : Quantity} {s : Schedule}

/-- On an arrival, the schedule turns to the ramp that begins, and the active ramp goes on. -/
theorem enter_eq (s : Schedule) (b : BeatId) (position? : Option Position) (pass iteration : UInt32) :
    s.enter b position? pass iteration = (s.turn b position? pass iteration).advance := rfl

theorem starting?_eq_some {b : BeatId} {position? : Option Position} {pass iteration : UInt32} {i : Nat}
    (h : s.starting? b position? pass iteration = some i) :
    ∃ r ∈ s.rampsAt b, s.ramps[i]? = some r ∧ r.isFor position? pass iteration := by
  have hany := List.find?_some h
  obtain ⟨r, hr, hfor⟩ := (Option.any_eq_true _ _).1 hany
  exact ⟨r, List.mem_filterMap.2 ⟨i, List.mem_of_find?_eq_some h, hr⟩, hr, hfor⟩

/-- A schedule stays with its active ramp, or another ramp that begins at the beat starts from the value reached. -/
theorem turn_cases (s : Schedule) (b : BeatId) (position? : Option Position) (pass iteration : UInt32) :
    s.turn b position? pass iteration = s ∨
      ∃ i, ∃ r ∈ s.rampsAt b, i ≠ s.active ∧ s.ramps[i]? = some r ∧ r.isFor position? pass iteration ∧
        s.turn b position? pass iteration = s.activate i := by
  rw [turn]
  cases hstarting : s.starting? b position? pass iteration with
  | none => exact .inl rfl
  | some i =>
    obtain ⟨r, hmem, hr, hfor⟩ := starting?_eq_some hstarting
    by_cases hactive : i = s.active
    · exact .inl (if_pos hactive)
    · exact .inr ⟨i, r, hmem, hactive, hr, hfor, if_neg hactive⟩

theorem activeRamp?_activate {i : Nat} {r : Ramp} (hi : i ≠ s.active) (hr : s.ramps[i]? = some r) :
    (s.activate i).activeRamp? = some (r.start s.span.stop) := by
  simp [activeRamp?, activate, Array.getElem?_modify, Ne.symm hi, hr]

theorem activeRamp?_advance (s : Schedule) : s.advance.activeRamp? = s.activeRamp?.map Ramp.next := by
  simp [activeRamp?, advance, Array.getElem?_modify]

/-- The values of a schedule are those of its active ramp. -/
theorem span_eq {r : Ramp} {st : Ramp.Status} (hr : s.activeRamp? = some r) (hst : r.status? = some st) :
    s.span = st.span := by
  rw [activeRamp?] at hr
  simp [span, hr, Ramp.span?, hst]

theorem sound_modify {rs : Array Ramp} (hrs : ∀ (j : Nat) (r : Ramp), rs[j]? = some r → r.IsSound quantity) (i : Nat)
    {f : Ramp → Ramp} (hf : ∀ r : Ramp, r.IsSound quantity → (f r).IsSound quantity) :
    ∀ (j : Nat) (r : Ramp), (rs.modify i f)[j]? = some r → r.IsSound quantity := by
  intro j r hr
  rw [Array.getElem?_modify] at hr
  split at hr
  · obtain ⟨r', hr', rfl⟩ := Option.map_eq_some_iff.1 hr
    exact hf r' (hrs j r' hr')
  · exact hrs j r hr

/-- The ramps of a beat are the same after a reset but for how far they have come. -/
theorem map_clear_rampsAt_reset (s : Schedule) (b : BeatId) :
    (s.reset.rampsAt b).map Ramp.clear = (s.rampsAt b).map Ramp.clear := by
  have hclear (rs : Array Ramp) (i : Nat) : (rs[i]?).map Ramp.clear = (rs.map Ramp.clear)[i]? :=
    Array.getElem?_map.symm
  rw [rampsAt, rampsAt, List.map_filterMap, List.map_filterMap]
  simp only [hclear, map_clear_reset]
  rfl

theorem ofDefault_isSound {value : Int32} (h : ofDefault quantity value = .ok s) :
    s.IsSound quantity ∧ s.span = ⟨value, value⟩ := by
  obtain ⟨r, hr, h⟩ := bind_eq_ok_iff.1 h
  obtain rfl := Except.ok.inj h
  have hmade := Ramp.isSound_of_make hr
  obtain rfl := Ramp.eq_of_make hr
  refine ⟨⟨fun i r' hr' => ?_, _, _, rfl, rfl⟩, rfl⟩
  obtain ⟨hi, rfl⟩ := Array.getElem?_eq_some_iff.1 hr'
  rw [Array.getElem_singleton]
  exact hmade.start hmade.target

namespace IsSound

variable (hs : s.IsSound quantity)

include hs

theorem accepts_span : quantity.accepts s.span.start ∧ quantity.accepts s.span.stop := by
  obtain ⟨r, st, hr, hst⟩ := hs.running
  have hsound := hs.ramps _ r hr
  rw [span_eq hr hst]
  exact ⟨(hsound.status st hst).start, (hsound.status st hst).stop hsound.target⟩

theorem activate {i : Nat} {r : Ramp} (hi : i ≠ s.active) (hr : s.ramps[i]? = some r) :
    (s.activate i).IsSound quantity where
  ramps := sound_modify (sound_modify hs.ramps _ fun _ hr => hr.clear) _ fun _ hr => hr.start hs.accepts_span.2
  running := ⟨_, _, activeRamp?_activate hi hr, rfl⟩

theorem turn (b : BeatId) (position? : Option Position) (pass iteration : UInt32) :
    (s.turn b position? pass iteration).IsSound quantity := by
  rcases s.turn_cases b position? pass iteration with hstay | ⟨i, r, -, hi, hr, -, hturn⟩
  · rw [hstay]
    exact hs
  · rw [hturn]
    exact hs.activate hi hr

theorem advance : s.advance.IsSound quantity where
  ramps := sound_modify hs.ramps _ fun _ hr => hr.next
  running := by
    obtain ⟨r, st, hr, hst⟩ := hs.running
    obtain ⟨st', hst', -⟩ := (hs.ramps _ r hr).exists_next hst
    exact ⟨r.next, st', by rw [activeRamp?_advance, hr, Option.map_some], hst'⟩

theorem enter (b : BeatId) (position? : Option Position) (pass iteration : UInt32) :
    (s.enter b position? pass iteration).IsSound quantity :=
  (hs.turn b position? pass iteration).advance

theorem reset : s.reset.IsSound quantity := by
  obtain ⟨r, -, hr, -⟩ := hs.running
  have hpos : 0 < s.ramps.size := Nat.zero_lt_of_lt (Array.getElem?_eq_some_iff.1 hr).1
  have hfirst : s.ramps[0]? = some s.ramps[0] := Array.getElem?_eq_getElem hpos
  have hcleared : ∀ (i : Nat) (r : Ramp), (s.ramps.map Ramp.clear)[i]? = some r → r.IsSound quantity := by
    intro i r hr
    rw [Array.getElem?_map] at hr
    obtain ⟨r', hr', rfl⟩ := Option.map_eq_some_iff.1 hr
    exact (hs.ramps i r' hr').clear
  have hdefault : quantity.accepts s.default := by
    rw [default, hfirst]
    exact (hs.ramps 0 _ hfirst).target
  refine ⟨sound_modify hcleared 0 fun _ hr => hr.start hdefault, s.ramps[0].clear.start s.default, _, ?_, rfl⟩
  simp [activeRamp?, Schedule.reset, Array.getElem?_modify, hfirst]

theorem add (b : BeatId) {r : Ramp} (hr : r.IsSound quantity) :
    (s.add b r).IsSound quantity ∧ (s.add b r).span = s.span := by
  obtain ⟨r', st, hr', hst⟩ := hs.running
  have hactive : (s.add b r).activeRamp? = some r' := by
    have hlt : s.active < s.ramps.size := (Array.getElem?_eq_some_iff.1 hr').1
    rw [activeRamp?, Schedule.add, Array.getElem?_push, if_neg (Nat.ne_of_lt hlt)]
    exact hr'
  refine ⟨⟨fun i q hq => ?_, r', st, hactive, hst⟩, ?_⟩
  · rw [Schedule.add, Array.getElem?_push] at hq
    split at hq
    · exact Option.some.inj hq ▸ hr
    · exact hs.ramps i q hq
  · rw [span_eq hactive hst, span_eq hr' hst]

/-- On an arrival, a value goes on from where it has been, unless a sudden change that begins at the beat takes it to
its target; and it goes on towards the target of the active ramp. -/
theorem span_enter (b : BeatId) (position? : Option Position) (pass iteration : UInt32) :
    let t := s.enter b position? pass iteration
    (t.span.start = s.span.stop ∨ t.span.start = t.span.stop ∧
        ∃ r ∈ s.rampsAt b, r.length = 0 ∧ r.isFor position? pass iteration ∧ t.span.stop = r.target) ∧
      ∃ r, t.activeRamp? = some r ∧ t.span.LeadsTo r.target := by
  intro t
  obtain ⟨r, st, hr, hst⟩ := (hs.turn b position? pass iteration).running
  obtain ⟨st', hst', hsound, hstart⟩ := ((hs.turn b position? pass iteration).ramps _ r hr).exists_next hst
  have hactive : t.activeRamp? = some r.next := by
    rw [show t = _ from s.enter_eq b position? pass iteration, activeRamp?_advance, hr, Option.map_some]
  rw [span_eq hactive hst']
  refine ⟨?_, r.next, hactive, hsound.leads⟩
  rcases s.turn_cases b position? pass iteration with hstay | ⟨i, r₀, hmem, hi, hr₀, hfor, hturn⟩
  · rw [hstay] at hr
    exact .inl (hstart.trans (congrArg Span.stop (span_eq hr hst)).symm)
  · rw [hturn, activeRamp?_activate hi hr₀] at hr
    obtain rfl := Option.some.inj hr
    obtain rfl := Option.some.inj hst
    by_cases hlength : r₀.length = 0
    · have htarget : st'.span.start = r₀.target := hstart.trans (if_pos hlength)
      have hstop := Span.stop_eq_of_leadsTo hsound.leads htarget
      exact .inr ⟨htarget.trans hstop.symm, r₀, hmem, hlength, hfor, hstop⟩
    · exact .inl (hstart.trans (if_neg hlength))

end IsSound

end Schedule

end Gamelan
