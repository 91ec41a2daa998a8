import Gamelan.Proofs.Midi.Parts

namespace Gamelan

namespace Midi

/-- Whether an event begins or ends a note with a key on a channel. -/
def Event.isNote (kind : NoteKind) (channel key : UInt8) (e : Event) : Bool := e.note? = some (kind, channel, key)

def countNotes (kind : NoteKind) (channel key : UInt8) (track : Track) : Nat :=
  track.countP (·.event.isNote kind channel key)

namespace Sound

theorem onset_lt_off {x : Sound} (h : x.onset ≠ lastOfAllTicks) : x.onset < x.off := by
  have hlt : x.onset.toNat + 1 < 2 ^ 32 := by
    have hbound := x.onset.toNat_lt
    rw [← UInt32.toNat_inj.ne] at h
    change x.onset.toNat ≠ 4294967295 at h
    omega
  rw [UInt32.lt_iff_toNat_lt, off, UInt32.toNat_max, UInt32.toNat_add]
  change x.onset.toNat < max x.stop.toNat ((x.onset.toNat + 1) % 2 ^ 32)
  rw [Nat.mod_eq_of_lt hlt]
  omega

end Sound

variable {position : Position} {channel program : UInt8} {sounds : List Sound} {ordered : List Timed}
  {track : Track}

theorem countP_flatMap_events {P : Timed → Bool} {Q : Sound → Bool}
    (h : ∀ x : Sound, (x.events channel).countP P = if Q x then 1 else 0) (sounds : List Sound) :
    (sounds.flatMap (Sound.events channel)).countP P = sounds.countP Q := by
  induction sounds with
  | nil => rfl
  | cons x sounds ih => rw [List.flatMap_cons, List.countP_append, h, ih, List.countP_cons, Nat.add_comm]

theorem countP_begun (key : UInt8) (P : UInt32 → Bool) (sounds : List Sound) :
    (sounds.flatMap (Sound.events channel)).countP (fun e => e.event.isNote .on channel key && P e.tick) =
      sounds.countP fun x => x.key = key && P x.onset := by
  refine countP_flatMap_events (fun x => ?_) sounds
  simp [Sound.events, Sound.onEvent, Sound.offEvent, Event.isNote, Event.note?, List.countP_cons]

theorem countP_ended (key : UInt8) (P : UInt32 → Bool) (sounds : List Sound) :
    (sounds.flatMap (Sound.events channel)).countP (fun e => e.event.isNote .off channel key && P e.tick) =
      sounds.countP fun x => x.key = key && P x.off := by
  refine countP_flatMap_events (fun x => ?_) sounds
  simp [Sound.events, Sound.onEvent, Sound.offEvent, Event.isNote, Event.note?, List.countP_cons]

namespace IsTrackOf

/-- An event that is not before another one by tick and order comes after it. -/
theorem lt_of_not_isBefore (h : IsTrackOf position channel program sounds ordered track) {a b : Timed} {i j : Nat}
    (hi : ordered[i]? = some a) (hj : ordered[j]? = some b) (hafter : ¬ b.isBefore a) : i < j := by
  refine Nat.lt_of_not_le fun hle => hafter (Timed.isBefore_iff.2 ?_)
  rcases Nat.eq_or_lt_of_le hle with rfl | hlt
  · obtain rfl := Option.some.inj (hi.symm.trans hj)
    exact .inr ⟨rfl, Nat.le_refl _⟩
  · obtain ⟨hi', rfl⟩ := List.getElem?_eq_some_iff.1 hi
    obtain ⟨hj', rfl⟩ := List.getElem?_eq_some_iff.1 hj
    exact List.pairwise_iff_getElem.1 h.order.sorted j i hj' hi' hlt

theorem countP_begun (h : IsTrackOf position channel program sounds ordered track) (key : UInt8) (P : UInt32 → Bool) :
    ordered.countP (fun e => e.event.isNote .on channel key && P e.tick) =
      sounds.countP fun x => x.key = key && P x.onset :=
  (h.order.perm.countP_eq _).trans (Midi.countP_begun key P sounds)

theorem countP_ended (h : IsTrackOf position channel program sounds ordered track) (key : UInt8) (P : UInt32 → Bool) :
    ordered.countP (fun e => e.event.isNote .off channel key && P e.tick) =
      sounds.countP fun x => x.key = key && P x.off :=
  (h.order.perm.countP_eq _).trans (Midi.countP_ended key P sounds)

/-- The head and the end of a track are not of notes. -/
theorem countNotes_take (h : IsTrackOf position channel program sounds ordered track) (kind : NoteKind) (key : UInt8)
    (n : Nat) :
    countNotes kind channel key (track.take (n + 2)) = (ordered.take n).countP (·.event.isNote kind channel key) := by
  have hevents : countNotes kind channel key (track.take (n + 2)) =
      ((track.map (·.event)).take (n + 2)).countP (·.isNote kind channel key) := by
    rw [← List.map_take, List.countP_map]
    rfl
  have hend : ([Event.endOfTrack].take (n - (ordered.map (·.event)).length)).countP (·.isNote kind channel key) = 0 :=
    List.countP_eq_zero.2 fun e he => by
      obtain rfl := List.mem_singleton.1 (List.mem_of_mem_take he)
      simp [Event.isNote, Event.note?]
  rw [hevents, h.events, List.take_succ_cons, List.take_succ_cons, List.take_append, ← List.map_take,
    List.countP_cons_of_neg (by simp [Event.isNote, Event.note?]),
    List.countP_cons_of_neg (by simp [Event.isNote, Event.note?]), List.countP_append, hend, List.countP_map]
  rfl

/-- The end of a note follows its beginning. -/
theorem lt_of_onset_ne (h : IsTrackOf position channel program sounds ordered track) {x : Sound}
    (hx : x.onset ≠ lastOfAllTicks) {i j : Nat} (hi : ordered[i]? = some (x.onEvent channel))
    (hj : ordered[j]? = some (x.offEvent channel)) : i < j :=
  h.lt_of_not_isBefore hi hj fun hle => UInt32.not_le.2 (Sound.onset_lt_off hx) (Timed.tick_le_of_isBefore hle)

/-- As many notes end as begin. -/
theorem countP_isNote (h : IsTrackOf position channel program sounds ordered track) (kind : NoteKind) (key : UInt8) :
    ordered.countP (·.event.isNote kind channel key) = sounds.countP (·.key = key) := by
  cases kind with
  | on => simpa using h.countP_begun key fun _ => true
  | off => simpa using h.countP_ended key fun _ => true

/-- If there is a tick after every beginning, no end comes too early: what has ended up to an event ends at its tick
or before, so it began at a tick in front of it, and all events at such ticks are in front of it too. -/
theorem countP_take_le (h : IsTrackOf position channel program sounds ordered track) {key : UInt8}
    (hroom : ∀ x ∈ sounds, x.key = key → x.onset ≠ lastOfAllTicks) (n : Nat) :
    (ordered.take n).countP (·.event.isNote .off channel key) ≤
      (ordered.take n).countP (·.event.isNote .on channel key) := by
  rcases List.eq_nil_or_concat' (ordered.take n) with hnil | ⟨init, e, htake⟩
  · rw [hnil]
    exact Nat.le_refl _
  have hsplit : ordered.take n ++ ordered.drop n = ordered := List.take_append_drop n ordered
  have hsorted := h.order.sorted
  rw [← hsplit, List.pairwise_append] at hsorted
  have htick {a b : Timed} (hab : a.tick < b.tick ∨ a.tick = b.tick ∧ a.order ≤ b.order) : a.tick ≤ b.tick :=
    Timed.tick_le_of_isBefore (Timed.isBefore_iff.2 hab)
  have hbefore : ∀ a ∈ ordered.take n, a.tick ≤ e.tick := by
    intro a ha
    rw [htake] at ha hsorted
    rcases List.mem_append.1 ha with ha | ha
    · exact htick ((List.pairwise_append.1 hsorted.1).2.2 a ha e (.head _))
    · obtain rfl := List.mem_singleton.1 ha
      exact UInt32.le_refl _
  have hafter : ∀ b ∈ ordered.drop n, e.tick ≤ b.tick := fun b hb =>
    htick (hsorted.2.2 e (htake ▸ List.mem_append_right _ (.head _)) b hb)
  calc (ordered.take n).countP (·.event.isNote .off channel key)
      = (ordered.take n).countP fun a => a.event.isNote .off channel key && decide (a.tick ≤ e.tick) :=
        List.countP_congr fun a ha => by simp [hbefore a ha]
    _ ≤ ordered.countP fun a => a.event.isNote .off channel key && decide (a.tick ≤ e.tick) :=
        (List.take_sublist n ordered).countP_le
    _ = sounds.countP fun x => x.key = key && decide (x.off ≤ e.tick) :=
        h.countP_ended key fun tick => decide (tick ≤ e.tick)
    _ ≤ sounds.countP fun x => x.key = key && decide (x.onset < e.tick) := by
        refine List.countP_mono_left fun x hx hended => ?_
        simp only [Bool.and_eq_true, decide_eq_true_eq] at hended ⊢
        exact ⟨hended.1, UInt32.lt_of_lt_of_le (Sound.onset_lt_off (hroom x hx hended.1)) hended.2⟩
    _ = ordered.countP fun a => a.event.isNote .on channel key && decide (a.tick < e.tick) :=
        (h.countP_begun key fun tick => decide (tick < e.tick)).symm
    _ = (ordered.take n).countP fun a => a.event.isNote .on channel key && decide (a.tick < e.tick) := by
        have hnone : (ordered.drop n).countP
            (fun a => a.event.isNote .on channel key && decide (a.tick < e.tick)) = 0 :=
          List.countP_eq_zero.2 fun b hb => by simp [UInt32.not_lt.2 (hafter b hb)]
        rw [← Nat.add_zero (List.countP _ (ordered.take n)), ← hnone, ← List.countP_append, hsplit]
    _ ≤ (ordered.take n).countP (·.event.isNote .on channel key) :=
        List.countP_mono_left fun a _ hbegun => (Bool.and_eq_true_iff.1 hbegun).1

/-- If there is a tick after every beginning, no end of a note comes too early. -/
theorem countNotes_le (h : IsTrackOf position channel program sounds ordered track) {key : UInt8}
    (hroom : ∀ x ∈ sounds, x.key = key → x.onset ≠ lastOfAllTicks) (n : Nat) :
    countNotes .off channel key (track.take n) ≤ countNotes .on channel key (track.take n) := by
  have hhead (kind : NoteKind) (n : Nat) (hn : n ≤ 2) : countNotes kind channel key (track.take n) = 0 := by
    have htwo := h.countNotes_take kind key 0
    rw [List.take_zero, List.countP_nil] at htwo
    refine Nat.eq_zero_of_le_zero (htwo ▸ (List.take_prefix_take_left hn).sublist.countP_le)
  rcases Nat.lt_or_ge n 2 with hn | hn
  · rw [hhead .off n (Nat.le_of_lt hn)]
    exact Nat.zero_le _
  · obtain ⟨n, rfl⟩ := Nat.exists_eq_add_of_le' hn
    rw [h.countNotes_take, h.countNotes_take]
    exact h.countP_take_le hroom n

theorem countNotes_eq (h : IsTrackOf position channel program sounds ordered track) (kind : NoteKind) (key : UInt8) :
    countNotes kind channel key track = sounds.countP (·.key = key) := by
  have hlength : ordered.length ≤ track.length := by
    have hevents := congrArg List.length h.events
    simp only [List.length_map, List.length_cons, List.length_append] at hevents
    omega
  have hall := h.countNotes_take kind key track.length
  rwa [List.take_of_length_le (Nat.le_add_right _ _), List.take_of_length_le hlength, h.countP_isNote] at hall

end IsTrackOf

end Midi

namespace Performance

open Midi

/-- Every note that begins also ends, later: in the track of a part the end of a note comes after its beginning, at a
later tick, as many notes end as begin on every key, and no end comes too early. A note that begins at the last tick has
no tick for its end. Then, or for a loudness without room, there is no track: the program stops. All this holds for every
rule that turns times into ticks. -/
theorem part_ends_later {p : Performance} (settings : Settings) {position : Position} (instrument : Instrument)
    {played : Array Played} (hwalk : (p.walk (some position)).1 = .ok played) :
    (p.part settings position instrument).1 =
        partTrack (toTick settings.ppq) position instrument (p.measures position played) ∧
      ∀ tick,
        let channel := instrument.channel &&& 0x0f
        let sounds := partSounds tick (p.measures position played)
        let out := partTrack tick position instrument (p.measures position played)
        ((∃ x ∈ sounds, ¬ x.IsPlayable) → out = .error .overflow) ∧
          ((∀ x ∈ sounds, x.IsPlayable) → ∃ track ordered, out = .ok track ∧
            IsTrackOf position channel (instrument.program &&& 0x7f) sounds ordered track ∧
            (∀ x ∈ sounds, x.onset < x.off ∧ ∀ i j : Nat, ordered[i]? = some (x.onEvent channel) →
              ordered[j]? = some (x.offEvent channel) → i < j) ∧
            ∀ key, countNotes .off channel key track = countNotes .on channel key track ∧
              ∀ n, countNotes .off channel key (track.take n) ≤ countNotes .on channel key (track.take n)) := by
  refine ⟨by rw [part_fst, hwalk]; rfl, fun tick => ?_⟩
  intro channel sounds out
  refine ⟨fun hunplayable => partTrack_eq_error_iff.2 ⟨rfl, hunplayable⟩, fun hplayable => ?_⟩
  have hout : out = .ok _ := partTrack_eq_ok_iff.2 ⟨hplayable, rfl⟩
  obtain ⟨ordered, htrack⟩ := exists_isTrackOf hout
  refine ⟨_, ordered, hout, htrack, fun x hx => ⟨Sound.onset_lt_off (hplayable x hx).2, ?_⟩, fun key => ⟨?_, ?_⟩⟩
  · exact fun i j hi hj => htrack.lt_of_onset_ne (hplayable x hx).2 hi hj
  · exact (htrack.countNotes_eq .off key).trans (htrack.countNotes_eq .on key).symm
  · exact htrack.countNotes_le fun x hx _ => (hplayable x hx).2

/-- Two notes of one key, the second one right after the first. -/
theorem part_ends_later_of_repeated_key :
    let m : Manuscript := { gongans := [{ beats := [{
      notes := .ofList [("gangsa", [⟨some 60, 0.5⟩, ⟨some 60, 0.5⟩])] }] }] }
    ∃ s a played track, m.toScore = .ok s ∧ s.arrange {} = .ok a ∧
      (a.performance.walk (some "gangsa")).1 = .ok played ∧
      ((partSounds (toTick 96) (a.performance.measures "gangsa" played)).map fun x => (x.key, x.onset, x.off)) =
        [(60, 0, 48), (60, 48, 96)] ∧
      (a.performance.part {} "gangsa" { channel := 0 }).1 = .ok track ∧
      countNotes .off 0 60 track = countNotes .on 0 60 track ∧
        ∀ n, countNotes .off 0 60 (track.take n) ≤ countNotes .on 0 60 (track.take n) := by
  intro m
  have harrangement : ∃ s a, m.toScore = .ok s ∧ s.arrange {} = .ok a ∧
      ((a.performance.walk (some "gangsa")).1.toOption.any fun played =>
        let sounds := partSounds (toTick 96) (a.performance.measures "gangsa" played)
        (sounds.map fun x => (x.key, x.onset, x.off)) = [(60, 0, 48), (60, 48, 96)] ∧ ∀ x ∈ sounds, x.IsPlayable) :=
    Manuscript.exists_arrangement (by decide +kernel)
  obtain ⟨s, a, hs, ha, hrun⟩ := harrangement
  obtain ⟨played, hplayed, hfacts⟩ := (Option.any_eq_true _ _).1 hrun
  obtain ⟨hsounds, hplayable⟩ := of_decide_eq_true hfacts
  have hwalk := toOption_eq_some_iff.1 hplayed
  obtain ⟨hpart, hticks⟩ := part_ends_later {} { channel := 0 } hwalk
  obtain ⟨track, ordered, htrack, -, -, hcounts⟩ := (hticks (toTick 96)).2 hplayable
  exact ⟨s, a, played, track, hs, ha, hwalk, hsounds, hpart.trans htrack, hcounts 60⟩

/-- After a very long beat a note begins at the last tick, and the program stops where it looks for the next one. -/
theorem part_overflows_after_long_beat :
    let m : Manuscript := { gongans := [{ beats := [{ duration := 1e10 },
      { notes := .ofList [("gangsa", [⟨some 60, 1⟩])] }] }] }
    ∃ s a played, m.toScore = .ok s ∧ s.arrange {} = .ok a ∧
      (a.performance.walk (some "gangsa")).1 = .ok played ∧
      ((partSounds (toTick 96) (a.performance.measures "gangsa" played)).map fun x => (x.key, x.onset)) =
        [(60, lastOfAllTicks)] ∧
      (a.performance.part {} "gangsa" { channel := 0 }).1 = .error .overflow := by
  intro m
  have harrangement : ∃ s a, m.toScore = .ok s ∧ s.arrange {} = .ok a ∧
      (a.performance.walk (some "gangsa")).1.toOption.map (fun played =>
        (partSounds (toTick 96) (a.performance.measures "gangsa" played)).map fun x => (x.key, x.onset)) =
          some [(60, lastOfAllTicks)] :=
    Manuscript.exists_arrangement (by decide +kernel)
  obtain ⟨s, a, hs, ha, hsounds⟩ := harrangement
  obtain ⟨played, hplayed, hsounds⟩ := Option.map_eq_some_iff.1 hsounds
  have hwalk := toOption_eq_some_iff.1 hplayed
  obtain ⟨x, hx, hvalues⟩ := List.mem_map.1 (hsounds ▸ List.mem_singleton_self _)
  refine ⟨s, a, played, hs, ha, hwalk, hsounds, ?_⟩
  rw [part_fst, hwalk]
  exact partTrack_eq_error_iff.2 ⟨rfl, x, hx, fun hplayable => hplayable.2 (Prod.mk.inj hvalues).2⟩

end Performance

end Gamelan
