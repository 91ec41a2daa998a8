import Gamelan.Proofs.Arrangement.Setup
import Gamelan.Proofs.Performance.History
import Gamelan.Proofs.Performance.Lookups
import Gamelan.Proofs.Performance.Range
import Gamelan.Proofs.Performance.Repetition

namespace Gamelan

theorem Schedule.ofDefault_byBeat {quantity : Quantity} {value : Int32} {s : Schedule}
    (h : ofDefault quantity value = .ok s) : s.byBeat = .empty := by
  obtain ⟨r, -, h⟩ := bind_eq_ok_iff.1 h
  obtain rfl := Except.ok.inj h
  rfl

namespace Performance

/-- The references of a performance to beats and gongans stay inside its score: those of its cursor, of its jumps and
their targets, of its loops and of the tables of its ramps. -/
structure IsInside (p : Performance) : Prop where
  placed : p.score.IsPlaced
  complete : p.IsComplete
  cursor : ∀ b, p.currentBeat? = some b → b < p.score.beats.size
  jumps : ∀ b j, p.findJump? b = some j →
    b < p.score.beats.size ∧ ∀ key t, j.target? key = some (some t) → t < p.score.beats.size
  loops : ∀ n l, p.loops.get? n = some l →
    (1 ≤ n ∧ n ≤ p.score.gongans.size) ∧ l.fromBeat < p.score.beats.size ∧ l.toBeat < p.score.beats.size
  ramps : ∀ quantity b is, (p.schedule quantity).byBeat.get? b = some is → b < p.score.beats.size

variable {p q : Performance} {b : BeatId}

theorem jump_of_findJump? {j : Jump} (h : p.findJump? b = some j) : b < p.jumps.size ∧ p.jump b = j := by
  have hj : p.jumps[b]? = some (some j) := Option.join_eq_some_iff.1 h
  exact ⟨(Array.getElem?_eq_some_iff.1 hj).1, by rw [jump, h, Option.getD_some]⟩

theorem IsComplete.findJump?_eq (hp : p.IsComplete) (hb : b < p.jumps.size) : p.findJump? b = some (p.jump b) := by
  obtain ⟨j, hj⟩ := hp.2 b hb
  have hfind : p.findJump? b = some j := congrArg Option.join hj
  rw [hfind, (jump_of_findJump? hfind).2]

theorem During.score_eq {calls : List Call} (hq : p.During calls q) (hp : p.IsComplete) : q.score = p.score := by
  have hafter : (p.after calls).score = p.score :=
    after_invariant (I := fun q => q.score = p.score) (fun _ _ h => h) (fun q h => q.next_score.trans h) calls rfl
  rcases hq with rfl | ⟨position?, bs, hfollow⟩
  · exact hafter
  · exact (((hp.after calls).reset position?).follow_invariant (I := fun q => q.score = p.score)
      (fun q b hq h => (hq.visit_score b).trans h) hafter hfollow).2

namespace IsInside

variable (hp : p.IsInside)

include hp

/-- Jumps, loops and tables are as a reset leaves them, but for what is counted. -/
theorem of_reset_eq (hq : q.IsComplete) (h : q.reset none = p.reset none)
    (hcursor : ∀ b, q.currentBeat? = some b → b < p.score.beats.size) : q.IsInside := by
  have hscore : q.score = p.score := congrArg (·.score) h
  refine ⟨hscore ▸ hp.placed, hq, hscore ▸ hcursor, ?_, ?_, ?_⟩
  · intro b j hj
    -- A reset clears the counter of a jump and keeps its targets.
    obtain ⟨hb, rfl⟩ := jump_of_findJump? hj
    have hsize : q.jumps.size = p.jumps.size := by rw [hq.1, hp.complete.1, hscore]
    obtain ⟨hlt, htargets⟩ := hp.jumps b _ (hp.complete.findJump?_eq (hsize ▸ hb))
    refine ⟨hscore ▸ hlt, fun key t ht => hscore ▸ htargets key t ?_⟩
    have hsame := congrArg (·.target? key) (jump_reset_congr h b)
    cases key with
    | pass n => exact hsame.symm.trans ht
    | otherwise => exact hsame.symm.trans ht
  · intro n l hl
    have hsame := loops_reset_congr h n
    rw [hl] at hsame
    obtain ⟨k, hk, hreset⟩ := Option.map_eq_some_iff.1 hsame.symm
    have hfrom : k.fromBeat = l.fromBeat := congrArg (·.fromBeat) hreset
    have hto : k.toBeat = l.toBeat := congrArg (·.toBeat) hreset
    rw [hscore, ← hfrom, ← hto]
    exact hp.loops n k hk
  · intro quantity b is his
    have hsame : (q.schedule quantity).byBeat = (p.schedule quantity).byBeat := by
      cases quantity with
      | tempo => exact congrArg (·.tempo.byBeat) h
      | dynamics => exact congrArg (·.dynamics.byBeat) h
    rw [hsame] at his
    exact hscore ▸ hp.ramps quantity b is his

/-- The flow stays in the score. -/
theorem destination?_lt (h : p.destination? = some b) : b < p.score.beats.size := by
  cases hcursor : p.cursor with
  | notStarted =>
    rw [destination?, hcursor] at h
    obtain ⟨hsize, rfl⟩ := Score.firstBeat?_eq_some_iff.1 h
    exact hsize
  | finished =>
    rw [destination?, hcursor] at h
    cases h
  | «at» c =>
    have hcurrent := currentBeat?_eq_some_iff.2 hcursor
    have hc := hp.cursor c hcurrent
    rw [destination?_eq_of_currentBeat? hcurrent, Option.or_eq_some_iff] at h
    rcases h with hloop | ⟨-, hjump⟩
    · obtain ⟨l, hl, hnext⟩ := Option.bind_eq_some_iff.1 hloop
      obtain ⟨-, rfl⟩ : _ ∧ l.toBeat = b := by simpa [Loop.nextBeat?] using hnext
      exact (hp.loops _ l hl).2.2
    · obtain ⟨key, ht⟩ := Jump.exists_target?_of_targetOn? hjump
      exact (hp.jumps c _ (hp.complete.findJump?_eq (hp.complete.1 ▸ hc))).2 key b ht

theorem reset (position? : Option Position) : (p.reset position?).IsInside :=
  hp.of_reset_eq (hp.complete.reset position?) (reset_reset p none position?) nofun

theorem visit (hb : b < p.score.beats.size) : (p.visit b).IsInside :=
  hp.of_reset_eq (hp.complete.visit b) (hp.complete.reset_visit b none) fun _ hc => Option.some.inj hc ▸ hb

theorem next : p.next.2.IsInside := by
  rw [hp.complete.next_eq]
  split
  · exact hp
  · cases hdestination : p.destination? with
    | none => exact hp.of_reset_eq hp.complete rfl nofun
    | some b =>
      simp only
      split
      · exact hp.of_reset_eq hp.complete rfl hp.cursor
      · exact hp.visit (hp.destination?_lt hdestination)

theorem after (calls : List Call) : (p.after calls).IsInside :=
  after_invariant (fun _ position? hp => hp.reset position?) (fun _ hp => hp.next) calls hp

theorem follow {bs : List BeatId} (hq : p.follow bs = some q) : q.IsInside := by
  induction bs generalizing p with
  | nil => exact Option.some.inj hq ▸ hp
  | cons b bs ih =>
    obtain ⟨hdestination, -, hrest⟩ := hp.complete.follow_cons_iff.1 hq
    exact ih (hp.visit (hp.destination?_lt hdestination)) hrest

/-- References stay inside during and after all calls. -/
theorem during {calls : List Call} (hq : p.During calls q) : q.IsInside := by
  rcases hq with rfl | ⟨position?, bs, hfollow⟩
  · exact hp.after calls
  · exact ((hp.after calls).reset position?).follow hfollow

end IsInside

end Performance

namespace Arrangement

/-- An accepted directive adds nothing to the tables, or a ramp for a beat of its gongan. -/
theorem directStep_schedule {settings : Settings} {labels : Labels} {p q : Performance} {g : Gongan} {d : Directive}
    (h : directStep settings labels p g d = .ok q) (quantity : Quantity) :
    q.schedule quantity = p.schedule quantity ∨
      ∃ b r, b ∈ g.beats ∧ q.schedule quantity = (p.schedule quantity).add b r := by
  have hadd {quantity' : Quantity} {target : Int32} {extent : Extent} {positions : List Position}
      (h : addRamp p g quantity' target extent positions = .ok q) : q.schedule quantity = p.schedule quantity ∨
        ∃ b r, b ∈ g.beats ∧ q.schedule quantity = (p.schedule quantity).add b r := by
    obtain ⟨b, r, hb, -, -, rfl⟩ := addRamp_eq_ok_iff.1 h
    rw [Performance.schedule_addRamp]
    split
    · exact .inr ⟨b, _, Gongan.mem_of_beatAt? hb, rfl⟩
    · exact .inl rfl
  cases d with
  | label name beat => exact .inl (Except.ok.inj h ▸ rfl)
  | «sequence» names => exact .inl (Except.ok.inj h ▸ rfl)
  | goto label fromBeat? passes cycle? =>
    obtain ⟨target, b, -, -, -, -, rfl⟩ := addGoto_eq_ok_iff.1 h
    cases quantity <;> exact .inl rfl
  | loop count =>
    obtain ⟨-, -, rfl⟩ := addLoop_eq_ok_iff.1 h
    cases quantity <;> exact .inl rfl
  | tempo value extent => exact hadd h
  | dynamics mark extent positions =>
    rw [directStep] at h
    cases hmark : settings.velocityFor? mark with
    | none => simp [hmark] at h
    | some velocity =>
      simp only [hmark] at h
      exact hadd h

end Arrangement

namespace Score

open Arrangement Performance

variable {s : Score} {settings : Settings} {a : Arrangement}

theorem mem_gongans_of_accepted {ds : List (Gongan × Directive)} (h : s.arrange settings = .ok a)
    (hds : s.acceptedDirectives settings = .ok ds) {g : Gongan} {d : Directive} (hd : (g, d) ∈ ds) :
    g ∈ s.gongans.toList := by
  obtain ⟨p, hp, -⟩ := arrange_eq_ok_iff.1 h
  obtain ⟨i, hi, -⟩ := (mem_acceptedDirectives_iff hp hds).1 hd
  exact mem_gongans_of_mem_directives (List.mem_of_getElem? hi)

/-- The tables of an arrangement have ramps for beats of the score. -/
theorem arrange_ramps_lt (hs : s.IsPlaced) (h : s.arrange settings = .ok a) (quantity : Quantity) (b : BeatId)
    (is : List Nat) (his : (a.performance.schedule quantity).byBeat.get? b = some is) : b < s.beats.size := by
  obtain ⟨ds, hds⟩ := exists_acceptedDirectives h
  refine arrange_invariant_of_accepted (I := fun p => ∀ b is, (p.schedule quantity).byBeat.get? b = some is →
    b < s.beats.size) h hds ?_ ?_ ?_ b is his
  · intro p hp b is his
    have hempty : (p.schedule quantity).byBeat = .empty := by
      obtain ⟨tempo, dynamics, htempo, hdynamics, rfl⟩ := plain_eq_ok_iff.1 hp
      rw [createJumps_eq]
      cases quantity with
      | tempo => exact Schedule.ofDefault_byBeat htempo
      | dynamics => exact Schedule.ofDefault_byBeat hdynamics
    rw [hempty] at his
    cases his
  · intro p q g d hd _ hI hq b is his
    rcases directStep_schedule hq quantity with hsame | ⟨c, r, hc, hadd⟩
    · exact hI b is (hsame ▸ his)
    · rw [hadd, Schedule.add, SortedMap.alter, SortedMap.get?_insert] at his
      split at his
      next heq => exact heq ▸ hs.lt_size_of_mem (mem_gongans_of_accepted h hds hd) hc
      · exact hI b is his
  · intro p q g d _ _ hI hq
    refine sequenceStep_invariant (I := fun q => ∀ b is, (q.schedule quantity).byBeat.get? b = some is →
      b < s.beats.size) (fun q e f _ hI => ?_) hI hq
    cases quantity <;> exact hI

theorem arrange_isInside (hs : s.IsPlaced) (h : s.arrange settings = .ok a) : a.performance.IsInside := by
  have hscore := (arrange_score h).1
  have hcomplete := arrange_isComplete h
  have hsize : a.performance.jumps.size = s.beats.size := by rw [hcomplete.1, hscore]
  refine ⟨hscore ▸ hs, hcomplete, ?_, ?_, ?_, ?_⟩ <;> rw [hscore]
  · intro b hb
    rw [currentBeat?, (arrange_isFresh h).cursor] at hb
    cases hb
  · intro b j hj
    obtain ⟨hb, rfl⟩ := jump_of_findJump? hj
    exact ⟨hsize ▸ hb, fun key t ht => arrange_target_lt hs h ht⟩
  · intro n l hl
    obtain ⟨ds, hds⟩ := exists_acceptedDirectives h
    obtain ⟨g, count, hd, rfl, rfl⟩ := (arrange_loops_iff h hds).1 hl
    have hg := mem_gongans_of_accepted h hds hd
    obtain ⟨hfirst, hlast⟩ := hs.ends_mem hg
    obtain ⟨beat, g', hstands⟩ := hs.exists_standsAt (hs.lt_size_of_mem hg hfirst)
    have hnumber : beat.gongan = g.id := hstands.gonganOf_eq.symm.trans (hs.gonganOf_of_mem hg hfirst).1
    exact ⟨hnumber ▸ hstands.number, hs.lt_size_of_mem hg hlast, hs.lt_size_of_mem hg hfirst⟩
  · exact arrange_ramps_lt hs h

end Score

end Gamelan
