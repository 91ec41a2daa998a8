import Gamelan.Proofs.Arrangement.Setup
import Gamelan.Proofs.Performance.Cycles
import Gamelan.Proofs.Performance.Failure
import Gamelan.Proofs.Performance.Repetition

namespace Gamelan

namespace Performance

/-- A performance at its beginning that is arranged for a score: its loops are where their gongans are, and its jumps
stay in the score. -/
structure IsArranged (a : Performance) : Prop where
  placed : a.score.IsPlaced
  complete : a.IsComplete
  fresh : a.IsFresh
  ownLoops : a.HasOwnLoops
  inside : ∀ b key t, (a.jump b).target? key = some (some t) → t < a.score.beats.size

/-- Where a performance can be after it has performed some beats from its beginning on. -/
inductive Reached (a : Performance) : List BeatId → Performance → Prop where
  | start (position? : Option Position) : Reached a [] (a.reset position?)
  | visit {bs : List BeatId} {p : Performance} {b : BeatId} (h : Reached a bs p)
      (hdestination : p.destination? = some b) (hroom : p.steps < p.maxSteps) : Reached a (bs ++ [b]) (p.visit b)

variable {a p q : Performance} {bs : List BeatId} {b c : BeatId}

namespace Reached

theorem isComplete (h : Reached a bs p) (ha : a.IsComplete) : p.IsComplete := by
  induction h with
  | start position? => exact ha.reset position?
  | visit _ _ _ ih => exact ih.visit _

theorem same (h : Reached a bs p) (ha : a.IsComplete) : p.reset none = a.reset none := by
  induction h with
  | start position? => exact reset_reset a none position?
  | visit h _ _ ih => exact ((h.isComplete ha).reset_visit _ none).trans ih

theorem score (h : Reached a bs p) (ha : a.IsComplete) : p.score = a.score := congrArg (·.score) (h.same ha)

theorem steps (h : Reached a bs p) (ha : a.IsComplete) : p.steps = bs.length ∧ p.maxSteps = a.maxSteps := by
  induction h with
  | start position? => exact ⟨rfl, rfl⟩
  | visit h _ _ ih =>
    have hp := h.isComplete ha
    rw [hp.visit_steps, hp.visit_maxSteps, ih.1, List.length_append]
    exact ⟨rfl, ih.2⟩

theorem currentBeat?_eq (h : Reached a bs p) : p.currentBeat? = bs.getLast? := by
  cases h with
  | start position? => rfl
  | visit h _ _ => rw [List.getLast?_concat]; rfl

theorem cursor_ne_finished (h : Reached a bs p) : p.cursor ≠ .finished := by
  cases h with
  | start position? => nofun
  | visit h _ _ => simp [visit_cursor]

/-- The last step on the way. -/
theorem concat_iff : Reached a (bs ++ [b]) q ↔
    ∃ p, Reached a bs p ∧ p.destination? = some b ∧ p.steps < p.maxSteps ∧ q = p.visit b := by
  constructor
  · intro h
    generalize hcs : bs ++ [b] = cs at h
    cases h with
    | start position? => simp at hcs
    | visit h hdestination hroom =>
      obtain ⟨rfl, hb⟩ := List.append_inj' hcs rfl
      obtain rfl := List.singleton_inj.1 hb
      exact ⟨_, h, hdestination, hroom, rfl⟩
  · rintro ⟨p, h, hdestination, hroom, rfl⟩
    exact h.visit hdestination hroom

theorem follow {cs : List BeatId} (h : Reached a bs p) (ha : a.IsComplete) (hq : p.follow cs = some q) :
    Reached a (bs ++ cs) q := by
  induction cs generalizing p bs with
  | nil =>
    obtain rfl := Option.some.inj hq
    rwa [List.append_nil]
  | cons c cs ih =>
    obtain ⟨hdestination, hroom, hrest⟩ := (h.isComplete ha).follow_cons_iff.1 hq
    have hfollow := ih (h.visit hdestination hroom) hrest
    rwa [List.append_assoc] at hfollow

end Reached

namespace IsComplete

variable (ha : a.IsComplete)

include ha

/-- What is reached are the performances that can be followed from a reset. -/
theorem reached_iff : Reached a bs q ↔ ∃ position?, (a.reset position?).follow bs = some q := by
  constructor
  · intro h
    induction h with
    | start position? => exact ⟨position?, rfl⟩
    | visit h hdestination hroom ih =>
      obtain ⟨position?, hp⟩ := ih
      have hnext := (h.isComplete ha).next_eq_beat_iff.2 ⟨hdestination, hroom, rfl⟩
      exact ⟨position?, follow_concat_eq_some_iff.2 ⟨_, hp, hnext⟩⟩
  · rintro ⟨position?, hq⟩
    exact (Reached.start position?).follow ha hq

/-- A performance that performs no more beats goes on performing none. -/
theorem next_idle (h : ∀ b, a.next.1 ≠ .ok (some b)) (b : BeatId) : a.next.2.next.1 ≠ .ok (some b) := by
  cases hnext : a.next.1 with
  | error e =>
    have hagain : a.next.2.next.1 = .error e := (ha.after_next_of_error hnext 1).1
    rw [hagain]
    nofun
  | ok b? =>
    cases b? with
    | none =>
      rw [ha.next_of_end hnext]
      nofun
    | some c => exact absurd hnext (h c)

/-- A performance can be made to stand wherever it can be after its beginning. -/
theorem exists_calls_of_reached (h : Reached a bs q) : ∃ calls, a.after calls = q := by
  induction h with
  | start position? => exact ⟨[.reset position?], rfl⟩
  | visit h hdestination hroom ih =>
    obtain ⟨calls, hp⟩ := ih
    refine ⟨calls ++ [.next], ?_⟩
    have hnext := (h.isComplete ha).next_eq_beat_iff.2 ⟨hdestination, hroom, rfl⟩
    rw [Performance.after, List.foldl_append]
    change (a.after calls).next.2 = _
    rw [hp, hnext]

/-- Whatever is asked of a performance, it is on a way from its beginning, or there is nothing more to perform. -/
theorem reached_or_idle (hstart : a.reset none = a) (calls : List Call) :
    (∃ bs, Reached a bs (a.after calls)) ∨ ∀ b, (a.after calls).next.1 ≠ .ok (some b) := by
  have hreached : Reached a [] a := by
    have hreset := Reached.start (a := a) none
    rwa [hstart] at hreset
  -- A reset leads back to the beginning from everywhere, as all calls leave alone what it restores.
  have hkept : (a.after calls).IsComplete ∧ (∀ position?, (a.after calls).reset position? = a.reset position?) ∧
      ((∃ bs, Reached a bs (a.after calls)) ∨ ∀ b, (a.after calls).next.1 ≠ .ok (some b)) := by
    refine after_invariant ?_ ?_ calls (I := fun r => r.IsComplete ∧
      (∀ position?, r.reset position? = a.reset position?) ∧
        ((∃ bs, Reached a bs r) ∨ ∀ b, r.next.1 ≠ .ok (some b)))
      ⟨ha, fun _ => rfl, .inl ⟨[], hreached⟩⟩
    · rintro r position? ⟨hr, hsame, -⟩
      exact ⟨hr.reset position?, fun position'? => (reset_reset r position'? position?).trans (hsame position'?),
        .inl ⟨[], hsame position? ▸ .start position?⟩⟩
    · rintro r ⟨hr, hsame, hway⟩
      refine ⟨hr.next, fun position? => (hr.reset_next position?).trans (hsame position?), ?_⟩
      by_cases hidle : ∀ b, r.next.1 ≠ .ok (some b)
      · exact .inr (hr.next_idle hidle)
      · obtain ⟨bs, hbs⟩ := hway.resolve_right hidle
        obtain ⟨c, hc⟩ := not_forall_not.1 hidle
        obtain ⟨hdestination, hroom, -⟩ := hr.next_eq_beat_iff.1 (Prod.ext hc rfl)
        rw [hr.next_eq_beat_iff.2 ⟨hdestination, hroom, rfl⟩]
        exact .inl ⟨bs ++ [c], hbs.visit hdestination hroom⟩
  exact hkept.2.2

/-- What can be performed at all is reached from the beginning. -/
theorem next_after_iff (hstart : a.reset none = a) :
    (∃ calls, (a.after calls).next = (.ok (some b), q)) ↔ ∃ bs, Reached a (bs ++ [b]) q := by
  constructor
  · rintro ⟨calls, hnext⟩
    rcases ha.reached_or_idle hstart calls with ⟨bs, hbs⟩ | hidle
    · obtain ⟨hdestination, hroom, rfl⟩ := (hbs.isComplete ha).next_eq_beat_iff.1 hnext
      exact ⟨bs, hbs.visit hdestination hroom⟩
    · exact absurd (congrArg (·.1) hnext) (hidle b)
  · rintro ⟨bs, h⟩
    obtain ⟨p, hp, hdestination, hroom, rfl⟩ := Reached.concat_iff.1 h
    obtain ⟨calls, rfl⟩ := ha.exists_calls_of_reached hp
    exact ⟨calls, (hp.isComplete ha).next_eq_beat_iff.2 ⟨hdestination, hroom, rfl⟩⟩

end IsComplete

namespace Reached

variable (h : Reached a bs p) (ha : a.IsArranged)

include h ha

theorem isPlaced : p.score.IsPlaced := h.score ha.complete ▸ ha.placed

theorem hasOwnLoops : p.HasOwnLoops := ha.ownLoops.of_reset_eq (h.same ha.complete)

theorem isBounded : p.IsBounded := by
  induction h with
  | start position? => exact ha.fresh.isBounded.reset position?
  | visit h _ _ ih => exact ih.visit (h.isComplete ha.complete) _

theorem jump_reset (b : BeatId) : (p.jump b).reset = a.jump b :=
  (jump_reset_congr (h.same ha.complete) b).trans (ha.fresh.jump_reset b)

theorem jump_cycle (b : BeatId) : (p.jump b).counter.cycle = (a.jump b).counter.cycle :=
  congrArg (·.counter.cycle) (h.jump_reset ha b)

theorem loopAt?_reset (b : BeatId) : (p.loopAt? b).map Loop.reset = a.loopAt? b := by
  rw [loopAt?, h.score ha.complete]
  exact (loops_reset_congr (h.same ha.complete) _).trans (ha.fresh.loops_reset _)

/-- From the current beat the flow goes where the loop leads that is running, or else the jump on the pass of the
beat. -/
theorem destination?_eq (hcurrent : p.currentBeat? = some b) : p.destination? =
    ((p.loopAt? b).bind (·.nextBeat? b)).or ((a.jump b).targetOn? p.currentPass) := by
  rw [destination?_eq_of_currentBeat? hcurrent, ← h.jump_reset ha, currentPass_eq hcurrent]
  rfl

/-- The flow stays in the score. -/
theorem destination?_lt (hdestination : p.destination? = some b) : b < a.score.beats.size := by
  have hs := ha.placed
  cases hcursor : p.cursor with
  | notStarted =>
    rw [destination?, hcursor, h.score ha.complete] at hdestination
    obtain ⟨hsize, rfl⟩ := Score.firstBeat?_eq_some_iff.1 hdestination
    exact hsize
  | finished =>
    rw [destination?, hcursor] at hdestination
    cases hdestination
  | «at» c =>
    rw [h.destination?_eq ha (currentBeat?_eq_some_iff.2 hcursor), Option.or_eq_some_iff] at hdestination
    rcases hdestination with hloop | ⟨-, hjump⟩
    · obtain ⟨l, hl, hnext⟩ := Option.bind_eq_some_iff.1 hloop
      obtain ⟨g, hg, hto⟩ := h.hasOwnLoops ha _ l hl
      rw [h.score ha.complete, hs.gongan?_eq_some_iff] at hg
      obtain ⟨-, rfl⟩ : _ ∧ l.toBeat = b := by simpa [Loop.nextBeat?] using hnext
      exact hto ▸ hs.lt_size_of_mem hg.1 (hs.ends_mem hg.1).1
    · obtain ⟨key, ht⟩ := Jump.exists_target?_of_targetOn? hjump
      exact ha.inside c key b ht

/-- What an arrival does to the jumps, wherever the flow goes on to. -/
theorem jump_visit (hdestination : p.destination? = some c) (b : BeatId) : (p.visit c).jump b =
    if b = c then if ((p.visit c).loopAt? c).all (·.counter.value ≤ 1) then (p.jump c).increment else p.jump c
    else if p.enters p.currentBeat? c ∧ b ∈ p.score.earlierBeats c then
      (p.jump b).setCounter ((p.visit c).jump c).counter.value
    else p.jump b :=
  (h.isComplete ha.complete).jump_visit (h.isPlaced ha)
    (h.score ha.complete ▸ h.destination?_lt ha hdestination) b

/-- A loop counts how often the first beat of its gongan is performed. -/
theorem loop_value {l : Loop} (hl : p.loopAt? b = some l) :
    l.counter.value.toNat = Counter.valueAfter l.counter.cycle.toNat (bs.count (a.score.firstBeatOf b)) := by
  induction h generalizing l with
  | start position? =>
    change (a.loops.mapValues Loop.reset).get? _ = some l at hl
    rw [SortedMap.get?_mapValues] at hl
    obtain ⟨k, -, rfl⟩ := Option.map_eq_some_iff.1 hl
    rfl
  | @visit bs p c h hdestination hroom ih =>
    have hp := h.isComplete ha.complete
    rw [hp.loopAt?_visit (h.isPlaced ha) (h.hasOwnLoops ha), h.score ha.complete] at hl
    rw [List.count_append, List.count_singleton]
    by_cases hc : c = a.score.firstBeatOf b
    · rw [if_pos hc] at hl
      obtain ⟨k, hk, rfl⟩ := Option.map_eq_some_iff.1 hl
      rw [if_pos (by simpa using hc)]
      exact Counter.toNat_increment ((h.isBounded ha).loops _ k hk).cycle_pos (ih hk)
    · rw [if_neg hc] at hl
      rw [if_neg (by simpa using hc), Nat.add_zero]
      exact ih hl

end Reached

end Performance

theorem Score.arrange_isArranged {s : Score} {settings : Settings} {a : Arrangement} (hs : s.IsPlaced)
    (h : s.arrange settings = .ok a) : a.performance.IsArranged where
  placed := (arrange_score h).1 ▸ hs
  complete := arrange_isComplete h
  fresh := arrange_isFresh h
  ownLoops := arrange_hasOwnLoops hs h
  inside _ _ _ ht := (arrange_score h).1 ▸ arrange_target_lt hs h ht

end Gamelan
