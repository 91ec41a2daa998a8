import Gamelan.Proofs.Performance.Limit
import Gamelan.Proofs.Performance.Reached
import Mathlib.Algebra.Ring.Nat
import Mathlib.Data.List.Chain

namespace Gamelan

namespace Performance

/-- The count of the loop of a gongan, zero without one. -/
def loopCount (p : Performance) (g : Gongan) : Nat := (p.loops.get? g.id).elim 0 (·.counter.cycle.toNat)

/-- How many beats there is room for in a gongan: those of an entry, and those of each round of its loop. -/
def room (p : Performance) (g : Gongan) : Nat := g.beats.length * (p.loopCount g + 1)

/-- How many beats there is room for in the gongans after the first `n`. -/
def roomAfter (p : Performance) (n : Nat) : Nat := ((p.score.gongans.toList.drop n).map p.room).sum

/-- The rounds that the loop at a beat has left. -/
def roundsLeft (p : Performance) (b : BeatId) : Nat :=
  (p.loopAt? b).elim 0 fun l => l.counter.cycle.toNat - l.counter.value.toNat

/-- How many beats are left at most in the gongan of a beat, as long as the flow goes back by the loop only. -/
def leftAt (p : Performance) (b : BeatId) : Nat :=
  p.score.lastBeatOf b - b + p.roundsLeft b * (p.score.lastBeatOf b + 1 - p.score.firstBeatOf b)

/-- How many beats are left at most, as long as the flow goes back by loops only. -/
def left (a p : Performance) : Nat :=
  p.currentBeat?.elim (a.roomAfter 0) fun b => p.leftAt b + a.roomAfter (a.score.gonganOf b)

/-- All jumps lead to later beats. -/
def LeadsForward (a : Performance) : Prop := ∀ b key t, (a.jump b).target? key = some (some t) → b < t

variable {a p q : Performance} {bs : List BeatId} {b c : BeatId} {g : Gongan}

/-- There is room for a gongan in front of what comes after it. -/
theorem room_add_roomAfter_le {n : Nat} (hn : n < a.score.gonganOf b)
    (hg : a.score.gongan? (a.score.gonganOf b) = some g) :
    a.room g + a.roomAfter (a.score.gonganOf b) ≤ a.roomAfter n := by
  obtain ⟨k, hk⟩ := Nat.exists_eq_add_of_lt hn
  rw [hk, Score.gongan?, ← Array.getElem?_toList] at hg
  obtain ⟨hlt, hget⟩ := List.getElem?_eq_some_iff.1 hg
  have hdrop : (a.score.gongans.toList.drop n).drop k = g :: a.score.gongans.toList.drop (n + k + 1) := by
    rw [List.drop_drop, List.drop_eq_getElem_cons hlt, hget]
  rw [roomAfter, roomAfter, hk, ← List.take_append_drop k (a.score.gongans.toList.drop n), hdrop, List.map_append,
    List.sum_append_nat, List.map_cons, List.sum_cons]
  exact Nat.le_add_left _ _

section Room

variable (h : p.reset none = a.reset none) (hs : a.score.IsPlaced)

include h in
theorem roundsLeft_le (hof : g.id = a.score.gonganOf b) : p.roundsLeft b ≤ a.loopCount g := by
  have hscore : p.score = a.score := congrArg (·.score) h
  have hloops := loops_reset_congr h g.id
  rw [roundsLeft, loopCount, loopAt?, hscore, ← hof]
  cases hl : p.loops.get? g.id with
  | none => exact Nat.zero_le _
  | some l =>
    rw [hl] at hloops
    obtain ⟨k, hk, hreset⟩ := Option.map_eq_some_iff.1 hloops.symm
    have hcycle : k.counter.cycle = l.counter.cycle := congrArg (·.counter.cycle) hreset
    rw [hk, Option.elim_some, Option.elim_some, hcycle]
    exact Nat.sub_le _ _

include h hs

/-- What is left of a gongan on the arrival at one of its beats is less than it has room for. -/
theorem leftAt_lt_room (hb : b < a.score.beats.size) (hg : a.score.gongan? (a.score.gonganOf b) = some g) :
    p.leftAt b < a.room g := by
  have hscore : p.score = a.score := congrArg (·.score) h
  obtain ⟨g', -, hfound, hfirst, hlast, hle, hlt, -⟩ := hs.home hb
  obtain rfl := Option.some.inj (hg.symm.trans hfound)
  have hrounds := Nat.mul_le_mul_left g.beats.length (roundsLeft_le h (hs.gongan?_eq_some_iff.1 hg).2)
  rw [leftAt, room, hscore, hfirst, hlast, Nat.add_sub_cancel_left, Nat.mul_comm _ g.beats.length, Nat.mul_add]
  lia

theorem leftAt_add_roomAfter_lt {n : Nat} (hb : b < a.score.beats.size) (hn : n < a.score.gonganOf b) :
    p.leftAt b + a.roomAfter (a.score.gonganOf b) < a.roomAfter n := by
  obtain ⟨g, -, hg, -⟩ := hs.home hb
  have hentry := leftAt_lt_room h hs hb hg
  have hafter := room_add_roomAfter_le hn hg
  lia

end Room

namespace Reached

variable (h : Reached a bs p) (ha : a.IsArranged)

include h ha

section Visit

variable (hc : c < a.score.beats.size)

include hc

/-- On the way to a later beat of a gongan, fewer beats are left of the round. -/
theorem leftAt_visit_of_lt (hbc : b < c) (hof : a.score.gonganOf c = a.score.gonganOf b) :
    (p.visit c).leftAt c < p.leftAt b := by
  have hscore := h.score ha.complete
  have hp := h.isComplete ha.complete
  have hb := Nat.lt_trans hbc hc
  have hfirst := ha.placed.firstBeatOf_congr hb hof
  have hlast := ha.placed.lastBeatOf_congr hb hof
  obtain ⟨hle, -⟩ := ha.placed.beat_bounds hb
  obtain ⟨-, hend, -⟩ := ha.placed.beat_bounds hc
  have hrounds : (p.visit c).roundsLeft c = p.roundsLeft b := by
    rw [roundsLeft, hp.loopAt?_visit (h.isPlaced ha) (h.hasOwnLoops ha), hscore, hfirst, if_neg (by lia), roundsLeft,
      loopAt?, loopAt?, hscore, hof]
  rw [leftAt, leftAt, hrounds, hp.visit_score, hscore, hfirst, hlast]
  lia

/-- On the way back in a loop, one of its rounds is begun. -/
theorem leftAt_visit_of_loop {l : Loop} (hl : p.loopAt? b = some l) (hround : l.counter.value < l.counter.cycle)
    (hb : b < a.score.beats.size) (hfirst : c = a.score.firstBeatOf b)
    (hof : a.score.gonganOf c = a.score.gonganOf b) : (p.visit c).leftAt c < p.leftAt b := by
  have hscore := h.score ha.complete
  have hp := h.isComplete ha.complete
  have hfirst' : a.score.firstBeatOf c = c := (ha.placed.firstBeatOf_congr hb hof).trans hfirst.symm
  have hlast := ha.placed.lastBeatOf_congr hb hof
  obtain ⟨-, hend, -⟩ := ha.placed.beat_bounds hc
  have hlt := UInt32.lt_iff_toNat_lt.1 hround
  have hvalue : l.counter.increment.value.toNat = l.counter.value.toNat + 1 := by
    rw [((h.isBounded ha).loops _ l hl).toNat_increment, Counter.valueAfter_of_le hlt]
  have hrounds : (p.visit c).roundsLeft c + 1 = p.roundsLeft b := by
    have hlc : p.loopAt? c = some l := by rwa [loopAt?, hscore, hof, ← hscore]
    rw [roundsLeft, hp.loopAt?_visit (h.isPlaced ha) (h.hasOwnLoops ha), hscore, if_pos hfirst'.symm, hlc, roundsLeft,
      hl]
    simp only [Option.map_some, Option.elim_some, Loop.increment, hvalue]
    change l.counter.cycle.toNat - _ + 1 = _
    lia
  rw [leftAt, leftAt, ← hrounds, hp.visit_score, hscore, hfirst', hlast, ← hfirst, Nat.add_mul, Nat.one_mul]
  lia

end Visit

/-- The beat that is performed is one of the score. -/
theorem lt_size (hcurrent : p.currentBeat? = some b) : b < a.score.beats.size := by
  cases h with
  | start position? => cases hcurrent
  | visit h hdestination _ =>
    obtain rfl := Option.some.inj hcurrent
    exact h.destination?_lt ha hdestination

variable (hforward : a.LeadsForward) (hdestination : p.destination? = some c)

include hforward hdestination

/-- The flow begins with the first beat, goes forward, or goes back by a loop that has rounds left. -/
theorem destination_cases : p.currentBeat? = none ∨ ∃ b, p.currentBeat? = some b ∧
    (b < c ∨ ∃ l, p.loopAt? b = some l ∧ l.counter.value < l.counter.cycle ∧ c = a.score.firstBeatOf b ∧
      a.score.gonganOf c = a.score.gonganOf b) := by
  cases hcurrent : p.currentBeat? with
  | none => exact .inl rfl
  | some b =>
    refine .inr ⟨b, rfl, ?_⟩
    rw [h.destination?_eq ha hcurrent, Option.or_eq_some_iff] at hdestination
    rcases hdestination with hloop | ⟨-, hjump⟩
    · obtain ⟨l, hl, hnext⟩ := Option.bind_eq_some_iff.1 hloop
      obtain ⟨⟨-, hround⟩, rfl⟩ : (b = l.fromBeat ∧ l.counter.value < l.counter.cycle) ∧ l.toBeat = c := by
        simpa [Loop.nextBeat?] using hnext
      obtain ⟨hto, hof⟩ := (h.hasOwnLoops ha).toBeat_eq (h.isPlaced ha) hl
      rw [h.score ha.complete] at hto hof
      exact .inr ⟨l, hl, hround, hto, hto ▸ hof⟩
    · obtain ⟨key, ht⟩ := Jump.exists_target?_of_targetOn? hjump
      exact .inl (hforward b key c ht)

/-- The flow does not go back to an earlier gongan. -/
theorem gonganOf_le (hcurrent : p.currentBeat? = some b) : a.score.gonganOf b ≤ a.score.gonganOf c := by
  rcases h.destination_cases ha hforward hdestination with hnone | ⟨b', hb', hlt | ⟨-, -, -, -, hof⟩⟩
  · rw [hcurrent] at hnone
    cases hnone
  · obtain rfl := Option.some.inj (hcurrent.symm.trans hb')
    exact ha.placed.gonganOf_le_of_le (h.destination?_lt ha hdestination) (Nat.le_of_lt hlt)
  · obtain rfl := Option.some.inj (hcurrent.symm.trans hb')
    exact Nat.le_of_eq hof.symm

/-- With every beat fewer beats are left. -/
theorem left_visit : left a (p.visit c) < left a p := by
  have hs := ha.placed
  have hc := h.destination?_lt ha hdestination
  have hsame : (p.visit c).reset none = a.reset none :=
    ((h.isComplete ha.complete).reset_visit c none).trans (h.same ha.complete)
  change (p.visit c).leftAt c + a.roomAfter (a.score.gonganOf c) < _
  rcases h.destination_cases ha hforward hdestination with hnone | ⟨b, hb, hcase⟩
  · rw [left, hnone]
    exact leftAt_add_roomAfter_lt hsame hs hc (hs.gonganOf_pos hc)
  · rw [left, hb]
    change _ < p.leftAt b + a.roomAfter (a.score.gonganOf b)
    by_cases hof : a.score.gonganOf c = a.score.gonganOf b
    · rw [hof]
      refine Nat.add_lt_add_right ?_ _
      rcases hcase with hlt | ⟨l, hl, hround, hfirst, -⟩
      · exact h.leftAt_visit_of_lt ha hc hlt hof
      · exact h.leftAt_visit_of_loop ha hc hl hround (h.lt_size ha hb) hfirst hof
    · have hle := h.gonganOf_le ha hforward hdestination hb
      exact Nat.lt_of_lt_of_le (leftAt_add_roomAfter_lt hsame hs hc (Nat.lt_of_le_of_ne hle (Ne.symm hof)))
        (Nat.le_add_left _ _)

end Reached

namespace Reached

variable (h : Reached a bs p) (ha : a.IsArranged) (hforward : a.LeadsForward)

include h ha hforward

/-- What has been performed and what is left have room in the score. -/
theorem length_add_left_le : bs.length + left a p ≤ a.roomAfter 0 := by
  induction h with
  | start position? => exact Nat.le_of_eq (Nat.zero_add _)
  | visit h hdestination _ ih =>
    have hless := h.left_visit ha hforward hdestination
    rw [List.length_append, List.length_singleton]
    lia

theorem pairwise_gonganOf : (bs.map a.score.gonganOf).Pairwise (· ≤ ·) := by
  rw [← List.isChain_iff_pairwise]
  induction h with
  | start position? => exact .nil
  | visit h hdestination _ ih =>
    rw [List.map_append, List.isChain_append, List.getLast?_map, ← h.currentBeat?_eq]
    refine ⟨ih, .singleton _, ?_⟩
    intro m hm n hn
    obtain ⟨b, hb, rfl⟩ := Option.map_eq_some_iff.1 hm
    obtain rfl := Option.some.inj hn
    exact h.gonganOf_le ha hforward hdestination hb

end Reached

/-- With room for all that is left at the beginning, a walk comes to the end of the flow. -/
theorem IsArranged.walk_of_leadsForward (ha : a.IsArranged) (hforward : a.LeadsForward)
    (hroom : a.roomAfter 0 ≤ a.maxSteps) (position? : Option Position) :
    ∃ bs q, Reached a bs q ∧ (a.walk position?).1.map Array.toList = .ok ((a.reset position?).playedAlong bs) := by
  obtain ⟨bs, q, hq, -, ⟨-, hwalk⟩ | ⟨hlimit, hlength, -⟩⟩ := ha.complete.walk_stops position?
  · exact ⟨bs, q, ha.complete.reached_iff.2 ⟨position?, hq⟩, hwalk⟩
  · -- At the limit there would have to be a beat left.
    have hreached := ha.complete.reached_iff.2 ⟨position?, hq⟩
    rw [← (hreached.steps ha.complete).2] at hlimit
    obtain ⟨c, hc⟩ := Option.isSome_iff_exists.1 ((hreached.isComplete ha.complete).next_eq_limit_iff.1 hlimit).1
    have hless := hreached.left_visit ha hforward hc
    have hle := hreached.length_add_left_le ha hforward
    lia

end Performance

/-- Jumps that are all accepted to later beats, and the order of the score itself, lead forward. -/
theorem Score.arrange_leadsForward {s : Score} {settings : Settings} {a : Arrangement} {ds : List (Gongan × Directive)}
    (hs : s.IsPlaced) (h : s.arrange settings = .ok a) (hds : s.acceptedDirectives settings = .ok ds)
    (hforward : ∀ b t, (b, t) ∈ s.jumpsIn ds → b < t) : a.performance.LeadsForward := by
  intro b key t ht
  rcases (arrange_jump_isSetUp h hds b).targets key (some t) ht with ⟨-, hnext⟩ | ⟨t', ht', hjump⟩
  · have hb : b < s.beats.size := by
      by_contra hout
      simp [next?, hout] at hnext
    rw [hs.next?_eq hb] at hnext
    split at hnext
    · obtain rfl := Option.some.inj hnext
      exact Nat.lt_succ_self b
    · cases hnext
  · obtain rfl := Option.some.inj ht'
    exact hforward b t hjump

namespace Performance

/-- If all accepted jumps lead to later beats, the flow takes the gongans in their order, and with a limit that has
room for every gongan once more than its loop has rounds, a walk comes to its end. -/
theorem forward_flow_ends {m : Manuscript} {s : Score} {settings : Settings} {a : Arrangement}
    {ds : List (Gongan × Directive)} (hs : m.toScore = .ok s) (ha : s.arrange settings = .ok a)
    (hds : s.acceptedDirectives settings = .ok ds) (hforward : ∀ b t, (b, t) ∈ s.jumpsIn ds → b < t)
    (calls : List Call) (position? : Option Position) :
    let p := a.performance.after calls
    let total := (s.gongans.toList.map fun g => g.beats.length * (a.performance.loopCount g + 1)).sum
    (∀ bs q, (p.reset position?).follow bs = some q →
        bs.length ≤ total ∧ (bs.map s.gonganOf).Pairwise (· ≤ ·)) ∧
      (total ≤ settings.maxSteps → ∃ played, (p.walk position?).1 = .ok played ∧ played.size ≤ total ∧
        (played.toList.map fun b => s.gonganOf b.beat).Pairwise (· ≤ ·)) := by
  intro p total
  have hplaced := Manuscript.toScore_isPlaced hs
  have harranged := Score.arrange_isArranged hplaced ha
  have hleads := Score.arrange_leadsForward hplaced ha hds hforward
  obtain ⟨hscore, hlimit⟩ := Score.arrange_score ha
  have hreset := harranged.complete.reset_after calls position?
  have htotal : a.performance.roomAfter 0 = total := by
    rw [roomAfter, hscore]
    rfl
  have hway {bs : List BeatId} {q : Performance} (hq : Reached a.performance bs q) :
      bs.length ≤ total ∧ (bs.map s.gonganOf).Pairwise (· ≤ ·) :=
    ⟨htotal ▸ Nat.le_of_add_right_le (hq.length_add_left_le harranged hleads),
      hscore ▸ hq.pairwise_gonganOf harranged hleads⟩
  refine ⟨fun bs q hq => hway (harranged.complete.reached_iff.2 ⟨position?, hreset ▸ hq⟩), fun hroom => ?_⟩
  obtain ⟨bs, q, hq, hwalk⟩ := harranged.walk_of_leadsForward hleads (by rwa [htotal, hlimit]) position?
  obtain ⟨hlength, hpairwise⟩ := hway hq
  rw [← walk_congr hreset] at hwalk
  obtain ⟨played, hplayed, hlist⟩ := map_eq_ok_iff.1 hwalk
  have hbeats : played.toList.map (·.beat) = bs := by rw [hlist, map_beat_playedAlong]
  refine ⟨played, hplayed, ?_, ?_⟩
  · rwa [← Array.length_toList, ← List.length_map (·.beat), hbeats]
  · rwa [← hbeats, List.map_map] at hpairwise

/-- A loop that is left half way, into the middle of another one, and a limit without room to spare. -/
theorem forward_flow_ends_of_three :
    let m : Manuscript := { gongans := [
      { directives := [.loop 2, .label "C" 3, .goto "C" (some 2) [2] none, .goto "M" (some 2) [1] (some 3)],
        beats := [{}, {}, {}] },
      { directives := [.label "M" 2, .loop 3], beats := [{}, {}] },
      { beats := [{}] }] }
    ∃ s a ds played, m.toScore = .ok s ∧ s.arrange { maxSteps := 18 } = .ok a ∧
      s.acceptedDirectives { maxSteps := 18 } = .ok ds ∧ (∀ b t, (b, t) ∈ s.jumpsIn ds → b < t) ∧
      (s.gongans.toList.map fun g => g.beats.length * (a.performance.loopCount g + 1)).sum = 18 ∧
      (a.performance.walk none).1 = .ok played ∧ played.size ≤ 18 ∧
      (played.toList.map fun b => s.gonganOf b.beat).Pairwise (· ≤ ·) := by
  intro m
  have harrangement : ∃ s a, m.toScore = .ok s ∧ s.arrange { maxSteps := 18 } = .ok a ∧
      ((s.acceptedDirectives { maxSteps := 18 }).toOption.any fun ds => (s.jumpsIn ds).all fun x => x.1 < x.2) ∧
      (s.gongans.toList.map fun g => g.beats.length * (a.performance.loopCount g + 1)).sum = 18 :=
    Manuscript.exists_arrangement (by decide +kernel)
  obtain ⟨s, a, hs, ha, haccepted, htotal⟩ := harrangement
  obtain ⟨ds, hds, hall⟩ := (Option.any_eq_true _ _).1 haccepted
  have hds := toOption_eq_some_iff.1 hds
  have hforward : ∀ b t, (b, t) ∈ s.jumpsIn ds → b < t := fun b t ht =>
    of_decide_eq_true (List.all_eq_true.1 hall (b, t) ht)
  obtain ⟨-, hends⟩ := forward_flow_ends hs ha hds hforward [] none
  obtain ⟨played, hplayed, hsize, horder⟩ := hends (Nat.le_of_eq htotal)
  rw [htotal] at hsize
  exact ⟨s, a, ds, played, hs, ha, hds, hforward, htotal, hplayed, hsize, horder⟩

end Performance

end Gamelan
