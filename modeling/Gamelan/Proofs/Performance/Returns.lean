import Gamelan.Proofs.Performance.Follow
import Gamelan.Proofs.Performance.History

namespace Gamelan.Performance

/-- All changes of counters while some beats are performed. -/
def countsAlong (p : Performance) : List BeatId → List Count
  | [] => []
  | b :: bs => p.counts p.currentBeat? b ++ p.next.2.countsAlong bs

/-- Every loop goes back to the first beat of its gongan. -/
def HasOwnLoops (p : Performance) : Prop :=
  ∀ n l, p.loops.get? n = some l → ∃ g, p.score.gongan? n = some g ∧ l.toBeat = g.firstBeat

/-- The place to which a performance has come back in a later repetition, without having passed the beginning
of its gongan, and without having entered the gongan behind it. -/
structure ReturnsWithin (p : Performance) (b : BeatId) (between : List BeatId) : Prop where
  repeated : (p.loopAt? b).any (1 < ·.counter.value)
  first : p.score.firstBeatOf b ∉ between ++ [b]
  entries : (b :: (between ++ [b])).IsChain fun c d =>
    p.score.gonganOf c = p.score.gonganOf d ∨ b ∉ p.score.earlierBeats d

variable {p q : Performance} {b c : BeatId}

theorem HasOwnLoops.setLoop (hp : p.HasOwnLoops) {n : Nat} {l k : Loop} (hl : p.loops.get? n = some l)
    (hto : k.toBeat = l.toBeat) : (p.setLoop n k).HasOwnLoops := by
  intro m j hj
  rw [Performance.setLoop, SortedMap.get?_insert] at hj
  by_cases hm : m = n
  · subst hm
    rw [if_pos rfl] at hj
    obtain rfl := Option.some.inj hj
    rw [hto]
    exact hp m l hl
  · rw [if_neg hm] at hj
    exact hp m j hj

theorem HasOwnLoops.foldl_apply (hp : p.HasOwnLoops) (cs : List Count) :
    (cs.foldl Count.apply p).HasOwnLoops := by
  induction cs generalizing p with
  | nil => exact hp
  | cons c cs ih =>
    refine ih ?_
    cases c with
    | iteration n =>
      rw [Count.apply]
      cases hl : p.loops.get? n with
      | none => exact hp
      | some l => exact hp.setLoop hl rfl
    | pass b => exact hp
    | adopted b n => exact hp

theorem HasOwnLoops.visit (hcomplete : p.IsComplete) (hp : p.HasOwnLoops) (b : BeatId) :
    (p.visit b).HasOwnLoops := by
  have hcounted := hp.foldl_apply (p.counts p.currentBeat? b)
  rw [foldl_apply_eq] at hcounted
  rw [hcomplete.visit_eq]
  exact hcounted

theorem HasOwnLoops.reset (hp : p.HasOwnLoops) (position? : Option Position) :
    (p.reset position?).HasOwnLoops := by
  intro n l hl
  change (p.loops.mapValues Loop.reset).get? n = some l at hl
  rw [SortedMap.get?_mapValues] at hl
  obtain ⟨k, hk, rfl⟩ := Option.map_eq_some_iff.1 hl
  exact hp n k hk

/-- A loop of a gongan is where the gongan is. -/
theorem HasOwnLoops.toBeat_eq (hs : p.score.IsPlaced) (hp : p.HasOwnLoops) {l : Loop} (hl : p.loopAt? b = some l) :
    l.toBeat = p.score.firstBeatOf b ∧ p.score.gonganOf (p.score.firstBeatOf b) = p.score.gonganOf b := by
  obtain ⟨g, hg, hto⟩ := hp _ l hl
  obtain ⟨hmem, hid⟩ := hs.gongan?_eq_some_iff.1 hg
  have hfirst : p.score.firstBeatOf b = g.firstBeat := by simp [Score.firstBeatOf, hg]
  have hpos := List.length_pos_iff.2 (hs.nonempty g hmem)
  have hget : g.beats[0]? = some g.firstBeat := by
    rw [hs.consecutive g hmem, List.getElem?_range' hpos]
    simp
  obtain ⟨-, beat, hbeat, hgongan, -⟩ := hs.beat_of_getElem? hmem hget
  refine ⟨by rw [hto, hfirst], ?_⟩
  rw [hfirst, Score.gonganOf, hbeat, Option.elim_some, hgongan, hid]

/-- The repetition of a loop is counted for its whole gongan. -/
theorem HasOwnLoops.exists_isFor_iteration_iff (hs : p.score.IsPlaced) (hp : p.HasOwnLoops) (c b : BeatId) :
    (∃ u ∈ (if (p.loopAt? c).any (·.toBeat = c) then [Count.iteration (p.score.gonganOf c)] else []),
        u.isFor p.score b) ↔ (p.loopAt? b).isSome ∧ c = p.score.firstBeatOf b := by
  constructor
  · rintro ⟨u, hu, hfor⟩
    split at hu
    next hto =>
      rw [List.mem_singleton.1 hu] at hfor
      change p.score.gonganOf c = p.score.gonganOf b at hfor
      obtain ⟨l, hl, hlc⟩ := (Option.any_eq_true _ _).1 hto
      have hlb : p.loopAt? b = some l := by rwa [loopAt?, ← hfor]
      refine ⟨by rw [hlb]; rfl, ?_⟩
      rw [← (hp.toBeat_eq hs hlb).1]
      exact (of_decide_eq_true hlc).symm
    · cases hu
  · rintro ⟨hsome, rfl⟩
    obtain ⟨l, hl⟩ := Option.isSome_iff_exists.1 hsome
    obtain ⟨hto, hof⟩ := hp.toBeat_eq hs hl
    have hlc : p.loopAt? (p.score.firstBeatOf b) = some l := by rw [loopAt?, hof]; exact hl
    exact ⟨.iteration (p.score.gonganOf (p.score.firstBeatOf b)), by simp [hlc, hto], hof⟩

/-- A pass is counted for its beat only, and only in the first repetition. -/
theorem IsComplete.exists_isFor_pass_iff (hcomplete : p.IsComplete) (c b : BeatId) :
    (∃ u ∈ (if ((p.countIteration c).loopAt? c).all (·.counter.value ≤ 1) then [Count.pass c] else []),
        u.isFor p.score b) ↔ c = b ∧ ((p.visit b).loopAt? b).all (·.counter.value ≤ 1) := by
  have hloop : (p.visit b).loopAt? b = (p.countIteration b).loopAt? b := by
    rw [loopAt?, loopAt?, hcomplete.visit_loops, hcomplete.visit_score, countIteration_score]
  rw [hloop]
  constructor
  · rintro ⟨u, hu, hfor⟩
    split at hu
    next hfirst =>
      rw [List.mem_singleton.1 hu] at hfor
      obtain rfl : c = b := hfor
      exact ⟨rfl, hfirst⟩
    · cases hu
  · rintro ⟨rfl, hfirst⟩
    exact ⟨.pass c, by simp [hfirst], rfl⟩

/-- An entry behind the first beat of a gongan is counted for the beats that it skips. -/
theorem exists_isFor_adopted_iff (p : Performance) (n : UInt32) (c b : BeatId) :
    (∃ u ∈ (if p.enters p.currentBeat? c then (p.score.earlierBeats c).map (Count.adopted · n) else []),
        u.isFor p.score b) ↔ p.enters p.currentBeat? c ∧ b ∈ p.score.earlierBeats c := by
  constructor
  · rintro ⟨u, hu, hfor⟩
    split at hu
    next henters =>
      obtain ⟨e, he, rfl⟩ := List.mem_map.1 hu
      obtain rfl : e = b := hfor
      exact ⟨henters, he⟩
    · cases hu
  · rintro ⟨henters, hb⟩
    exact ⟨.adopted b n, by simp [henters, hb], rfl⟩

/-- When an arrival at a beat is counted for another one, or for the same. -/
theorem IsComplete.exists_isFor_counts_iff (hcomplete : p.IsComplete) (hs : p.score.IsPlaced) (hp : p.HasOwnLoops)
    (c b : BeatId) :
    (∃ u ∈ p.counts p.currentBeat? c, u.isFor p.score b) ↔
      ((p.loopAt? b).isSome ∧ c = p.score.firstBeatOf b) ∨
        (c = b ∧ ((p.visit b).loopAt? b).all (·.counter.value ≤ 1)) ∨
          p.enters p.currentBeat? c ∧ b ∈ p.score.earlierBeats c := by
  rw [counts]
  simp only [List.mem_append, or_and_right, exists_or, hp.exists_isFor_iteration_iff hs,
    hcomplete.exists_isFor_pass_iff, p.exists_isFor_adopted_iff, or_assoc]

theorem IsComplete.isSome_loopAt?_visit (hp : p.IsComplete) (c b : BeatId) :
    ((p.visit c).loopAt? b).isSome = (p.loopAt? b).isSome := by
  rw [loopAt?, hp.visit_loops, hp.visit_score, countIteration]
  split
  next l hl =>
    split
    · rw [setLoop, SortedMap.get?_insert]
      split
      next hof =>
        have hlb : p.loopAt? b = some l := by rwa [loopAt?, hof]
        rw [hlb]
        rfl
      · rfl
    · rfl
  · rfl

/-- On the way from a beat back to another one, nothing is counted for that one exactly if it is returned to
in a later repetition from within its gongan. -/
theorem IsComplete.exists_isFor_countsAlong_iff {a : BeatId} {between : List BeatId} (hcomplete : p.IsComplete)
    (hs : p.score.IsPlaced) (hp : p.HasOwnLoops) (hcursor : p.currentBeat? = some a)
    (hq : p.follow (between ++ [b]) = some q) (hb : b ∉ between) :
    (∃ u ∈ p.countsAlong (between ++ [b]), u.isFor p.score b) ↔
      ((p.loopAt? b).isSome ∧ p.score.firstBeatOf b ∈ between ++ [b]) ∨
        (q.loopAt? b).all (·.counter.value ≤ 1) ∨
          ¬ (a :: (between ++ [b])).IsChain fun c d =>
            p.score.gonganOf c = p.score.gonganOf d ∨ b ∉ p.score.earlierBeats d := by
  have hstep (p : Performance) (a c : BeatId) (hcursor : p.currentBeat? = some a) :
      (p.enters p.currentBeat? c ∧ b ∈ p.score.earlierBeats c) ↔
        ¬ (p.score.gonganOf a = p.score.gonganOf c ∨ b ∉ p.score.earlierBeats c) := by
    simp [hcursor, enters]
  -- Counters change on the way, but which gongans have a loop does not, so the first disjunct is about any state.
  induction between generalizing p a with
  | nil =>
    obtain ⟨-, -, hend⟩ := hcomplete.follow_cons_iff.1 hq
    obtain rfl := Option.some.inj hend
    have hcounts := hcomplete.exists_isFor_counts_iff hs hp b b
    rw [hstep p a b hcursor] at hcounts
    rw [List.nil_append, countsAlong, countsAlong, List.append_nil, hcounts, List.mem_singleton,
      List.isChain_cons_cons, eq_comm (a := b)]
    simp
  | cons c between ih =>
    obtain ⟨hdestination, hsteps, hrest⟩ := hcomplete.follow_cons_iff.1 hq
    have hnext : p.next.2 = p.visit c := by
      rw [hcomplete.next_eq_beat_iff.2 ⟨hdestination, hsteps, rfl⟩]
    have hcounts := hcomplete.exists_isFor_counts_iff hs hp c b
    have hcb : c ≠ b := fun h => hb (h ▸ .head _)
    have hscore := hcomplete.visit_score c
    have hcountsAlong := ih (hcomplete.visit c) (by rwa [hscore]) (hp.visit hcomplete c) rfl hrest
      (fun h => hb (.tail _ h))
    rw [hscore, hcomplete.isSome_loopAt?_visit] at hcountsAlong
    rw [hstep p a c hcursor] at hcounts
    have hsplit : (∃ u ∈ p.counts p.currentBeat? c ++ (p.visit c).countsAlong (between ++ [b]), u.isFor p.score b) ↔
        (∃ u ∈ p.counts p.currentBeat? c, u.isFor p.score b) ∨
          ∃ u ∈ (p.visit c).countsAlong (between ++ [b]), u.isFor p.score b := by
      simp only [List.mem_append, or_and_right, exists_or]
    rw [List.cons_append, countsAlong, hnext, hsplit, List.isChain_cons_cons, List.mem_cons]
    refine (or_congr hcounts hcountsAlong).trans ?_
    grind

theorem IsComplete.follow_of_not_isFor {bs : List BeatId} (hp : p.IsComplete) (hq : p.follow bs = some q)
    (h : ∀ u ∈ p.countsAlong bs, ¬ u.isFor p.score b) : q.jump b = p.jump b ∧ q.loopAt? b = p.loopAt? b := by
  induction bs generalizing p with
  | nil =>
    obtain rfl := Option.some.inj hq
    exact ⟨rfl, rfl⟩
  | cons c bs ih =>
    obtain ⟨hdestination, hsteps, hrest⟩ := hp.follow_cons_iff.1 hq
    have hnext : p.next.2 = p.visit c := by
      rw [hp.next_eq_beat_iff.2 ⟨hdestination, hsteps, rfl⟩]
    rw [countsAlong, hnext] at h
    have hvisit := foldl_apply_of_not_isFor fun u hu => h u (List.mem_append_left _ hu)
    have hfollow := ih (hp.visit c) hrest fun u hu => by
      rw [hp.visit_score]
      exact h u (List.mem_append_right _ hu)
    rw [← hp.visit_jump, ← hp.visit_loopAt?] at hvisit
    exact ⟨hfollow.1.trans hvisit.1, hfollow.2.trans hvisit.2⟩

end Gamelan.Performance

namespace Gamelan

theorem Score.arrange_hasOwnLoops {s : Score} {settings : Settings} {a : Arrangement} (hs : s.IsPlaced)
    (h : s.arrange settings = .ok a) : a.performance.HasOwnLoops := by
  have hkept : a.performance.score = s ∧ a.performance.HasOwnLoops := by
    refine Score.arrange_invariant h ?_ ?_ ?_ ?_ (I := fun p => p.score = s ∧ p.HasOwnLoops)
    · intro p hp
      refine ⟨Score.plain_score hp, fun n l hl => ?_⟩
      rw [Score.plain_loops hp] at hl
      cases hl
    · exact fun p b f _ hp => hp
    · rintro p g count hg - ⟨hscore, hp⟩
      refine ⟨hscore, ?_⟩
      intro n l hl
      rw [Performance.setLoop, SortedMap.get?_insert] at hl
      by_cases hn : n = g.id
      · rw [if_pos hn] at hl
        obtain rfl := Option.some.inj hl
        refine ⟨g, ?_, rfl⟩
        change p.score.gongan? n = some g
        rw [hscore, hs.gongan?_eq_some_iff]
        exact ⟨hg, hn.symm⟩
      · rw [if_neg hn] at hl
        exact hp n l hl
    · intro p quantity b r _ hp
      cases quantity <;> exact hp
  exact hkept.2

namespace Performance

/-- Between two visits to a beat, its pass advances or is rewritten, or the loop of its gongan advances, unless
the performance comes back in a later repetition from within the gongan. Then the beat and its gongan are as
they were. -/
theorem return_counted_iff {m : Manuscript} {s : Score} {settings : Settings} {a : Arrangement}
    (hs : m.toScore = .ok s) (ha : s.arrange settings = .ok a) (calls : List Call) (position? : Option Position)
    {before between : List BeatId} {b : BeatId} {p q : Performance}
    (hp : ((a.performance.after calls).reset position?).follow (before ++ [b]) = some p)
    (hq : p.follow (between ++ [b]) = some q) (hb : b ∉ between) :
    ((∃ u ∈ p.countsAlong (between ++ [b]), u.isFor s b) ↔ ¬ q.ReturnsWithin b between) ∧
      (q.ReturnsWithin b between → q.jump b = p.jump b ∧ q.loopAt? b = p.loopAt? b) := by
  have hplaced := Manuscript.toScore_isPlaced hs
  have hcomplete := Score.arrange_isComplete ha
  have hloops := Score.arrange_hasOwnLoops hplaced ha
  rw [hcomplete.reset_after] at hp
  obtain ⟨hpComplete, hpScore, hpLoops⟩ := (hcomplete.reset position?).follow_invariant
    (I := fun r => r.score = s ∧ r.HasOwnLoops)
    (fun r c hr hI => ⟨(hr.visit_score c).trans hI.1, hI.2.visit hr c⟩)
    ⟨(Score.arrange_score ha).1, hloops.reset position?⟩ hp
  obtain ⟨-, hqScore, hqLoops⟩ := hpComplete.follow_invariant
    (I := fun r => r.score = s ∧ (r.loopAt? b).isSome = (p.loopAt? b).isSome)
    (fun r c hr hI => ⟨(hr.visit_score c).trans hI.1, (hr.isSome_loopAt?_visit c b).trans hI.2⟩)
    ⟨hpScore, rfl⟩ hq
  have hcounts := hpComplete.exists_isFor_countsAlong_iff (by rwa [hpScore])
    hpLoops ((hcomplete.reset position?).follow_concat hp) hq hb
  rw [hpScore, ← hqLoops] at hcounts
  have hiff : (∃ u ∈ p.countsAlong (between ++ [b]), u.isFor s b) ↔ ¬ q.ReturnsWithin b between := by
    rw [hcounts]
    constructor
    · rintro hcounted ⟨hrepeated, hfirst, hentries⟩
      rw [hqScore] at hfirst hentries
      rcases hcounted with ⟨-, hpassed⟩ | hall | hentered
      · exact hfirst hpassed
      · obtain ⟨l, hl, hvalue⟩ := (Option.any_eq_true _ _).1 hrepeated
        simp only [hl, Option.all_some, decide_eq_true_eq] at hall hvalue
        exact absurd hall (UInt32.not_le.2 hvalue)
      · exact hentered hentries
    · intro hwithin
      by_contra hnone
      simp only [not_or, not_and, Decidable.not_not] at hnone
      obtain ⟨hfirst, hall, hentries⟩ := hnone
      cases hl : q.loopAt? b with
      | none => simp [hl] at hall
      | some l =>
        refine hwithin ⟨?_, ?_, ?_⟩
        · simpa [hl] using hall
        · rw [hqScore]
          exact hfirst (by rw [hl]; rfl)
        · rw [hqScore]
          exact hentries
  refine ⟨hiff, fun hwithin => hpComplete.follow_of_not_isFor hq ?_⟩
  rw [hpScore]
  intro u hu hfor
  exact hiff.1 ⟨u, hu, hfor⟩ hwithin

/-- A loop that has run out keeps its counter, so the jump back into its gongan is not counted at all. -/
theorem return_uncounted_after_loop :
    let m : Manuscript := { gongans := [
      { directives := [.loop 2, .label "B" 2, .goto "B" none [1] none], beats := [{}, {}] }] }
    ∃ s a p q, m.toScore = .ok s ∧ s.arrange {} = .ok a ∧
      (a.performance.reset none).follow ([0, 1, 0] ++ [1]) = some p ∧ p.follow ([] ++ [1]) = some q ∧
        ¬ ∃ u ∈ p.countsAlong ([] ++ [1]), u.isFor s 1 := by
  intro m
  have harrangement : ∃ s a, m.toScore = .ok s ∧ s.arrange {} = .ok a ∧
      (((a.performance.reset none).follow [0, 1, 0, 1]).any fun p =>
        (p.follow [1]).any fun _ => (p.countsAlong [1]).all fun u => ¬ u.isFor s 1) :=
    Manuscript.exists_arrangement (by decide +kernel)
  obtain ⟨s, a, hs, ha, hrun⟩ := harrangement
  obtain ⟨p, hp, hrest⟩ := (Option.any_eq_true _ _).1 hrun
  obtain ⟨q, hq, hcounts⟩ := (Option.any_eq_true _ _).1 hrest
  refine ⟨s, a, p, q, hs, ha, hp, hq, ?_⟩
  rintro ⟨u, hu, hfor⟩
  exact of_decide_eq_true (List.all_eq_true.1 hcounts u hu) hfor

/-- A goto out of a gongan without a loop comes back to it on the next pass. -/
theorem return_counted_without_loop :
    let m : Manuscript := { gongans := [
      { directives := [.label "A" 2, .tempo 90 {}], beats := [{}, {}] },
      { directives := [.goto "A" none [1] none], beats := [{}] }] }
    ∃ s a p q, m.toScore = .ok s ∧ s.arrange {} = .ok a ∧
      ((a.performance.after [.next]).reset none).follow ([0] ++ [1]) = some p ∧
        p.follow ([2] ++ [1]) = some q ∧ 1 ∉ [2] ∧ ∃ u ∈ p.countsAlong ([2] ++ [1]), u.isFor s 1 := by
  intro m
  have harrangement : ∃ s a, m.toScore = .ok s ∧ s.arrange {} = .ok a ∧
      ((((a.performance.after [.next]).reset none).follow [0, 1]).any fun p =>
        (p.follow [2, 1]).any fun q => (q.loopAt? 1).isNone) :=
    Manuscript.exists_arrangement (by decide +kernel)
  obtain ⟨s, a, hs, ha, hrun⟩ := harrangement
  obtain ⟨p, hp, hrest⟩ := (Option.any_eq_true _ _).1 hrun
  obtain ⟨q, hq, hloop⟩ := (Option.any_eq_true _ _).1 hrest
  change ((a.performance.after [.next]).reset none).follow ([0] ++ [1]) = some p at hp
  change p.follow ([2] ++ [1]) = some q at hq
  refine ⟨s, a, p, q, hs, ha, hp, hq, by decide, ?_⟩
  refine (return_counted_iff hs ha [.next] none hp hq (by decide)).1.2 ?_
  rintro ⟨hrepeated, -, -⟩
  simp [Option.isNone_iff_eq_none.1 hloop] at hrepeated

end Performance

end Gamelan
