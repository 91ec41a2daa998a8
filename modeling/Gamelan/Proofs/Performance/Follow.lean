import Gamelan.Proofs.Performance.Flow

namespace Gamelan.Performance

/-- The performance after some beats, if these are the next ones that it performs. -/
def follow (p : Performance) : List BeatId → Option Performance
  | [] => some p
  | b :: bs =>
    match p.next with
    | (.ok (some c), q) => if c = b then q.follow bs else none
    | _ => none

theorem follow_append (p : Performance) (bs cs : List BeatId) :
    p.follow (bs ++ cs) = (p.follow bs).bind (·.follow cs) := by
  induction bs generalizing p with
  | nil => rfl
  | cons b bs ih =>
    rw [List.cons_append, follow, follow]
    split
    next c q _ =>
      by_cases hc : c = b
      · rw [if_pos hc, if_pos hc]
        exact ih q
      · rw [if_neg hc, if_neg hc]
        rfl
    · rfl

theorem follow_cons_eq_some_iff {p q : Performance} {b : BeatId} {bs : List BeatId} :
    p.follow (b :: bs) = some q ↔ ∃ r, p.next = (.ok (some b), r) ∧ r.follow bs = some q := by
  rw [follow]
  constructor
  · intro h
    split at h
    next c r hnext =>
      by_cases hc : c = b
      · subst hc
        rw [if_pos rfl] at h
        exact ⟨r, hnext, h⟩
      · rw [if_neg hc] at h
        cases h
    · cases h
  · rintro ⟨r, hnext, hr⟩
    simp [hnext, hr]

theorem follow_concat_eq_some_iff {p q : Performance} {b : BeatId} {bs : List BeatId} :
    p.follow (bs ++ [b]) = some q ↔ ∃ r, p.follow bs = some r ∧ r.next = (.ok (some b), q) := by
  rw [follow_append, Option.bind_eq_some_iff]
  simp only [follow_cons_eq_some_iff]
  simp only [follow, Option.some.injEq, exists_eq_right]

/-- What is performed from some point on is the beginning of all that is. -/
theorem isPrefix_of_follow {p q r : Performance} {bs cs : List BeatId} (hq : p.follow bs = some q)
    (hr : p.follow cs = some r) (hend : r.next.1 = .ok none) : bs <+: cs := by
  induction bs generalizing p cs with
  | nil => exact List.nil_prefix
  | cons b bs ih =>
    obtain ⟨p', hnext, hrest⟩ := follow_cons_eq_some_iff.1 hq
    cases cs with
    | nil =>
      obtain rfl := Option.some.inj hr
      simp [hnext] at hend
    | cons c cs =>
      obtain ⟨p'', hnext', hrest'⟩ := follow_cons_eq_some_iff.1 hr
      obtain ⟨hbeat, rfl⟩ := Prod.mk.inj (hnext.symm.trans hnext')
      obtain rfl := Option.some.inj (Except.ok.inj hbeat)
      exact List.cons_prefix_cons.2 ⟨rfl, ih hrest hrest'⟩

/-- The next beats as they are performed. -/
def playedAlong (p : Performance) : List BeatId → List Played
  | [] => []
  | b :: bs => p.next.2.played b :: p.next.2.playedAlong bs

@[simp] theorem map_beat_playedAlong (p : Performance) (bs : List BeatId) :
    (p.playedAlong bs).map (·.beat) = bs := by
  induction bs generalizing p with
  | nil => rfl
  | cons b bs ih => exact congrArg (b :: ·) (ih p.next.2)

/-- What is performed in the end has been followed beat by beat. -/
theorem finish_eq_ok {acc played : Array Played} {p : Performance} (h : (finish acc p).1 = .ok played) :
    ∃ bs q, played.toList = acc.toList ++ p.playedAlong bs ∧ p.follow bs = some q ∧ q.next.1 = .ok none := by
  fun_induction finish acc p with
  | case1 => cases h
  | case2 acc p r hnext =>
    obtain rfl := Except.ok.inj h
    exact ⟨[], p, (List.append_nil _).symm, rfl, by rw [hnext]⟩
  | case3 acc p b r hnext ih =>
    obtain ⟨bs, q, hbs, hq, hend⟩ := ih h
    refine ⟨b :: bs, q, ?_, follow_cons_eq_some_iff.2 ⟨r, hnext, hq⟩, hend⟩
    rw [hbs, playedAlong, hnext, Array.toList_push, List.append_assoc, List.singleton_append]

theorem finish_of_follow {bs : List BeatId} {p q : Performance} (h : p.follow bs = some q) (hend : q.next.1 = .ok none)
    (acc : Array Played) :
    ∃ played, (finish acc p).1 = .ok played ∧ played.toList.map (·.beat) = acc.toList.map (·.beat) ++ bs := by
  induction bs generalizing p acc with
  | nil =>
    obtain rfl := Option.some.inj h
    refine ⟨acc, ?_, by simp⟩
    rw [finish_of_end (q := p.next.2) (Prod.ext hend rfl)]
  | cons b bs ih =>
    obtain ⟨r, hnext, hr⟩ := follow_cons_eq_some_iff.1 h
    obtain ⟨played, hplayed, hbeats⟩ := ih hr (acc.push (r.played b))
    refine ⟨played, ?_, by simpa [Performance.played] using hbeats⟩
    rw [finish_of_beat hnext]
    exact hplayed

/-- A walk performs some beats if they can be followed from the beginning and the flow ends behind them. -/
theorem walk_beats_iff {p : Performance} {position? : Option Position} {bs : List BeatId} :
    (∃ played, (p.walk position?).1 = .ok played ∧ played.toList.map (·.beat) = bs) ↔
      ∃ q, (p.reset position?).follow bs = some q ∧ q.next.1 = .ok none := by
  constructor
  · rintro ⟨played, hwalk, rfl⟩
    obtain ⟨bs, q, hbs, hq, hend⟩ := finish_eq_ok hwalk
    exact ⟨q, by simpa [hbs] using hq, hend⟩
  · rintro ⟨q, hq, hend⟩
    obtain ⟨played, hplayed, hbeats⟩ := finish_of_follow hq hend #[]
    exact ⟨played, hplayed, by simpa using hbeats⟩

namespace IsComplete

variable {p q : Performance}

theorem follow_cons_iff (hp : p.IsComplete) {b : BeatId} {bs : List BeatId} :
    p.follow (b :: bs) = some q ↔
      p.destination? = some b ∧ p.steps < p.maxSteps ∧ (p.visit b).follow bs = some q := by
  rw [follow_cons_eq_some_iff]
  constructor
  · rintro ⟨r, hnext, hr⟩
    obtain ⟨hdestination, hsteps, rfl⟩ := hp.next_eq_beat_iff.1 hnext
    exact ⟨hdestination, hsteps, hr⟩
  · rintro ⟨hdestination, hsteps, hr⟩
    exact ⟨p.visit b, hp.next_eq_beat_iff.2 ⟨hdestination, hsteps, rfl⟩, hr⟩

/-- Performances that differ only in what does not steer the flow are followed through the same beats. -/
theorem follow_bare_congr {r : Performance} (hp : p.IsComplete) (hq : q.IsComplete) (h : p.bare = q.bare)
    {bs : List BeatId} (hr : p.follow bs = some r) : ∃ r', q.follow bs = some r' ∧ r.bare = r'.bare := by
  induction bs generalizing p q with
  | nil =>
    obtain rfl := Option.some.inj hr
    exact ⟨q, rfl, h⟩
  | cons b bs ih =>
    obtain ⟨p', hnext, hrest⟩ := follow_cons_eq_some_iff.1 hr
    obtain ⟨hout, hbare⟩ := next_bare_congr hp hq h
    have hp' := hp.next
    rw [hnext] at hout hbare hp'
    obtain ⟨r', hr', hsame⟩ := ih hp' hq.next hbare hrest
    exact ⟨r', follow_cons_eq_some_iff.2 ⟨q.next.2, Prod.ext hout.symm rfl, hr'⟩, hsame⟩

theorem follow_concat (hp : p.IsComplete) {b : BeatId} {bs : List BeatId} (h : p.follow (bs ++ [b]) = some q) :
    q.currentBeat? = some b := by
  induction bs generalizing p with
  | nil =>
    obtain ⟨-, -, hend⟩ := hp.follow_cons_iff.1 h
    obtain rfl := Option.some.inj hend
    rfl
  | cons c bs ih =>
    obtain ⟨-, -, hrest⟩ := hp.follow_cons_iff.1 h
    exact ih (hp.visit c) hrest

/-- What every visit preserves holds after all beats that are followed. -/
theorem follow_invariant {I : Performance → Prop} (hvisit : ∀ p b, p.IsComplete → I p → I (p.visit b))
    (hp : p.IsComplete) (hI : I p) {bs : List BeatId} (h : p.follow bs = some q) : q.IsComplete ∧ I q := by
  induction bs generalizing p with
  | nil =>
    obtain rfl := Option.some.inj h
    exact ⟨hp, hI⟩
  | cons b bs ih =>
    obtain ⟨-, -, hrest⟩ := hp.follow_cons_iff.1 h
    exact ih (hp.visit b) (hvisit p b hp hI) hrest

theorem follow_steps (hp : p.IsComplete) {bs : List BeatId} (h : p.follow bs = some q) :
    q.steps = p.steps + bs.length ∧ q.maxSteps = p.maxSteps ∧ (p.steps ≤ p.maxSteps → q.steps ≤ q.maxSteps) := by
  induction bs generalizing p with
  | nil =>
    obtain rfl := Option.some.inj h
    exact ⟨rfl, rfl, id⟩
  | cons b bs ih =>
    obtain ⟨-, hsteps, hrest⟩ := hp.follow_cons_iff.1 h
    obtain ⟨hlength, hlimit, hroom⟩ := ih (hp.visit b) hrest
    rw [hp.visit_steps] at hlength hroom
    rw [hp.visit_maxSteps] at hlimit hroom
    refine ⟨?_, hlimit, fun _ => hroom hsteps⟩
    rw [List.length_cons]
    omega

end IsComplete

end Gamelan.Performance
