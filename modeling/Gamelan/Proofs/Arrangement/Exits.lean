import Gamelan.Proofs.Arrangement.Accepted

namespace Gamelan

/-- Where the jumps of a sequence of beats lead to from the last beat of a gongan, in order. -/
def Score.exits (s : Score) (targets : List BeatId) (e : BeatId) : List BeatId :=
  ((targets.zip targets.tail).filter fun x => s.lastBeatOf x.1 = e).map (·.2)

namespace Score

variable (s : Score) (e : BeatId)

theorem exits_cons_cons (a b : BeatId) (rest : List BeatId) :
    s.exits (a :: b :: rest) e = (if s.lastBeatOf a = e then [b] else []) ++ s.exits (b :: rest) e := by
  by_cases ha : s.lastBeatOf a = e <;> simp [exits, ha]

theorem exits_singleton (a : BeatId) : s.exits [a] e = [] := rfl

/-- A sequence leaves gongans where they end. -/
theorem exits_eq_nil (hs : s.IsPlaced) {targets : List BeatId} (htargets : ∀ t ∈ targets, t < s.beats.size)
    {e : BeatId} (he : s.lastBeatOf e ≠ e) : s.exits targets e = [] := by
  rw [exits, List.map_eq_nil_iff, List.filter_eq_nil_iff]
  rintro ⟨t, u⟩ htu hend
  obtain rfl := of_decide_eq_true hend
  exact he (hs.lastBeatOf_lastBeatOf (htargets t (List.of_mem_zip htu).1))

/-- A sequence leaves a gongan as often as it has been there, until it is there for the last time. -/
theorem length_exits_concat (before : List BeatId) (a : BeatId) :
    (s.exits (before ++ [a]) e).length = before.countP (s.lastBeatOf · = e) := by
  induction before with
  | nil => rfl
  | cons b before ih =>
    cases before with
    | nil => by_cases hb : s.lastBeatOf b = e <;> simp [exits_cons_cons, exits_singleton, hb]
    | cons c before =>
      rw [List.cons_append] at ih
      rw [List.cons_append, List.cons_append, exits_cons_cons, List.length_append, ih, List.countP_cons (a := b)]
      by_cases hb : s.lastBeatOf b = e
      · simp [hb]
        omega
      · simp [hb]

theorem exits_append (before : List BeatId) (a : BeatId) (rest : List BeatId) :
    s.exits (before ++ a :: rest) e = s.exits (before ++ [a]) e ++ s.exits (a :: rest) e := by
  induction before with
  | nil => rfl
  | cons b before ih =>
    cases before with
    | nil => simp [exits_cons_cons, exits_singleton]
    | cons c before =>
      simp only [List.cons_append] at ih
      simp only [List.cons_append, exits_cons_cons, ih, List.append_assoc]

end Score

namespace Performance

open Arrangement

theorem loops_setLinks (p : Performance) (ls : List Link) : (p.setLinks ls).loops = p.loops := by
  induction ls generalizing p with
  | nil => rfl
  | cons l ls ih => exact ih (p.modifyJump l.fromBeat (·.set (.pass l.pass) (some l.toBeat)))

/-- Jumps on passes leave what happens on other passes alone, and the counter. -/
theorem jump_setLinks (p : Performance) (ls : List Link) (e : BeatId) :
    ((p.setLinks ls).jump e).otherwise? = (p.jump e).otherwise? ∧
      ((p.setLinks ls).jump e).counter = (p.jump e).counter := by
  induction ls generalizing p with
  | nil => exact ⟨rfl, rfl⟩
  | cons l ls ih =>
    obtain ⟨hotherwise, hcounter⟩ := ih (p.modifyJump l.fromBeat (·.set (.pass l.pass) (some l.toBeat)))
    rw [jump_modifyJump] at hotherwise hcounter
    refine ⟨hotherwise.trans ?_, hcounter.trans ?_⟩
    · split
      next he => rw [he.1]; rfl
      · rfl
    · split
      next he => rw [he.1]; rfl
      · rfl

/-- A jump of a sequence is accepted if the cycle has one more pass for it. -/
theorem links_eq_ok_iff {p : Performance} (hplain : ∀ e, p.jump e = .straight (p.score.next? e))
    {taken : SortedMap BeatId UInt32} {a b : BeatId} {rest : List BeatId} {ls : List Link} :
    links p taken (a :: b :: rest) = .ok ls ↔
      ∃ n more, n.toNat = ((taken.get? (p.score.lastBeatOf a)).getD 0).toNat + 1 ∧ n ≤ Jump.defaultCycle ∧
        links p (taken.insert (p.score.lastBeatOf a) n) (b :: rest) = .ok more ∧
        ls = ⟨p.score.lastBeatOf a, n, b⟩ :: more := by
  have hlast (e : BeatId) : lastPass p taken e = (taken.get? e).getD 0 := by
    rw [lastPass, hplain]
    rfl
  have hcycle (e : BeatId) : (p.jump e).counter.cycle = Jump.defaultCycle := by
    rw [hplain]
    rfl
  simp only [links_cons_cons_eq_ok_iff, hlast, hcycle]
  constructor
  · rintro ⟨⟨e, n, t⟩, more, hfrom, rfl, hpass, hle, hmore, rfl⟩
    simp only at hfrom hpass hle hmore
    subst hfrom
    exact ⟨n, more, hpass, hle, hmore, rfl⟩
  · rintro ⟨n, more, hpass, hle, hmore, rfl⟩
    exact ⟨_, more, rfl, rfl, hpass, hle, hmore, rfl⟩

/-- One exit more takes the pass that follows those taken before, and the others come after it. -/
theorem exit_cons (before n : Nat) (b : BeatId) (exits : List BeatId) :
    (if before < n then ((b :: exits)[n - before - 1]?).map some else none) =
      if n = before + 1 then some (some b)
      else if before + 1 < n then (exits[n - (before + 1) - 1]?).map some else none := by
  rcases Nat.lt_trichotomy n (before + 1) with hlt | heq | hgt
  · rw [if_neg (by omega), if_neg (by omega), if_neg (by omega)]
  · rw [if_pos (by omega), if_pos heq, heq]
    simp
  · have hskip : n - before - 1 = (n - (before + 1) - 1) + 1 := by omega
    rw [if_pos (by omega), if_neg (by omega), if_pos hgt, hskip]
    rfl

/-- The jumps of an accepted sequence take the passes of a beat one by one, after those taken already, and never
one that the cycle lacks. -/
theorem passes_setLinks {p : Performance} (hplain : ∀ e, p.jump e = .straight (p.score.next? e))
    {taken : SortedMap BeatId UInt32} (htaken : ∀ e, ((taken.get? e).getD 0).toNat ≤ Jump.defaultCycle.toNat)
    {beats : List BeatId} {ls : List Link} (h : links p taken beats = .ok ls) {q : Performance} {e : BeatId}
    (he : e < q.jumps.size) :
    let before := ((taken.get? e).getD 0).toNat
    before + (p.score.exits beats e).length ≤ Jump.defaultCycle.toNat ∧ ∀ n : UInt32,
      ((q.setLinks ls).jump e).passes.get? n =
        (if before < n.toNat then ((p.score.exits beats e)[n.toNat - before - 1]?).map some else none).or
          ((q.jump e).passes.get? n) := by
  -- Each link takes the next pass of the beat it leaves, so the passes taken before grow with the links set.
  induction beats generalizing taken ls q with
  | nil =>
    obtain rfl := Except.ok.inj h
    exact ⟨htaken e, fun n => by simp [Score.exits, setLinks]⟩
  | cons a beats ih =>
    cases beats with
    | nil =>
      obtain rfl := Except.ok.inj h
      exact ⟨htaken e, fun n => by simp [Score.exits, setLinks]⟩
    | cons b rest =>
      obtain ⟨x, more, hpass, hcycle, hmore, rfl⟩ := (links_eq_ok_iff hplain).1 h
      generalize hf : p.score.lastBeatOf a = f at *
      have htaken' (e : BeatId) : (((taken.insert f x).get? e).getD 0).toNat ≤ Jump.defaultCycle.toNat := by
        rw [SortedMap.get?_insert]
        split
        · exact UInt32.le_iff_toNat_le.1 hcycle
        · exact htaken e
      obtain ⟨hlength, hpasses⟩ := ih htaken' hmore
        (q := q.modifyJump f (·.set (.pass x) (some b))) (by simpa using he)
      rw [Score.exits_cons_cons, hf]
      change _ ∧ ∀ n, (((q.modifyJump f (·.set (.pass x) (some b))).setLinks more).jump e).passes.get? n = _
      by_cases hfe : f = e
      · subst hfe
        rw [SortedMap.get?_insert_self, Option.getD_some, hpass] at hlength hpasses
        rw [jump_modifyJump, if_pos ⟨rfl, he⟩] at hpasses
        rw [if_pos rfl]
        refine ⟨by simp; omega, ?_⟩
        intro n
        rw [hpasses n, Jump.set, SortedMap.get?_insert, List.singleton_append, exit_cons]
        by_cases hn : n = x
        · simp [hn, hpass]
        · have hne : n.toNat ≠ ((taken.get? f).getD 0).toNat + 1 := fun heq =>
            hn (UInt32.toNat_inj.1 (heq.trans hpass.symm))
          rw [if_neg hn, if_neg hne]
      · rw [SortedMap.get?_insert, if_neg (Ne.symm hfe)] at hlength hpasses
        rw [jump_modifyJump_of_ne q (Ne.symm hfe)] at hpasses
        rw [if_neg hfe, List.nil_append]
        exact ⟨hlength, hpasses⟩

end Performance

end Gamelan
