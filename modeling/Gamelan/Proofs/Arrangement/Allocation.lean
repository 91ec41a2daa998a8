import Gamelan.Proofs.Arrangement.Exits
import Gamelan.Proofs.Arrangement.Setup
import Mathlib.Algebra.Group.Nat.Defs
import Mathlib.Logic.Function.Basic

namespace Gamelan

namespace Jump

variable {j : Jump} {n : UInt32}

/-- The highest pass is the least number that no pass with a target exceeds. -/
theorem maxPass_le_iff : j.maxPass ≤ n ↔ ∀ m target, j.target? (.pass m) = some target → m ≤ n := by
  have hkey (m : UInt32) : m ∈ j.passes.keys ↔ ∃ target, j.target? (.pass m) = some target := by
    simp only [target?, SortedMap.get?_eq_some_iff, SortedMap.keys, List.mem_map, Prod.exists, exists_eq_right,
      exists_and_right]
  have hsorted : j.passes.keys.Pairwise (· < ·) := by
    refine List.pairwise_map.2 (j.passes.sorted.imp fun h => ?_)
    exact compareOfLessAndEq_eq_lt.1 h
  rw [maxPass]
  -- The keys go up, so the last one is the highest; without keys the highest pass is zero, which exceeds nothing.
  rcases List.eq_nil_or_concat' j.passes.keys with hnil | ⟨lower, last, hlast⟩
  · simp only [hnil, List.not_mem_nil, false_iff] at hkey
    simp only [hnil, List.getLastD_nil]
    exact ⟨fun _ m target h => absurd ⟨target, h⟩ (hkey m), fun _ => UInt32.zero_le⟩
  · simp only [hlast, List.mem_append, List.mem_singleton] at hkey
    rw [hlast, List.pairwise_append] at hsorted
    rw [hlast, List.getLastD_concat]
    constructor
    · intro hle m target h
      rcases (hkey m).2 ⟨target, h⟩ with hm | rfl
      · exact UInt32.le_trans (UInt32.le_of_lt (hsorted.2.2 m hm last (.head _))) hle
      · exact hle
    · intro hall
      obtain ⟨target, h⟩ := (hkey last).1 (.inr rfl)
      exact hall last target h

end Jump

namespace Performance

open Arrangement

theorem size_setLinks (p : Performance) (ls : List Link) : (p.setLinks ls).jumps.size = p.jumps.size := by
  induction ls generalizing p with
  | nil => rfl
  | cons l ls ih =>
    exact (ih (p.modifyJump l.fromBeat (·.set (.pass l.pass) (some l.toBeat)))).trans (p.size_modifyJump _ _)

theorem score_setLinks (p : Performance) (ls : List Link) : (p.setLinks ls).score = p.score := by
  induction ls generalizing p with
  | nil => rfl
  | cons l ls ih => exact ih (p.modifyJump l.fromBeat (·.set (.pass l.pass) (some l.toBeat)))

theorem target?_modifyJump_set {p : Performance} {b : BeatId} (hb : b < p.jumps.size) (m : UInt32) (target : Target)
    (e : BeatId) (n : UInt32) :
    ((p.modifyJump b (·.set (.pass m) target)).jump e).target? (.pass n) =
      if e = b ∧ n = m then some target else (p.jump e).target? (.pass n) := by
  rw [jump_modifyJump]
  by_cases he : e = b
  · rw [if_pos ⟨he, hb⟩, Jump.target?_set, he]
    simp
  · simp [he]

/-- Jumps on passes of their own are added to those that there are. -/
theorem target?_setLinks {p : Performance} {ls : List Link} (hlt : ∀ l ∈ ls, l.fromBeat < p.jumps.size)
    (hnew : ∀ l ∈ ls, (p.jump l.fromBeat).target? (.pass l.pass) = none)
    (hdistinct : ls.Pairwise fun l l' => l.fromBeat = l'.fromBeat → l.pass ≠ l'.pass) (e : BeatId) (n : UInt32)
    (target : Target) :
    ((p.setLinks ls).jump e).target? (.pass n) = some target ↔
      (p.jump e).target? (.pass n) = some target ∨
        ∃ l ∈ ls, l.fromBeat = e ∧ l.pass = n ∧ target = some l.toBeat := by
  induction ls generalizing p with
  | nil => simp [setLinks]
  | cons l ls ih =>
    obtain ⟨hfirst, hrest⟩ := List.pairwise_cons.1 hdistinct
    obtain ⟨hl, hls⟩ := List.forall_mem_cons.1 hlt
    have hset := target?_modifyJump_set hl l.pass (some l.toBeat)
    change (((p.modifyJump l.fromBeat (·.set (.pass l.pass) (some l.toBeat))).setLinks ls).jump e).target? _ = _ ↔ _
    rw [ih ?_ ?_ hrest, hset, List.exists_mem_cons_iff]
    · by_cases he : e = l.fromBeat ∧ n = l.pass
      · have hnone := hnew l (.head _)
        rw [← he.1, ← he.2] at hnone
        have hothers : ¬ ∃ l' ∈ ls, l'.fromBeat = e ∧ l'.pass = n ∧ target = some l'.toBeat := by
          rintro ⟨l', hl', hfrom, hpass, -⟩
          exact hfirst l' hl' (he.1.symm.trans hfrom.symm) (he.2.symm.trans hpass.symm)
        rw [if_pos he, hnone]
        simp [he, eq_comm]
      · rw [if_neg he]
        have hhead : ¬ (l.fromBeat = e ∧ l.pass = n ∧ target = some l.toBeat) :=
          fun h => he ⟨h.1.symm, h.2.1.symm⟩
        simp [hhead]
    · simpa using hls
    · intro l' hl'
      rw [hset, if_neg fun h => hfirst l' hl' h.1.symm h.2.symm]
      exact hnew l' (.tail _ hl')

end Performance

namespace Arrangement

variable {p q : Performance} {taken : BeatId → UInt32} {ls : List Link}

/-- Whether jumps take the passes of each beat one by one, after those that are taken already. -/
def Follows (taken : BeatId → UInt32) : List Link → Prop
  | [] => True
  | l :: ls => l.pass.toNat = (taken l.fromBeat).toNat + 1 ∧ Follows (Function.update taken l.fromBeat l.pass) ls

/-- The table of the passes taken stands for the function that gives the last pass of each beat. -/
theorem lastPass_insert (p : Performance) (taken : SortedMap BeatId UInt32) (e : BeatId) (n : UInt32) :
    lastPass p (taken.insert e n) = Function.update (lastPass p taken) e n := by
  funext f
  rw [lastPass, SortedMap.get?_insert, Function.update_apply]
  split <;> rfl

theorem follows_of_links {taken : SortedMap BeatId UInt32} {beats : List BeatId} (h : links p taken beats = .ok ls) :
    Follows (lastPass p taken) ls := by
  induction beats generalizing taken ls with
  | nil =>
    obtain rfl := Except.ok.inj h
    trivial
  | cons a beats ih =>
    cases beats with
    | nil =>
      obtain rfl := Except.ok.inj h
      trivial
    | cons b rest =>
      obtain ⟨l, more, -, -, hpass, -, hmore, rfl⟩ := links_cons_cons_eq_ok_iff.1 h
      exact ⟨hpass, lastPass_insert p taken _ _ ▸ ih hmore⟩

/-- A sequence has a jump for each of its beats but the first. -/
theorem length_links {taken : SortedMap BeatId UInt32} {beats : List BeatId} (h : links p taken beats = .ok ls) :
    ls.length = beats.length - 1 := by
  induction beats generalizing taken ls with
  | nil =>
    obtain rfl := Except.ok.inj h
    rfl
  | cons a beats ih =>
    cases beats with
    | nil =>
      obtain rfl := Except.ok.inj h
      rfl
    | cons b rest =>
      obtain ⟨l, more, -, -, -, -, hmore, rfl⟩ := links_cons_cons_eq_ok_iff.1 h
      rw [List.length_cons, ih hmore]
      simp

/-- The jumps of a sequence leave the gongans of its beats, within the cycles there. -/
theorem of_mem_links {taken : SortedMap BeatId UInt32} {beats : List BeatId} (h : links p taken beats = .ok ls)
    {l : Link} (hl : l ∈ ls) :
    l.pass ≤ (p.jump l.fromBeat).counter.cycle ∧ ∃ a ∈ beats, l.fromBeat = p.score.lastBeatOf a := by
  induction beats generalizing taken ls with
  | nil =>
    obtain rfl := Except.ok.inj h
    cases hl
  | cons a beats ih =>
    cases beats with
    | nil =>
      obtain rfl := Except.ok.inj h
      cases hl
    | cons b rest =>
      obtain ⟨l', more, hfrom, -, -, hcycle, hmore, rfl⟩ := links_cons_cons_eq_ok_iff.1 h
      rcases List.mem_cons.1 hl with rfl | hl
      · exact ⟨hcycle, a, .head _, hfrom⟩
      · obtain ⟨hle, c, hc, hend⟩ := ih hmore hl
        exact ⟨hle, c, .tail _ hc, hend⟩

namespace Follows

/-- The passes that are taken at a beat go up, from above those that have been taken there before. -/
theorem increasing (h : Follows taken ls) : (∀ l ∈ ls, taken l.fromBeat < l.pass) ∧
    ls.Pairwise fun l l' => l.fromBeat = l'.fromBeat → l.pass < l'.pass := by
  induction ls generalizing taken with
  | nil => exact ⟨nofun, .nil⟩
  | cons l ls ih =>
    obtain ⟨hpass, hrest⟩ := h
    obtain ⟨habove, hpairwise⟩ := ih hrest
    have hfirst : taken l.fromBeat < l.pass := by
      rw [UInt32.lt_iff_toNat_lt, hpass]
      exact Nat.lt_succ_self _
    have hlater : ∀ l' ∈ ls, l.fromBeat = l'.fromBeat → l.pass < l'.pass := by
      intro l' hl' hfrom
      have hlt := habove l' hl'
      rwa [Function.update_apply, if_pos hfrom.symm] at hlt
    refine ⟨List.forall_mem_cons.2 ⟨hfirst, fun l' hl' => ?_⟩, List.pairwise_cons.2 ⟨hlater, hpairwise⟩⟩
    by_cases hfrom : l.fromBeat = l'.fromBeat
    · exact UInt32.lt_trans (hfrom ▸ hfirst) (hlater l' hl' hfrom)
    · have hlt := habove l' hl'
      rwa [Function.update_apply, if_neg (Ne.symm hfrom)] at hlt

theorem one_le (h : Follows taken ls) {l : Link} (hl : l ∈ ls) : 1 ≤ l.pass := by
  have hlt := UInt32.lt_iff_toNat_lt.1 (h.increasing.1 l hl)
  exact UInt32.le_iff_toNat_le.2 (Nat.succ_le_of_lt (Nat.zero_lt_of_lt hlt))

end Follows

section Overruns

/-- The beats that the jumps of a sequence start from, in order. -/
def exitBeats (s : Score) (beats : List BeatId) : List BeatId := beats.dropLast.map s.lastBeatOf

/-- Whether jumps from some beats come to one for which no pass can be counted any more, with a pass within the cycle for
every jump before it. Each jump needs the pass after those that are taken at its beat, by others and by the jumps before
it. -/
def Overruns (p : Performance) (taken : BeatId → UInt32) (exits : List BeatId) : Prop :=
  ∃ (i : Nat) (e : BeatId), exits[i]? = some e ∧ (taken e).toNat + (exits.take (i + 1)).count e = 2 ^ 32 ∧
    ∀ j f, j < i → exits[j]? = some f →
      (taken f).toNat + (exits.take (j + 1)).count f ≤ (p.jump f).counter.cycle.toNat

/-- After its first jump a sequence goes on with one more pass taken at the beat where it starts. -/
theorem update_add_count {e : BeatId} {n : UInt32} (hn : n.toNat = (taken e).toNat + 1) (exits : List BeatId)
    (k : Nat) (f : BeatId) : (Function.update taken e n f).toNat + (exits.take k).count f =
      (taken f).toNat + ((e :: exits).take (k + 1)).count f := by
  rw [List.take_succ_cons, List.count_cons, Function.update_apply]
  by_cases hf : f = e
  · subst hf
    simp [hn]
    omega
  · simp [hf, Ne.symm hf]

theorem overruns_cons_iff {e : BeatId} {exits : List BeatId} : Overruns p taken (e :: exits) ↔
    (taken e).toNat + 1 = 2 ^ 32 ∨ ∃ n, n.toNat = (taken e).toNat + 1 ∧ n ≤ (p.jump e).counter.cycle ∧
      Overruns p (Function.update taken e n) exits := by
  constructor
  · rintro ⟨i, f, hf, hlast, hbefore⟩
    cases i with
    | zero =>
      obtain rfl := Option.some.inj hf
      exact .inl (by simpa using hlast)
    | succ i =>
      have hfirst := hbefore 0 e (Nat.succ_pos i) rfl
      have hcycle := (p.jump e).counter.cycle.toNat_lt
      simp only [Nat.zero_add, List.take_succ_cons, List.take_zero, List.count_singleton_self] at hfirst
      have hn : (UInt32.ofNat ((taken e).toNat + 1)).toNat = (taken e).toNat + 1 :=
        UInt32.toNat_ofNat_of_lt' (Nat.lt_of_le_of_lt hfirst hcycle)
      refine .inr ⟨_, hn, UInt32.le_iff_toNat_le.2 (hn.symm ▸ hfirst), i, f, hf, ?_, fun j g hj hg => ?_⟩
      · rw [update_add_count hn]
        exact hlast
      · rw [update_add_count hn]
        exact hbefore (j + 1) g (Nat.succ_lt_succ hj) hg
  · rintro (hlast | ⟨n, hn, hle, i, f, hf, hlast, hbefore⟩)
    · exact ⟨0, e, rfl, by simpa using hlast, nofun⟩
    · refine ⟨i + 1, f, hf, (update_add_count hn exits (i + 1) f).symm.trans hlast, fun j g hj hg => ?_⟩
      cases j with
      | zero =>
        obtain rfl := Option.some.inj hg
        simpa [← hn] using UInt32.le_iff_toNat_le.1 hle
      | succ j =>
        rw [← update_add_count hn]
        exact hbefore j g (Nat.lt_of_succ_lt_succ hj) hg

/-- A sequence counts beyond the last pass exactly if a jump comes to it before a jump comes to the end of a cycle. -/
theorem links_eq_overflow_iff {taken : SortedMap BeatId UInt32} {beats : List BeatId} :
    links p taken beats = .error .overflow ↔ Overruns p (lastPass p taken) (exitBeats p.score beats) := by
  induction beats generalizing taken with
  | nil => simp [links, exitBeats, Overruns]
  | cons a beats ih =>
    cases beats with
    | nil => simp [links, exitBeats, Overruns]
    | cons b rest =>
      have hexits : exitBeats p.score (a :: b :: rest) = p.score.lastBeatOf a :: exitBeats p.score (b :: rest) := rfl
      rw [links_cons_cons, hexits, overruns_cons_iff]
      dsimp only
      cases hpass : successor? ((taken.get? (p.score.lastBeatOf a)).getD (p.jump (p.score.lastBeatOf a)).maxPass) with
      | none =>
        have hlast : lastPass p taken (p.score.lastBeatOf a) = 0xffffffff := successor?_eq_none_iff.1 hpass
        exact iff_of_true rfl (.inl (by rw [hlast]; rfl))
      | some n =>
        have hn : n.toNat = (lastPass p taken (p.score.lastBeatOf a)).toNat + 1 := successor?_eq_some_iff.1 hpass
        have hlast : (lastPass p taken (p.score.lastBeatOf a)).toNat + 1 ≠ 2 ^ 32 :=
          hn ▸ Nat.ne_of_lt n.toNat_lt
        simp only [hlast, false_or]
        by_cases hcycle : (p.jump (p.score.lastBeatOf a)).counter.cycle < n
        · rw [if_pos hcycle]
          refine iff_of_false (by simp) ?_
          rintro ⟨m, hm, hle, -⟩
          obtain rfl : m = n := UInt32.toNat_inj.1 (hm.trans hn.symm)
          exact UInt32.not_le.2 hcycle hle
        · rw [if_neg hcycle, map_eq_error_iff, ih, lastPass_insert]
          constructor
          · exact fun h => ⟨n, hn, UInt32.not_lt.1 hcycle, h⟩
          · rintro ⟨m, hm, -, h⟩
            obtain rfl : m = n := UInt32.toNat_inj.1 (hm.trans hn.symm)
            exact h

end Overruns

end Arrangement

end Gamelan
