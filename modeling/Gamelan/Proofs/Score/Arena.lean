import Gamelan.Proofs.Score.Written

namespace Gamelan

/-- Two numbers with a hyphen between them can be read back, since no digit is a hyphen. -/
theorem hyphenated_inj {a b c d : Nat} (h : s!"{a}-{b}" = s!"{c}-{d}") : a = c ∧ b = d := by
  have hsplit (m n : Nat) : (s!"{m}-{n}").toList = Nat.toDigits 10 m ++ '-' :: Nat.toDigits 10 n := by
    change (toString m ++ "-" ++ toString n).toList = _
    simp
  have hdigits (m n : Nat) : (Nat.toDigits 10 m ++ '-' :: Nat.toDigits 10 n).takeWhile Char.isDigit =
      Nat.toDigits 10 m := by
    rw [List.takeWhile_append_of_pos fun _ hc => Nat.isDigit_of_mem_toDigits (by decide) (by decide) hc]
    simp
  have hinj {m n : Nat} (hmn : Nat.toDigits 10 m = Nat.toDigits 10 n) : m = n := by
    simpa using congrArg (Nat.ofDigitChars 10 · 0) hmn
  have hlist := congrArg String.toList h
  rw [hsplit, hsplit] at hlist
  have hfirst := congrArg (List.takeWhile Char.isDigit) hlist
  rw [hdigits, hdigits] at hfirst
  rw [hfirst, List.append_cancel_left_eq, List.cons.injEq] at hlist
  exact ⟨hinj hfirst, hinj hlist.2⟩

namespace Score

/-- The beat in front of a beat, in the order of the score. -/
def prev? (s : Score) (b : BeatId) : Option BeatId := (s.beats[b]?).bind (·.prev?)

/-- The beats of a score, the gongans that they belong to and their links agree with each other in all numbers. -/
structure IsArena (s : Score) : Prop where
  ids : ∀ (b : BeatId) (beat : Beat), s.beats[b]? = some beat → beat.id = b
  nonempty : ∀ g ∈ s.gongans.toList, g.beats ≠ []
  row : s.gongans.toList.flatMap (·.beats) = List.range s.beats.size
  numbers : ∀ n, (s.gongan? n).map (·.id) = if 1 ≤ n ∧ n ≤ s.gongans.size then some n else none
  places : ∀ n g, s.gongan? n = some g → ∀ (j : Nat) (b : BeatId),
    g.beats[j]? = some b ↔ ∃ beat, s.beats[b]? = some beat ∧ beat.gongan = n ∧ beat.index = j + 1
  home : ∀ (b : BeatId) (beat : Beat), s.beats[b]? = some beat → s.beatAt? (s.gonganOf b) beat.index = some b
  beatAt : ∀ g ∈ s.gongans.toList, ∀ n, (g.beatAt? n).isSome ↔ 1 ≤ n ∧ n ≤ g.beats.length
  next : ∀ b c, s.next? b = some c ↔ b + 1 = c ∧ c < s.beats.size
  inverse : ∀ b c, s.next? b = some c ↔ s.prev? c = some b
  last : ∀ b, b < s.beats.size → (s.next? b = none ↔ b + 1 = s.beats.size)
  first : ∀ b, b < s.beats.size → (s.prev? b = none ↔ b = 0)
  names : ∀ b c, b < s.beats.size → c < s.beats.size → s.fullId b = s.fullId c → b = c

namespace IsPlaced

variable {s : Score} (hs : s.IsPlaced)

include hs

theorem map_id_gongan? (n : Nat) :
    (s.gongan? n).map (·.id) = if 1 ≤ n ∧ n ≤ s.gongans.size then some n else none := by
  cases hg : s.gongan? n with
  | some g =>
    have hn : 1 ≤ n ∧ n ≤ s.gongans.size := by
      cases n with
      | zero => cases hg
      | succ n => exact ⟨by omega, (Array.getElem?_eq_some_iff.1 hg).1⟩
    rw [if_pos hn, Option.map_some, (hs.gongan?_eq_some_iff.1 hg).2]
  | none =>
    have hn : ¬ (1 ≤ n ∧ n ≤ s.gongans.size) := by
      cases n with
      | zero => omega
      | succ n =>
        have hsize := Array.getElem?_eq_none_iff.1 hg
        omega
    rw [if_neg hn, Option.map_none]

/-- A gongan holds the beats that say so, each at the place that they say. -/
theorem getElem?_beats_iff {n : Nat} {g : Gongan} (hg : s.gongan? n = some g) (j : Nat) (b : BeatId) :
    g.beats[j]? = some b ↔ ∃ beat, s.beats[b]? = some beat ∧ beat.gongan = n ∧ beat.index = j + 1 := by
  obtain ⟨hmem, rfl⟩ := hs.gongan?_eq_some_iff.1 hg
  constructor
  · exact fun hb => (hs.beat_of_getElem? hmem hb).2
  · rintro ⟨beat, hbeat, hgongan, hindex⟩
    obtain ⟨g', hmem', k, hk⟩ := hs.exists_gongan (Array.getElem?_eq_some_iff.1 hbeat).1
    obtain ⟨-, beat', hbeat', hgongan', hindex'⟩ := hs.beat_of_getElem? hmem' hk
    obtain rfl : beat' = beat := Option.some.inj (hbeat'.symm.trans hbeat)
    obtain rfl : g' = g := hs.gongan_unique hmem' hmem (hgongan'.symm.trans hgongan)
    obtain rfl : k = j := by omega
    exact hk

theorem beatAt?_of_getElem? {b : BeatId} {beat : Beat} (hbeat : s.beats[b]? = some beat) :
    s.beatAt? beat.gongan beat.index = some b := by
  obtain ⟨g, hmem, k, hk⟩ := hs.exists_gongan (Array.getElem?_eq_some_iff.1 hbeat).1
  obtain ⟨-, beat', hbeat', hgongan, hindex⟩ := hs.beat_of_getElem? hmem hk
  obtain rfl : beat' = beat := Option.some.inj (hbeat'.symm.trans hbeat)
  rw [beatAt?, hs.gongan?_eq_some_iff.2 ⟨hmem, hgongan.symm⟩, hindex]
  exact hk

/-- The name of a beat tells where it is, so no two beats share one. -/
theorem fullId_inj {b c : BeatId} (hb : b < s.beats.size) (hc : c < s.beats.size) (h : s.fullId b = s.fullId c) :
    b = c := by
  have hbeat := Array.getElem?_eq_getElem hb
  have hbeat' := Array.getElem?_eq_getElem hc
  rw [fullId, fullId, hbeat, hbeat'] at h
  obtain ⟨hgongan, hindex⟩ := hyphenated_inj h
  have hplace := hs.beatAt?_of_getElem? hbeat
  rw [hgongan, hindex, hs.beatAt?_of_getElem? hbeat'] at hplace
  exact (Option.some.inj hplace).symm

theorem next?_eq_some_iff (b c : BeatId) : s.next? b = some c ↔ b + 1 = c ∧ c < s.beats.size := by
  by_cases hb : b < s.beats.size
  · rw [hs.next?_eq hb]
    split
    next hnext =>
      rw [Option.some.injEq]
      lia
    next hlast =>
      simp only [reduceCtorEq, false_iff]
      lia
  · rw [next?, Array.getElem?_eq_none (Nat.not_lt.1 hb)]
    simp only [Option.bind_none, reduceCtorEq, false_iff]
    lia

end IsPlaced

end Score

theorem Gongan.isSome_beatAt? (g : Gongan) (n : Nat) : (g.beatAt? n).isSome ↔ 1 ≤ n ∧ n ≤ g.beats.length := by
  cases n with
  | zero => simp [beatAt?]
  | succ n =>
    rw [beatAt?, isSome_getElem?]
    omega

namespace Manuscript

variable {m : Manuscript} {s : Score} (h : m.toScore = .ok s)

include h

theorem toScore_prev? (b : BeatId) :
    s.prev? b = if b = 0 ∨ s.beats.size ≤ b then none else some (b - 1) := by
  rw [Score.prev?]
  cases hbeat : s.beats[b]? with
  | none => simp [Array.getElem?_eq_none_iff.1 hbeat]
  | some beat =>
    obtain ⟨i, j, written, -, hplace⟩ := toScore_written h hbeat
    have hb : b < s.beats.size := (Array.getElem?_eq_some_iff.1 hbeat).1
    obtain ⟨-, rfl⟩ := Beat.toBeat_eq_ok hplace
    simp [Nat.not_le.2 hb]

/-- The score of a manuscript is well formed: each beat is at its number, the gongans divide the row of beats among
them, lookups by number find what is there and nothing else, the links lead through the whole row in both directions,
and all beats have names of their own. -/
theorem toScore_isArena : s.IsArena where
  ids b beat hbeat := by
    obtain ⟨i, j, written, -, hplace⟩ := toScore_written h hbeat
    exact congrArg (·.id) (Beat.toBeat_eq_ok hplace).2
  nonempty := (toScore_isPlaced h).nonempty
  row := by
    rw [(toScore_isPlaced h).row, Array.length_toList, List.range_eq_range']
  numbers := (toScore_isPlaced h).map_id_gongan?
  places _ _ hg := (toScore_isPlaced h).getElem?_beats_iff hg
  home b beat hbeat := by
    have hgongan : s.gonganOf b = beat.gongan := by rw [Score.gonganOf, hbeat, Option.elim_some]
    rw [hgongan]
    exact (toScore_isPlaced h).beatAt?_of_getElem? hbeat
  beatAt g _ := g.isSome_beatAt?
  next := (toScore_isPlaced h).next?_eq_some_iff
  inverse b c := by
    rw [(toScore_isPlaced h).next?_eq_some_iff, toScore_prev? h]
    split
    next hnone =>
      simp only [reduceCtorEq, iff_false]
      lia
    next hsome =>
      rw [Option.some.injEq]
      lia
  last b hb := by
    rw [(toScore_isPlaced h).next?_eq hb]
    split
    next hnext =>
      simp only [reduceCtorEq, false_iff]
      lia
    next hlast =>
      simp only [true_iff]
      lia
  first b hb := by
    rw [toScore_prev? h]
    split
    next hnone =>
      simp only [true_iff]
      lia
    next hsome =>
      simp only [reduceCtorEq, false_iff]
      lia
  names _ _ := (toScore_isPlaced h).fullId_inj

omit h in
theorem toScore_isArena_of_uneven :
    let m : Manuscript := { gongans := [{ beats := [{}, {}] }, { beats := [{}] }, { beats := [{}, {}, {}] }] }
    ∃ s, m.toScore = .ok s ∧ s.beats.size = 6 ∧ s.beatAt? 3 1 = some 3 ∧ s.IsArena := by
  intro m
  have hsome : m.toScore.toOption.any (fun s => s.beats.size == 6 && s.beatAt? 3 1 == some 3) := by decide +kernel
  obtain ⟨s, hs, hfacts⟩ := (Option.any_eq_true ..).1 hsome
  obtain ⟨hsize, hplace⟩ := Bool.and_eq_true_iff.1 hfacts
  have hok : m.toScore = .ok s := toOption_eq_some_iff.1 hs
  exact ⟨s, hok, beq_iff_eq.1 hsize, beq_iff_eq.1 hplace, toScore_isArena hok⟩

end Manuscript

end Gamelan
