import Gamelan.Proofs.Score.Places

namespace Gamelan

/-- A beat by the number of its gongan and its own within the gongan, if the score has both. -/
def Score.beatAt? (s : Score) (gongan number : Nat) : Option BeatId := (s.gongan? gongan).bind (·.beatAt? number)

namespace Manuscript

/-- The beat that is written at a place in some gongans, where gongans and beats are counted from zero. -/
def writtenAt? (gs : List Manuscript.Gongan) (i j : Nat) : Option Manuscript.Beat := (gs[i]?).bind (·.beats[j]?)

/-- Every placed beat has been written at its place in its gongan. -/
theorem getElem?_of_placeGongans {total gongan id : Nat} {gs : List Manuscript.Gongan}
    {gongans : List Gamelan.Gongan} {beats : List Gamelan.Beat}
    (h : placeGongans total gongan id gs = .ok (gongans, beats)) {k : Nat} {beat : Gamelan.Beat}
    (hbeat : beats[k]? = some beat) :
    ∃ i j b, writtenAt? gs i j = some b ∧ b.toBeat total (id + k) (gongan + i) (j + 1) = .ok beat := by
  induction gs generalizing gongan id gongans beats k with
  | nil =>
    cases h
    cases hbeat
  | cons g rest ih =>
    obtain ⟨own, gongans', more, hown, hmore, -, rfl, -⟩ := placeGongans_cons h
    have hlength := length_placeBeats hown
    by_cases hk : k < own.length
    · rw [List.getElem?_append_left hk] at hbeat
      obtain ⟨b, hb, hplace⟩ := getElem?_of_placeBeats hown hbeat
      rw [Nat.add_comm 1] at hplace
      exact ⟨0, k, b, hb, hplace⟩
    · rw [List.getElem?_append_right (by omega)] at hbeat
      obtain ⟨i, j, b, hb, hplace⟩ := ih hmore hbeat
      rw [show id + g.beats.length + (k - own.length) = id + k by omega, Nat.add_assoc, Nat.add_comm 1] at hplace
      exact ⟨i + 1, j, b, hb, hplace⟩

/-- The gongans are placed in the order in which they are written, with their directives and as many beats. -/
theorem map_placeGongans {total gongan id : Nat} {gs : List Manuscript.Gongan} {gongans : List Gamelan.Gongan}
    {beats : List Gamelan.Beat} (h : placeGongans total gongan id gs = .ok (gongans, beats)) :
    gongans.map (fun g => (g.directives, g.beats.length)) = gs.map fun g => (g.directives, g.beats.length) := by
  induction gs generalizing gongan id gongans beats with
  | nil =>
    cases h
    rfl
  | cons g rest ih =>
    obtain ⟨own, gongans', more, -, hmore, rfl, rfl, -⟩ := placeGongans_cons h
    simp [ih hmore]

variable {m : Manuscript} {s : Score} (h : m.toScore = .ok s)

include h

theorem toScore_written {k : Nat} {beat : Gamelan.Beat} (hbeat : s.beats[k]? = some beat) :
    ∃ i j b, writtenAt? m.gongans i j = some b ∧ b.toBeat s.beats.size k (i + 1) (j + 1) = .ok beat := by
  obtain ⟨⟨gongans, beats⟩, hplace, h⟩ := bind_eq_ok_iff.1 h
  obtain rfl := Except.ok.inj h
  rw [← (placeGongans_placed hplace).2] at hplace
  obtain ⟨i, j, b, hb, hbeat⟩ := getElem?_of_placeGongans hplace (by simpa using hbeat)
  rw [Nat.zero_add, Nat.add_comm 1] at hbeat
  exact ⟨i, j, b, hb, by simpa using hbeat⟩

theorem toScore_gongans :
    s.gongans.toList.map (fun g => (g.directives, g.beats.length)) =
      m.gongans.map fun g => (g.directives, g.beats.length) := by
  obtain ⟨⟨gongans, beats⟩, hplace, h⟩ := bind_eq_ok_iff.1 h
  obtain rfl := Except.ok.inj h
  exact map_placeGongans hplace

/-- Every beat that is written is in the score, found by the number of its gongan and its own. -/
theorem toScore_beatAt? {i j : Nat} {b : Manuscript.Beat} (hb : writtenAt? m.gongans i j = some b) :
    ∃ c beat, s.beatAt? (i + 1) (j + 1) = some c ∧ s.beats[c]? = some beat ∧
      b.toBeat s.beats.size c (i + 1) (j + 1) = .ok beat := by
  have hs := toScore_isPlaced h
  obtain ⟨written, hwritten, hwrittenBeat⟩ := Option.bind_eq_some_iff.1 hb
  -- The gongan of the score has the same number of beats as the one that is written in its place.
  have hgongans := congrArg (·[i]?) (toScore_gongans h)
  simp only [List.getElem?_map, hwritten, Option.map_some] at hgongans
  obtain ⟨g, hg, hlength⟩ := Option.map_eq_some_iff.1 hgongans
  have hj : j < g.beats.length := by
    rw [(Prod.mk.inj hlength).2]
    exact (List.getElem?_eq_some_iff.1 hwrittenBeat).1
  have hfound : s.gongan? (i + 1) = some g := by rwa [Score.gongan?, ← Array.getElem?_toList]
  obtain ⟨hmem, hid⟩ := hs.gongan?_eq_some_iff.1 hfound
  have hc : g.beats[j]? = some g.beats[j] := List.getElem?_eq_getElem hj
  obtain ⟨-, beat, hbeat, hgongan, hindex⟩ := hs.beat_of_getElem? hmem hc
  obtain ⟨i', j', b', hb', hplace⟩ := toScore_written h hbeat
  -- The beat there is the written one, since its gongan and its index are those of the place.
  have hgongan' : beat.gongan = i' + 1 := congrArg (·.gongan) (Beat.toBeat_eq_ok hplace).2
  have hindex' : beat.index = j' + 1 := congrArg (·.index) (Beat.toBeat_eq_ok hplace).2
  obtain rfl : i' = i := by omega
  obtain rfl : j' = j := by omega
  obtain rfl : b' = b := Option.some.inj (hb'.symm.trans hb)
  exact ⟨g.beats[j'], beat, by rw [Score.beatAt?, hfound]; exact hc, hbeat, hplace⟩

end Manuscript

end Gamelan
