import Gamelan.Proofs.Score.Places

namespace Gamelan

namespace Gongan

def firstBeat? (g : Gongan) : Option BeatId := g.beats.head?

def lastBeat? (g : Gongan) : Option BeatId := g.beats.getLast?

/-- The first beats of a gongan, if it has as many. -/
def take? (g : Gongan) (n : Nat) : Option (List BeatId) := if n ≤ g.beats.length then some (g.beats.take n) else none

theorem firstBeat?_eq {g : Gongan} (h : g.beats ≠ []) : g.firstBeat? = some g.firstBeat := by
  rw [firstBeat?, firstBeat]
  cases hbeats : g.beats with
  | nil => exact absurd hbeats h
  | cons b rest => rfl

theorem lastBeat?_eq {g : Gongan} (h : g.beats ≠ []) : g.lastBeat? = some g.lastBeat := by
  rw [lastBeat?, lastBeat, List.getLastD_eq_getLast?, List.getLast?_eq_some_getLast h, Option.getD_some]

theorem mem_of_beatAt? {g : Gongan} {n : Nat} {b : BeatId} (h : g.beatAt? n = some b) : b ∈ g.beats := by
  cases n with
  | zero => cases h
  | succ n => exact List.mem_of_getElem? h

end Gongan

namespace Score

/-- Where a beat stands: lookups find it and its gongan, which has as many beats as it takes to come to this one. -/
structure StandsAt (s : Score) (b : BeatId) (beat : Beat) (g : Gongan) : Prop where
  found : s.beats[b]? = some beat
  home : s.gongan? beat.gongan = some g
  number : 1 ≤ beat.gongan ∧ beat.gongan ≤ s.gongans.size
  index : 1 ≤ beat.index ∧ beat.index ≤ g.beats.length
  inside : ∀ c ∈ g.beats, c < s.beats.size

namespace StandsAt

variable {s : Score} {b : BeatId} {beat : Beat} {g : Gongan} (h : s.StandsAt b beat g)

include h

theorem nonempty : g.beats ≠ [] := by
  intro hempty
  have hindex := h.index
  rw [hempty, List.length_nil] at hindex
  omega

theorem gonganOf_eq : s.gonganOf b = beat.gongan := by
  rw [gonganOf, h.found, Option.elim_some]

theorem fullId_eq : s.fullId b = beat.fullId := by
  rw [fullId, h.found, Option.elim_some]

theorem next?_eq : s.next? b = beat.next? := by
  rw [next?, h.found, Option.bind_some]

theorem lastBeatOf_eq : s.lastBeatOf b = g.lastBeat := by
  rw [lastBeatOf, h.gonganOf_eq, h.home, Option.elim_some]

theorem earlierBeats_eq : s.earlierBeats b = g.beats.take (beat.index - 1) := by
  rw [earlierBeats, h.found]
  simp only
  rw [h.home, Option.elim_some]

theorem take?_eq : g.take? (beat.index - 1) = some (s.earlierBeats b) := by
  have hindex := h.index
  rw [Gongan.take?, if_pos (by omega), h.earlierBeats_eq]

/-- There are beats in front of a beat in its gongan if it is not the first one. -/
theorem isEmpty_earlierBeats : (s.earlierBeats b).isEmpty = decide (beat.index ≤ 1) := by
  have hindex := h.index
  rw [h.earlierBeats_eq, Bool.eq_iff_iff, List.isEmpty_iff, List.take_eq_nil_iff, decide_eq_true_iff]
  constructor
  · rintro (hzero | hempty)
    · omega
    · exact absurd hempty h.nonempty
  · intro hle
    exact .inl (by omega)

theorem lt_of_mem_earlierBeats {c : BeatId} (hc : c ∈ s.earlierBeats b) : c < s.beats.size := by
  rw [h.earlierBeats_eq] at hc
  exact h.inside c (List.mem_of_mem_take hc)

end StandsAt

/-- In a score each beat stands somewhere. -/
theorem IsPlaced.exists_standsAt {s : Score} (hs : s.IsPlaced) {b : BeatId} (hb : b < s.beats.size) :
    ∃ beat g, s.StandsAt b beat g := by
  obtain ⟨g, hg, k, hk⟩ := hs.exists_gongan hb
  obtain ⟨-, beat, hbeat, hgongan, hindex⟩ := hs.beat_of_getElem? hg hk
  have hfound : s.gongan? beat.gongan = some g := hs.gongan?_eq_some_iff.2 ⟨hg, hgongan.symm⟩
  have hlt : k < g.beats.length := (List.getElem?_eq_some_iff.1 hk).1
  refine ⟨beat, g, hbeat, hfound, ?_, by omega, fun c hc => hs.lt_size_of_mem hg hc⟩
  cases hn : beat.gongan with
  | zero =>
    rw [hn] at hfound
    cases hfound
  | succ n =>
    rw [hn, gongan?] at hfound
    obtain ⟨hsize, -⟩ := Array.getElem?_eq_some_iff.1 hfound
    omega

end Score

end Gamelan
