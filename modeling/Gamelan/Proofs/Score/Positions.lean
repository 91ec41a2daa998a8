import Gamelan.Proofs.Midi.Decoding
import Gamelan.Proofs.Score.Regrouping

namespace Gamelan

/-- Of the digits that an encoding writes a character with, six bits each behind the first one, the first that differs
is smaller where the character is. -/
theorem lt_digits {m n : Nat} (h : m < n) :
    m / 262144 < n / 262144 ∨ m / 262144 = n / 262144 ∧ (m / 4096 % 64 < n / 4096 % 64 ∨
      m / 4096 % 64 = n / 4096 % 64 ∧ (m / 64 % 64 < n / 64 % 64 ∨
        m / 64 % 64 = n / 64 % 64 ∧ m % 64 < n % 64)) := by
  omega

/-- Characters are encoded in their order, whatever comes behind them: a longer encoding begins with a greater byte. -/
theorem append_utf8EncodeChar_lt {c d : Char} (h : c < d) (x y : List UInt8) :
    String.utf8EncodeChar c ++ x < String.utf8EncodeChar d ++ y := by
  have hlt : c.val.toNat < d.val.toNat := UInt32.lt_iff_toNat_lt.1 h
  have hmax : d.val.toNat < 0x110000 := by
    rcases d.valid with h | h <;> omega
  have hdigits := lt_digits hlt
  simp only [String.utf8EncodeChar]
  generalize c.val.toNat = m at hlt hdigits ⊢
  generalize d.val.toNat = n at hlt hmax hdigits ⊢
  -- One case for each pair of lengths; no byte is cut off, so the bytes are compared as numbers.
  split_ifs <;>
    simp only [List.cons_append, List.nil_append, List.cons_lt_cons_iff, UInt8.lt_iff_toNat_lt, ← UInt8.toNat_inj,
      UInt8.toNat_ofNat'] <;>
    simp (disch := omega) only [Nat.mod_eq_of_lt (b := 256), Nat.mod_eq_of_lt (b := 8), Nat.mod_eq_of_lt (b := 16),
      Nat.mod_eq_of_lt (b := 32)] <;>
    omega

theorem flatMap_utf8EncodeChar_lt {l l' : List Char} (h : l < l') :
    l.flatMap String.utf8EncodeChar < l'.flatMap String.utf8EncodeChar := by
  induction h with
  | @nil c l =>
    rw [List.flatMap_nil, List.flatMap_cons]
    cases hc : String.utf8EncodeChar c with
    | nil => exact absurd hc String.utf8EncodeChar_ne_nil
    | cons => exact .nil
  | rel h => exact append_utf8EncodeChar_lt h _ _
  | cons h ih => exact List.append_left_lt ih

/-- Texts are ordered by their characters, which is the order of their bytes. -/
theorem Midi.textBytes_lt {a b : String} (h : compare a b = .lt) : textBytes a < textBytes b := by
  have hlt : a < b := compareOfLessAndEq_eq_lt.1 h
  have hbytes (s : String) : textBytes s = s.toList.flatMap String.utf8EncodeChar := by
    rw [textBytes_eq, String.toUTF8_eq_toByteArray, ← String.utf8Encode_toList, List.utf8Encode]
    simp
  rw [hbytes, hbytes]
  exact flatMap_utf8EncodeChar_lt hlt

namespace SortedMap

variable {κ α : Type} [Ord κ]

theorem pairwise_keys (m : SortedMap κ α) : m.keys.Pairwise fun k k' => compare k k' = .lt :=
  List.pairwise_map.2 m.sorted

variable [Std.TransOrd κ] [Std.LawfulEqOrd κ] [DecidableEq κ]

omit [Std.LawfulEqOrd κ] [DecidableEq κ] in
theorem nodup_keys (m : SortedMap κ α) : m.keys.Nodup := by
  refine m.pairwise_keys.imp fun {k k'} hlt heq => ?_
  have hself : compare k k = .eq := Std.ReflCmp.compare_self
  rw [← heq, hself] at hlt
  cases hlt

theorem mem_keys_insert {m : SortedMap κ α} {k k' : κ} {v : α} : k' ∈ (m.insert k v).keys ↔ k' = k ∨ k' ∈ m.keys := by
  rw [mem_keys_iff, mem_keys_iff, get?_insert]
  by_cases hk : k' = k <;> simp [hk]

theorem mem_keys_foldl_insert {l : List κ} {m : SortedMap κ α} {v : α} {k : κ} :
    k ∈ (l.foldl (fun m k => m.insert k v) m).keys ↔ k ∈ l ∨ k ∈ m.keys := by
  induction l generalizing m with
  | nil => simp
  | cons head rest ih => rw [List.foldl_cons, ih, mem_keys_insert, List.mem_cons, ← or_assoc, or_comm (a := k ∈ rest)]

end SortedMap

namespace Score

/-- Whether a position has notation in any beat of a score. -/
def Notates (s : Score) (position : Position) : Prop := ∃ beat ∈ s.beats.toList, position ∈ beat.measures.keys

theorem mem_positions_iff {s : Score} {position : Position} : position ∈ s.positions ↔ s.Notates position := by
  -- The beats are gone through from the front, so the positions found before are general.
  have hbeats (beats : List Beat) (found : SortedMap Position Unit) :
      position ∈ (beats.foldl (fun m b => b.measures.keys.foldl (fun m p => m.insert p ()) m) found).keys ↔
        (∃ beat ∈ beats, position ∈ beat.measures.keys) ∨ position ∈ found.keys := by
    induction beats generalizing found with
    | nil => simp
    | cons beat rest ih =>
      rw [List.foldl_cons, ih, SortedMap.mem_keys_foldl_insert, List.exists_mem_cons_iff, ← or_assoc,
        or_comm (b := position ∈ beat.measures.keys)]
  rw [positions, ← Array.foldl_toList, hbeats, Notates]
  exact or_iff_left List.not_mem_nil

theorem pairwise_positions (s : Score) : s.positions.Pairwise fun p q => compare p q = .lt := SortedMap.pairwise_keys _

theorem nodup_positions (s : Score) : s.positions.Nodup := SortedMap.nodup_keys _

theorem ncard_notates (s : Score) : {position | s.Notates position}.ncard = s.positions.length := by
  have hset : {position | s.Notates position} = s.positions.toFinset := by
    ext position
    rw [List.coe_toFinset]
    exact mem_positions_iff.symm
  rw [hset, Set.ncard_coe_finset, List.toFinset_card_of_nodup s.nodup_positions]

end Score

namespace Manuscript

/-- A position has notation in a score if it is named in a beat of its manuscript, for all passes or for one. -/
theorem notates_iff {m : Manuscript} {s : Score} (h : m.toScore = .ok s) {position : Position} :
    s.Notates position ↔ ∃ i j b, writtenAt? m.gongans i j = some b ∧ (position ∈ b.notes.keys ∨
      ∃ pass byPosition, b.passes.get? pass = some byPosition ∧ position ∈ byPosition.keys) := by
  constructor
  · rintro ⟨beat, hmem, hposition⟩
    obtain ⟨k, hk⟩ := List.mem_iff_getElem?.1 hmem
    obtain ⟨i, j, b, hb, hplace⟩ := toScore_written h (Array.getElem?_toList ▸ hk)
    exact ⟨i, j, b, hb, ((Beat.isRegrouped_of_toBeat hplace).positions position).1 hposition⟩
  · rintro ⟨i, j, b, hb, hposition⟩
    obtain ⟨c, beat, -, hbeat, hregrouped⟩ := toScore_isRegrouped h hb
    exact ⟨beat, Array.mem_toList_iff.2 (Array.mem_of_getElem? hbeat), (hregrouped.positions position).2 hposition⟩

end Manuscript

end Gamelan
