import Gamelan.SortedMap
import Mathlib.Data.List.Basic

namespace Gamelan.SortedMap

variable {κ α β : Type} [Ord κ] [Std.TransOrd κ] [Std.LawfulEqOrd κ] [DecidableEq κ]

omit [Std.LawfulEqOrd κ] in
theorem findEntry_eq_none {k : κ} {l : List (κ × α)} (h : ∀ e ∈ l, compare k e.1 = .lt) :
    findEntry k l = none := by
  induction l with
  | nil => rfl
  | cons head rest ih =>
    have hne : k ≠ head.1 := by
      intro heq
      have hlt := h head (.head _)
      have hself : compare k k = .eq := Std.ReflCmp.compare_self
      rw [← heq, hself] at hlt
      cases hlt
    rw [findEntry, if_neg hne, ih fun e he => h e (.tail _ he)]

omit [Std.LawfulEqOrd κ] in
/-- The first key of one list does not come before that of another one with the same lookup. -/
theorem not_lt_of_findEntry_eq {k k' : κ} {v v' : α} {l l' : List (κ × α)}
    (hl' : ∀ e ∈ l', compare k' e.1 = .lt) (h : findEntry k ((k, v) :: l) = findEntry k ((k', v') :: l')) :
    compare k k' ≠ .lt := by
  intro hlt
  have hnone : findEntry k ((k', v') :: l') = none := by
    refine findEntry_eq_none fun e he => ?_
    rcases List.mem_cons.1 he with rfl | he
    · exact hlt
    · exact Std.TransCmp.lt_trans hlt (hl' e he)
  rw [hnone, findEntry, if_pos rfl] at h
  cases h

omit [Std.TransOrd κ] in
/-- Every entry is found under its key, since the order leaves room for one with that key. -/
theorem get?_eq_some_iff {m : SortedMap κ α} {k : κ} {v : α} : m.get? k = some v ↔ (k, v) ∈ m.entries := by
  refine ⟨mem_entries_of_get?, ?_⟩
  obtain ⟨l, hl⟩ := m
  change (k, v) ∈ l → findEntry k l = some v
  induction l with
  | nil => nofun
  | cons head rest ih =>
    obtain ⟨hfirst, hrest⟩ := List.pairwise_cons.1 hl
    intro h
    rcases List.mem_cons.1 h with rfl | h
    · exact if_pos rfl
    · have hlt := hfirst (k, v) h
      have hne : k ≠ head.1 := by
        intro heq
        have hself : compare k k = .eq := Std.ReflCmp.compare_self
        rw [← heq, hself] at hlt
        cases hlt
      rw [findEntry, if_neg hne]
      exact ih hrest h

omit [Std.TransOrd κ] in
theorem mem_keys_iff {m : SortedMap κ α} {k : κ} : k ∈ m.keys ↔ ∃ v, m.get? k = some v := by
  simp [keys, get?_eq_some_iff]

theorem get?_alter (m : SortedMap κ α) (k k' : κ) (default : α) (f : α → α) :
    (m.alter k default f).get? k' = if k' = k then some (f ((m.get? k').getD default)) else m.get? k' := by
  rw [alter, get?_insert]
  by_cases hk : k' = k
  · rw [if_pos hk, if_pos hk, hk]
  · rw [if_neg hk, if_neg hk]

/-- Changes along the entries of a map reach each of its keys once. -/
theorem get?_foldl_alter (m : SortedMap κ α) (l : SortedMap κ β) (default : α) (f : β → α → α) (k : κ) :
    (l.entries.foldl (fun m e => m.alter e.1 default (f e.2)) m).get? k =
      (l.get? k).elim (m.get? k) fun v => some (f v ((m.get? k).getD default)) := by
  obtain ⟨l, hl⟩ := l
  change _ = (findEntry k l).elim _ _
  induction l generalizing m with
  | nil => rfl
  | cons head rest ih =>
    obtain ⟨hfirst, hrest⟩ := List.pairwise_cons.1 hl
    refine (ih _ hrest).trans ?_
    rw [get?_alter, findEntry]
    by_cases hk : k = head.1
    · rw [if_pos hk, if_pos hk, findEntry_eq_none (hk ▸ hfirst), Option.elim_none, Option.elim_some]
    · rw [if_neg hk, if_neg hk]

/-- Two maps with the same lookups are equal, since the order leaves one way to list the entries. -/
theorem ext_get? {a b : SortedMap κ α} (h : ∀ k, a.get? k = b.get? k) : a = b := by
  obtain ⟨l, hl⟩ := a
  obtain ⟨l', hl'⟩ := b
  suffices l = l' by subst this; rfl
  change ∀ k, findEntry k l = findEntry k l' at h
  induction l generalizing l' with
  | nil =>
    cases l' with
    | nil => rfl
    | cons head rest => simpa [findEntry] using h head.1
  | cons head rest ih =>
    obtain ⟨k, v⟩ := head
    cases l' with
    | nil => simpa [findEntry] using h k
    | cons head' rest' =>
      obtain ⟨k', v'⟩ := head'
      have hrest := List.pairwise_cons.1 hl
      have hrest' := List.pairwise_cons.1 hl'
      have hkey : k = k' := by
        cases hcmp : compare k k' with
        | lt => exact absurd hcmp (not_lt_of_findEntry_eq hrest'.1 (h k))
        | eq => exact Std.LawfulEqCmp.eq_of_compare hcmp
        | gt => exact absurd (Std.OrientedCmp.lt_of_gt hcmp) (not_lt_of_findEntry_eq hrest.1 (h k').symm)
      subst hkey
      have hv : v = v' := by simpa [findEntry] using h k
      subst hv
      have htail : rest = rest' := by
        apply ih hrest.2 rest' hrest'.2
        intro j
        by_cases hj : j = k
        · subst hj
          rw [findEntry_eq_none hrest.1, findEntry_eq_none hrest'.1]
        · simpa [findEntry, hj] using h j
      rw [htail]

/-- A function that does not tell a new value from the old one sees no insertion over it. -/
theorem mapValues_insert_of_get? {m : SortedMap κ α} {k : κ} {v w : α} (f : α → β) (hget : m.get? k = some w)
    (hf : f v = f w) : (m.insert k v).mapValues f = m.mapValues f := by
  apply ext_get?
  intro j
  rw [get?_mapValues, get?_mapValues, get?_insert]
  by_cases hj : j = k
  · subst hj
    simp [hget, hf]
  · simp [hj]

end Gamelan.SortedMap
