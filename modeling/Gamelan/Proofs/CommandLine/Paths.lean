import Gamelan.CommandLine.Disk
import Mathlib.Data.List.Basic

namespace Gamelan.CommandLine

theorem exists_last_of_mem {c : Char} {l : List Char} (h : c ∈ l) :
    ∃ before after, l = before ++ c :: after ∧ c ∉ after := by
  obtain ⟨after, before, hl, hafter⟩ := List.eq_append_cons_of_mem (List.mem_reverse.2 h)
  refine ⟨before.reverse, after.reverse, ?_, fun hmem => hafter (List.mem_reverse.1 hmem)⟩
  rw [← List.reverse_reverse l, hl]
  simp

section Names

/-- A name is its stem, or its stem with a point and an extension behind it. The stem is not empty, so a point in front
is not that of an extension. -/
def HasStem (name base : String) : Prop :=
  base ≠ "" ∧ (name = base ∧ '.' ∉ name.toList.tail ∨
    ∃ extension : String, '.' ∉ extension.toList ∧ name = base ++ "." ++ extension)

theorem dropWhile_ne_append {after : List Char} (hafter : '.' ∉ after) (rest : List Char) :
    (after.reverse ++ rest).dropWhile (· != '.') = rest.dropWhile (· != '.') :=
  List.dropWhile_append_of_pos fun _ hc => bne_iff_ne.2 fun heq => hafter (heq ▸ List.mem_reverse.1 hc)

theorem stem_append {base extension : List Char} (hbase : base ≠ []) (hextension : '.' ∉ extension) :
    stem (base ++ '.' :: extension) = base := by
  have hdrop : (base ++ '.' :: extension).reverse.dropWhile (· != '.') = '.' :: base.reverse := by
    rw [List.reverse_append, List.reverse_cons, List.append_assoc, dropWhile_ne_append hextension]
    rfl
  simp only [stem, hdrop, List.drop_one, List.tail_cons, List.reverse_reverse]
  exact if_neg (by simpa using hbase)

theorem stem_eq_self {name : List Char} (h : '.' ∉ name.tail) : stem name = name := by
  cases name with
  | nil => rfl
  | cons c rest =>
    have hdrop : ((c :: rest).reverse.dropWhile (· != '.')).drop 1 = [] := by
      rw [List.reverse_cons, dropWhile_ne_append (show '.' ∉ rest from h)]
      by_cases hc : c = '.' <;> simp [hc]
    simp only [stem, hdrop]
    rfl

/-- Every name but the empty one has one stem. -/
theorem hasStem_iff {name base : String} (hname : name ≠ "") :
    HasStem name base ↔ base = String.ofList (stem name.toList) := by
  constructor
  · rintro ⟨hbase, ⟨rfl, hpoint⟩ | ⟨extension, hextension, rfl⟩⟩
    · rw [stem_eq_self hpoint, String.ofList_toList]
    · have hlist : (base ++ "." ++ extension).toList = base.toList ++ '.' :: extension.toList := by simp
      rw [hlist, stem_append (by simpa using hbase) hextension, String.ofList_toList]
  · rintro rfl
    by_cases hpoint : '.' ∈ name.toList.tail
    · obtain ⟨c, rest, hlist⟩ := List.exists_cons_of_ne_nil (show name.toList ≠ [] by simpa using hname)
      rw [hlist] at hpoint
      obtain ⟨before, after, hrest, hafter⟩ := exists_last_of_mem hpoint
      have hsplit : name.toList = (c :: before) ++ '.' :: after := hlist.trans (congrArg (c :: ·) hrest)
      rw [hsplit, stem_append (by simp) hafter]
      refine ⟨by simp, .inr ⟨String.ofList after, by simpa using hafter, ?_⟩⟩
      rw [← String.toList_inj, hsplit]
      simp
    · rw [stem_eq_self hpoint, String.ofList_toList]
      exact ⟨hname, .inl ⟨rfl, hpoint⟩⟩

theorem HasStem.subset {name base : String} (h : HasStem name base) : base.toList ⊆ name.toList := by
  obtain ⟨-, ⟨rfl, -⟩ | ⟨extension, -, rfl⟩⟩ := h
  · exact List.Subset.refl _
  · simp

/-- A name with another extension is the same name only if it has that extension already. -/
theorem HasStem.append_eq_iff {name base extension : String} (h : HasStem name base)
    (hextension : '.' ∉ extension.toList) :
    base ++ "." ++ extension = name ↔ ∃ base', base' ≠ "" ∧ name = base' ++ "." ++ extension := by
  refine ⟨fun heq => ⟨base, h.1, heq.symm⟩, ?_⟩
  rintro ⟨base', hbase', rfl⟩
  have hname : base' ++ "." ++ extension ≠ "" := by simp
  have hstem : HasStem (base' ++ "." ++ extension) base' := ⟨hbase', .inr ⟨extension, hextension, rfl⟩⟩
  rw [(hasStem_iff hname).1 h, ← (hasStem_iff hname).1 hstem]

end Names

section Parts

/-- What stands in front of the name in a path: nothing, or a folder with a slash behind it. -/
def IsFront (front : List Char) : Prop := front = [] ∨ ∃ folder, front = folder ++ ['/']

theorem exists_front_name (path : List Char) : ∃ front name, path = front ++ name ∧ IsFront front ∧ '/' ∉ name := by
  by_cases hslash : '/' ∈ path
  · obtain ⟨folder, name, hpath, hname⟩ := exists_last_of_mem hslash
    exact ⟨folder ++ ['/'], name, by simp [hpath], .inr ⟨folder, rfl⟩, hname⟩
  · exact ⟨[], path, rfl, .inl rfl, hslash⟩

/-- Another extension changes the name alone. -/
theorem withExtension_append {front name : List Char} (hfront : IsFront front) (hname : '/' ∉ name)
    (extension : String) : withExtension (String.ofList (front ++ name)) extension =
      String.ofList (front ++ (stem name ++ '.' :: if stem name == ['.'] then [] else extension.toList)) := by
  have hpos : ∀ c ∈ name.reverse, (c != '/') = true := fun c hc =>
    bne_iff_ne.2 fun heq => hname (heq ▸ List.mem_reverse.1 hc)
  have hfound : ((front ++ name).reverse.takeWhile (· != '/')).reverse = name := by
    rw [List.reverse_append, List.takeWhile_append_of_pos hpos]
    obtain rfl | ⟨folder, rfl⟩ := hfront <;> simp
  rw [withExtension]
  simp only [String.toList_ofList, hfound, List.length_append, Nat.add_sub_cancel, List.take_left, List.append_assoc]

/-- Where a path starts, and the folders on its way, do not depend on the name at its end. -/
theorem start_and_parts_append (d : Disk) {front : List Char} (hfront : IsFront front) :
    ∃ place dirs, ∀ name, '/' ∉ name → d.start (String.ofList (front ++ name)) = place ∧
      parts (String.ofList (front ++ name)) = dirs ++ [String.ofList name] := by
  obtain rfl | ⟨folder, rfl⟩ := hfront
  · refine ⟨d.current, [], fun name hname => ⟨?_, ?_⟩⟩
    · rw [Disk.start, String.toList_ofList, List.nil_append, if_neg fun hhead => hname (List.mem_of_head? hhead)]
    · rw [parts, String.toList_ofList, List.nil_append, List.splitOn_eq_singleton hname]
      rfl
  · refine ⟨d.start (String.ofList (folder ++ ['/'])), (folder.splitOn '/').map String.ofList,
      fun name hname => ⟨?_, ?_⟩⟩
    · rw [Disk.start, Disk.start, String.toList_ofList, String.toList_ofList,
        List.head?_append_of_ne_nil _ (by simp)]
    · rw [parts, String.toList_ofList, List.append_assoc, List.singleton_append, List.splitOn_append_cons_self,
        List.splitOn_eq_singleton hname, List.map_append, List.map_singleton]

end Parts

namespace Disk

/-- The folder that parts of a path lead to from a place on. -/
def enter? (d : Disk) (place : Place) : List String → Option Place
  | [] => some place
  | part :: rest =>
    if part = "" ∨ part = "." then d.enter? place rest
    else if part = ".." then d.enter? place.dropLast rest
    else if d.hasFolder (place ++ [part]) then d.enter? (place ++ [part]) rest
    else none

variable {d : Disk} {path : String} {place place' : Place}

theorem follow?_cons (d : Disk) (place : Place) (part : String) {rest : List String} (hrest : rest ≠ []) :
    d.follow? place (part :: rest) =
      if part = "" ∨ part = "." then d.follow? place rest
      else if part = ".." then d.follow? place.dropLast rest
      else if d.hasFolder (place ++ [part]) then d.follow? (place ++ [part]) rest
      else none := by
  obtain ⟨next, more, rfl⟩ := List.exists_cons_of_ne_nil hrest
  rfl

theorem ne_empty_of_isName {name : String} (h : isName name) : name ≠ "" := by
  rintro rfl
  cases h

/-- A path leads to a folder and to a name in it. -/
theorem follow?_concat (d : Disk) (place : Place) (dirs : List String) (name : String) :
    d.follow? place (dirs ++ [name]) =
      (d.enter? place dirs).bind fun dir => if isName name then some (dir ++ [name]) else none := by
  induction dirs generalizing place with
  | nil => rfl
  | cons part rest ih =>
    rw [List.cons_append, follow?_cons d place part (by simp), enter?, ih, ih, ih]
    split_ifs <;> rfl

/-- Where a path leads, there is a folder and a name in it. -/
theorem place?_eq_some (h : d.place? path = some place) :
    ∃ dirs dir name, parts path = dirs ++ [name] ∧ d.enter? (d.start path) dirs = some dir ∧ isName name ∧
      place = dir ++ [name] := by
  rw [place?] at h
  split at h
  · cases h
  · have hparts : parts path ≠ [] := by simp [parts]
    rw [← List.dropLast_append_getLast hparts, follow?_concat] at h
    obtain ⟨dir, hdir, h⟩ := Option.bind_eq_some_iff.1 h
    split at h
    next hname => exact ⟨_, dir, _, (List.dropLast_append_getLast hparts).symm, hdir, hname, (Option.some.inj h).symm⟩
    · cases h

/-- A path with another extension leads to the same folder, to the stem of the name with that extension. -/
theorem exists_place_withExtension {extension : String} (hextension : '/' ∉ extension.toList)
    (h : d.place? path = some place) (h' : d.place? (withExtension path extension) = some place') :
    ∃ dir name base, place = dir ++ [name] ∧ HasStem name base ∧ place' = dir ++ [base ++ "." ++ extension] := by
  obtain ⟨front, name, hpath, hfront, hname⟩ := exists_front_name path.toList
  obtain rfl : path = String.ofList (front ++ name) := by rw [← hpath, String.ofList_toList]
  obtain ⟨start, dirs, hfront'⟩ := start_and_parts_append d hfront
  obtain ⟨dirs₁, dir, name₁, hparts, hdir, hisName, rfl⟩ := place?_eq_some h
  obtain ⟨hstart, hdirs⟩ := hfront' name hname
  rw [hdirs] at hparts
  rw [hstart] at hdir
  obtain ⟨rfl, hlast⟩ := List.append_inj' hparts rfl
  obtain rfl : String.ofList name = name₁ := List.singleton_inj.1 hlast
  have hnonempty : String.ofList name ≠ "" := ne_empty_of_isName hisName
  have hstem : HasStem (String.ofList name) (String.ofList (stem name)) :=
    (hasStem_iff hnonempty).2 (by rw [String.toList_ofList])
  -- The name with the extension has no slash either, so it comes behind the same folders.
  rw [withExtension_append hfront hname] at h'
  obtain ⟨dirs₂, dir', name₂, hparts', hdir', hisName', rfl⟩ := place?_eq_some h'
  have hslash : '/' ∉ stem name ++ '.' :: if stem name == ['.'] then [] else extension.toList := by
    have hbase : '/' ∉ stem name := fun hmem => hname (by simpa using hstem.subset (by simpa using hmem))
    split <;> simp [hbase, hextension]
  obtain ⟨hstart', hdirs'⟩ := hfront' _ hslash
  rw [hdirs'] at hparts'
  rw [hstart'] at hdir'
  obtain ⟨rfl, hlast⟩ := List.append_inj' hparts' rfl
  obtain rfl := List.singleton_inj.1 hlast
  obtain rfl := Option.some.inj (hdir.symm.trans hdir')
  refine ⟨dir, _, _, rfl, hstem, ?_⟩
  split at hisName'
  next hpoint =>
    rw [beq_iff_eq.1 hpoint] at hisName'
    cases hisName'
  next hpoint =>
    have hjoined : String.ofList (stem name ++ '.' :: extension.toList) =
        String.ofList (stem name) ++ "." ++ extension := by
      rw [← String.toList_inj]
      simp
    rw [if_neg hpoint, hjoined]

end Disk

end Gamelan.CommandLine
