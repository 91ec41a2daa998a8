import Gamelan.Proofs.CommandLine.Paths
import Gamelan.Proofs.Compile
import Gamelan.Proofs.Midi.Rendering

namespace Gamelan

section Bytes

open Midi Performance

variable {text : String} {settings : Settings} {bytes : Bytes}

/-- The bytes of a compiled score begin with the mark of their format. -/
theorem prefix_of_compile_eq_ok (h : compile text settings = .ok bytes) : textBytes "MThd" <+: bytes := by
  obtain ⟨p, -, h⟩ := bind_eq_ok_iff.1 h
  obtain ⟨plan, first, rest, -, -, -, hfile⟩ := render_eq_ok_iff.1 h
  obtain ⟨-, chunks, -, rfl⟩ := fileBytes_eq_ok hfile
  rw [chunk, List.append_assoc, List.append_assoc]
  exact List.prefix_append _ _

/-- A score without notation has a file, if it is not too long and the settings name no instruments. -/
theorem Prepares.exists_bytes_of_silent {s : Score} {a : Arrangement} (h : Prepares text settings s a)
    (hinstruments : settings.instruments.isEmpty) (hpositions : s.positions = []) (htitle : s.title? = none)
    {played : Array Played} (hwalk : (a.performance.walk none).1 = .ok played)
    (hlength : 14 * (2 + 4 * played.size) < 2 ^ 32) : ∃ bytes, compile text settings = .ok bytes := by
  obtain rfl := (Score.arrange_score h.arranged).1
  have hroom : (14 + "".utf8ByteSize) * (2 + 4 * played.size) < 2 ^ 32 := hlength
  obtain ⟨first, head, hfirst, hhead⟩ :=
    exists_conductor_chunk hwalk (congrArg (·.getD "") htitle) (by decide) hroom settings
  have hplan : trackPlan a.performance.score settings = .ok [] := by
    rw [trackPlan, if_pos hinstruments, hpositions]
    rfl
  have hchunks : ∀ t ∈ [first], ∃ bytes, trackChunk t = .ok bytes := List.forall_mem_singleton.2 ⟨head, hhead⟩
  have hcount : [first].length < UInt16.size := show 1 < UInt16.size by decide
  obtain ⟨bytes, hfile⟩ := exists_fileBytes hcount hchunks settings.ppq
  refine ⟨bytes, ?_⟩
  rw [compile, h.prepare_eq]
  exact render_eq_ok_iff.2 ⟨[], first, [], hplan, hfirst, rfl, hfile⟩

end Bytes

namespace CommandLine

section Outcomes

variable {o : Options} {files : Files} {path : String} {bytes : Midi.Bytes}

/-- What is asked for and what is read where a run comes to the bytes of a file. -/
structure Options.Produces (o : Options) (files : Files) (score : String) (output? : Option String)
    (bytes : Midi.Bytes) : Prop where
  noTrace : o.trace? = none
  paths : o.scorePaths? = some (score, output?)
  compiled : ∃ text settings, files score = some text ∧
    o.settings?.elim (.ok {}) (readSettings files) = .ok settings ∧ compile text settings = .ok bytes

/-- A run has something to write exactly if it produces the bytes of a file. -/
theorem Options.run_eq_write_iff : o.run files = .write path bytes ↔
    ∃ score output?, o.Produces files score output? bytes ∧ path = output?.getD (withExtension score "mid") := by
  constructor
  · intro h
    rw [Options.run] at h
    split at h
    · cases h
    next score output? hpaths =>
      split at h
      · cases h
      next settings hsettings =>
        split at h
        · cases h
        next text htext =>
          split at h
          · rw [runTrace] at h
            split at h <;> cases h
          next htrace =>
            rw [runCompile] at h
            split at h
            · cases h
            · cases h
            next hcompiled =>
              cases h
              exact ⟨score, output?, ⟨htrace, hpaths, text, settings, htext, hsettings, hcompiled⟩, rfl⟩
  · rintro ⟨score, output?, ⟨htrace, hpaths, text, settings, htext, hsettings, hcompiled⟩, rfl⟩
    simp only [Options.run, hpaths, hsettings, htext, htrace, runCompile, hcompiled]

theorem Options.isSome_trace?_of_run_eq_print {listing : String} (h : o.run files = .print listing) :
    o.trace?.isSome := by
  rw [Options.run] at h
  split at h
  · cases h
  · split at h
    · cases h
    · split at h
      · cases h
      · split at h
        next htrace => simp [htrace]
        · rw [runCompile] at h
          split at h <;> cases h

end Outcomes

namespace Disk

variable {d d' : Disk} {path : String} {bytes : Midi.Bytes} {place : Place}

theorem exists_place_of_text? {text : String} (h : d.text? path = some text) : ∃ place, d.place? path = some place := by
  obtain ⟨bytes, hread, -⟩ := Option.bind_eq_some_iff.1 h
  obtain ⟨place, hplace, -⟩ := Option.bind_eq_some_iff.1 hread
  exact ⟨place, hplace⟩

theorem text?_eq {text : String} (hplace : d.place? path = some place)
    (hget : d.files.get? place = some (Midi.textBytes text)) : d.text? path = some text := by
  have hbytes : (⟨(Midi.textBytes text).toArray⟩ : ByteArray) = (Midi.textBytes text).toByteArray :=
    ByteArray.ext List.data_toByteArray.symm
  rw [text?, read?, hplace, Option.bind_some, hget, Option.bind_some, hbytes, Midi.fromUTF8?_textBytes]

theorem write?_eq_some_iff : d.write? path bytes = some d' ↔
    ∃ place, d.place? path = some place ∧ d.hasFolder place = false ∧ d' = d.insert place bytes := by
  rw [write?, Option.bind_eq_some_iff]
  refine exists_congr fun place => and_congr_right fun _ => ?_
  cases d.hasFolder place <;> simp [@eq_comm _ d']

end Disk

/-- A run fails, or it lists beats, or it writes the file that a path leads to. -/
theorem runIn_cases (disk : Disk) (args : List String) :
    ((runIn disk args).exitCode ≠ 0 ∧ (runIn disk args).disk = disk) ∨
    (∃ o, ({} : Options).parse args = .ok o ∧ ∃ listing, o.run disk.text? = .print listing ∧
      (runIn disk args).disk = disk) ∨
    ∃ o, ({} : Options).parse args = .ok o ∧ ∃ path bytes place, o.run disk.text? = .write path bytes ∧
      disk.place? path = some place ∧ (runIn disk args).exitCode = 0 ∧
      (runIn disk args).disk = disk.insert place bytes := by
  have hfailed : (1 : UInt8) ≠ 0 := by decide
  have hcrashed : crashCode ≠ 0 := by decide
  rw [runIn, run]
  cases hparse : ({} : Options).parse args with
  | error fault => exact .inl ⟨hfailed, rfl⟩
  | ok o =>
    simp only
    cases hrun : o.run disk.text? with
    | failure message => exact .inl ⟨hfailed, rfl⟩
    | crash => exact .inl ⟨hcrashed, rfl⟩
    | print listing => exact .inr (.inl ⟨o, rfl, listing, hrun, rfl⟩)
    | write path bytes =>
      simp only
      cases hwrite : disk.write? path bytes with
      | none => exact .inl ⟨hfailed, rfl⟩
      | some disk' =>
        obtain ⟨place, hplace, -, rfl⟩ := Disk.write?_eq_some_iff.1 hwrite
        exact .inr (.inr ⟨o, rfl, path, bytes, place, hrun, hplace, rfl, rfl⟩)

/-- What a run produces is written where a path leads to a name that no folder has. -/
theorem runIn_of_produces {disk : Disk} {args : List String} {o : Options} {score : String}
    {output? : Option String} {bytes : Midi.Bytes} {place : Place} (ho : ({} : Options).parse args = .ok o)
    (h : o.Produces disk.text? score output? bytes)
    (hplace : disk.place? (output?.getD (withExtension score "mid")) = some place)
    (hfolder : disk.hasFolder place = false) : runIn disk args =
      ⟨0, "", writeSuccess (output?.getD (withExtension score "mid")), disk.insert place bytes⟩ := by
  have hwrite : disk.write? _ bytes = some _ := Disk.write?_eq_some_iff.2 ⟨place, hplace, hfolder, rfl⟩
  rw [runIn, run, ho]
  simp only [Options.run_eq_write_iff.2 ⟨score, output?, h, rfl⟩, hwrite]

/-- A file that is written where no path is given for it: it stands in the folder of the score, under the name of the
score with the extension `mid` in place of its own. -/
structure Disk.IsBeside (d : Disk) (place : Place) (score : String) (settings? : Option String) (dir : Place)
    (name base : String) : Prop where
  scorePlace : d.place? score = some (dir ++ [name])
  stem : HasStem name base
  target : place = dir ++ [base ++ ".mid"]
  isScore : d.place? score = some place ↔ ∃ base', base' ≠ "" ∧ name = base' ++ ".mid"
  isSettings : ∀ path dir' name', settings? = some path → d.place? path = some (dir' ++ [name']) →
    (d.place? path = some place ↔ dir' = dir ∧ name' = base ++ ".mid")

theorem Disk.exists_isBeside {d : Disk} {place place' : Place} {score : String} (settings? : Option String)
    (hscore : d.place? score = some place') (hplace : d.place? (withExtension score "mid") = some place) :
    ∃ dir name base, d.IsBeside place score settings? dir name base := by
  have hmid (base : String) : base ++ "." ++ "mid" = base ++ ".mid" := String.append_assoc
  obtain ⟨dir, name, base, rfl, hstem, rfl⟩ := exists_place_withExtension (by decide) hscore hplace
  have hname := hstem.append_eq_iff (show '.' ∉ "mid".toList by decide)
  simp only [hmid] at hname ⊢
  refine ⟨dir, name, base, hscore, hstem, rfl, ?_, fun path dir' name' _ hpath => ?_⟩
  · rw [hscore, Option.some_inj, List.append_cancel_left_eq, List.singleton_inj, ← hname]
    exact eq_comm
  · rw [hpath, Option.some_inj]
    exact List.append_singleton_inj

/-- A score of one beat without notation. -/
def silentScore : String := "gongans:\n  - beats: [\x7b\x7d]\n"

theorem exists_compile_silentScore : ∃ bytes, compile silentScore {} = .ok bytes := by
  have hcomputed : ((Score.parse silentScore).toOption.bind fun s => (s.arrange {}).toOption.map fun a =>
      decide (s.positions = [] ∧ s.title? = none ∧ (a.performance.walk none).1.toOption.map (·.size) = some 1)) =
        some true := by decide +kernel
  obtain ⟨s, hs, hrest⟩ := Option.bind_eq_some_iff.1 hcomputed
  obtain ⟨a, ha, hfacts⟩ := Option.map_eq_some_iff.1 hrest
  obtain ⟨hpositions, htitle, hwalk⟩ := of_decide_eq_true hfacts
  obtain ⟨played, hplayed, hsize⟩ := Option.map_eq_some_iff.1 hwalk
  have hprepares : Prepares silentScore {} s a := ⟨rfl, toOption_eq_some_iff.1 hs, toOption_eq_some_iff.1 ha⟩
  exact hprepares.exists_bytes_of_silent rfl hpositions htitle (toOption_eq_some_iff.1 hplayed) (hsize ▸ by decide)

/-- A run that fails and a run that lists beats leave all files as they are. Any other run writes one file and leaves
all others as they are. If no path is given for the file, it stands next to the score; so it is the score exactly if
the score has the extension `mid` already, and the settings exactly if they have that place. -/
theorem run_writes_one_file (disk : Disk) (args : List String) :
    ((runIn disk args).exitCode ≠ 0 → (runIn disk args).disk = disk) ∧
    (∀ o, ({} : Options).parse args = .ok o → o.trace?.isSome → (runIn disk args).disk = disk) ∧
    ((runIn disk args).exitCode = 0 → ∃ o, ({} : Options).parse args = .ok o ∧ (o.trace? = none →
      ∃ score output? bytes place, o.Produces disk.text? score output? bytes ∧
        disk.place? (output?.getD (withExtension score "mid")) = some place ∧
        (runIn disk args).disk = disk.insert place bytes ∧
        (output? = none → ∃ dir name base, disk.IsBeside place score o.settings? dir name base))) := by
  obtain ⟨hcode, hkept⟩ | ⟨o, ho, listing, hprint, hkept⟩ | ⟨o, ho, path, bytes, place, hwrite, hplace, hzero, hinsert⟩ :=
    runIn_cases disk args
  · exact ⟨fun _ => hkept, fun _ _ _ => hkept, fun hzero => absurd hzero hcode⟩
  · refine ⟨fun _ => hkept, fun _ _ _ => hkept, fun _ => ⟨o, ho, fun htrace => ?_⟩⟩
    have hsome := Options.isSome_trace?_of_run_eq_print hprint
    rw [htrace] at hsome
    cases hsome
  · obtain ⟨score, output?, hproduces, rfl⟩ := Options.run_eq_write_iff.1 hwrite
    refine ⟨fun hcode => absurd hzero hcode, fun o' ho' hsome => ?_, fun _ => ⟨o, ho, fun _ => ?_⟩⟩
    · obtain rfl := Except.ok.inj (ho.symm.trans ho')
      rw [hproduces.noTrace] at hsome
      cases hsome
    · refine ⟨score, output?, bytes, place, hproduces, hplace, hinsert, ?_⟩
      rintro rfl
      obtain ⟨text, settings, htext, -⟩ := hproduces.compiled
      obtain ⟨place', hplace'⟩ := Disk.exists_place_of_text? htext
      exact Disk.exists_isBeside o.settings? hplace' hplace

/-- The settings have the name of the file that is written, but they stand in another folder. -/
theorem run_writes_one_file_beside :
    let disk : Disk := {
      files := .ofList [(["home", "gong", "lagu.v2.yaml"], Midi.textBytes silentScore),
        (["home", "set", "lagu.v2.mid"], Midi.textBytes "ppq: 96\n")]
      current := ["home"] }
    let r := runIn disk ["--settings", "/home/set/lagu.v2.mid", "set/../gong/lagu.v2.yaml"]
    r.exitCode = 0 ∧ ∃ bytes dir name base, r.disk = disk.insert ["home", "gong", "lagu.v2.mid"] bytes ∧
      disk.IsBeside ["home", "gong", "lagu.v2.mid"] "set/../gong/lagu.v2.yaml" (some "/home/set/lagu.v2.mid") dir name
        base ∧
      disk.place? "set/../gong/lagu.v2.yaml" ≠ some ["home", "gong", "lagu.v2.mid"] ∧
      disk.place? "/home/set/lagu.v2.mid" ≠ some ["home", "gong", "lagu.v2.mid"] := by
  intro disk r
  let o : Options := { settings? := some "/home/set/lagu.v2.mid", paths := ["set/../gong/lagu.v2.yaml"] }
  have ho : ({} : Options).parse ["--settings", "/home/set/lagu.v2.mid", "set/../gong/lagu.v2.yaml"] = .ok o := by
    decide +kernel
  have hscore : disk.place? "set/../gong/lagu.v2.yaml" = some ["home", "gong", "lagu.v2.yaml"] := by decide +kernel
  have hsettings : disk.place? "/home/set/lagu.v2.mid" = some ["home", "set", "lagu.v2.mid"] := by decide +kernel
  have houtput : disk.place? (withExtension "set/../gong/lagu.v2.yaml" "mid") =
      some ["home", "gong", "lagu.v2.mid"] := by
    decide +kernel
  have hparsed : (Settings.parse "ppq: 96\n").toOption = some {} := by decide +kernel
  have hread : readSettings disk.text? "/home/set/lagu.v2.mid" = .ok {} := by
    have htext : disk.text? "/home/set/lagu.v2.mid" = some "ppq: 96\n" := Disk.text?_eq hsettings rfl
    rw [readSettings, htext]
    exact toOption_eq_some_iff.1 hparsed
  obtain ⟨bytes, hbytes⟩ := exists_compile_silentScore
  have hproduces : o.Produces disk.text? "set/../gong/lagu.v2.yaml" none bytes :=
    ⟨rfl, rfl, silentScore, {}, Disk.text?_eq hscore rfl, hread, hbytes⟩
  have hzero : r.exitCode = 0 := congrArg Result.exitCode (runIn_of_produces ho hproduces houtput (by decide +kernel))
  obtain ⟨o', ho', hwritten⟩ := (run_writes_one_file disk _).2.2 hzero
  obtain rfl := Except.ok.inj (ho.symm.trans ho')
  obtain ⟨score, output?, bytes', place, hproduces', hplace, hinsert, hbeside⟩ := hwritten rfl
  obtain ⟨rfl, rfl⟩ : "set/../gong/lagu.v2.yaml" = score ∧ none = output? :=
    Prod.mk.inj (Option.some.inj (hproduces.paths.symm.trans hproduces'.paths))
  obtain rfl : ["home", "gong", "lagu.v2.mid"] = place := Option.some.inj (houtput.symm.trans hplace)
  obtain ⟨dir, name, base, hbeside⟩ := hbeside rfl
  refine ⟨hzero, bytes', dir, name, base, hinsert, hbeside, ?_, ?_⟩
  · rw [hscore]
    decide
  · rw [hsettings]
    decide

/-- A score that has the extension `mid` is overwritten by its own file. -/
theorem run_overwrites_score :
    let disk : Disk := { files := .ofList [(["lagu.mid"], Midi.textBytes silentScore)] }
    let r := runIn disk ["lagu.mid"]
    ({} : Options).parse ["lagu.mid"] = .ok { paths := ["lagu.mid"] } ∧ r.exitCode = 0 ∧
      disk.place? "lagu.mid" = some ["lagu.mid"] ∧ r.disk.files.get? ["lagu.mid"] ≠ disk.files.get? ["lagu.mid"] := by
  intro disk r
  have ho : ({} : Options).parse ["lagu.mid"] = .ok { paths := ["lagu.mid"] } := by decide +kernel
  have hplace : disk.place? "lagu.mid" = some ["lagu.mid"] := by decide +kernel
  have houtput : disk.place? (withExtension "lagu.mid" "mid") = some ["lagu.mid"] := by decide +kernel
  obtain ⟨bytes, hbytes⟩ := exists_compile_silentScore
  have hproduces : Options.Produces { paths := ["lagu.mid"] } disk.text? "lagu.mid" none bytes :=
    ⟨rfl, rfl, silentScore, {}, Disk.text?_eq hplace rfl, rfl, hbytes⟩
  have hrun : r = ⟨0, "", writeSuccess "lagu.mid", disk.insert ["lagu.mid"] bytes⟩ :=
    runIn_of_produces ho hproduces houtput (by decide +kernel)
  refine ⟨ho, by rw [hrun], hplace, fun hkept => ?_⟩
  have hbefore : disk.files.get? ["lagu.mid"] = some (Midi.textBytes silentScore) := rfl
  rw [hrun, Disk.insert, SortedMap.get?_insert_self, hbefore] at hkept
  -- The file begins with the mark of its format, and the score does not.
  have hmark : Midi.textBytes "MThd" <+: Midi.textBytes silentScore :=
    Option.some.inj hkept ▸ prefix_of_compile_eq_ok hbytes
  rw [Midi.textBytes_header, Midi.textBytes_eq] at hmark
  exact absurd hmark (by decide +kernel)

end CommandLine

end Gamelan
