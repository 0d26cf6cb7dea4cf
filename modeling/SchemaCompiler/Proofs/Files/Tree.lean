import SchemaCompiler.Files.Tree
import SchemaCompiler.Proofs.Table

/-! Writing files in a tree. What is written can be read, and every other file stays as it is, since a
file is written only where no directory stands. -/

namespace SchemaCompiler

namespace Path

theorem segments_name {name : String} (h : '/' ∉ name.toList) : segments name = [name] := by
  rw [segments, List.splitOn_eq_singleton h, List.map_singleton, String.ofList_toList]

theorem segments_append {path : String} {above : List Char} {name : String}
    (hpath : path.toList = above ++ '/' :: name.toList) (h : '/' ∉ name.toList) :
    segments path = (above.splitOn '/').map String.ofList ++ [name] := by
  rw [segments, hpath, List.splitOn_append_cons_self, List.map_append, List.splitOn_eq_singleton h,
    List.map_singleton, String.ofList_toList]

/-- The names that lead to a file are those that lead to its directory and its own. -/
theorem exists_segments_join (directory : String) : ∃ above : List String, ∀ name : String,
    '/' ∉ name.toList → segments (join directory name) = above ++ [name] := by
  have hrelative : ∀ {name : String}, '/' ∉ name.toList → (name.toList.head? == some '/') = false := by
    intro name h
    rw [beq_eq_false_iff_ne]
    exact fun hhead => h (List.mem_of_head? hhead)
  by_cases hempty : directory.isEmpty = true
  · refine ⟨[], fun name h => ?_⟩
    rw [join, hrelative h]
    simp [String.isEmpty_iff.mp hempty, segments_name h]
  · cases hlast : directory.toList.getLast? == some '/' with
    | true =>
      obtain ⟨above, habove⟩ := List.getLast?_eq_some_iff.mp (beq_iff_eq.mp hlast)
      refine ⟨(above.splitOn '/').map String.ofList, fun name h => ?_⟩
      rw [join, hrelative h, hlast]
      simp only [Bool.false_eq_true, if_false, Bool.or_true, if_true]
      exact segments_append (by simp [habove]) h
    | false =>
      refine ⟨(directory.toList.splitOn '/').map String.ofList, fun name h => ?_⟩
      rw [join, hrelative h, hlast]
      simp only [Bool.false_eq_true, if_false, Bool.or_false, hempty]
      exact segments_append (by simp) h

theorem join_inj {directory name name' : String} (h : '/' ∉ name.toList) (h' : '/' ∉ name'.toList)
    (hjoin : join directory name = join directory name') : name = name' := by
  obtain ⟨above, habove⟩ := exists_segments_join directory
  have hsegments := (habove name h).symm.trans ((congrArg segments hjoin).trans (habove name' h'))
  exact List.singleton_inj.mp (List.append_cancel_left hsegments)

theorem join_ne_empty {directory name : String} (h : name ≠ "") :
    (join directory name).isEmpty = false := by
  rw [← Bool.not_eq_true, String.isEmpty_iff]
  rw [join]
  split
  · exact h
  · split
    · simp [h]
    · simp [h]

/-- A name of a file, which leads nowhere by itself. -/
structure NamesFile (name : String) : Prop where
  undivided : '/' ∉ name.toList
  isName : isName name = true
  ne_up : name ≠ ".."

theorem NamesFile.ne_empty {name : String} (h : NamesFile name) : name ≠ "" := by
  have hname := h.isName
  simp only [Path.isName, Bool.and_eq_true, bne_iff_ne] at hname
  exact hname.1

end Path

open SchemaCompiler.Path (NamesFile)

namespace FileTree

variable {t t' : FileTree} {here next place q : List String} {path other text text' segment : String}
  {e : FileEntry}

theorem entry?_insert (hfree : t.entry? place ≠ some .directory) (q : List String) :
    entry? (Table.insert place e t) q = if q = place then some e else t.entry? q := by
  have hinsert := Table.get?_insert place q e t
  cases q with
  | nil =>
    have hne : [] ≠ place := by
      rintro rfl
      exact hfree rfl
    rw [if_neg hne]
    rfl
  | cons name q => exact hinsert

theorem entry?_of_enter (h : t.enter here segment = .ok next) : t.entry? here = some .directory := by
  rw [enter] at h
  split at h
  · cases h
  · cases h
  · assumption

theorem enter_insert (hfree : t.entry? place ≠ some .directory) (h : t.enter here segment = .ok next) :
    enter (Table.insert place e t) here segment = .ok next := by
  have hdirectory := entry?_of_enter h
  have hne : here ≠ place := by
    rintro rfl
    exact hfree hdirectory
  rw [enter, entry?_insert hfree, if_neg hne]
  exact h

theorem foldlM_enter_insert (hfree : t.entry? place ≠ some .directory) {segments : List String}
    (h : segments.foldlM t.enter here = .ok q) :
    segments.foldlM (enter (Table.insert place e t)) here = .ok q := by
  induction segments generalizing here with
  | nil => exact h
  | cons segment segments ih =>
    rw [List.foldlM_cons] at h ⊢
    cases hnext : t.enter here segment with
    | error cause =>
      rw [hnext] at h
      cases h
    | ok next =>
      rw [hnext] at h
      rw [enter_insert hfree hnext]
      exact ih h

/-- A path that leads through directories leads to the same place once a file was written. -/
theorem locate_insert (hfree : t.entry? place ≠ some .directory) (h : t.locate path = .ok q) :
    locate (Table.insert place e t) path = .ok q := by
  rw [locate] at h ⊢
  split at h
  · cases h
  · next hpath =>
    rw [if_neg hpath]
    exact foldlM_enter_insert hfree h

theorem write_eq_ok (h : t.write path text = .ok t') : ∃ place, t.locate path = .ok place ∧
    t.entry? place ≠ some .directory ∧ t' = Table.insert place (.file (some text)) t := by
  rw [write] at h
  cases hplace : t.locate path with
  | error cause =>
    rw [hplace] at h
    cases h
  | ok place =>
    simp only [hplace, Bind.bind, Except.bind] at h
    split at h
    · cases h
    · next hfree => exact ⟨place, rfl, hfree, (Except.ok.inj h).symm⟩

theorem find_eq_ok : t.find path = .ok e ↔
    ∃ place, t.locate path = .ok place ∧ t.entry? place = some e := by
  rw [find]
  cases hplace : t.locate path with
  | error cause => simp [Bind.bind, Except.bind]
  | ok place => cases hentry : t.entry? place <;> simp [Bind.bind, Except.bind, hentry]

theorem read_eq_ok : t.read path = .ok text ↔
    ∃ place, t.locate path = .ok place ∧ t.entry? place = some (.file (some text)) := by
  rw [← find_eq_ok, read]
  cases t.find path with
  | error cause => simp [Bind.bind, Except.bind]
  | ok entry =>
    cases entry with
    | directory => simp [Bind.bind, Except.bind]
    | file text => cases text <;> simp [Bind.bind, Except.bind]

theorem read_write (h : t.write path text = .ok t') : t'.read path = .ok text := by
  obtain ⟨place, hplace, hfree, rfl⟩ := write_eq_ok h
  refine read_eq_ok.mpr ⟨place, locate_insert hfree hplace, ?_⟩
  rw [entry?_insert hfree, if_pos rfl]

theorem read_write_of_ne (h : t.write path text = .ok t') (hread : t.read other = .ok text')
    (hne : t.locate other ≠ t.locate path) : t'.read other = .ok text' := by
  obtain ⟨place, hplace, hfree, rfl⟩ := write_eq_ok h
  obtain ⟨q, hq, hentry⟩ := read_eq_ok.mp hread
  refine read_eq_ok.mpr ⟨q, locate_insert hfree hq, ?_⟩
  have hqp : q ≠ place := by
    rintro rfl
    exact hne (hq.trans hplace.symm)
  rw [entry?_insert hfree, if_neg hqp, hentry]

theorem enter_eq_of_namesFile (hname : NamesFile segment) (h : t.enter here segment = .ok next) :
    next = here ++ [segment] := by
  rw [enter, entry?_of_enter h] at h
  simp only [hname.isName, Bool.not_true, Bool.false_eq_true, if_false, beq_eq_false_iff_ne.mpr hname.ne_up]
    at h
  split at h
  · cases h
  · exact (Except.ok.inj h).symm

/-- The files of a directory are at the place of the directory, each under its own name. -/
theorem exists_locate_join (t : FileTree) (directory : String) :
    ∃ here : Except FileError (List String), ∀ name q, NamesFile name →
      t.locate (Path.join directory name) = .ok q → ∃ above, here = .ok above ∧ q = above ++ [name] := by
  obtain ⟨names, hnames⟩ := Path.exists_segments_join directory
  refine ⟨names.foldlM t.enter [], fun name q hname hq => ?_⟩
  rw [locate, Path.join_ne_empty hname.ne_empty, if_neg Bool.false_ne_true, hnames name hname.undivided,
    List.foldlM_append] at hq
  cases habove : names.foldlM t.enter [] with
  | error cause =>
    rw [habove] at hq
    cases hq
  | ok above =>
    rw [habove] at hq
    change t.enter above name >>= pure = .ok q at hq
    rw [bind_pure] at hq
    exact ⟨above, rfl, enter_eq_of_namesFile hname hq⟩

theorem locate_join_inj {directory name name' : String} (hname : NamesFile name)
    (hname' : NamesFile name') (h : t.locate (Path.join directory name) = .ok q)
    (h' : t.locate (Path.join directory name') = .ok q) : name = name' := by
  obtain ⟨here, hhere⟩ := exists_locate_join t directory
  obtain ⟨above, habove, hq⟩ := hhere name q hname h
  obtain ⟨above', habove', hq'⟩ := hhere name' q hname' h'
  obtain rfl := Except.ok.inj (habove.symm.trans habove')
  have hnames := List.append_cancel_left (hq.symm.trans hq')
  exact List.singleton_inj.mp hnames

end FileTree

end SchemaCompiler
