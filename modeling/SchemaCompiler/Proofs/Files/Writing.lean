import Mathlib.Data.List.Count
import SchemaCompiler.CommandLine.Session
import SchemaCompiler.Files.Writing
import SchemaCompiler.Proofs.Files.Tree
import SchemaCompiler.Proofs.Model.Change
import SchemaCompiler.Proofs.Naming.Module

/-! Writing the modules of a model into a directory. Groups whose modules have one name write to one
file, which holds the module of the last of them in the end. -/

namespace SchemaCompiler

open SchemaCompiler.Path (NamesFile)

variable {α β : Type} {s s' : Session} {t t' : FileTree} {directory : String}

/-- The act goes through, and answers `a`. -/
def Completes (act : ExceptT Error (StateM Session) α) (s : Session) (a : α) (s' : Session) : Prop :=
  act.run.run s = (.ok a, s')

theorem completes_bind {act : ExceptT Error (StateM Session) α}
    {f : α → ExceptT Error (StateM Session) β} {b : β} (h : Completes (act >>= f) s b s') :
    ∃ a s₁, Completes act s a s₁ ∧ Completes (f a) s₁ b s' := by
  rw [Completes, ExceptT.run_bind, StateT.run_bind] at h
  cases hact : act.run.run s with
  | mk answer s₁ =>
    rw [hact] at h
    cases answer with
    | error e => cases h
    | ok a => exact ⟨a, s₁, hact, h⟩

theorem completes_pure {a b : α} (h : Completes (pure a) s b s') : b = a ∧ s' = s := by
  cases h
  exact ⟨rfl, rfl⟩

theorem not_completes_throw {e : Error} {a : α} : ¬Completes (throw e) s a s' :=
  fun h => nomatch h

theorem completes_lift {act : StateM Session α} {a : α}
    (h : Completes (liftM act : ExceptT Error (StateM Session) α) s a s') : act.run s = (a, s') := by
  cases hact : act.run s with
  | mk b s₁ =>
    have hlift : (liftM act : ExceptT Error (StateM Session) α).run.run s = (.ok b, s₁) := by
      rw [ExceptT.run_liftM, StateT.run_map, hact]
      rfl
    cases hlift.symm.trans h
    rfl

theorem run_change (act : FileTree → Except FileError FileTree) (s : Session) :
    (Session.change act).run s = match act s.files with
      | .ok files => (.ok (), { s with files })
      | .error cause => (.error cause, s) := by
  cases h : act s.files with
  | ok files =>
    simp [Session.change, h]
    rfl
  | error cause =>
    simp [Session.change, h]
    rfl

theorem exists_completes {act : ExceptT Error (StateM Session) α} (h : (act.run.run s).1.isOk = true) :
    ∃ a s', Completes act s a s' := by
  cases hact : act.run.run s with
  | mk answer s₁ =>
    rw [hact] at h
    cases answer with
    | error e => cases h
    | ok a => exact ⟨a, s₁, hact⟩

theorem completes_store {fault : FileError → OutputFault} {path text : String} {u : Unit}
    (h : Completes (stored fault (FileStore.write path text)) s u s') :
    s.files.write path text = .ok s'.files := by
  obtain ⟨answer, s₁, hwrite, hanswer⟩ := completes_bind h
  have hchange := (run_change (·.write path text) s).symm.trans (completes_lift hwrite)
  cases hfiles : s.files.write path text with
  | error cause =>
    rw [hfiles] at hchange
    cases hchange
    exact absurd hanswer not_completes_throw
  | ok files =>
    rw [hfiles] at hchange
    cases hchange
    obtain ⟨-, rfl⟩ := completes_pure hanswer
    rfl

theorem ModuleText.completes_write {t : ModuleText} {path : String}
    (h : Completes (t.write directory) s path s') : path = t.path directory ∧
      ∃ text, t.text = .ok text ∧ s.files.write (t.path directory) text = .ok s'.files := by
  rw [ModuleText.write] at h
  split at h
  · exact absurd h not_completes_throw
  · next text htext =>
    obtain ⟨_, s₁, hstore, hpure⟩ := completes_bind h
    obtain ⟨rfl, rfl⟩ := completes_pure hpure
    exact ⟨rfl, text, htext, completes_store hstore⟩

/-- The modules are written one after the other. -/
inductive Writes (directory : String) : FileTree → List ModuleText → FileTree → Prop where
  | nil (t : FileTree) : Writes directory t [] t
  | cons {t t' t'' : FileTree} {module : ModuleText} {modules : List ModuleText} {text : String}
      (htext : module.text = .ok text) (hwrite : t.write (module.path directory) text = .ok t')
      (h : Writes directory t' modules t'') : Writes directory t (module :: modules) t''

theorem completes_modules {modules : List ModuleText} {paths : List String}
    (h : Completes (modules.mapM (ModuleText.write directory)) s paths s') :
    paths = modules.map (·.path directory) ∧ Writes directory s.files modules s'.files := by
  induction modules generalizing s paths with
  | nil =>
    obtain ⟨rfl, rfl⟩ := completes_pure h
    exact ⟨rfl, .nil _⟩
  | cons module modules ih =>
    rw [List.mapM_cons] at h
    obtain ⟨path, s₁, hfirst, h⟩ := completes_bind h
    obtain ⟨rest, s₂, hrest, h⟩ := completes_bind h
    obtain ⟨rfl, rfl⟩ := completes_pure h
    obtain ⟨rfl, text, htext, hwrite⟩ := ModuleText.completes_write hfirst
    obtain ⟨rfl, hwrites⟩ := ih hrest
    exact ⟨rfl, .cons htext hwrite hwrites⟩

theorem Model.completes_write {m : Model} {apiModule : String} {paths : List String}
    (h : Completes (m.write apiModule directory) s paths s') : m.unfinished? = none ∧
      paths = (m.modules apiModule).map (·.path directory) ∧
        ∃ t, Writes directory t (m.modules apiModule) s'.files := by
  rw [Model.write] at h
  split at h
  · exact absurd h not_completes_throw
  · next hfinished =>
    obtain ⟨_, s₁, -, hmodules⟩ := completes_bind h
    obtain ⟨hpaths, hwrites⟩ := completes_modules hmodules
    exact ⟨hfinished, hpaths, s₁.files, hwrites⟩

/-! Files of modules. -/

/-- Where the module `name` is written. -/
def modulePath (directory name : String) : String := Path.join directory (name ++ ".rs")

theorem namesFile_module {name : String} (h : '/' ∉ name.toList) : NamesFile (name ++ ".rs") := by
  have hlast : (name ++ ".rs").toList.getLast? = some 's' := by simp
  refine ⟨by simpa using h, ?_, ?_⟩
  · rw [Path.isName, Bool.and_eq_true, bne_iff_ne, bne_iff_ne]
    constructor
    · intro hempty
      rw [hempty] at hlast
      cases hlast
    · intro hdot
      rw [hdot] at hlast
      cases hlast
  · intro hup
    rw [hup] at hlast
    cases hlast

theorem modulePath_inj {name name' : String} (hname : '/' ∉ name.toList) (hname' : '/' ∉ name'.toList)
    (h : modulePath directory name = modulePath directory name') : name = name' := by
  have hfile := Path.join_inj (namesFile_module hname).undivided (namesFile_module hname').undivided h
  exact (String.append_left_inj _).mp hfile

theorem modulePath_ne {t : FileTree} {name name' : String} {q : List String} (hname : '/' ∉ name.toList)
    (hname' : '/' ∉ name'.toList) (hne : name ≠ name')
    (hq : t.locate (modulePath directory name) = .ok q) :
    t.locate (modulePath directory name) ≠ t.locate (modulePath directory name') := by
  intro heq
  have hfile := FileTree.locate_join_inj (namesFile_module hname) (namesFile_module hname') hq
    (heq.symm.trans hq)
  exact hne ((String.append_left_inj _).mp hfile)

/-- The names of modules lead into no other directory. -/
def Undivided (modules : List ModuleText) : Prop := ∀ module ∈ modules, '/' ∉ module.name.toList

theorem Writes.read {modules : List ModuleText} (h : Writes directory t modules t')
    (hmodules : Undivided modules) {name text : String} (hname : '/' ∉ name.toList)
    (hread : t.read (modulePath directory name) = .ok text)
    (hother : ∀ module ∈ modules, module.name ≠ name) :
    t'.read (modulePath directory name) = .ok text := by
  induction h with
  | nil t => exact hread
  | @cons t t' t'' module modules written htext hwrite _ ih =>
    refine ih (fun m hm => hmodules m (List.mem_cons_of_mem _ hm)) ?_
      fun m hm => hother m (List.mem_cons_of_mem _ hm)
    obtain ⟨q, hq, -⟩ := FileTree.read_eq_ok.mp hread
    refine FileTree.read_write_of_ne hwrite hread ?_
    exact modulePath_ne hname (hmodules module List.mem_cons_self)
      (hother module List.mem_cons_self).symm hq

theorem Writes.split {before after : List ModuleText} (h : Writes directory t (before ++ after) t') :
    ∃ middle, Writes directory t before middle ∧ Writes directory middle after t' := by
  induction before generalizing t with
  | nil => exact ⟨t, .nil t, h⟩
  | cons module before ih =>
    cases h with
    | cons htext hwrite h =>
      obtain ⟨middle, hbefore, hafter⟩ := ih h
      exact ⟨middle, .cons htext hwrite hbefore, hafter⟩

/-- Of several modules with one name, the last is found in the end. -/
theorem Writes.read_last {modules before after : List ModuleText} {module : ModuleText}
    (h : Writes directory t modules t') (hundivided : Undivided modules)
    (hsplit : modules = before ++ module :: after) (hlast : ∀ m ∈ after, m.name ≠ module.name) :
    ∃ text, module.text = .ok text ∧ t'.read (modulePath directory module.name) = .ok text := by
  rw [hsplit] at h hundivided
  obtain ⟨middle, -, hafter⟩ := h.split
  cases hafter with
  | @cons _ written _ _ _ text htext hwrite hafter =>
    refine ⟨text, htext, hafter.read (fun m hm => hundivided m (by simp [hm]))
      (hundivided module (by simp)) (FileTree.read_write hwrite) hlast⟩

theorem Writes.texts {modules : List ModuleText} (h : Writes directory t modules t') :
    ∀ module ∈ modules, ∃ text, module.text = .ok text := by
  induction h with
  | nil => simp
  | cons htext _ _ ih => exact List.forall_mem_cons.mpr ⟨⟨_, htext⟩, ih⟩

/-! The index. -/

section Index

open Emission

def linesOf (text : String) : List String := (text.toList.splitOn '\n').map String.ofList

theorem linesOf_unlines {lines : List String} (h : ∀ line ∈ lines, '\n' ∉ line.toList) :
    linesOf (unlines lines) = lines ++ [""] := by
  induction lines with
  | nil => rfl
  | cons line lines ih =>
    have hrest := ih fun l hl => h l (List.mem_cons_of_mem _ hl)
    have htext : (unlines (line :: lines)).toList = line.toList ++ '\n' :: (unlines lines).toList := by
      simp [unlines]
    rw [linesOf, htext, List.splitOn_append_cons_self_of_not_mem (h line List.mem_cons_self)]
    rw [List.map_cons, String.ofList_toList, List.cons_append, ← hrest]
    rfl

/-- The line by which the index declares a module. -/
def declaration (name : String) : String := "pub mod " ++ name ++ ";"

theorem declaration_injective : Function.Injective declaration := by
  intro a b h
  exact (String.append_right_inj _).mp ((String.append_left_inj _).mp h)

theorem count_declaration {names : List String} (hnames : ∀ name ∈ names, '\n' ∉ name.toList)
    (name : String) : (linesOf (indexText names)).count (declaration name) =
      ("base" :: names).count name := by
  have hlines : ∀ line ∈ indexLines names, '\n' ∉ line.toList := by
    intro line hline
    simp only [indexLines, List.mem_append, List.mem_cons, List.not_mem_nil, or_false, List.mem_map] at hline
    rcases hline with ((rfl | rfl | rfl) | ⟨n, hn, rfl⟩) | rfl
    · decide
    · decide
    · decide
    · simp [hnames n hn]
    · decide
  have hother : ∀ line : String, line.toList.head? ≠ some 'p' → (line == declaration name) = false := by
    intro line hline
    rw [beq_eq_false_iff_ne]
    rintro rfl
    exact hline (by simp [declaration])
  have hblank := hother "" (by decide)
  have htitle := hother "//! Kubernetes types generated by kube-typegen. Do not edit." (by decide)
  have hindex : indexLines names = ["//! Kubernetes types generated by kube-typegen. Do not edit.", ""] ++
      ("base" :: names).map declaration ++ [""] := rfl
  rw [indexText, linesOf_unlines hlines, hindex, List.count_append, List.count_append, List.count_append,
    List.count_map_of_injective _ _ declaration_injective]
  simp only [List.count_cons, List.count_nil, htitle, hblank]
  simp

end Index

/-! What is found in the end. -/

namespace Model

variable {m : Model} {apiModule : String} {paths : List String} {files : FileTree}

def moduleNames (m : Model) : List String := m.keys.map GroupKey.moduleName

/-- What writing the modules of `m` leaves among the files, where `paths` are given for them. -/
structure Written (m : Model) (apiModule directory : String) (paths : List String)
    (files : FileTree) : Prop where
  paths : paths = (m.moduleNames ++ ["base", "mod"]).map (modulePath directory)
  text : ∀ key ∈ m.keys, ∃ text, Emission.groupText m apiModule key = .ok text
  /-- Of groups whose modules have one name, the last. -/
  group : ∀ before key after, m.keys = before ++ key :: after →
    (∀ k ∈ after, k.moduleName ≠ key.moduleName) →
      ∃ text, Emission.groupText m apiModule key = .ok text ∧
        files.read (modulePath directory key.moduleName) = .ok text
  base : files.read (modulePath directory "base") = .ok Emission.baseText
  index : files.read (modulePath directory "mod") = .ok (Emission.indexText m.moduleNames)

/-- No module is lost, and each is listed once. -/
structure Kept (m : Model) (apiModule directory : String) (paths : List String)
    (files : FileTree) : Prop where
  group : ∀ key ∈ m.keys, ∃ text, Emission.groupText m apiModule key = .ok text ∧
    files.read (modulePath directory key.moduleName) = .ok text
  base : files.read (modulePath directory "base") = .ok Emission.baseText
  index : ∃ text, files.read (modulePath directory "mod") = .ok text ∧
    ∀ name ∈ "base" :: m.moduleNames, (linesOf text).count (declaration name) = 1
  listed : ∀ path, path ∈ paths ↔ ∃ name ∈ m.moduleNames ++ ["base", "mod"],
    path = modulePath directory name
  once : paths.Nodup

theorem not_mem_name {c : Char} (hc : ¬Naming.IsModuleChar c) {name : String}
    (hname : name ∈ m.moduleNames ++ ["base", "mod"]) : c ∉ name.toList := by
  have hfixed : ∀ name ∈ ["base", "mod"], ∀ c ∈ name.toList, Naming.IsModuleChar c := by
    simp [Naming.IsModuleChar]
  intro h
  rcases List.mem_append.mp hname with hgroup | hother
  · obtain ⟨key, -, rfl⟩ := List.mem_map.mp hgroup
    exact hc (Naming.isModuleChar_moduleName key.group key.version c h)
  · exact hc (hfixed name hother c h)

theorem keys_finalizedGroups (h : m.WellFormed) (hfinished : m.unfinished? = none) :
    m.finalizedGroups.map Prod.fst = m.keys := by
  have hview : ∀ e ∈ m.groups, ∃ view, e.2.finalized = some view := by
    intro e he
    have hkey : e.1 ∈ m.keys := List.mem_map_of_mem he
    have hfinalized : m.finalized? e.1 = e.2.finalized := by
      rw [finalized?, group?, h.ordered.get?_of_mem he]
      rfl
    have hnone := List.find?_eq_none.mp hfinished e.1 hkey
    rw [hfinalized, Bool.not_eq_true, Option.isNone_eq_false_iff] at hnone
    exact Option.isSome_iff_exists.mp hnone
  rw [finalizedGroups, keys, Table.keys]
  generalize m.groups = groups at hview
  induction groups with
  | nil => rfl
  | cons e groups ih =>
    obtain ⟨view, hfirst⟩ := hview e List.mem_cons_self
    obtain ⟨key, g⟩ := e
    have hrest := ih fun e he => hview e (List.mem_cons_of_mem _ he)
    simp only at hfirst
    simp [hfirst, hrest]

/-! The modules of a model: one for each group, the base module and the index. -/

def groupModule (m : Model) (apiModule : String) (key : GroupKey) : ModuleText :=
  ⟨key.moduleName, Emission.groupText m apiModule key⟩

@[simp] theorem name_groupModule (key : GroupKey) :
    (m.groupModule apiModule key).name = key.moduleName := by
  rw [groupModule]

@[simp] theorem text_groupModule (key : GroupKey) :
    (m.groupModule apiModule key).text = Emission.groupText m apiModule key := by
  rw [groupModule]

def baseModule : ModuleText := ⟨"base", .ok Emission.baseText⟩

def indexModule (m : Model) : ModuleText := ⟨"mod", .ok (Emission.indexText m.moduleNames)⟩

@[simp] theorem name_baseModule : baseModule.name = "base" := rfl

@[simp] theorem name_indexModule : m.indexModule.name = "mod" := rfl

theorem modules_eq (h : m.WellFormed) (hfinished : m.unfinished? = none) (apiModule : String) :
    m.modules apiModule = m.keys.map (m.groupModule apiModule) ++ [baseModule, m.indexModule] := by
  rw [modules, keys_finalizedGroups h hfinished]
  rfl

theorem names_modules : (m.keys.map (m.groupModule apiModule) ++ [baseModule, m.indexModule]).map
    ModuleText.name = m.moduleNames ++ ["base", "mod"] := by
  simp [moduleNames, Function.comp_def]

theorem undivided_modules :
    Undivided (m.keys.map (m.groupModule apiModule) ++ [baseModule, m.indexModule]) := by
  intro module hmodule
  have hname := List.mem_map_of_mem (f := ModuleText.name) hmodule
  rw [names_modules] at hname
  exact not_mem_name (by decide) hname

theorem not_reserved_of_groupText {key : GroupKey} {text : String}
    (h : Emission.groupText m apiModule key = .ok text) :
    key.moduleName ∉ Emission.reservedModules := by
  rw [Emission.groupText] at h
  split at h
  · cases h
  · split at h
    · cases h
    · next hreserved => simpa using hreserved

theorem written_of_completes (hm : m.WellFormed) {s s' : Session}
    (h : Completes (m.write apiModule directory) s paths s') :
    m.Written apiModule directory paths s'.files := by
  obtain ⟨hfinished, hpaths, t, hwrites⟩ := completes_write h
  rw [modules_eq hm hfinished] at hpaths hwrites
  have htexts : ∀ key ∈ m.keys, ∃ text, Emission.groupText m apiModule key = .ok text := by
    intro key hkey
    rw [← text_groupModule]
    exact hwrites.texts _ (List.mem_append_left _ (List.mem_map_of_mem hkey))
  refine ⟨?_, htexts, fun before key after hkeys hlast => ?_, ?_, ?_⟩
  · rw [hpaths, ← names_modules, List.map_map]
    rfl
  · have hsplit : m.keys.map (m.groupModule apiModule) ++ [baseModule, m.indexModule] =
        before.map (m.groupModule apiModule) ++ m.groupModule apiModule key ::
          (after.map (m.groupModule apiModule) ++ [baseModule, m.indexModule]) := by
      rw [hkeys, List.map_append, List.map_cons, List.append_assoc, List.cons_append]
    have hother : ∀ module ∈ after.map (m.groupModule apiModule) ++ [baseModule, m.indexModule],
        module.name ≠ key.moduleName := by
      intro module hmodule
      -- The text of a group with a reserved name is an error, so no file was written under it.
      obtain ⟨text, htext⟩ := htexts key (by simp [hkeys])
      have hkey := not_reserved_of_groupText htext
      simp only [Emission.reservedModules, List.mem_pair, not_or] at hkey
      rw [List.mem_append, List.mem_map, List.mem_pair] at hmodule
      rcases hmodule with ⟨k, hk, rfl⟩ | rfl | rfl
      · rw [name_groupModule]
        exact hlast k hk
      · exact Ne.symm hkey.1
      · exact Ne.symm hkey.2
    have hread := hwrites.read_last undivided_modules hsplit (by rwa [name_groupModule])
    rwa [text_groupModule, name_groupModule] at hread
  · obtain ⟨text, htext, hread⟩ := hwrites.read_last undivided_modules rfl (by simp)
    rwa [← Except.ok.inj htext] at hread
  · have hsplit : m.keys.map (m.groupModule apiModule) ++ [baseModule, m.indexModule] =
        (m.keys.map (m.groupModule apiModule) ++ [baseModule]) ++ m.indexModule :: [] := by
      rw [List.append_assoc, List.singleton_append]
    obtain ⟨text, htext, hread⟩ := hwrites.read_last undivided_modules hsplit (by simp)
    rwa [← Except.ok.inj htext] at hread

theorem Written.ne_reserved (h : m.Written apiModule directory paths files) {name : String}
    (hname : name ∈ m.moduleNames) : name ≠ "base" ∧ name ≠ "mod" := by
  obtain ⟨key, hkey, rfl⟩ := List.mem_map.mp hname
  obtain ⟨text, htext⟩ := h.text key hkey
  simpa [Emission.reservedModules] using not_reserved_of_groupText htext

/-- A module is lost if a later group has another under its name. -/
theorem Written.read_ne (h : m.Written apiModule directory paths files) {before after : List GroupKey}
    {key k : GroupKey} {text : String} (hkeys : m.keys = before ++ key :: after)
    (hlast : ∀ k ∈ after, k.moduleName ≠ key.moduleName) (hsame : k.moduleName = key.moduleName)
    (hother : Emission.groupText m apiModule k ≠ Emission.groupText m apiModule key)
    (htext : Emission.groupText m apiModule k = .ok text) :
    files.read (modulePath directory k.moduleName) ≠ .ok text := by
  obtain ⟨text', htext', hread⟩ := h.group before key after hkeys hlast
  rw [hsame, hread]
  intro heq
  rw [htext, htext', Except.ok.inj heq] at hother
  exact hother rfl

theorem Written.nodup_paths (h : m.Written apiModule directory paths files) :
    paths.Nodup ↔ m.moduleNames.Nodup := by
  rw [h.paths]
  constructor
  · exact fun hnodup => (List.nodup_append.mp hnodup.of_map).1
  · intro hnodup
    have hnames : (m.moduleNames ++ ["base", "mod"]).Nodup := by
      refine List.nodup_append.mpr ⟨hnodup, by decide, fun name hname other hother => ?_⟩
      obtain ⟨hbase, hmod⟩ := h.ne_reserved hname
      rcases List.mem_pair.mp hother with rfl | rfl
      · exact hbase
      · exact hmod
    exact hnames.map_on fun name hname name' hname' hpath =>
      modulePath_inj (not_mem_name (by decide) hname) (not_mem_name (by decide) hname') hpath

theorem Written.kept_iff (h : m.Written apiModule directory paths files) :
    m.Kept apiModule directory paths files ↔ m.moduleNames.Nodup := by
  rw [← h.nodup_paths]
  refine ⟨Kept.once, fun hpaths => ?_⟩
  have hnodup := h.nodup_paths.mp hpaths
  refine ⟨fun key hkey => ?_, h.base, ⟨_, h.index, fun name hname => ?_⟩, fun path => ?_, hpaths⟩
  · obtain ⟨before, after, hkeys⟩ := List.append_of_mem hkey
    refine h.group before key after hkeys fun k hk hsame => ?_
    rw [moduleNames, hkeys, List.map_append, List.map_cons] at hnodup
    have hnotin := (List.nodup_cons.mp (List.nodup_append.mp hnodup).2.1).1
    exact hnotin (hsame ▸ List.mem_map_of_mem hk)
  · have hbase : ("base" :: m.moduleNames).Nodup :=
      List.nodup_cons.mpr ⟨fun hn => (h.ne_reserved hn).1 rfl, hnodup⟩
    rw [count_declaration]
    · exact List.count_eq_one_of_mem hbase hname
    · exact fun name hname => not_mem_name (by decide) (List.mem_append_left _ hname)
  · rw [h.paths, List.mem_map]
    simp only [eq_comm]

/-- Whatever was registered and finalized, and whatever files there were, writing the modules loses
none of them if and only if no two groups have modules of one name. Otherwise the module of the last of
these is kept. -/
theorem write_keeps_modules (cs : List Change) (apiModule directory : String) {s s' : Session}
    {paths : List String} (h : Completes ((ofChanges cs).write apiModule directory) s paths s') :
    (ofChanges cs).Written apiModule directory paths s'.files ∧
      ((ofChanges cs).Kept apiModule directory paths s'.files ↔ (ofChanges cs).moduleNames.Nodup) := by
  have hwritten := written_of_completes (wellFormed_ofChanges cs) h
  exact ⟨hwritten, hwritten.kept_iff⟩

/-- Two groups that have modules of one name. -/
def sameModule : List Change :=
  [.registerNamed ⟨"k8s-io", none⟩ "Issuer" .resource none,
    .registerNamed ⟨"k8s.io", none⟩ "Certificate" .resource none, .finalize]

/-- A directory in which there are files already. -/
def occupied : Session where
  files := [(["out"], .directory), (["out", "k8s_io.rs"], .file (some "earlier")),
    (["out", "notes"], .file none)]

theorem completes_sameModule : ∃ paths s',
    Completes ((ofChanges sameModule).write "k8s_models" "out") occupied paths s' :=
  exists_completes (by decide +kernel)

theorem write_keeps_modules_last : ∃ paths s',
    Completes ((ofChanges sameModule).write "k8s_models" "out") occupied paths s' ∧
      (ofChanges sameModule).Written "k8s_models" "out" paths s'.files ∧
        ((ofChanges sameModule).Kept "k8s_models" "out" paths s'.files ↔
          (ofChanges sameModule).moduleNames.Nodup) := by
  obtain ⟨paths, s', h⟩ := completes_sameModule
  exact ⟨paths, s', h, write_keeps_modules sameModule "k8s_models" "out" h⟩

/-- The module of the first of two groups is lost, and in its place is that of the second. -/
theorem write_loses_module : ∃ paths s',
    Completes ((ofChanges sameModule).write "k8s_models" "out") occupied paths s' ∧
      ¬(ofChanges sameModule).Kept "k8s_models" "out" paths s'.files ∧
        ∃ key ∈ (ofChanges sameModule).keys, ∃ text,
          Emission.groupText (ofChanges sameModule) "k8s_models" key = .ok text ∧
            s'.files.read (modulePath "out" key.moduleName) ≠ .ok text := by
  obtain ⟨paths, s', h⟩ := completes_sameModule
  have hwritten := written_of_completes (wellFormed_ofChanges sameModule) h
  have hkeys : (ofChanges sameModule).keys = [⟨"k8s-io", none⟩] ++ ⟨"k8s.io", none⟩ :: [] := by
    decide +kernel
  have hkey : ⟨"k8s-io", none⟩ ∈ (ofChanges sameModule).keys := by simp [hkeys]
  obtain ⟨text, htext⟩ := hwritten.text _ hkey
  have hlost := hwritten.read_ne hkeys (by simp) (by decide +kernel) (by decide +kernel) htext
  refine ⟨paths, s', h, fun hkept => ?_, _, hkey, text, htext, hlost⟩
  obtain ⟨text', htext', hread⟩ := hkept.group _ hkey
  rw [Except.ok.inj (htext'.symm.trans htext)] at hread
  exact hlost hread

end Model

end SchemaCompiler
