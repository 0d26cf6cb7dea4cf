import SchemaCompiler.CustomResource
import SchemaCompiler.Proofs.Import.Keys
import SchemaCompiler.Proofs.Model.Unfinalized

/-! What an import does to its model. Types are registered under names that definitions or resources
have, objects are called after their properties and fields after theirs unless annotations say
otherwise, and a synonym gets its target only where a named type was registered. -/

namespace SchemaCompiler

open QualifiedName (parse?)
open Relation (ReflTransGen)

namespace Annotations

/-- Some property is given the patch `p`. -/
def Patches (a : Annotations) (p : PropertyPatch) : Prop :=
  ∃ e ∈ a, ∃ o ∈ e.2, o.2 = .patch p

def GivesTypeName (a : Annotations) (name : String) : Prop :=
  ∃ p, a.Patches p ∧ p.typeName = some name

def GivesFieldName (a : Annotations) (name : String) : Prop :=
  ∃ p, a.Patches p ∧ p.fieldName = some name

theorem not_patches_nil (p : PropertyPatch) : ¬Patches [] p := by
  rintro ⟨e, he, -⟩
  cases he

theorem not_givesTypeName_nil (name : String) : ¬GivesTypeName [] name := by
  rintro ⟨p, hp, -⟩
  exact not_patches_nil p hp

theorem not_givesFieldName_nil (name : String) : ¬GivesFieldName [] name := by
  rintro ⟨p, hp, -⟩
  exact not_patches_nil p hp

end Annotations

namespace Importer

variable {c : ImportSettings} {a : Annotations} {N : GroupKey → String → Prop} {i j k : Importer}
  {m m' : Model}

/-- What an import with the annotations `a` may do to `m`, where types are registered under names of
`N`. -/
inductive Edit (a : Annotations) (N : GroupKey → String → Prop) (m : Model) : Change → Prop
  | register {group : GroupKey} {name : String} {kind : TypeKind} (description : Option String)
    (hname : N group name) (hkind : ∀ parent property, kind ≠ .anonymous parent property) :
    Edit a N m (.registerNamed group name kind description)
  | declare (parent : TypeId) (property : String) {typeName : Option String}
    (description : Option String) (h : ∀ name, typeName = some name → a.GivesTypeName name) :
    Edit a N m (.registerAnonymous parent property typeName description)
  | settle {id : TypeId} (target : TypeExpr) (h : id ∈ m.index.map Registration.id) :
    Edit a N m (.setKind id (.synonym target))
  | fill (id : TypeId) {ps : List Property}
    (h : ∀ p ∈ ps, ∀ name, p.given = some name → a.GivesFieldName name) :
    Edit a N m (.setProperties id ps)

/-- The model `m'` comes of `m` by such edits. -/
def Edits (a : Annotations) (N : GroupKey → String → Prop) : Model → Model → Prop :=
  ReflTransGen fun m m' => ∃ e, Edit a N m e ∧ m' = m.change e

theorem Edit.edits {e : Change} (h : Edit a N m e) : Edits a N m (m.change e) := .single ⟨e, h, rfl⟩

theorem Edit.registers {e : Change} (h : Edit a N m e) : e.Registers := by
  cases h <;> trivial

/-- What holds of a model and is kept by every edit holds of what comes of it. -/
theorem Edits.induction {P : Model → Prop} (hstep : ∀ {m e}, P m → Edit a N m e → P (m.change e))
    (h : Edits a N m m') (hm : P m) : P m' := by
  induction h with
  | refl => exact hm
  | tail _ hlast ih =>
    obtain ⟨e, he, rfl⟩ := hlast
    exact hstep ih he

theorem Edits.exists_changes (h : Edits a N m m') :
    ∃ cs : List Change, (∀ e ∈ cs, e.Registers) ∧ m' = cs.foldl Model.change m := by
  induction h with
  | refl => exact ⟨[], by simp, rfl⟩
  | tail _ hlast ih =>
    obtain ⟨cs, hcs, rfl⟩ := ih
    obtain ⟨e, he, rfl⟩ := hlast
    refine ⟨cs ++ [e], fun d hd => ?_, by rw [List.foldl_append, List.foldl_cons, List.foldl_nil]⟩
    rcases List.mem_append.mp hd with hd | hd
    · exact hcs d hd
    · rw [List.mem_singleton.mp hd]
      exact he.registers

/-- Where a type was registered under a name, it stays. -/
theorem Edits.mem_index (h : Edits a N m m') {id : TypeId} (hid : id ∈ m.index.map Registration.id) :
    id ∈ m'.index.map Registration.id := by
  refine h.induction (P := fun m => id ∈ m.index.map Registration.id) (fun {m e} hm he => ?_) hid
  cases he with
  | @register group name kind description _ _ =>
    rw [Model.change, Model.registerNamed]
    split
    · exact hm
    · exact List.mem_map.mpr ((List.mem_map.mp hm).imp fun r hr => ⟨List.mem_append_left _ hr.1, hr.2⟩)
  | @declare parent property typeName description _ =>
    rwa [Model.change, Model.index_registerAnonymous]
  | settle target _ => exact hm
  | fill id _ => exact hm

theorem mem_index_registerNamed (m : Model) (group : GroupKey) (name : String) (kind : TypeKind)
    (description : Option String) : (m.registerNamed group name kind description).1 ∈
      (m.registerNamed group name kind description).2.index.map Registration.id := by
  rw [Model.registerNamed]
  split
  · next id hf =>
    rw [Model.find?, Option.map_eq_some_iff] at hf
    obtain ⟨r, hr, rfl⟩ := hf
    exact List.mem_map_of_mem (List.mem_of_find?_eq_some hr)
  · exact List.mem_map.mpr ⟨_, List.mem_append_right _ (List.mem_singleton_self _), rfl⟩

theorem edits_registerRoot (i : Importer) {group : GroupKey} {name : String} {kind : TypeKind}
    (schema : Schema) (hname : N group name)
    (hkind : ∀ parent property, kind ≠ .anonymous parent property) :
    Edits c.annotations N i.model (i.registerRoot group name kind schema).2.model := by
  rw [registerRoot]
  split
  · exact .refl
  · exact (Edit.register schema.description hname hkind).edits

theorem edits_importObject (i : Importer) (parent : TypeId) (property : String)
    {typeName : Option String} (body : Schema)
    (h : ∀ name, typeName = some name → c.annotations.GivesTypeName name) :
    Edits c.annotations N i.model (importObject c i parent property typeName body).2.model := by
  rw [importObject]
  split
  · exact .refl
  · exact (Edit.declare parent property body.description h).edits

section Follow

variable {follow : Importer → String → Except Error TypeExpr × Importer}
  (hfollow : ∀ i reference, Edits c.annotations N i.model (follow i reference).2.model)

include hfollow

theorem edits_importWith (i : Importer) (parent : TypeId) (property : String)
    (typeName : Option String) (schema : Schema)
    (h : ∀ name, typeName = some name → c.annotations.GivesTypeName name) :
    Edits c.annotations N i.model (importWith c follow i parent property typeName schema).2.model := by
  simp only [importWith]
  split
  · exact .refl
  · split
    · exact .refl
    · exact edits_importObject i parent property _ h
    · exact hfollow i _

theorem edits_importDefinition (i : Importer) (key : String) {q : QualifiedName} (definition : Schema)
    (hname : N (GroupKey.of q) q.name) :
    Edits c.annotations N i.model (importDefinition c follow i key q definition).2.model := by
  rw [importDefinition]
  by_cases hrecord : definition.isRecord = true
  · rw [if_pos hrecord]
    exact edits_registerRoot i definition hname (definitionKind_named q definition).1
  · rw [if_neg hrecord]
    have hregister : Edit c.annotations N i.model (.registerNamed (GroupKey.of q) q.name
        (.synonym (.primitive .any)) definition.description) := .register _ hname (by simp)
    have hmem := mem_index_registerNamed i.model (GroupKey.of q) q.name (.synonym (.primitive .any))
      definition.description
    have hnamed := hregister.edits
    rw [Model.change] at hnamed
    cases hid : i.model.registerNamed (GroupKey.of q) q.name (.synonym (.primitive .any))
      definition.description with
    | mk id model =>
      rw [hid] at hmem hnamed
      have htarget := edits_importWith hfollow (remember { i with model } key (.type id)) id "item"
        none definition (by simp)
      simp only
      split
      · exact hnamed
      · split
        · next target j he =>
          rw [he] at htarget
          exact (hnamed.trans htarget).trans (Edit.settle target (htarget.mem_index hmem)).edits
        · next e j he =>
          rw [he] at htarget
          exact hnamed.trans htarget

variable (hN : ∀ {key q definition}, parse? key = some q → Table.get? key c.definitions = some definition →
  N (GroupKey.of q) q.name)

include hN

theorem edits_importReference (i : Importer) (reference : String) :
    Edits c.annotations N i.model (importReference c follow i reference).2.model := by
  simp only [importReference]
  split
  · exact .refl
  · split
    · exact .refl
    · next q hq =>
      split
      · exact .refl
      · exact .refl
      · next definition _ hdefinition =>
        exact edits_importDefinition hfollow i _ _ (hN hq hdefinition)

end Follow

/-- The patches that a context has are those of annotations. -/
def BodyContext.Patched (c : ImportSettings) (b : BodyContext) : Prop :=
  ∀ name p, Table.get? name b.overrides = some (.patch p) → c.annotations.Patches p

theorem BodyContext.Patched.gives {b : BodyContext} (hb : b.Patched c) {name fieldName : String}
    (h : (b.patch name).fieldName = some fieldName) : c.annotations.GivesFieldName fieldName := by
  rw [BodyContext.patch] at h
  split at h
  · next p hp => exact ⟨p, hb name p hp, h⟩
  · cases h

theorem importFields_given {b : BodyContext} {fields : List (String × Schema)} {ps : List Property}
    (h : importFields c b i fields = (.ok ps, j)) : ∀ x ∈ ps, x.given = (b.patch x.name).fieldName := by
  induction fields generalizing i ps j with
  | nil =>
    obtain rfl := Except.ok.inj (Prod.mk.inj h).1
    simp
  | cons field fields ih =>
    obtain ⟨name, declared⟩ := field
    rw [importFields] at h
    split at h
    · cases (Prod.mk.inj h).1
    · next o k hk =>
      split at h
      · cases (Prod.mk.inj h).1
      · next rest l hl =>
        obtain rfl := Except.ok.inj (Prod.mk.inj h).1
        intro x hx
        rcases List.mem_append.mp hx with hx | hx
        · obtain rfl := Option.mem_toList.mp hx
          rw [importField_eq] at hk
          split at hk
          · obtain ⟨type, heq⟩ := keptField_ok hk
            obtain rfl := Option.some.inj heq
            rfl
          · cases Except.ok.inj (Prod.mk.inj hk).1
        · exact ih hl x hx

section Names

variable (hN : ∀ {key q definition}, parse? key = some q → Table.get? key c.definitions = some definition →
  N (GroupKey.of q) q.name)

include hN

theorem edits_followRef (depth : Nat) (i : Importer) (reference : String) :
    Edits c.annotations N i.model (followRef c depth i reference).2.model := by
  induction depth generalizing i reference with
  | zero => exact .refl
  | succ depth ih => exact edits_importReference ih hN i reference

theorem edits_importField {b : BodyContext} (hb : b.Patched c) (i : Importer) (name : String)
    (declared : Schema) : Edits c.annotations N i.model (importField c b i name declared).2.model := by
  rw [importField_eq]
  split
  · rw [keptField]
    split
    · exact .refl
    · refine edits_importWith (edits_followRef hN _) i b.id name _ _ fun typeName htypeName => ?_
      rw [BodyContext.patch] at htypeName
      split at htypeName
      · next p hp => exact ⟨p, hb name p hp, htypeName⟩
      · cases htypeName
  · exact .refl

theorem edits_importFields {b : BodyContext} (hb : b.Patched c) (i : Importer)
    (fields : List (String × Schema)) : Edits c.annotations N i.model (importFields c b i fields).2.model := by
  induction fields generalizing i with
  | nil => exact .refl
  | cons field rest ih =>
    obtain ⟨name, declared⟩ := field
    have hfield := edits_importField hN hb i name declared
    rw [importFields]
    split
    · next e j he => rwa [he] at hfield
    · next p j he =>
      rw [he] at hfield
      have hrest := hfield.trans (ih j)
      split
      · next e k hk => rwa [hk] at hrest
      · next ps k hk => rwa [hk] at hrest

theorem edits_importBody (i : Importer) (p : Pending) :
    Edits c.annotations N i.model (importBody c i p).2.model := by
  have hpatched : (bodyContext c i.model p).Patched c := by
    intro name patch hpatch
    rw [bodyContext] at hpatch
    cases htype : Annotations.forType c.annotations (overrideKeys i.model p.id) with
    | none =>
      rw [htype] at hpatch
      cases hpatch
    | some overrides =>
      rw [htype] at hpatch
      obtain ⟨key, -, hkey⟩ := List.exists_of_findSome?_eq_some htype
      exact ⟨_, Table.mem_of_get? hkey, _, Table.mem_of_get? hpatch, rfl⟩
  have hfields := edits_importFields hN hpatched i p.schema.properties
  rw [importBody]
  split
  · next e j he => rwa [he] at hfields
  · next ps j he =>
    rw [he] at hfields
    refine hfields.trans (Edit.fill p.id fun x hx name hname => ?_).edits
    rw [importFields_given he x hx] at hname
    exact hpatched.gives hname

variable {keys : List String} {seeds : List TypeExpr} {bodies : List Pending}

theorem Imports.edits (h : Imports c i keys seeds j) : Edits c.annotations N i.model j.model := by
  induction h with
  | nil i => exact .refl
  | @cons i j k key keys e seeds hok _ ih =>
    have hfirst := edits_followRef hN (c.definitions.length + 1) i key
    rw [← importRef, hok] at hfirst
    exact hfirst.trans ih

theorem Empties.edits (h : Empties c i bodies k) : Edits c.annotations N i.model k.model := by
  induction h with
  | done => exact .refl
  | @read i j k p rest bodies hp hbody _ ih =>
    have hfirst := edits_importBody hN { i with pending := rest } p
    rw [hbody] at hfirst
    exact hfirst.trans ih

theorem Edits.exists_of_finish {m₀ : Model} (h : Edits c.annotations N m₀ i.model)
    (hfinish : i.finish c = .ok m) : ∃ k, Edits c.annotations N m₀ k ∧ m = k.finalize := by
  obtain ⟨bodies, k, hempties, -, rfl⟩ := empties_of_finish hfinish
  exact ⟨k.model, h.trans (hempties.edits hN), rfl⟩

end Names

theorem edits_registerAll (resources : List CustomResource) (i : Importer)
    (hN : ∀ r ∈ resources, N ⟨r.group, none⟩ r.names.kind) :
    Edits a N i.model (resources.foldl CustomResource.register i).model := by
  induction resources generalizing i with
  | nil => exact .refl
  | cons r resources ih =>
    refine .trans ?_ (ih _ fun r hr => hN r (List.mem_cons_of_mem _ hr))
    rw [CustomResource.register]
    split
    · exact .refl
    · split
      · exact .refl
      · exact edits_registerRoot (c := { annotations := a }) i _ (hN r List.mem_cons_self) nofun

end Importer

/-- What a model is compiled from, but for the annotations. -/
inductive Source where
  | document (doc : OpenApiDocument)
  | requested (doc : OpenApiDocument) (names : List String)
  | resources (resources : List CustomResource) (config : Config)

namespace Source

open Importer (Edits)

def compile (s : Source) (annotations : Annotations) : Except Error Model :=
  match s with
  | document doc => doc.compile annotations
  | requested doc names => doc.compileTypes annotations names
  | resources rs config => CustomResource.compile rs annotations config

def definitionNames (doc : OpenApiDocument) : List (GroupKey × String) :=
  (Table.keys doc.schemas).filterMap fun key => (parse? key).map fun q => (GroupKey.of q, q.name)

/-- The names that a source has for types, each with its group. -/
def names : Source → List (GroupKey × String)
  | document doc => definitionNames doc
  | requested doc _ => definitionNames doc
  | resources rs _ => rs.map fun r => (⟨r.group, none⟩, r.names.kind)

variable {s : Source} {annotations : Annotations} {m : Model}

theorem mem_definitionNames {doc : OpenApiDocument} {key : String} {q : QualifiedName}
    {definition : Schema} (hq : parse? key = some q)
    (hdefinition : Table.get? key (doc.settings annotations).definitions = some definition) :
    (GroupKey.of q, q.name) ∈ definitionNames doc := by
  have hkey : key ∈ Table.keys doc.schemas :=
    List.mem_map.mpr ⟨_, Table.mem_of_get? hdefinition, rfl⟩
  exact List.mem_filterMap.mpr ⟨key, hkey, by rw [hq]; rfl⟩

/-- What is compiled was registered under the source's names, declared and filled in as the annotations
say, and then finalized. -/
theorem exists_edits (h : s.compile annotations = .ok m) :
    ∃ m₀, Edits annotations (fun group name => (group, name) ∈ s.names) {} m₀ ∧ m = m₀.finalize := by
  cases s with
  | document doc =>
    obtain ⟨seeds, i, himports, hfinish⟩ := Importer.imports_of_ok h
    exact (himports.edits mem_definitionNames).exists_of_finish mem_definitionNames hfinish
  | requested doc requested =>
    rw [compile, OpenApiDocument.compileTypes] at h
    cases hnames : doc.shortNames with
    | error e =>
      rw [hnames] at h
      cases h
    | ok names =>
      rw [hnames] at h
      obtain ⟨keys, seeds, i, -, himports, hfinish⟩ := Importer.exists_imports_of_importTypes h
      exact (himports.edits mem_definitionNames).exists_of_finish mem_definitionNames hfinish
  | resources rs config =>
    refine Importer.Edits.exists_of_finish (c := CustomResource.settings annotations config)
      (fun _ hdefinition => ?_) (Importer.edits_registerAll _ {} fun r hr => ?_) h
    · cases hdefinition
    · exact List.mem_map_of_mem (List.mem_mergeSort.mp hr)

end Source

end SchemaCompiler
