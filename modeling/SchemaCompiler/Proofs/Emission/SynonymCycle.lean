import SchemaCompiler.Proofs.Emission.Reference
import SchemaCompiler.Proofs.Import.Changes
import SchemaCompiler.Proofs.Subset

/-! Synonyms that expand. What a synonym is made of mentions another one, within lists and maps or not,
just where the definition of the first refers to that of the second. So replacing synonyms by what they
stand for ends just where no definition of one leads back to itself. -/

namespace SchemaCompiler

open QualifiedName (Bare parse?)
open Relation (TransGen)

/-- By itself, or by way of lists and maps, a schema refers to `path`. -/
inductive Schema.RefersTo : Schema → String → Prop
  | here {s : Schema} {path : String} (hs : s.HasShape (.reference path)) : RefersTo s path
  | item {s item : Schema} {path : String} (hs : s.HasShape (.array (some item)))
    (h : RefersTo item path) : RefersTo s path
  | value {s value : Schema} {path : String} (hs : s.HasShape (.map (some value)))
    (h : RefersTo value path) : RefersTo s path

/-- What the references of a schema of this shape are. -/
def Shape.RefersTo : Shape → String → Prop
  | .reference path', path => path' = path
  | .array (some item), path => item.RefersTo path
  | .map (some value), path => value.RefersTo path
  | _, _ => False

theorem Schema.refersTo_iff {s : Schema} {shape : Shape} {path : String} (hs : s.HasShape shape) :
    s.RefersTo path ↔ shape.RefersTo path := by
  constructor
  · intro h
    cases h with
    | here hs' =>
      obtain rfl := hs.unique hs'
      rfl
    | item hs' h | value hs' h =>
      obtain rfl := hs.unique hs'
      exact h
  · intro h
    cases shape with
    | reference path' =>
      obtain rfl : path' = path := h
      exact .here hs
    | array item =>
      cases item with
      | none => cases h
      | some item => exact .item hs h
    | map value =>
      cases value with
      | none => cases h
      | some value => exact .value hs h
    | _ => cases h

/-- A schema that admits everything has no shape. -/
theorem Schema.isUnconstrained_of_refersTo {s : Schema} {path : String} (h : s.RefersTo path) :
    s.isUnconstrained = false := by
  rw [← Bool.not_eq_true]
  intro hopen
  cases h with
  | here hs | item hs _ | value hs _ => cases (Schema.shape_unconstrained hopen "").symm.trans (hs "")

theorem Shape.not_refersTo_of_plain {shape : Shape} {e : TypeExpr} (h : shape.plain? = some e)
    (path : String) : ¬shape.RefersTo path := by
  cases shape with
  | array item => cases item <;> cases h; exact id
  | map value => cases value <;> cases h; exact id
  | reference path => cases h
  | _ => exact id

/-- The types of the items that a type is spelled with. -/
def TypeText.items : TypeText → List TypeId
  | item id _ _ => [id]
  | foreign id _ _ => [id]
  | vec t => t.items
  | dict t => t.items
  | _ => []

namespace OpenApiDocument

/-- The definition under `key` is no record, and stands for no type that is known by its name. -/
structure DefinesSynonym (doc : OpenApiDocument) (key : String) (definition : Schema) : Prop where
  defined : Table.get? key doc.schemas = some definition
  ordinary : ∃ q, parse? key = some q ∧ wellKnown? q = none
  synonym : definition.isRecord = false

/-- Of two definitions of synonyms, the first refers to the second. -/
def RefersOn (doc : OpenApiDocument) (a b : String) : Prop :=
  ∃ d d' path, doc.DefinesSynonym a d ∧ doc.DefinesSynonym b d' ∧ d.RefersTo path ∧
    parse? (QualifiedName.identifier path) = parse? b

variable {doc : OpenApiDocument} {a b : String}

theorem exists_definesSynonym_left (h : TransGen doc.RefersOn a b) : ∃ d, doc.DefinesSynonym a d := by
  obtain ⟨x, ⟨d, -, -, hd, -⟩, -⟩ := TransGen.head'_iff.mp h
  exact ⟨d, hd⟩

theorem exists_definesSynonym_right (h : TransGen doc.RefersOn a b) : ∃ d, doc.DefinesSynonym b d := by
  obtain ⟨x, -, -, d, -, -, hd, -⟩ := TransGen.tail'_iff.mp h
  exact ⟨d, hd⟩

end OpenApiDocument

theorem Importer.Defined.definesSynonym {doc : OpenApiDocument} {annotations : Annotations} {m : Model}
    {key : String} {q : QualifiedName} {definition : Schema} {id : TypeId}
    (h : Defined (doc.settings annotations) m key q definition id) (hrecord : definition.isRecord = false) :
    doc.DefinesSynonym key definition :=
  ⟨h.defined, ⟨q, h.name, h.ordinary⟩, hrecord⟩

namespace Emission

variable {m : Model} {apiModule : String} {key : GroupKey} {view : FinalizedGroup} {current id u v : TypeId}
  {text : TypeText}

/-- The item of the type `u` is a synonym of `text`. -/
def SynonymFor (m : Model) (apiModule : String) (u : TypeId) (text : TypeText) : Prop :=
  ∃ key view item, m.finalized? key = some view ∧ item ∈ groupItems m apiModule view ∧ item.id = u ∧
    item.body = .synonym text

/-- The synonym `u` is spelled with the synonym `v`. -/
def Mentions (m : Model) (apiModule : String) (u v : TypeId) : Prop :=
  ∃ text target, SynonymFor m apiModule u text ∧ v ∈ text.items ∧ SynonymFor m apiModule v target

theorem synonymFor_iff : SynonymFor m apiModule u text ↔ ∃ key view target,
    m.finalized? key = some view ∧ u ∈ view.types ∧ m.kind? u = some (.synonym target) ∧
      text = (spelling m apiModule view).typeText u true target := by
  constructor
  · rintro ⟨key, view, item, hview, hitem, rfl, hbody⟩
    obtain ⟨hlisted, t, ht, heq⟩ := mem_groupItems.mp hitem
    rw [heq, Spelling.itemBody] at hbody
    split at hbody
    · next target hkind =>
      refine ⟨key, view, target, hview, hlisted, ?_, (ItemBody.synonym.inj hbody).symm⟩
      rw [Model.kind?, ht, Option.map_some, hkind]
    · cases hbody
    · cases hbody
  · rintro ⟨key, view, target, hview, hlisted, hkind, rfl⟩
    obtain ⟨t, ht, hkind⟩ := Option.map_eq_some_iff.mp hkind
    have hitem : (⟨u, t.name, t.description, (spelling m apiModule view).itemBody u t⟩ : Item) ∈
        groupItems m apiModule view :=
      mem_groupItems.mpr ⟨hlisted, t, ht, rfl⟩
    refine ⟨key, view, _, hview, hitem, rfl, ?_⟩
    rw [Spelling.itemBody, hkind]

theorem items_namedText (h : m.Finished) (hview : m.finalized? key = some view)
    (hcurrent : current ∈ view.types) (hid : id < m.types.size) (direct : Bool) :
    ((spelling m apiModule view).namedText current direct id).items = [m.resolve id] := by
  obtain ⟨t, ht, -⟩ := h.wellFormed.exists_resolved hid
  rw [namedText_listed h hview hcurrent ht]
  split <;> rfl

theorem items_plain {s : Spelling} {shape : Shape} {e : TypeExpr} (h : shape.plain? = some e)
    (direct : Bool) : (s.typeText current direct e).items = [] := by
  cases shape with
  | map value => cases value <;> cases h; rfl
  | array items => cases items <;> cases h; rfl
  | string format => cases h; cases format <;> rfl
  | number float => cases h; cases float <;> rfl
  | _ => cases h <;> rfl

section Imported

open Importer (Defined Denotes Meaning ObjectAt Separate)

variable {c : ImportSettings} {bodies : List Pending} {k : Importer} (h : Importer.Finished c bodies k)
  (hs : Separate c []) (hm : k.model.finalize.Finished) {target e : TypeExpr}

include h

/-- A synonym is the type of a definition that is no record. -/
theorem defined_of_synonym (hv : k.model.kind? v = some (.synonym target)) : ∃ key q definition,
    Defined c k.model key q definition v ∧ definition.isRecord = false := by
  obtain ⟨t, ht, hkind⟩ := Option.map_eq_some_iff.mp hv
  have hlabel : k.model.label? v = some t.label := Model.label?_eq_some_iff.mpr ⟨t, ht, rfl⟩
  have hnamed := h.full.coherent.shelved.named hlabel (by
    rw [TypeEntry.label_isAnonymous, TypeEntry.isAnonymous, hkind])
  rcases h.full.coherent.known hnamed with ⟨r, hr, -⟩ | ⟨key, q, definition, hd, -⟩
  · cases hr
  · refine ⟨key, q, definition, hd, ?_⟩
    obtain ⟨kind, hkind', hdefinition⟩ := hd.kind
    obtain rfl := Option.some.inj (hv.symm.trans hkind')
    rw [← Bool.not_eq_true]
    intro hrecord
    rw [if_pos hrecord] at hdefinition
    exact (Importer.definitionKind_named q definition).2 target hdefinition.symm

/-- What stands for an object is no synonym. -/
theorem resolve_object_ne {parent : TypeId} {property : String} {typeName : Option String} {body : Schema}
    (hid : ObjectAt k.model bodies parent property typeName body id)
    (hv : k.model.kind? v = some (.synonym target)) : k.model.finalize.resolve id ≠ v := by
  have hwf := h.full.coherent.ready.wellFormed
  obtain ⟨above, -, hlabel⟩ := hid.label
  have hfiled := h.full.coherent.shelved.filed hlabel rfl
  rw [← hwf.bucket_finalize] at hfiled
  rintro rfl
  obtain ⟨key, q, definition, hd, -⟩ := defined_of_synonym h hv
  have hnamed := hd.named
  rw [← hwf.named?_finalize] at hnamed
  exact hwf.finalize.apart hnamed (hwf.finalize.resolve_mem hfiled)

theorem resolve_named {group : GroupKey} {name : String} (hid : k.model.named? group name = some id) :
    k.model.finalize.resolve id = id := by
  have hwf := h.full.coherent.ready.wellFormed
  rw [← hwf.named?_finalize] at hid
  obtain ⟨t, ht, -, -, -, hlive⟩ := hwf.finalize.named hid
  exact Model.resolve_of_live (by rw [Model.mergedInto?, ht]; exact hlive)

include hm

/-- What is spelled for a reference is the type of the name it is read as. -/
theorem mem_items_reference (hview : k.model.finalize.finalized? key = some view)
    (hcurrent : current ∈ view.types) (direct : Bool) {path : String}
    (he : Meaning c k.model path e) :
    v ∈ ((spelling k.model.finalize apiModule view).typeText current direct e).items ↔
      ∃ q, parse? path = some q ∧ k.model.named? (GroupKey.of q) q.name = some v := by
  have hwf := h.full.coherent.ready.wellFormed
  have hitems : ∀ {q : QualifiedName} {id : TypeId}, k.model.named? (GroupKey.of q) q.name = some id →
      ((spelling k.model.finalize apiModule view).namedText current direct id).items = [id] := by
    intro q id hid
    have hlt := hwf.named_lt hid
    rw [← hwf.size_finalize] at hlt
    rw [items_namedText hm hview hcurrent hlt, resolve_named h hid]
  have hname : ∀ {q : QualifiedName}, parse? path = some q →
      ((∃ q, parse? path = some q ∧ k.model.named? (GroupKey.of q) q.name = some v) ↔
        k.model.named? (GroupKey.of q) q.name = some v) := by
    intro q hq
    simp [hq]
  cases he with
  | @wellKnown q w hq hw =>
    -- No type is registered under a name that is known.
    rw [hname hq]
    refine ⟨fun hv => absurd hv List.not_mem_nil, fun hv => ?_⟩
    rcases h.full.coherent.known hv with ⟨r, hr, -⟩ | ⟨key', q', definition, hd, -⟩
    · cases hr
    · obtain rfl := GroupKey.of_inj.mp (hd.group_eq hwf hv)
      cases hw.symm.trans hd.ordinary
  | @defined q definition id hd =>
    rw [hname hd.name, Spelling.typeText, hitems hd.named, hd.named, List.mem_singleton, Option.some_inj,
      eq_comm]
  | @undefined q hq hw hnone =>
    have hfind : (spelling k.model.finalize apiModule view).model.find? (GroupKey.of q)
        ((GroupKey.of q).qualify q.name) = k.model.named? (GroupKey.of q) q.name :=
      (hwf.finalize.indexed _ _).trans (hwf.named?_finalize _ _)
    rw [hname hq, Spelling.typeText, Spelling.refText, hfind]
    cases hid : k.model.named? (GroupKey.of q) q.name with
    | none => simp [Spelling.canonicalText, TypeText.items]
    | some id =>
      simp only [hitems hid]
      rw [List.mem_singleton, Option.some_inj, eq_comm]

/-- A type that a schema stands for is spelled with just those synonyms whose names its references are
read as. -/
theorem mem_items_iff (hinference : c.inference = none)
    (hview : k.model.finalize.finalized? key = some view) (hcurrent : current ∈ view.types)
    (hv : k.model.kind? v = some (.synonym target)) {parent : TypeId} {property : String}
    {typeName : Option String} {s : Schema}
    (he : Denotes c k.model bodies parent property typeName s e) (direct : Bool) :
    v ∈ ((spelling k.model.finalize apiModule view).typeText current direct e).items ↔
      ∃ path q, s.RefersTo path ∧ parse? (QualifiedName.identifier path) = some q ∧
        k.model.named? (GroupKey.of q) q.name = some v := by
  induction he generalizing direct with
  | plain hshape hplain =>
    rw [items_plain hplain]
    refine ⟨fun hv => absurd hv List.not_mem_nil, ?_⟩
    rintro ⟨path, q, hpath, -⟩
    exact absurd ((Schema.refersTo_iff hshape).mp hpath) (Shape.not_refersTo_of_plain hplain path)
  | @reference s path e hshape hmeaning =>
    rw [mem_items_reference h hm hview hcurrent direct hmeaning]
    constructor
    · rintro ⟨q, hq, hnamed⟩
      exact ⟨path, q, .here hshape, hq, hnamed⟩
    · rintro ⟨path', q, hpath, hq, hnamed⟩
      obtain rfl : path = path' := (Schema.refersTo_iff hshape).mp hpath
      exact ⟨q, hq, hnamed⟩
  | list hshape _ ih | map hshape _ ih =>
    simp only [Schema.refersTo_iff hshape]
    exact ih false
  | inferred _ hq =>
    rw [hinference] at hq
    cases hq
  | @object s properties id hshape _ hobject =>
    have hlt : id < k.model.finalize.types.size := by
      obtain ⟨above, -, hlabel⟩ := hobject.label
      rw [h.full.coherent.ready.wellFormed.size_finalize]
      exact Model.label?_lt hlabel
    have hnone : ∀ path, ¬s.RefersTo path := fun path hpath =>
      (Schema.refersTo_iff hshape).mp hpath
    rw [Spelling.typeText, items_namedText hm hview hcurrent hlt, List.mem_singleton]
    refine ⟨fun heq => absurd heq.symm (resolve_object_ne h hobject hv), ?_⟩
    rintro ⟨path, q, hpath, -⟩
    exact absurd hpath (hnone path)

end Imported

section Document

open Importer (Defined Imported IsUnder Separate)

variable {doc : OpenApiDocument} {annotations : Annotations} {seeds : List TypeExpr} {bodies : List Pending}
  {k : Importer} (hkeys : ∀ d ∈ doc.schemas, Bare d.1)
  (h : Imported (doc.settings annotations) (Table.keys doc.schemas) seeds bodies k)
  {a b : String} {definition : Schema}

include hkeys h

theorem exists_defined (ha : doc.DefinesSynonym a definition) :
    ∃ q u, Defined (doc.settings annotations) k.model a q definition u := by
  obtain ⟨q, hq, hw⟩ := ha.ordinary
  have hmem := Table.mem_of_get? ha.defined
  obtain ⟨e, -, he⟩ := h.meaning (List.mem_map_of_mem hmem)
  rw [(hkeys _ hmem).identifier] at he
  obtain ⟨u, -, hu⟩ := he.defined_at hq hw ha.defined
  exact ⟨q, u, hu⟩

theorem defined_of_isUnder (ha : doc.DefinesSynonym a definition) (hu : IsUnder k.model a u) :
    ∃ q, Defined (doc.settings annotations) k.model a q definition u := by
  obtain ⟨q, d, hd⟩ := hu.defined h.finished.full.coherent hkeys (hkeys _ (Table.mem_of_get? ha.defined))
  obtain rfl := Option.some.inj (hd.defined.symm.trans ha.defined)
  exact ⟨q, hd⟩

/-- No two definitions of synonyms are of one type. -/
theorem key_eq_of_isUnder {definition' : Schema} (ha : doc.DefinesSynonym a definition)
    (hb : doc.DefinesSynonym b definition') (hau : IsUnder k.model a u) (hbu : IsUnder k.model b u) :
    a = b := by
  have hs : Separate (doc.settings annotations) [] := Importer.separate_of_bare hkeys
  obtain ⟨q, hd⟩ := defined_of_isUnder hkeys h ha hau
  obtain ⟨q', hd'⟩ := defined_of_isUnder hkeys h hb hbu
  exact hd.key_eq hs.unshared h.finished.full.coherent.ready.wellFormed hd'

variable (hm : k.model.finalize.Finished)

include hm

/-- A type whose definition is that of a synonym is spelled with just those synonyms whose names the
references of the definition are read as. -/
theorem mem_items_definition {q : QualifiedName} {target target' : TypeExpr}
    (hd : Defined (doc.settings annotations) k.model a q definition u) (hrecord : definition.isRecord = false)
    (hview : k.model.finalize.finalized? key = some view) (hlisted : u ∈ view.types)
    (hu : k.model.kind? u = some (.synonym target)) (hv : k.model.kind? v = some (.synonym target')) :
    v ∈ ((spelling k.model.finalize apiModule view).typeText u true target).items ↔
      ∃ path q, definition.RefersTo path ∧ parse? (QualifiedName.identifier path) = some q ∧
        k.model.named? (GroupKey.of q) q.name = some v := by
  have hs : Separate (doc.settings annotations) [] := Importer.separate_of_bare hkeys
  cases h.finished.settled hs hd with
  | record hr => cases hr.symm.trans hrecord
  | unconstrained _ hopen hany =>
    cases hu.symm.trans hany
    refine ⟨fun hv => absurd hv List.not_mem_nil, ?_⟩
    rintro ⟨path, q, hpath, -⟩
    cases hopen.symm.trans (Schema.isUnconstrained_of_refersTo hpath)
  | synonym _ _ hsynonym hdenotes =>
    cases hu.symm.trans hsynonym
    exact mem_items_iff h.finished hm rfl hview hlisted hv hdenotes true

/-- A definition of a synonym is emitted as one, spelled as its target is. -/
theorem exists_synonymFor (apiModule : String) (ha : doc.DefinesSynonym a definition)
    (hu : IsUnder k.model a u) : ∃ key view target, k.model.finalize.finalized? key = some view ∧
      u ∈ view.types ∧ k.model.kind? u = some (.synonym target) ∧
        SynonymFor k.model.finalize apiModule u
          ((spelling k.model.finalize apiModule view).typeText u true target) := by
  have hwf := h.finished.full.coherent.ready.wellFormed
  obtain ⟨q, hd⟩ := defined_of_isUnder hkeys h ha hu
  obtain ⟨kind, hkind, hdefinition⟩ := hd.kind
  rw [if_neg (by simp [ha.synonym])] at hdefinition
  obtain ⟨target, rfl⟩ := hdefinition
  have hnamed := hd.named
  rw [← hwf.named?_finalize] at hnamed
  obtain ⟨t, ht, -, -, -, hlive⟩ := hwf.finalize.named hnamed
  obtain ⟨view, hview, hlisted⟩ := exists_listed hm ht (by rw [Model.mergedInto?, ht]; exact hlive)
  refine ⟨t.group, view, target, hview, hlisted, hkind, synonymFor_iff.mpr
    ⟨t.group, view, target, hview, hlisted, ?_, rfl⟩⟩
  rw [hwf.kind?_finalize, hkind]

/-- The step: a synonym mentions another just where its definition refers to the other's. -/
theorem mentions_iff (apiModule : String) : Mentions k.model.finalize apiModule u v ↔
    ∃ a b, IsUnder k.model a u ∧ IsUnder k.model b v ∧ doc.RefersOn a b := by
  have hwf := h.finished.full.coherent.ready.wellFormed
  constructor
  · rintro ⟨text, text', hu, hv, hv'⟩
    obtain ⟨key, view, target, hview, hlisted, hkind, rfl⟩ := synonymFor_iff.mp hu
    obtain ⟨-, -, target', -, -, hkind', -⟩ := synonymFor_iff.mp hv'
    rw [hwf.kind?_finalize] at hkind hkind'
    obtain ⟨a, q, d, hd, hrecord⟩ := defined_of_synonym h.finished hkind
    obtain ⟨b, q', d', hd', hrecord'⟩ := defined_of_synonym h.finished hkind'
    obtain ⟨path, p, hpath, hp, hnamed⟩ :=
      (mem_items_definition hkeys h hm hd hrecord hview hlisted hkind hkind').mp hv
    obtain rfl := GroupKey.of_inj.mp (hd'.group_eq hwf hnamed)
    exact ⟨a, b, hd.isUnder, hd'.isUnder, d, d', path, hd.definesSynonym hrecord,
      hd'.definesSynonym hrecord', hpath, hp.trans hd'.name.symm⟩
  · rintro ⟨a, b, hu, hv, d, d', path, ha, hb, hpath, hparse⟩
    obtain ⟨key, view, target, hview, hlisted, hkind, hu'⟩ := exists_synonymFor hkeys h hm apiModule ha hu
    obtain ⟨_, _, _, -, -, hkind', hv'⟩ := exists_synonymFor hkeys h hm apiModule hb hv
    refine ⟨_, _, hu', ?_, hv'⟩
    obtain ⟨q, hd⟩ := defined_of_isUnder hkeys h ha hu
    obtain ⟨q', hd'⟩ := defined_of_isUnder hkeys h hb hv
    exact (mem_items_definition hkeys h hm hd ha.synonym hview hlisted hkind hkind').mpr
      ⟨path, q', hpath, hparse.trans hd'.name, hd'.named⟩

/-- Along a path of synonyms their definitions refer to each other. -/
theorem refersOn_of_mentions {apiModule : String} (huv : TransGen (Mentions k.model.finalize apiModule) u v) :
    ∃ a b, IsUnder k.model a u ∧ IsUnder k.model b v ∧ TransGen doc.RefersOn a b := by
  induction huv with
  | single huv =>
    obtain ⟨a, b, hu, hv, hab⟩ := (mentions_iff hkeys h hm apiModule).mp huv
    exact ⟨a, b, hu, hv, .single hab⟩
  | tail _ hvw ih =>
    obtain ⟨a, b, hu, hv, hab⟩ := ih
    obtain ⟨b', x, hv', hx, hbx⟩ := (mentions_iff hkeys h hm apiModule).mp hvw
    obtain ⟨d, hb⟩ := OpenApiDocument.exists_definesSynonym_right hab
    obtain ⟨d', hb'⟩ := OpenApiDocument.exists_definesSynonym_left (.single hbx)
    obtain rfl := key_eq_of_isUnder hkeys h hb hb' hv hv'
    exact ⟨a, x, hu, hx, hab.tail hbx⟩

theorem mentions_of_refersOn (apiModule : String) (hab : TransGen doc.RefersOn a b)
    (hu : IsUnder k.model a u) (hv : IsUnder k.model b v) :
    TransGen (Mentions k.model.finalize apiModule) u v := by
  induction hab generalizing v with
  | single hab => exact .single ((mentions_iff hkeys h hm apiModule).mpr ⟨a, _, hu, hv, hab⟩)
  | @tail x y _ hxy ih =>
    obtain ⟨d, hx⟩ := OpenApiDocument.exists_definesSynonym_left (.single hxy)
    obtain ⟨q, w, hw⟩ := exists_defined hkeys h hx
    exact (ih hw.isUnder).tail ((mentions_iff hkeys h hm apiModule).mpr ⟨x, y, hw.isUnder, hv, hxy⟩)

end Document

/-- Replacing emitted synonyms by what they stand for ends just where no definition of a synonym leads
back to itself, by itself or by way of lists and maps. -/
theorem compiled_synonyms_expand_iff {doc : OpenApiDocument} {annotations : Annotations}
    (hkeys : ∀ d ∈ doc.schemas, Bare d.1) (hok : doc.compile annotations = .ok m) (apiModule : String) :
    (∀ u, ¬TransGen (Mentions m apiModule) u u) ↔ ∀ key, ¬TransGen doc.RefersOn key key := by
  obtain ⟨seeds, i, himports, hfinish⟩ := Importer.imports_of_ok hok
  obtain ⟨bodies, k, hempties, -, rfl⟩ := Importer.empties_of_finish hfinish
  have h := himports.imported (Importer.separate_of_bare hkeys) hempties
  obtain ⟨cs, -, heq⟩ := (Compiled.document hok).exists_changes
  have hm : k.model.finalize.Finished := heq ▸ Model.finished_finalize cs
  constructor
  · intro hexpand key hcycle
    obtain ⟨d, hd⟩ := OpenApiDocument.exists_definesSynonym_left hcycle
    obtain ⟨q, u, hu⟩ := exists_defined hkeys h hd
    exact hexpand u (mentions_of_refersOn hkeys h hm apiModule hcycle hu.isUnder hu.isUnder)
  · intro hend u hcycle
    obtain ⟨a, b, hau, hbu, hab⟩ := refersOn_of_mentions hkeys h hm hcycle
    obtain ⟨d, ha⟩ := OpenApiDocument.exists_definesSynonym_left hab
    obtain ⟨d', hb⟩ := OpenApiDocument.exists_definesSynonym_right hab
    obtain rfl := key_eq_of_isUnder hkeys h ha hb hau hbu
    exact hend a hab

end Emission

/-! Trees as lists of trees. -/

namespace ListTree

open Importer
open Emission (Mentions SynonymFor compiled_synonyms_expand_iff groupItems)

def key : String := "io.k8s.api.core.v1.Tree"

def reference : Schema := .toReference "#/definitions/io.k8s.api.core.v1.Tree"

def tree : Schema where
  type := some "array"
  items := some reference

def document : OpenApiDocument where
  definitions := [(key, tree)]

theorem parse?_key : parse? key = some ⟨"Tree", "core", some "v1"⟩ := by decide

/-- The import of the document once the definition is remembered. -/
def registered : Importer :=
  define {} key ⟨"Tree", "core", some "v1"⟩ tree

/-- The model of the document before it is finalized. -/
def model : Model := registered.model.setKind 0 (.synonym (.list (.type 0)))

theorem tree_shape : tree.HasShape (.array (some reference)) := by
  intro context
  simp [tree, Schema.shape, Schema.typedShape, Schema.itemSchema, reference, Schema.toReference,
    Schema.isUnconstrained]

theorem compile_eq : document.compile [] = .ok model.finalize := by
  have hreference : importWith (document.settings []) (followRef (document.settings []) 1) registered 0
      "item" none reference = (.ok (.type 0), registered) :=
    importWith_path (toReference_shape _) (by
      rw [followRef, importReference]
      rfl)
  have htree : importRef {} (document.settings []) key =
      (.ok (.type 0), { registered with model }) :=
    importRef_synonym (by decide) rfl parse?_key (by decide) rfl rfl rfl rfl
      (importWith_items tree_shape hreference)
  have himports : Imports (document.settings []) {} (Table.keys document.schemas) [.type 0]
      { registered with model } :=
    .cons htree (.nil _)
  exact himports.importKeys_eq.trans ((Empties.done rfl).finish_eq (by decide))

def core : GroupKey := ⟨"core", some "v1"⟩

def item : Item := ⟨0, "Tree", none, .synonym (.vec (.item 0 "Tree" false))⟩

theorem mentions_itself : Mentions model.finalize "k8s_models" 0 0 := by
  have hview : model.finalize.finalized? core = some { types := [0], generics := ["List"] } := by
    decide +kernel
  have htree : SynonymFor model.finalize "k8s_models" 0 (.vec (.item 0 "Tree" false)) :=
    ⟨core, _, item, hview, by decide, rfl, rfl⟩
  exact ⟨_, _, htree, List.mem_singleton_self 0, htree⟩

theorem refers_on_itself : document.RefersOn key key := by
  have htree : document.DefinesSynonym key tree :=
    ⟨rfl, ⟨_, parse?_key, by decide⟩, rfl⟩
  have hkey : QualifiedName.identifier "#/definitions/io.k8s.api.core.v1.Tree" = key := by decide
  exact ⟨tree, tree, _, htree, htree, .item tree_shape (.here (toReference_shape _)),
    congrArg parse? hkey⟩

/-- The definition leads back to itself, and so does the synonym. -/
theorem leads_back : (∀ d ∈ document.schemas, Bare d.1) ∧ document.compile [] = .ok model.finalize ∧
    TransGen document.RefersOn key key ∧
      ¬∀ u, ¬TransGen (Mentions model.finalize "k8s_models") u u := by
  have hkeys : ∀ d ∈ document.schemas, Bare d.1 := by
    have hall : ∀ key ∈ Table.keys document.schemas, Bare key := by
      unfold Bare
      decide
    exact fun d hd => hall _ (List.mem_map_of_mem hd)
  have hcycle : TransGen document.RefersOn key key := .single refers_on_itself
  exact ⟨hkeys, compile_eq, hcycle, fun hexpand =>
    (compiled_synonyms_expand_iff hkeys compile_eq "k8s_models").mp hexpand key hcycle⟩

/-- There are documents that are compiled to synonyms without an end. -/
theorem not_expanding : ¬∀ (doc : OpenApiDocument) (annotations : Annotations) (m : Model)
    (apiModule : String), doc.compile annotations = .ok m →
    ∀ u, ¬TransGen (Mentions m apiModule) u u :=
  fun hexpand => hexpand document [] _ "k8s_models" compile_eq 0 (.single mentions_itself)

end ListTree

end SchemaCompiler
