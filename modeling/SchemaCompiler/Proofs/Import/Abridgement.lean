import SchemaCompiler.Proofs.Import.Tracking
import SchemaCompiler.Proofs.Import.Inference

/-! What the import that takes objects for well-known types leaves out. Each of its types has a twin in
the import that takes none, so that it reads no more bodies, and nothing in them can fail. -/

namespace SchemaCompiler

namespace Importer

open Model (Counterpart Distinct Below Abridges)

variable {c c₁ c₂ : ImportSettings} {roots : List Root} {read bodies bodies₁ bodies₂ rest : List Pending}
  {i i₁ i₂ j k : Importer} {p : Pending} {seeds : List TypeExpr} {a b x y : TypeId} {group : GroupKey}
  {name property : String} {e : TypeExpr} {t : TypeEntry}

/-- The bodies `read` and those in the queue. -/
abbrev bodiesWith (read : List Pending) (i : Importer) : List Pending := read ++ [] ++ i.pending

/-- An import of roots that has read the bodies `read`. -/
structure Reading (c : ImportSettings) (roots : List Root) (read : List Pending) (i : Importer) :
    Prop where
  full : Full c roots read [] i
  rooted : ∃ seeds, Rooted seeds i
  registered : Registered roots i.model (bodiesWith read i)

theorem Asked.reading (h : Asked c roots seeds i) : Reading c roots [] i :=
  ⟨h.full, ⟨seeds, h.rooted⟩, h.registered⟩

theorem Reading.readBody (h : Reading c roots read i) (hs : Separate c roots)
    (hp : i.pending = p :: rest)
    (hbody : importBody c { i with pending := rest } p = (.ok (), j)) :
    Reading c roots (read ++ [p]) j := by
  obtain ⟨seeds, hr⟩ := h.rooted
  obtain ⟨hfull, hrooted, hextends, hsubset⟩ := h.full.readBody hs.unshared hr hp hbody
  refine ⟨hfull, ⟨seeds, hrooted⟩, h.registered.mono hextends fun b hb => ?_⟩
  simp only [bodiesWith, hp, List.append_nil, List.mem_append, List.mem_cons] at hb ⊢
  rcases hb with hb | rfl | hb
  · exact .inl (.inl hb)
  · exact .inl (.inr (.inl rfl))
  · exact .inr (hsubset hb)

theorem Reading.empties (h : Reading c roots read i) (hs : Separate c roots)
    (hk : Empties c i bodies k) : Reading c roots (read ++ bodies) k ∧ k.pending = [] := by
  induction hk generalizing read with
  | done hp => exact ⟨by rwa [List.append_nil], hp⟩
  | read hp hbody _ ih =>
    have hrest := ih (h.readBody hs hp hbody)
    rwa [List.append_assoc, List.singleton_append] at hrest

theorem Reading.distinct (h : Reading c roots read i) (hs : Separate c roots) (htidy : Tidy c roots) :
    i.model.Distinct := by
  obtain ⟨seeds, hr⟩ := h.rooted
  exact h.full.distinct hs htidy hr

/-- A type that is no object is a root, of which the first of its name counts. -/
theorem Reading.root_of_named (h : Reading c roots read i) (hnone : c.definitions = [])
    (hx : i.model.named? group name = some x) : ∃ r, firstNamed roots group name = some r ∧
      RootAt i.model r x ∧ ⟨x, r.schema⟩ ∈ bodiesWith read i := by
  rcases h.full.coherent.known hx with ⟨r, hr, -, rfl, rfl⟩ | ⟨key, q, definition, hd, -⟩
  · obtain ⟨first, x', hfirst, hroot, hgroup, hname, hb⟩ := h.registered r hr
    have hx' := hroot.named
    rw [hgroup, hname, hx] at hx'
    obtain rfl := Option.some.inj hx'
    exact ⟨first, hfirst, hroot, hb⟩
  · exact absurd hd (not_defined hnone)

theorem Reading.exists_named (h : Reading c roots read i) (ht : i.model.types[x]? = some t)
    (ha : t.isAnonymous = false) : i.model.named? t.group t.name = some x := by
  have hl : i.model.label? x = some t.label := by rw [Model.label?, ht]; rfl
  have hnamed := h.full.coherent.shelved.named hl ((TypeEntry.label_isAnonymous _).trans ha)
  exact hnamed

theorem Reading.exists_body (h : Reading c roots read i) (hnone : c.definitions = [])
    (hx : x < i.model.types.size) : ∃ body, ⟨x, body⟩ ∈ bodiesWith read i := by
  have ht := Array.getElem?_eq_getElem hx
  cases ha : i.model.types[x].isAnonymous with
  | true => exact h.full.bodied ht ha
  | false =>
    obtain ⟨r, -, -, hb⟩ := h.root_of_named hnone (h.exists_named ht ha)
    exact ⟨_, hb⟩

theorem Reading.declared (h : Reading c roots read i) (hs : Separate c roots)
    (hx : i.model.kind? x = some (.anonymous a property)) : a < x ∧ ∃ e, .type x ∈ e.leaves ∧
      Origin c i.model (bodiesWith read i) a property e := by
  obtain ⟨seeds, hr⟩ := h.rooted
  obtain ⟨hlt, e, hholds, hmem⟩ := hr.declared hx
  exact ⟨hlt, e, hmem, h.full.origin hs hholds hmem⟩

theorem Reading.twin_of_named (h₁ : Reading c₁ roots bodies₁ i₁) (h₂ : Reading c₂ roots bodies₂ i₂)
    (hnone₂ : c₂.definitions = [])
    (hy : i₂.model.named? group name = some y) :
    ∃ x, Twin i₁.model i₂.model (bodiesWith bodies₁ i₁) (bodiesWith bodies₂ i₂) x y := by
  obtain ⟨r, hfirst, hroot₂, hb₂⟩ := h₂.root_of_named hnone₂ hy
  have hr := List.mem_of_find?_eq_some hfirst
  have hname : r.group = group ∧ r.name = name := by simpa using List.find?_some hfirst
  obtain ⟨first, x, hfirst₁, hroot₁, -, -, hb₁⟩ := h₁.registered r hr
  rw [hname.1, hname.2, hfirst] at hfirst₁
  obtain rfl := Option.some.inj hfirst₁
  refine ⟨x, .named hroot₁.named hroot₂.named, face_eq_of_label hroot₁.label hroot₂.label rfl,
    fun body hb => ?_⟩
  have hsame := List.inj_on_of_nodup_map h₂.full.nodup hb hb₂ rfl
  rw [Pending.mk.injEq] at hsame
  rw [hsame.2]
  exact hb₁

theorem Separate.withInference (hs : Separate c roots) (inference : Option InferenceConfig) :
    Separate { c with inference } roots :=
  ⟨hs.distinct, hs.apart, hs.records⟩

theorem Tidy.withInference (h : Tidy c roots) (inference : Option InferenceConfig) :
    Tidy { c with inference } roots := by
  intro s hsource
  apply h
  cases hsource with
  | definition hd hs => exact .definition hd hs
  | replacement hr hs => exact .replacement hr hs
  | root hr hs => exact .root hr hs

/-- The import `k` of some roots takes no objects for something else and has read its queue. The import
`i` of the same roots takes objects for well-known types, and has read some of its queue. -/
structure Alongside (c : ImportSettings) (inference : Option InferenceConfig) (roots : List Root)
    (bodies : List Pending) (k : Importer) (read : List Pending) (i : Importer) : Prop where
  undefined : c.definitions = []
  off : ∀ property s, c.inference.bind (Signature.infer · property s) = none
  separate : Separate c roots
  tidy : Tidy c roots
  whole : Reading c roots bodies k
  ended : k.pending = []
  abridged : Reading { c with inference } roots read i

/-- The twins that the types of `i` have in `k`. -/
abbrev TwinIn (k : Importer) (bodies : List Pending) (i : Importer) (read : List Pending) :
    TypeId → TypeId → Prop :=
  Twin k.model i.model (bodiesWith bodies k) (bodiesWith read i)

/-- What the objects in `k` are taken for in `i`. -/
abbrev replacedIn (inference : Option InferenceConfig) (k : Importer) (bodies : List Pending) :
    TypeId → Option QualifiedName :=
  inferred? inference k.model (bodiesWith bodies k)

namespace Alongside

variable {inference : Option InferenceConfig} {f : TypeId → TypeId} {t₁ t₂ : TypeEntry}
  (h : Alongside c inference roots bodies k read i)

include h

theorem not_defined {key : String} {q : QualifiedName} {definition : Schema} :
    ¬Defined { c with inference } i.model key q definition x :=
  Importer.not_defined (c := { c with inference }) h.undefined

theorem distinct : k.model.Distinct :=
  h.whole.distinct h.separate h.tidy

theorem distinct_abridged : i.model.Distinct :=
  h.abridged.distinct (h.separate.withInference _) (h.tidy.withInference _)

theorem filled (hp : p ∈ bodiesWith bodies k) : Filled c k.model (bodiesWith bodies k) p :=
  h.whole.full.filled p (by simpa [bodiesWith, h.ended] using hp)

/-- Of one schema that is declared in twins come the same expressions, but for the objects that are
taken for well-known types. -/
theorem agree_denotes {typeName : Option String} {s : Schema} {e₁ e₂ : TypeExpr}
    (hab : TwinIn k bodies i read a b)
    (h₁ : Denotes c k.model (bodiesWith bodies k) a property typeName s e₁)
    (h₂ : Denotes { c with inference } i.model (bodiesWith read i) b property typeName s e₂) :
    (e₁.replaced (replacedIn inference k bodies)).Agree (TwinIn k bodies i read) e₂ :=
  h₁.agree_replaced h.undefined h.off h₂ (fun hx => inferred?_object h.whole.full.nodup hx)
    fun hx hy => hx.twin h.abridged.full.nodup hab hy

theorem agree_origin (hab : TwinIn k bodies i read a b)
    (he : Origin { c with inference } i.model (bodiesWith read i) b property e) :
    ∃ typeName s e₁, Denotes c k.model (bodiesWith bodies k) a property typeName s e₁ ∧
      (e₁.replaced (replacedIn inference k bodies)).Agree (TwinIn k bodies i read) e := by
  cases he with
  | synonym hd => exact absurd hd h.not_defined
  | @field p t f e hp hid ht hf hkeep hc he =>
    obtain ⟨id, body⟩ := p
    obtain rfl : id = b := hid
    obtain ⟨e₁, he₁⟩ := (h.filled (hab.body _ hp)).field (hab.looks ht) hf hkeep hc
    exact ⟨_, _, e₁, he₁, h.agree_denotes hab he₁ he⟩

theorem agree_declared (hy : i.model.kind? y = some (.anonymous b property))
    (hab : TwinIn k bodies i read a b) : ∃ typeName s e₁ x,
      Denotes c k.model (bodiesWith bodies k) a property typeName s e₁ ∧
        .type x ∈ (e₁.replaced (replacedIn inference k bodies)).leaves ∧ TwinIn k bodies i read x y := by
  obtain ⟨-, e, hmem, horigin⟩ := h.abridged.declared (h.separate.withInference _) hy
  obtain ⟨typeName, s, e₁, he₁, hagree⟩ := h.agree_origin hab horigin
  obtain ⟨x, hx, htwin⟩ := TypeExpr.Agree.exists_left _ e hagree hmem
  exact ⟨typeName, s, e₁, x, he₁, hx, htwin⟩

theorem exists_twin (hy : y < i.model.types.size) : ∃ x, TwinIn k bodies i read x y := by
  -- an object comes after the type above it, as does its twin
  induction y using Nat.strong_induction_on with
  | h y ih =>
    have ht := Array.getElem?_eq_getElem hy
    cases ha : i.model.types[y].isAnonymous with
    | false => exact h.whole.twin_of_named h.abridged h.undefined (h.abridged.exists_named ht ha)
    | true =>
      obtain ⟨b, property, hkind⟩ := TypeEntry.isAnonymous_iff.mp ha
      have hkind : i.model.kind? y = some (.anonymous b property) := by
        rw [Model.kind?, ht, Option.map_some, hkind]
      have hlt := (h.abridged.declared (h.separate.withInference _) hkind).1
      obtain ⟨a, hab⟩ := ih b hlt (Nat.lt_trans hlt hy)
      obtain ⟨-, -, -, x, -, -, htwin⟩ := h.agree_declared hkind hab
      exact ⟨x, htwin⟩

/-- What is taken for a well-known type has no counterpart, and nothing below it has one. -/
theorem not_below (hxy : Counterpart k.model i.model x y) :
    ¬k.model.Below (replacedIn inference k bodies) x := by
  have habove : ∀ {x y a property}, Counterpart k.model i.model x y →
      k.model.kind? x = some (.anonymous a property) →
        ∃ b, Counterpart k.model i.model a b ∧ i.model.kind? y = some (.anonymous b property) := by
    intro x y a property hxy hx
    cases hxy with
    | named hx' _ => exact absurd hx (h.distinct.named_not_anonymous hx')
    | object hab hx' hy' =>
      obtain ⟨rfl, rfl⟩ := TypeKind.anonymous.inj (Option.some.inj (hx.symm.trans hx'))
      exact ⟨_, hab, hy'⟩
  intro hbelow
  induction hbelow generalizing y with
  | @here x q hq =>
    obtain ⟨a, property, hx⟩ := exists_kind_of_inferred? hq
    obtain ⟨b, hab, hy⟩ := habove hxy hx
    obtain ⟨a', hab'⟩ := h.exists_twin (counterpart_lt h.distinct_abridged hab)
    obtain rfl := hab.unique_left h.distinct h.distinct_abridged hab'.counterpart
    obtain ⟨typeName, s, e, x', he, hmem, hxy'⟩ := h.agree_declared hy hab'
    obtain rfl := hxy.unique_left h.distinct h.distinct_abridged hxy'.counterpart
    have hkept := ((he.mem_leaves_replaced h.undefined).mp hmem).2
    cases hkept.symm.trans hq
  | under _ hx ih =>
    obtain ⟨b, hab, -⟩ := habove hxy hx
    exact ih hab

/-! Reading on. -/

theorem readBody_succeeds (hp : i.pending = p :: rest) :
    ∃ j, importBody { c with inference } { i with pending := rest } p = (.ok (), j) := by
  have hR := (h.whole.full.passable h.separate.unshared h.ended).withInference h.off inference
  have htracked := tracked_of_twins c h.abridged.full.coherent
    (List.subset_append_right _ _) fun q hq =>
      h.exists_twin (h.abridged.full.coherent.ready.pending_lt q hq)
  obtain ⟨j, hj, -⟩ := htracked.readBody hR (h.separate.withInference inference).unshared hp
  exact ⟨j, hj⟩

/-- The queue is read to its end, and has no more bodies than that of the other import. -/
theorem exists_empties : ∃ bodies' j, Empties { c with inference } i bodies' j ∧
    (read ++ bodies').length ≤ bodies.length := by
  refine exists_empties_of_invariant (P := Alongside c inference roots bodies k) ?_ ?_ h
  · intro read i p rest h hp
    obtain ⟨j, hj⟩ := h.readBody_succeeds hp
    exact ⟨j, hj, { h with abridged := h.abridged.readBody (h.separate.withInference _) hp hj }⟩
  · intro read i h
    have hle := length_le_of_twins h.distinct h.distinct_abridged h.abridged.full.nodup
      fun p hp => h.exists_twin (h.abridged.full.lt p hp)
    simpa [bodiesWith, h.ended] using hle

/-! The end of both. -/

theorem filled_abridged (hend : i.pending = []) (hp : p ∈ bodiesWith read i) :
    Filled { c with inference } i.model (bodiesWith read i) p :=
  h.abridged.full.filled p (by simpa [bodiesWith, hend] using hp)

section End

variable (hend : i.pending = [])
  (hf : ∀ {x y}, Counterpart k.model i.model x y → x = f y)

include hf

theorem type_eq {typeName : Option String} {s : Schema} {e₁ e₂ : TypeExpr}
    (hab : TwinIn k bodies i read a b)
    (h₁ : Denotes c k.model (bodiesWith bodies k) a property typeName s e₁)
    (h₂ : Denotes { c with inference } i.model (bodiesWith read i) b property typeName s e₂) :
    e₁.replaced (replacedIn inference k bodies) = e₂.mapIds f := by
  rw [TypeExpr.eq_mapIds_iff]
  exact (h.agree_denotes hab h₁ h₂).mono_leaves _ _ fun x y _ _ hxy => hf hxy.counterpart

theorem property_eq {body : Schema} {declared : String × Schema} {p₁ p₂ : Property}
    (hxy : TwinIn k bodies i read x y)
    (h₁ : FieldOf c k.model (bodiesWith bodies k) { contextOf c t ⟨y, body⟩ with id := x } declared p₁)
    (h₂ : FieldOf { c with inference } i.model (bodiesWith read i)
      (contextOf { c with inference } t ⟨y, body⟩) declared p₂) :
    p₁.replaced (replacedIn inference k bodies) = p₂.mapIds f := by
  have htype : p₁.type.replaced (replacedIn inference k bodies) = p₂.type.mapIds f := by
    have htype₁ := h₁.type
    have htype₂ := h₂.type
    by_cases hc : isCanonical { c with inference } (contextOf { c with inference } t ⟨y, body⟩)
        declared.1 = true
    · have hc₁ : isCanonical c { contextOf c t ⟨y, body⟩ with id := x } declared.1 = true := hc
      rw [if_pos hc] at htype₂
      rw [if_pos hc₁] at htype₁
      rw [htype₁, htype₂]
      rfl
    · have hc₁ : ¬isCanonical c { contextOf c t ⟨y, body⟩ with id := x } declared.1 = true := hc
      rw [if_neg hc] at htype₂
      rw [if_neg hc₁] at htype₁
      exact h.type_eq hf hxy htype₁ htype₂
  rw [h₁.eq_with_type h₂ rfl rfl, Property.replaced, htype]
  rfl

include hend

theorem properties_eq (hxy : TwinIn k bodies i read x y) (ht₁ : k.model.types[x]? = some t₁)
    (ht₂ : i.model.types[y]? = some t₂) :
    t₁.properties.map (Property.replaced (replacedIn inference k bodies)) =
      t₂.properties.map (Property.mapIds f) := by
  obtain ⟨body, hb⟩ := h.abridged.exists_body h.undefined (Array.getElem?_eq_some_iff.mp ht₂).1
  obtain ⟨t, ps₁, ht, hps₁, hfields₁⟩ := h.filled (hxy.body body hb)
  obtain rfl := Option.some.inj (ht.symm.trans ht₁)
  obtain ⟨t', ps₂, ht', hps₂, hfields₂⟩ := h.filled_abridged hend hb
  obtain rfl := Option.some.inj (ht'.symm.trans ht₂)
  have hface : t.face = t'.face := by
    obtain ⟨s, s', hs, hs', hface⟩ := hxy.face
    rwa [Option.some.inj (hs.symm.trans ht₁), Option.some.inj (hs'.symm.trans ht₂)] at hface
  rw [contextOf_face hface x y body] at hfields₁
  have hmap : ps₁.map (Property.replaced (replacedIn inference k bodies)) =
      ps₂.map (Property.mapIds f) :=
    map_eq_map_of_forall₂ hfields₁ hfields₂ fun h₁ h₂ => h.property_eq hf hxy h₁ h₂
  rw [hps₁, hps₂, ← Property.sort_map_of_order (g := Property.replaced _) fun _ _ => rfl, hmap,
    Property.sort_map]

theorem entry_eq (hxy : TwinIn k bodies i read x y) (ht₂ : i.model.types[y]? = some t₂) :
    ∃ t₁, k.model.types[x]? = some t₁ ∧
      (t₁.replaced (replacedIn inference k bodies)).content = (t₂.mapIds f).content := by
  obtain ⟨t₁, t, ht₁, ht, hface⟩ := hxy.face
  obtain rfl := Option.some.inj (ht.symm.trans ht₂)
  have hproperties := h.properties_eq hend hf hxy ht₁ ht₂
  have hkind := hxy.kind_eq_of_synonym h.distinct_abridged hf ht₁ ht₂ fun e hsynonym => by
    have hk : i.model.kind? y = some (.synonym e) := by rw [Model.kind?, ht₂, Option.map_some, hsynonym]
    obtain ⟨key, q, definition, hd, -⟩ :=
      h.abridged.full.coherent.synonym (h.separate.withInference _) hk
    exact absurd hd h.not_defined
  obtain ⟨-, hfull, -, hgroup, hdescription, -⟩ := TypeEntry.face_eq_iff.mp hface
  refine ⟨t₁, ht₁, ?_⟩
  simp only [TypeEntry.content, TypeEntry.replaced, TypeEntry.mapIds, hfull, hgroup, hdescription,
    hkind, hproperties]

/-- The twin of a type above an object declares a twin of the object, unless that is taken for a
well-known type. -/
theorem exists_declared (hab : TwinIn k bodies i read a b)
    (he : Origin c k.model (bodiesWith bodies k) a property e) (hmem : .type x ∈ e.leaves)
    (hkept : replacedIn inference k bodies x = none) :
    ∃ y, y < i.model.types.size ∧ f y = x := by
  cases he with
  | synonym hd => exact absurd hd (Importer.not_defined h.undefined)
  | @field p t field e hp hid ht hfield hkeep hc he =>
    obtain ⟨id, schema⟩ := p
    obtain rfl : id = a := hid
    obtain ⟨t₁, t₂, ht₁, ht₂, hface⟩ := hab.face
    obtain rfl := Option.some.inj (ht.symm.trans ht₁)
    obtain ⟨body, hbody⟩ := h.abridged.exists_body h.undefined (Array.getElem?_eq_some_iff.mp ht₂).1
    have hsame := List.inj_on_of_nodup_map h.whole.full.nodup (hab.body body hbody) hp rfl
    obtain rfl := (Pending.mk.inj hsame).2
    have hlooks := Model.looks_of_face ht₂ hface.symm
    obtain ⟨e₂, htype⟩ := (h.filled_abridged hend hbody).field hlooks hfield hkeep hc
    have hleaf := (he.mem_leaves_replaced h.undefined).mpr ⟨hmem, hkept⟩
    rw [h.type_eq hf hab he htype, TypeExpr.leaves_mapIds] at hleaf
    obtain ⟨leaf, hleaf, heq⟩ := List.mem_map.mp hleaf
    obtain ⟨y, rfl, hy⟩ := TypeExpr.mapIds_eq_type_iff.mp heq
    rcases htype.mem_leaves hleaf with ⟨key, q, definition, hd⟩ | ⟨object, hobject⟩
    · exact absurd hd h.not_defined
    · obtain ⟨above, -, hlabel⟩ := hobject.label
      exact ⟨y, Model.label?_lt hlabel, hy⟩

end End

/-- What lies neither at nor below a place where an object is taken for something else has its
counterpart. -/
theorem exists_counterpart (hend : i.pending = [])
    (hf : ∀ y, y < i.model.types.size → TwinIn k bodies i read (f y) y) (hx : x < k.model.types.size)
    (hkept : ¬k.model.Below (replacedIn inference k bodies) x) :
    ∃ y, Counterpart k.model i.model x y := by
  have heq : ∀ {x y}, Counterpart k.model i.model x y → x = f y :=
    counterpart_eq h.distinct h.distinct_abridged hf
  induction x using Nat.strong_induction_on with
  | h x ih =>
    have ht := Array.getElem?_eq_getElem hx
    cases ha : k.model.types[x].isAnonymous with
    | false =>
      obtain ⟨y, hy⟩ := h.abridged.twin_of_named h.whole h.undefined (h.whole.exists_named ht ha)
      exact ⟨y, hy.counterpart.symm⟩
    | true =>
      obtain ⟨a, property, hkind⟩ := TypeEntry.isAnonymous_iff.mp ha
      have hkind : k.model.kind? x = some (.anonymous a property) := by
        rw [Model.kind?, ht, Option.map_some, hkind]
      obtain ⟨hlt, e, hmem, horigin⟩ := h.whole.declared h.separate hkind
      obtain ⟨b, hab⟩ := ih a hlt (Nat.lt_trans hlt hx) fun hbelow => hkept (.under hbelow hkind)
      obtain rfl := heq hab
      have hnone : replacedIn inference k bodies x = none := by
        by_contra hsome
        obtain ⟨q, hq⟩ := Option.ne_none_iff_exists'.mp hsome
        exact hkept (.here hq)
      obtain ⟨y, hy, rfl⟩ := h.exists_declared hend heq (hf b (counterpart_lt h.distinct_abridged hab))
        horigin hmem hnone
      exact ⟨y, (hf y hy).counterpart⟩

/-- What comes of the one import is what comes of the other, with the names of well-known types in the
place of the objects that are taken for them. -/
theorem abridges (hend : i.pending = []) : ∃ f, Abridges k.model.finalize i.model.finalize
    (inferred? inference k.model.finalize (bodiesWith bodies k)) f := by
  have hexists : ∀ y, ∃ x, y < i.model.types.size → TwinIn k bodies i read x y := by
    intro y
    by_cases hy : y < i.model.types.size
    · obtain ⟨x, hx⟩ := h.exists_twin hy
      exact ⟨x, fun _ => hx⟩
    · exact ⟨0, fun hlt => absurd hlt hy⟩
  choose f hf using hexists
  have hd₁ := h.distinct
  have hd₂ := h.distinct_abridged
  have heq : ∀ {x y}, Counterpart k.model i.model x y → x = f y := counterpart_eq hd₁ hd₂ hf
  have hsize := hd₂.wellFormed.size_finalize
  rw [inferred?_finalize hd₁.wellFormed]
  refine ⟨f, fun {x y} => ?_, fun {a b} ha hb => ?_, fun {a t} ht => ?_, fun {x} hx => ?_⟩
  · rw [hd₁.wellFormed.counterpart_finalize hd₂.wellFormed, hsize]
    constructor
    · exact fun hxy => ⟨counterpart_lt hd₂ hxy, (heq hxy).symm⟩
    · rintro ⟨hy, rfl⟩
      exact (hf y hy).counterpart
  · rw [hsize] at ha hb
    exact twin_injective hd₁ hd₂ hf ha hb
  · obtain ⟨t₂, ht₂, hcontent₂⟩ := hd₂.wellFormed.of_finalize ht
    obtain ⟨t₁, ht₁, hentry⟩ := h.entry_eq hend heq (hf a (Array.getElem?_eq_some_iff.mp ht₂).1) ht₂
    obtain ⟨t', ht', hcontent₁⟩ := hd₁.wellFormed.exists_finalize ht₁
    refine ⟨t', ht', ?_⟩
    rw [TypeEntry.content_replaced, hcontent₁, ← TypeEntry.content_replaced, hentry,
      TypeEntry.content_mapIds, hcontent₂, ← TypeEntry.content_mapIds]
  · rw [hd₁.wellFormed.size_finalize] at hx
    rw [hd₁.wellFormed.below_finalize]
    simp only [hd₁.wellFormed.counterpart_finalize hd₂.wellFormed]
    constructor
    · intro hmissing
      by_contra hkept
      obtain ⟨y, hy⟩ := h.exists_counterpart hend hf hx hkept
      exact hmissing y hy
    · exact fun hbelow y hxy => h.not_below hxy hbelow

end Alongside

end Importer

end SchemaCompiler
