import SchemaCompiler.Proofs.Import.Counterpart

/-! What twins have in common at the end, when both imports have read their queues. -/

namespace SchemaCompiler

open QualifiedName (parse?)

theorem map_eq_map_of_forall₂ {α β γ δ : Type} {R : α → β → Prop} {S : α → γ → Prop} {f : β → δ}
    {g : γ → δ} {as : List α} {bs : List β} {cs : List γ} (h : List.Forall₂ R as bs)
    (h' : List.Forall₂ S as cs) (hfg : ∀ {a b c}, R a b → S a c → f b = g c) : bs.map f = cs.map g := by
  induction h generalizing cs with
  | nil =>
    cases h'
    rfl
  | cons hab _ ih =>
    cases h' with
    | cons hac hrest => rw [List.map_cons, List.map_cons, hfg hab hac, ih hrest]

namespace Importer

open Model (Counterpart Distinct)

variable {c : ImportSettings} {bodies₁ bodies₂ : List Pending} {k₁ k₂ : Importer} {key : String}
  {q : QualifiedName} {definition : Schema} {x y a b : TypeId} {property : String}
  {e₁ e₂ : TypeExpr} {t₁ t₂ : TypeEntry} {f : TypeId → TypeId}

theorem Finished.distinct (h : Finished c bodies₁ k₁) (hs : Separate c []) (htidy : Tidy c []) :
    k₁.model.Distinct := by
  obtain ⟨seeds, hr⟩ := h.rooted
  exact h.full.distinct hs htidy hr

/-- Twins are of the same kind, if they are when they are synonyms. -/
theorem Twin.kind_eq_of_synonym {m₁ m₂ : Model} (h : Twin m₁ m₂ bodies₁ bodies₂ x y)
    (hd : m₂.Distinct) (hf : ∀ {x y}, Counterpart m₁ m₂ x y → x = f y)
    (ht₁ : m₁.types[x]? = some t₁) (ht₂ : m₂.types[y]? = some t₂)
    (hsynonym : ∀ e, t₂.kind = .synonym e → t₁.kind = .synonym (e.mapIds f)) :
    t₁.kind = t₂.kind.mapIds f := by
  have hface : t₁.kind.face = t₂.kind.face := by
    obtain ⟨t, t', ht, ht', hface⟩ := h.face
    obtain rfl := Option.some.inj (ht.symm.trans ht₁)
    obtain rfl := Option.some.inj (ht'.symm.trans ht₂)
    exact (TypeEntry.face_eq_iff.mp hface).2.2.2.2.2.1
  cases hkind : t₂.kind with
  | resource => cases hk : t₁.kind <;> simp [hkind, hk, TypeKind.face, TypeKind.mapIds] at hface ⊢
  | apiResource info =>
    cases hk : t₁.kind <;> simp [hkind, hk, TypeKind.face, TypeKind.mapIds] at hface ⊢
    exact hface
  | anonymous b property =>
    have hy : m₂.kind? y = some (.anonymous b property) := by rw [Model.kind?, ht₂, ← hkind]; rfl
    cases h.counterpart with
    | named _ hnamed => exact absurd hy (hd.named_not_anonymous hnamed)
    | object hab hx' hy' =>
      obtain ⟨rfl, rfl⟩ := TypeKind.anonymous.inj (Option.some.inj (hy.symm.trans hy'))
      have hx : m₁.kind? x = some t₁.kind := by rw [Model.kind?, ht₁]; rfl
      rw [Option.some.inj (hx.symm.trans hx'), hf hab]
      rfl
  | synonym e => exact hsynonym e hkind

section Finished

variable (hs : Separate c []) (hk₁ : Finished c bodies₁ k₁) (hk₂ : Finished c bodies₂ k₂)
  (hf : ∀ {x y}, Counterpart k₁.model k₂.model x y → x = f y)

include hs hk₁ hk₂ hf

/-- Of a schema declared in twins comes the same expression, up to `f`. -/
theorem Denotes.eq_mapIds {typeName : Option String} {s : Schema}
    (hab : Twin k₁.model k₂.model bodies₁ bodies₂ a b)
    (h₁ : Denotes c k₁.model bodies₁ a property typeName s e₁)
    (h₂ : Denotes c k₂.model bodies₂ b property typeName s e₂) : e₁ = e₂.mapIds f := by
  rw [← hk₂.bodies_eq] at hab h₂
  rw [TypeExpr.eq_mapIds_iff]
  exact h₁.agree h₂ (fun hx hy => hf (hx.twin hs hk₁ hk₂.full hy).counterpart)
    fun hx hy => hf (ObjectAt.twin hk₂.full.nodup hab hx hy).counterpart

theorem FieldOf.eq_mapIds {body : Schema} {declared : String × Schema} {p₁ p₂ : Property}
    (h : Twin k₁.model k₂.model bodies₁ bodies₂ x y)
    (h₁ : FieldOf c k₁.model bodies₁ { contextOf c t₂ ⟨y, body⟩ with id := x } declared p₁)
    (h₂ : FieldOf c k₂.model bodies₂ (contextOf c t₂ ⟨y, body⟩) declared p₂) :
    p₁ = p₂.mapIds f := by
  have htype : p₁.type = p₂.type.mapIds f := by
    have htype₁ := h₁.type
    have htype₂ := h₂.type
    by_cases hc : isCanonical c (contextOf c t₂ ⟨y, body⟩) declared.1 = true
    · rw [if_pos hc] at htype₂
      rw [if_pos (by simpa [isCanonical] using hc)] at htype₁
      rw [htype₁, htype₂]
      rfl
    · rw [if_neg hc] at htype₂
      rw [if_neg (by simpa [isCanonical] using hc)] at htype₁
      exact Denotes.eq_mapIds hs hk₁ hk₂ hf h htype₁ htype₂
  rw [h₁.eq_with_type h₂ rfl rfl, htype]
  rfl

theorem Twin.kind_eq (h : Twin k₁.model k₂.model bodies₁ bodies₂ x y) (hd : k₂.model.Distinct)
    (ht₁ : k₁.model.types[x]? = some t₁) (ht₂ : k₂.model.types[y]? = some t₂) :
    t₁.kind = t₂.kind.mapIds f := by
  refine h.kind_eq_of_synonym hd hf ht₁ ht₂ fun e₂ hkind => ?_
  have hx : k₁.model.kind? x = some t₁.kind := by rw [Model.kind?, ht₁]; rfl
  have hy : k₂.model.kind? y = some (.synonym e₂) := by rw [Model.kind?, ht₂, ← hkind]; rfl
  obtain ⟨key, q, definition, hdy, hrecord⟩ := hk₂.full.coherent.synonym hs hy
  have hdx := hdy.of_counterpart hs hk₁.full.coherent hd.wellFormed h.counterpart
  cases hk₂.settled hs hdy with
  | record hr => cases hr.symm.trans hrecord
  | unconstrained _ hu hy' =>
    obtain rfl := TypeKind.synonym.inj (Option.some.inj (hy.symm.trans hy'))
    cases hk₁.settled hs hdx with
    | record hr => cases hr.symm.trans hrecord
    | unconstrained _ _ hx' => exact Option.some.inj (hx.symm.trans hx')
    | synonym _ hu' => cases hu'.symm.trans hu
  | synonym _ hu hy' he₂ =>
    obtain rfl := TypeKind.synonym.inj (Option.some.inj (hy.symm.trans hy'))
    cases hk₁.settled hs hdx with
    | record hr => cases hr.symm.trans hrecord
    | unconstrained _ hu' => cases hu'.symm.trans hu
    | synonym _ _ hx' he₁ =>
      rw [Option.some.inj (hx.symm.trans hx'), he₁.eq_mapIds hs hk₁ hk₂ hf h he₂]

omit hf in
theorem Twin.exists_body (h : Twin k₁.model k₂.model bodies₁ bodies₂ x y) (hd : k₂.model.Distinct)
    (ht₂ : k₂.model.types[y]? = some t₂) {body : Schema} (hb : ⟨x, body⟩ ∈ bodies₁) :
    ∃ body, ⟨y, body⟩ ∈ bodies₂ := by
  cases ha : t₂.isAnonymous with
  | true =>
    have hbodied := hk₂.full.bodied ht₂ ha
    rwa [hk₂.bodies_eq] at hbodied
  | false =>
    have hl : k₂.model.label? y = some t₂.label := by rw [Model.label?, ht₂]; rfl
    have hnamed := hd.shelved.named hl ((TypeEntry.label_isAnonymous _).trans ha)
    rcases hk₂.full.coherent.known hnamed with ⟨r, hr, -⟩ | ⟨key, q, definition, hdy, -⟩
    · cases hr
    · have hdx := hdy.of_counterpart hs hk₁.full.coherent hd.wellFormed h.counterpart
      rw [← hk₁.bodies_eq] at hb
      have hrecord := (hk₁.full.body_of_defined hs hdx hb).2
      cases hk₂.settled hs hdy with
      | record _ hb => exact ⟨_, hb⟩
      | unconstrained hr => cases hr.symm.trans hrecord
      | synonym hr => cases hr.symm.trans hrecord

theorem Twin.properties_eq (h : Twin k₁.model k₂.model bodies₁ bodies₂ x y) (hd : k₂.model.Distinct)
    (ht₁ : k₁.model.types[x]? = some t₁) (ht₂ : k₂.model.types[y]? = some t₂) :
    t₁.properties = t₂.properties.map (Property.mapIds f) := by
  by_cases hbody : ∃ body, ⟨y, body⟩ ∈ bodies₂
  · obtain ⟨body, hb₂⟩ := hbody
    obtain ⟨t, ps₁, ht, hps₁, hfields₁⟩ := hk₁.filled (h.body body hb₂)
    obtain rfl := Option.some.inj (ht.symm.trans ht₁)
    obtain ⟨t', ps₂, ht', hps₂, hfields₂⟩ := hk₂.filled hb₂
    obtain rfl := Option.some.inj (ht'.symm.trans ht₂)
    have hface : t.face = t'.face := by
      obtain ⟨s, s', hs, hs', hface⟩ := h.face
      rwa [Option.some.inj (hs.symm.trans ht₁), Option.some.inj (hs'.symm.trans ht₂)] at hface
    rw [contextOf_face hface x y body] at hfields₁
    have hmap : ps₁.map id = ps₂.map (Property.mapIds f) :=
      map_eq_map_of_forall₂ hfields₁ hfields₂ fun h₁ h₂ => h₁.eq_mapIds hs hk₁ hk₂ hf h h₂
    rw [List.map_id] at hmap
    rw [hps₁, hps₂, hmap, Property.sort_map]
  · have hnone₂ : t₂.properties = [] := by
      refine hk₂.full.unread ht₂ fun hmem => hbody ?_
      obtain ⟨⟨id, body⟩, hp, rfl⟩ := List.mem_map.mp hmem
      exact ⟨body, hp⟩
    have hnone₁ : t₁.properties = [] := by
      refine hk₁.full.unread ht₁ fun hmem => hbody ?_
      obtain ⟨⟨id, body⟩, hp, rfl⟩ := List.mem_map.mp hmem
      exact h.exists_body hs hk₁ hk₂ hd ht₂ hp
    rw [hnone₁, hnone₂]
    rfl

end Finished

end Importer

end SchemaCompiler
