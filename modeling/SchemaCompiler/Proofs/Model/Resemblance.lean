import SchemaCompiler.Proofs.Model.Ties

/-! What finalizing makes of models that differ in the numbers of their types. The same types are merged
and get the same names, and the types of a group come in the same order, as far as numbers do not
decide. -/

namespace SchemaCompiler

namespace Model

variable {m m' : Model} {f : Equiv.Perm TypeId} {key : GroupKey} {g g' : Group} {short : String}
  {a b i : TypeId}

/-- Numbers do not decide when the class of an object is named. -/
def Settled (m : Model) (i : TypeId) : Prop :=
  ∀ {key short}, i ∈ m.bucket key short → m.Unrivalled (m.bucket key short) (m.resolve i)

/-- No equal of the object that stands for `i` has the same full name. -/
def Sole (m : Model) (i : TypeId) : Prop :=
  ∀ j, m.resolve j = m.resolve i → m.fullNameOf j = m.fullNameOf (m.resolve i) → j = m.resolve i

end Model

/-- `view'` is `view` with other numbers, and perhaps in another order. -/
structure FinalizedGroup.Shuffles (φ : TypeId → TypeId) (view view' : FinalizedGroup) : Prop where
  types : view'.types.Perm (view.types.map φ)
  refs : view'.refs = view.refs
  generics : view'.generics = view.generics
  baseTypes : view'.baseTypes = view.baseTypes

namespace Model

variable {m m' : Model} {f : Equiv.Perm TypeId} {key : GroupKey} {g g' : Group} {short : String}
  {a b i : TypeId}

/-- The finalized models `m` and `m'` are of the same types, each type `i` of `m` under the number `f i`,
and have been finalized alike as far as numbers do not decide. -/
structure Resembles (f : Equiv.Perm TypeId) (m m' : Model) : Prop where
  named? : ∀ key name, m'.named? key name = (m.named? key name).map f
  bucket : ∀ key short, (m'.bucket key short).Perm ((m.bucket key short).map f)
  content : ∀ i : TypeId, (m'.types[f i]?).map TypeEntry.content =
    (m.types[i]?).map fun t => (t.mapIds f).content
  qualified : ∀ i : TypeId, (m'.types[f i]?).map TypeEntry.qualified =
    (m.types[i]?).map TypeEntry.qualified
  /-- The same types are merged. -/
  resolve_eq_iff : ∀ i j, m'.resolve (f i) = m'.resolve (f j) ↔ m.resolve i = m.resolve j
  fullName : ∀ i, m'.fullNameOf (m'.resolve (f i)) = m.fullNameOf (m.resolve i)
  retained : ∀ i, m.Sole i → m'.resolve (f i) = f (m.resolve i)
  name : ∀ i, m.Settled i → (m'.types[m'.resolve (f i)]?).map TypeEntry.name =
    (m.types[m.resolve i]?).map TypeEntry.name
  /-- Where numbers decide, names change places among classes that rank alike. -/
  exists_name : ∀ {key short i}, i ∈ m.bucket key short → ∃ j ∈ m.bucket key short,
    (m.classOf (m.bucket key short) (m.resolve j)).rank =
        (m.classOf (m.bucket key short) (m.resolve i)).rank ∧
      (m'.types[m'.resolve (f i)]?).map TypeEntry.name =
        (m.types[m.resolve j]?).map TypeEntry.name
  finalized? : ∀ key, Option.Rel (FinalizedGroup.Shuffles (m'.standing f)) (m.finalized? key)
    (m'.finalized? key)
  sequence : ∀ key, (∀ i, m.groupOf? i = some key → m.Settled i) →
    m'.finalized? key = (m.finalized? key).map (FinalizedGroup.mapIds (m'.standing f))

/-- The views of groups whose types correspond are the same but for the order of the types. -/
theorem Corresponds.shuffles {φ : TypeId → TypeId} (h : Corresponds φ key m m') :
    FinalizedGroup.Shuffles φ (m.viewOf key (m.dependencyOrder key))
      (m'.viewOf key (m'.dependencyOrder key)) := by
  have hperm : ∀ {m : Model}, m.WellFormed → (m.dependencyOrder key).Perm (m.liveTypes key) := by
    intro m hm
    have horder := hm.leavesFirst_dependencyOrder key
    refine (List.perm_ext_iff_of_nodup horder.nodup hm.nodup_liveTypes).mpr fun u => ?_
    rw [horder.mem, hm.mem_liveTypes]
  have htypes : (m'.dependencyOrder key).Perm ((m.dependencyOrder key).map φ) :=
    ((hperm h.target).trans h.perm_live).trans ((hperm h.source).map φ).symm
  have hset : ∀ {α : Type} [Ord α] [Std.LawfulEqOrd α] [Std.TransOrd α] {F F' : TypeId → List α},
      (∀ u ∈ m.liveTypes key, F' (φ u) = F u) →
        setOf ((m'.dependencyOrder key).flatMap F') = setOf ((m.dependencyOrder key).flatMap F) := by
    intro α _ _ _ F F' hF
    refine setOf_congr fun a => ?_
    rw [(htypes.flatMap_right F').mem_iff, List.flatMap_map]
    refine (List.Perm.of_eq (List.flatMap_congr fun u hu => ?_)).mem_iff
    exact hF u ((hperm h.source).mem_iff.mp hu)
  exact ⟨htypes, hset h.foreign, hset h.generics, hset h.baseNames⟩

theorem Assembled.finalized?_absent (h : m.Assembled) (hg : m.group? key = none) :
    m.finalize.finalized? key = none := by
  have hkey : key ∉ m.keys := by
    intro hmem
    obtain ⟨g, hg'⟩ := h.wellFormed.mem_keys.mp hmem
    rw [hg] at hg'
    cases hg'
  have hspares : Spares key m m.finalize := foldl_finalizeGroup_spares h.wellFormed hkey
  rw [hspares.finalized?, finalized?, hg]
  rfl

section Renumbers

variable (hr : Renumbers f m m') (h : m.Assembled) (h' : m'.Assembled)

include hr h h'

/-! Groups of the finalized models. -/

omit h in
theorem Renumbers.standing_unfiled (hi : ∀ key, ¬m.Filed key i) : m'.finalize.standing f i = f i :=
  h'.wellFormed.unfiled_finalize fun key hf => hi key (hr.filed_iff.mp hf)

theorem Renumbers.carries_standing : Carries (m'.finalize.standing f) m.finalize m'.finalize := by
  refine ⟨fun i => ?_, fun i => ?_, fun key name => ?_⟩
  · rw [standing, h'.wellFormed.finalize.groupOf?_resolve, h'.wellFormed.groupOf?_finalize, hr.groupOf?,
      h.wellFormed.groupOf?_finalize]
  · rw [hr.standing_resolve h h', standing, h'.wellFormed.finalize.resolve_resolve]
  · rw [h'.wellFormed.named?_finalize, h.wellFormed.named?_finalize, hr.named?]
    cases hn : m.named? key name with
    | none => rfl
    | some i =>
      have hunfiled : ∀ k, ¬m.Filed k i := by
        rintro k ⟨short, hs⟩
        exact h.wellFormed.apart hn hs
      rw [Option.map_some, Option.map_some, hr.standing_unfiled h' hunfiled]

omit h in
theorem Renumbers.object_standing (hi : i ∈ m.bucket key short) : ∃ parent property,
    m'.finalize.kind? (m'.finalize.standing f i) = some (.anonymous parent property) :=
  h'.object_finalize (h'.resolve_mem (hr.mem_bucket.mpr hi))

theorem Renumbers.exprsOf_standing (i : TypeId) :
    (m'.finalize.exprsOf (m'.finalize.standing f i)).map (TypeExpr.mapIds m'.finalize.resolve) =
      (m.finalize.exprsOf i).map
        (TypeExpr.mapIds (m'.finalize.resolve ∘ m'.finalize.standing f)) := by
  by_cases hfiled : ∃ key, m.Filed key i
  · obtain ⟨key, short, hi⟩ := hfiled
    obtain ⟨_, _, hobject⟩ := h.object_finalize hi
    obtain ⟨_, _, hobject'⟩ := hr.object_standing h' hi
    have hstands : m'.finalize.resolve ∘ m'.finalize.standing f =
        m'.finalize.standing f ∘ m.finalize.resolve := funext (hr.carries_standing h h').resolve
    rw [hstands, exprsOf_object hobject', hr.structureOf_standing h h' hi, Structure.mapIds,
      List.map_map]
    have hexprs := congrArg (List.map (TypeExpr.mapIds (m'.finalize.standing f)))
      (exprsOf_object hobject)
    simp only [List.map_map] at hexprs
    refine hexprs.symm.trans (List.map_congr_left fun e _ => ?_)
    exact TypeExpr.mapIds_mapIds _ _ e
  · have hself := hr.standing_unfiled h' (not_exists.mp hfiled)
    have hstands : m'.finalize.resolve ∘ m'.finalize.standing f = m'.finalize.resolve ∘ f :=
      funext fun i => h'.wellFormed.finalize.resolve_resolve (f i)
    rw [hself, hstands, h'.exprsOf_finalize, h.exprsOf_finalize, hr.exprsOf, List.map_map]
    exact List.map_congr_left fun e _ => TypeExpr.mapIds_mapIds _ _ e

theorem Renumbers.apiResource?_standing (i : TypeId) :
    (m'.finalize.types[m'.finalize.standing f i]?).bind TypeEntry.apiResource? =
      (m.finalize.types[i]?).bind TypeEntry.apiResource? := by
  by_cases hfiled : ∃ key, m.Filed key i
  · obtain ⟨key, short, hi⟩ := hfiled
    obtain ⟨_, _, hobject⟩ := h.object_finalize hi
    obtain ⟨_, _, hobject'⟩ := hr.object_standing h' hi
    rw [apiResource?_object hobject, apiResource?_object hobject']
  · have hunfiled := not_exists.mp hfiled
    have hunfiled' : ∀ key, ¬m'.Filed key (f i) := fun key hf => hunfiled key (hr.filed_iff.mp hf)
    rw [hr.standing_unfiled h' hunfiled, h'.wellFormed.types_finalize hunfiled',
      h.wellFormed.types_finalize hunfiled, hr.bind_apiResource?]

theorem Renumbers.corresponds_standing (key : GroupKey) :
    Corresponds (m'.finalize.standing f) key m.finalize m'.finalize := by
  have hwf := h.wellFormed.finalize
  have hwf' := h'.wellFormed.finalize
  have hcarries := hr.carries_standing h h'
  have hgroup : ∀ i, m'.finalize.groupOf? (m'.finalize.standing f i) = m.finalize.groupOf? i :=
    hcarries.groupOf?
  refine hcarries.corresponds hwf hwf' ?_ (fun {u} => ?_) (fun {u v} hu hv huv => ?_)
    (fun u _ => hr.exprsOf_standing h h' u) fun u _ => hr.apiResource?_standing h h' u
  · rw [h'.wellFormed.size_finalize, h.wellFormed.size_finalize, hr.size_eq]
  · constructor
    · intro hu
      obtain ⟨i, rfl⟩ := f.surjective u
      have hself : m'.finalize.standing f i = f i := hwf'.resolve_liveTypes hu
      refine ⟨m.finalize.resolve i, ?_, (hr.standing_resolve h h' i).trans hself⟩
      rw [hwf.mem_liveTypes, isLive_iff, hwf.mergedInto?_resolve, hwf.groupOf?_resolve, ← hgroup, hself]
      exact ⟨(hwf'.mem_liveTypes.mp hu).1, rfl⟩
    · rintro ⟨v, hv, rfl⟩
      rw [hwf'.mem_liveTypes, hgroup, isLive_iff, standing, hwf'.mergedInto?_resolve]
      exact ⟨(hwf.mem_liveTypes.mp hv).1, rfl⟩
  · have hsame := hr.resolve_eq_of_standing h h' huv
    rwa [hwf.resolve_liveTypes hu, hwf.resolve_liveTypes hv] at hsame

/-- An object has one name in both models unless numbers decide when its class is named. -/
theorem Renumbers.name_standing (hi : m.finalize.Settled i) :
    (m'.finalize.types[m'.finalize.standing f i]?).map TypeEntry.name =
      (m.finalize.types[m.finalize.resolve i]?).map TypeEntry.name := by
  by_cases hfiled : ∃ key, m.Filed key i
  · obtain ⟨key, short, hs⟩ := hfiled
    have hsettled := @hi key short
    rw [h.wellFormed.bucket_finalize] at hsettled
    exact hr.name_object h h' hs (hsettled hs)
  · have hunfiled := not_exists.mp hfiled
    have hunfiled' : ∀ key, ¬m'.Filed key (f i) := fun key hf => hunfiled key (hr.filed_iff.mp hf)
    rw [hr.standing_unfiled h' hunfiled, h.wellFormed.unfiled_finalize hunfiled,
      h'.wellFormed.types_finalize hunfiled', h.wellFormed.types_finalize hunfiled]
    exact hr.map_getElem? (fun _ => rfl) i

theorem Renumbers.finalized?_shuffles (key : GroupKey) :
    Option.Rel (FinalizedGroup.Shuffles (m'.finalize.standing f)) (m.finalize.finalized? key)
      (m'.finalize.finalized? key) := by
  cases hg : m.group? key with
  | none =>
    rw [h.finalized?_absent hg, h'.finalized?_absent (hr.group?_eq_none hg)]
    exact .none
  | some g =>
    obtain ⟨g', hg', -⟩ := hr.group? hg
    rw [h.finalized?_eq hg, h'.finalized?_eq hg']
    exact .some (hr.corresponds_standing h h' key).shuffles

/-- Where numbers decide nothing in a group, its types come in the same order. -/
theorem Renumbers.finalized?_standing
    (hsettled : ∀ i, m.finalize.groupOf? i = some key → m.finalize.Settled i) :
    m'.finalize.finalized? key =
      (m.finalize.finalized? key).map (FinalizedGroup.mapIds (m'.finalize.standing f)) := by
  cases hg : m.group? key with
  | none =>
    rw [h.finalized?_absent hg, h'.finalized?_absent (hr.group?_eq_none hg)]
    rfl
  | some g =>
    obtain ⟨g', hg', -⟩ := hr.group? hg
    have hname : ∀ u ∈ m.finalize.liveTypes key,
        (m'.finalize.types[m'.finalize.standing f u]?).map TypeEntry.name =
          (m.finalize.types[u]?).map TypeEntry.name := by
      intro u hu
      have hsame := hr.name_standing h h' (hsettled u (h.wellFormed.finalize.mem_liveTypes.mp hu).1)
      rwa [h.wellFormed.finalize.resolve_liveTypes hu] at hsame
    rw [h.finalized?_eq hg, h'.finalized?_eq hg',
      (hr.corresponds_standing h h' key).viewOf (h.distinctNames key) hname]
    rfl

theorem Renumbers.qualified_standing (i : TypeId) :
    (m'.finalize.types[f i]?).map TypeEntry.qualified =
      (m.finalize.types[i]?).map TypeEntry.qualified := by
  by_cases hi : ∃ t, m.types[i]? = some t
  · obtain ⟨t, ht⟩ := hi
    have ht' : m'.types[f i]? = some (t.mapIds f) := by rw [hr.types, ht, Option.map_some]
    rw [h.qualified_finalize ht, h'.qualified_finalize ht', ← standing, hr.fullNameOf_standing h h',
      TypeEntry.mapIds]
  · have hnone : m.types[i]? = none := by
      by_contra hn
      exact hi (Option.ne_none_iff_exists'.mp hn)
    have hnone' : m'.types[f i]? = none := by rw [hr.types, hnone, Option.map_none]
    rw [Array.getElem?_eq_none_iff, ← h.wellFormed.size_finalize, ← Array.getElem?_eq_none_iff] at hnone
    rw [Array.getElem?_eq_none_iff, ← h'.wellFormed.size_finalize, ← Array.getElem?_eq_none_iff]
      at hnone'
    rw [hnone, hnone']

/-- What stands for an object is the same if its full name decides that it does. -/
theorem Renumbers.standing_sole (hi : m.finalize.Sole i) :
    m'.finalize.standing f i = f (m.finalize.resolve i) := by
  obtain ⟨s, hs⟩ := f.surjective (m'.finalize.standing f i)
  have hstands : m'.finalize.standing f s = m'.finalize.standing f i := by
    rw [standing, hs, standing, h'.wellFormed.finalize.resolve_resolve]
  have hsame := hr.resolve_eq_of_standing h h' hstands
  have hname := hr.fullNameOf_standing h h' i
  rw [← hs, hr.fullNameOf, ← h.fullNameOf_finalize, ← h.fullNameOf_finalize] at hname
  rw [← hs, hi s hsame hname]

/-- Finalizing models that differ in the numbers of their types gives models that differ in no more than
what numbers decide. -/
theorem Renumbers.resembles_finalize : Resembles f m.finalize m'.finalize where
  named? key name := by
    rw [h'.wellFormed.named?_finalize, h.wellFormed.named?_finalize, hr.named?]
  bucket key short := by
    rw [h'.wellFormed.bucket_finalize, h.wellFormed.bucket_finalize]
    exact hr.bucket key short
  content i := by
    have hcontent := congrArg (Option.map fun t => (TypeEntry.mapIds f t).content)
      (h.wellFormed.content_finalize i)
    rw [Option.map_map, Option.map_map] at hcontent
    rw [h'.wellFormed.content_finalize, hr.types, Option.map_map]
    exact hcontent.symm
  qualified := hr.qualified_standing h h'
  resolve_eq_iff _ _ := hr.resolve_finalize_iff h h'
  fullName i := by
    rw [h.fullNameOf_finalize, h'.fullNameOf_finalize]
    exact hr.fullNameOf_standing h h' i
  retained _ hi := hr.standing_sole h h' hi
  name _ hi := hr.name_standing h h' hi
  exists_name {key short i} hi := by
    rw [h.wellFormed.bucket_finalize] at hi ⊢
    exact hr.exists_name h h' hi
  finalized? := hr.finalized?_shuffles h h'
  sequence _ hsettled := hr.finalized?_standing h h' hsettled

end Renumbers

end Model

end SchemaCompiler
