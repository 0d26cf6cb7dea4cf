import SchemaCompiler.Proofs.Model.Change

/-! Names in a finalized model. Each live object of a group is named once when the group has its turn,
by a name that no named type of the group has and no other object was given. -/

namespace SchemaCompiler

theorem mem_of_filter_eq_singleton {α : Type} {p : α → Bool} {as : List α} {a : α}
    (h : as.filter p = [a]) : a ∈ as :=
  (List.mem_filter.mp (h ▸ List.mem_singleton_self a)).1

theorem filter_eq_singleton {α β : Type} [BEq β] [LawfulBEq β] {f : α → β} {as : List α}
    (h : (as.map f).Nodup) {a : α} (ha : a ∈ as) : as.filter (f · == f a) = [a] := by
  induction as with
  | nil => simp at ha
  | cons b as ih =>
    obtain ⟨hfirst, hrest⟩ := List.nodup_cons.mp h
    rcases List.mem_cons.mp ha with rfl | ha
    · have hnone : as.filter (f · == f a) = [] := by
        rw [List.filter_eq_nil_iff]
        intro b hb hba
        rw [beq_iff_eq] at hba
        exact hfirst (List.mem_map.mpr ⟨b, hb, hba⟩)
      simp [hnone]
    · have hne : f b ≠ f a := fun he => hfirst (List.mem_map.mpr ⟨a, ha, he.symm⟩)
      rw [List.filter_cons, if_neg (by simpa using hne)]
      exact ih hrest ha

namespace Model

variable {m : Model} {key : GroupKey} {g : Group}

theorem assignNames_renamesTo (m : Model) (names : List (TypeId × String)) :
    RenamesTo (names.map Prod.fst) m (m.assignNames names) :=
  assignNames_renames m fun e he => List.mem_map.mpr ⟨e, he, rfl⟩

/-- Of namings that repeat no type, each stands. -/
theorem map_name_assignNames {names : List (TypeId × String)} (m : Model)
    (h : (names.map Prod.fst).Nodup) {id : TypeId} {name : String} (hid : (id, name) ∈ names)
    (hlt : id < m.types.size) :
    ((m.assignNames names).types[id]?).map TypeEntry.name = some name := by
  induction names generalizing m with
  | nil => simp at hid
  | cons e names ih =>
    obtain ⟨hfirst, hrest⟩ := List.nodup_cons.mp h
    have hcons : m.assignNames (e :: names) =
        (m.amend e.1 fun t => { t with name := e.2 }).assignNames names := rfl
    rw [hcons]
    rcases List.mem_cons.mp hid with rfl | hid
    · rw [(assignNames_renamesTo _ names).outside id hfirst, getElem?_amend, if_pos rfl,
        Array.getElem?_eq_getElem hlt]
      rfl
    · refine ih _ hrest hid ?_
      rwa [size_amend]

/-- The namings of a group give each object that stands for others, and no other type, one name. -/
theorem WellFormed.nodup_namings (h : m.WellFormed) (hg : m.group? key = some g) :
    ((m.namings g).map Prod.fst).Nodup := by
  have hm := h.merging hg
  have hmember : ∀ b ∈ g.anonymous, ∀ id,
      id ∈ ((m.mergeEquals (Table.values g.anonymous)).classesOf b.2).map AnonymousClass.retained →
        id ∈ m.bucket key b.1 := by
    rintro ⟨short, members⟩ hb id hid
    have hget := (h.anonymous_ordered hg).get?_of_mem hb
    obtain ⟨i, hi, rfl⟩ := mem_classesOf.mp hid
    have hi' : i ∈ (m.merging g).bucket key short := by
      rw [hm.bucket, bucket_of_group? hg, hget]
      exact hi
    have hr := hm.wellFormed.resolve_mem hi'
    rw [hm.bucket] at hr
    rwa [(m.mergeEquals_renames g).resolve]
  rw [namings, groupNames_ids, List.nodup_flatMap]
  refine ⟨fun b _ => classesOf_nodup _ _, ?_⟩
  refine (h.anonymous_ordered hg).imp_of_mem fun {b b'} hb hb' hlt => ?_
  intro id hid hid'
  exact ne_of_compare_lt hlt (h.filed_once (hmember b hb id hid) (hmember b' hb' id hid'))

theorem namings_fresh (m : Model) (g : Group) :
    Fresh (Table.keys g.named) ((m.namings g).map Prod.snd) :=
  groupNames_fresh _ _ _

/-- Each live object of a reconciled group bears the name it was given. -/
theorem WellFormed.named_by_reconcile (h : m.WellFormed) (hg : m.group? key = some g) {id : TypeId}
    (hid : m.Filed key id) (hlive : (m.reconcile g).mergedInto? id = none) :
    ∃ t, (m.reconcile g).types[id]? = some t ∧ (id, t.name) ∈ m.namings g := by
  have hm := h.merging hg
  have hmem : id ∈ (m.namings g).map Prod.fst := by
    refine mem_namings.mpr ⟨id, (h.mem_objects hg).mpr hid, resolve_of_live ?_⟩
    rwa [← (h.reconcile_renames hg).mergedInto?]
  obtain ⟨⟨i, name⟩, hnaming, rfl⟩ := List.mem_map.mp hmem
  have hlt : i < (m.mergeEquals (Table.values g.anonymous)).types.size := by
    obtain ⟨short, hb⟩ := hid
    rw [(m.mergeEquals_renames g).size_eq, hm.size_eq]
    exact h.lt_size hb
  have hname := map_name_assignNames _ (h.nodup_namings hg) hnaming hlt
  rw [← reconcile_eq] at hname
  obtain ⟨t, ht, rfl⟩ := Option.map_eq_some_iff.mp hname
  exact ⟨t, ht, hnaming⟩

theorem WellFormed.named?_reconcile (h : m.WellFormed) (hg : m.group? key = some g) (k : GroupKey)
    (name : String) : (m.reconcile g).named? k name = m.named? k name := by
  rw [named?, h.group?_reconcile hg, named?]

theorem WellFormed.filed_reconcile (h : m.WellFormed) (hg : m.group? key = some g) (k : GroupKey)
    (id : TypeId) : (m.reconcile g).Filed k id ↔ m.Filed k id := by
  simp only [Filed, bucket, h.group?_reconcile hg]

/-- A name that was given is not the name of a named type. -/
theorem WellFormed.named?_of_naming (h : m.WellFormed) (hg : m.group? key = some g) {id : TypeId}
    {name : String} (hid : (id, name) ∈ m.namings g) : m.named? key name = none := by
  by_contra hn
  obtain ⟨i, hi⟩ := Option.ne_none_iff_exists'.mp hn
  have hget : Table.get? name g.named = some i := by simpa [named?, hg] using hi
  have htaken : name ∈ Table.keys g.named := (h.named_ordered hg).mem_keys.mpr ⟨i, hget⟩
  exact (m.namings_fresh g).2 name (List.mem_map.mpr ⟨(id, name), hid, rfl⟩) htaken

theorem WellFormed.eq_of_name_reconcile (h : m.WellFormed) (hg : m.group? key = some g)
    {a b : TypeId} {s t : TypeEntry} (hs : (m.reconcile g).types[a]? = some s)
    (ht : (m.reconcile g).types[b]? = some t) (hsl : s.mergedInto = none)
    (htl : t.mergedInto = none) (hsg : s.group = key) (htg : t.group = key)
    (hname : s.name = t.name) : a = b := by
  subst hsg
  have hr := h.reconcile hg
  have hnaming : ∀ {i : TypeId} {u : TypeEntry}, (m.reconcile g).types[i]? = some u →
      u.mergedInto = none → m.Filed s.group i → (i, u.name) ∈ m.namings g := by
    intro i u hu hul hi
    obtain ⟨u', hu', hmem⟩ := h.named_by_reconcile hg hi (by simp [mergedInto?, hu, hul])
    obtain rfl := Option.some.inj (hu.symm.trans hu')
    exact hmem
  have hplaced : ∀ {i : TypeId} {u : TypeEntry}, (m.reconcile g).types[i]? = some u →
      u.group = s.group → m.named? s.group u.name = some i ∨ m.Filed s.group i := by
    intro i u hu hug
    have hp := hr.placed hu
    rw [hug, h.named?_reconcile hg] at hp
    exact hp.imp (fun hn => hn) fun hb => (h.filed_reconcile hg s.group i).mp hb
  rcases hplaced hs rfl with ha | ha
  · rcases hplaced ht htg with hb | hb
    · rw [← hname, ha] at hb
      exact Option.some.inj hb
    · have hfree := h.named?_of_naming hg (hnaming ht htl hb)
      rw [← hname, ha] at hfree
      cases hfree
  · rcases hplaced ht htg with hb | hb
    · have hfree := h.named?_of_naming hg (hnaming hs hsl ha)
      rw [hname, hb] at hfree
      cases hfree
    · have hinj := List.inj_on_of_nodup_map (m.namings_fresh g).1 (hnaming hs hsl ha)
        (hnaming ht htl hb) hname
      exact congrArg Prod.fst hinj

/-! All groups in a row. -/

/-- The namings made when groups are finalized one after the other. -/
def namingsOf (m : Model) : List GroupKey → List (TypeId × String)
  | [] => []
  | key :: keys =>
    ((m.group? key).map m.namings).getD [] ++ (m.finalizeGroup key).namingsOf keys

theorem namingsOf_append (m : Model) (pre post : List GroupKey) :
    m.namingsOf (pre ++ post) = m.namingsOf pre ++ (pre.foldl finalizeGroup m).namingsOf post := by
  induction pre generalizing m with
  | nil => rfl
  | cons k pre ih => simp [namingsOf, ih]

theorem WellFormed.groupOf?_namingsOf (h : m.WellFormed) {keys : List GroupKey}
    {e : TypeId × String} (he : e ∈ m.namingsOf keys) : ∃ k ∈ keys, m.groupOf? e.1 = some k := by
  induction keys generalizing m with
  | nil => simp [namingsOf] at he
  | cons k keys ih =>
    rcases List.mem_append.mp he with he | he
    · cases hg : m.group? k with
      | none => simp [hg] at he
      | some g =>
        have hmem : e ∈ m.namings g := by simpa [hg] using he
        obtain ⟨i, hi, hr⟩ := mem_namings.mp (List.mem_map.mpr ⟨e, hmem, rfl⟩)
        obtain ⟨short, hb⟩ := (h.mem_objects hg).mp (h.resolve_objects hg hi)
        rw [hr] at hb
        exact ⟨k, List.mem_cons_self, h.filed hb⟩
    · obtain ⟨k', hk', hgroup⟩ := ih (h.finalizeGroup k) he
      rw [h.groupOf?_finalizeGroup] at hgroup
      exact ⟨k', List.mem_cons_of_mem _ hk', hgroup⟩

/-! Names change by these namings alone. -/

theorem map_name_assignNames_congr {m m' : Model}
    (h : ∀ i : TypeId, (m'.types[i]?).map TypeEntry.name = (m.types[i]?).map TypeEntry.name)
    (names : List (TypeId × String)) (i : TypeId) :
    ((m'.assignNames names).types[i]?).map TypeEntry.name =
      ((m.assignNames names).types[i]?).map TypeEntry.name := by
  induction names generalizing m m' with
  | nil => exact h i
  | cons e names ih =>
    have hcons : ∀ m : Model, m.assignNames (e :: names) =
        (m.amend e.1 fun t => { t with name := e.2 }).assignNames names := fun _ => rfl
    rw [hcons, hcons]
    refine ih fun j => ?_
    rw [getElem?_amend, getElem?_amend]
    have hj := h j
    have hnamed : ∀ o : Option TypeEntry, (o.map fun t => { t with name := e.2 }).map TypeEntry.name =
        (o.map TypeEntry.name).map fun _ => e.2 := fun o => by cases o <;> rfl
    by_cases he : j = e.1
    · rw [if_pos he, if_pos he, hnamed, hnamed, hj]
    · rw [if_neg he, if_neg he, hj]

theorem map_name_shared (shared : List TypeId) (m : Model) (i : TypeId) :
    ((shared.foldl shareQualified m).types[i]?).map TypeEntry.name =
      (m.types[i]?).map TypeEntry.name := by
  induction shared generalizing m with
  | nil => rfl
  | cons j shared ih =>
    rw [List.foldl_cons, ih, shareQualified]
    split
    · rfl
    · split
      · next r _ =>
        have hname : ∀ t : TypeEntry, ({ t with qualified := r.qualified } : TypeEntry).name =
            t.name := fun _ => rfl
        exact map_getElem?_amend hname i
      · rfl

theorem WellFormed.map_name_finalizeGroup (h : m.WellFormed) (key : GroupKey) (i : TypeId) :
    ((m.finalizeGroup key).types[i]?).map TypeEntry.name =
      ((m.assignNames (((m.group? key).map m.namings).getD [])).types[i]?).map TypeEntry.name := by
  cases hg : m.group? key with
  | none =>
    rw [finalizeGroup_absent hg]
    rfl
  | some g =>
    rw [types_finalizeGroup hg, reconcile_eq]
    refine map_name_assignNames_congr (fun j => ?_) _ i
    exact (map_name_shared g.objects _ j).trans ((h.merging hg).map_getElem? (fun _ => rfl) j)

theorem assignNames_append (m : Model) (a b : List (TypeId × String)) :
    m.assignNames (a ++ b) = (m.assignNames a).assignNames b :=
  List.foldl_append

theorem WellFormed.map_name_finalizeGroups (h : m.WellFormed) (keys : List GroupKey) (i : TypeId) :
    ((keys.foldl Model.finalizeGroup m).types[i]?).map TypeEntry.name =
      ((m.assignNames (m.namingsOf keys)).types[i]?).map TypeEntry.name := by
  induction keys generalizing m with
  | nil => rfl
  | cons k keys ih =>
    rw [List.foldl_cons, ih (h.finalizeGroup k), namingsOf, assignNames_append]
    exact map_name_assignNames_congr (h.map_name_finalizeGroup k) _ i

/-- Every live object is named once when all groups are finalized, by the name it has at the end. -/
theorem WellFormed.namings_finalize (h : m.WellFormed) {id : TypeId} {t : TypeEntry}
    (hid : m.finalize.Filed key id) (ht : m.finalize.types[id]? = some t)
    (hlive : t.mergedInto = none) :
    (m.namingsOf m.keys).filter (·.1 == id) = [(id, t.name)] ∧
      m.finalize.named? key t.name = none := by
  have hgroup : m.groupOf? id = some key := by
    obtain ⟨short, hb⟩ := hid
    rw [← h.groupOf?_finalize, h.finalize.filed hb]
  obtain ⟨g, hg⟩ := h.mem_keys.mp (h.key_mem hgroup)
  obtain ⟨pre, post, hsplit, hpre, hpost, hbefore, hafter⟩ := h.finalize_split (h.key_mem hgroup)
  generalize hb : pre.foldl Model.finalizeGroup m = before at hbefore hafter
  have hwf := hbefore.wellFormed
  rw [← hbefore.group?] at hg
  have hg' := (hwf.group?_reconcile hg key).trans hg
  have hbgroup := (hbefore.groupOf? id).trans hgroup
  have hfgroup := (hwf.groupOf?_finalizeGroup key id).trans hbgroup
  have hnamed : m.finalize.named? key t.name = before.named? key t.name := by
    rw [hafter.named?, hwf.named?_finalizeGroup]
  have hfiled : before.Filed key id := by
    obtain ⟨short, hs⟩ := hid
    rw [bucket, hafter.group?, ← bucket, finalizeGroup_eq hg, bucket_setFinalized hg'] at hs
    exact (hwf.filed_reconcile hg key id).mp ⟨short, hs⟩
  rw [hafter.types id hfgroup, types_finalizeGroup hg] at ht
  obtain ⟨t', ht', hnaming⟩ := hwf.named_by_reconcile hg hfiled (by simp [mergedInto?, ht, hlive])
  obtain rfl := Option.some.inj (ht.symm.trans ht')
  refine ⟨?_, hnamed.trans (hwf.named?_of_naming hg hnaming)⟩
  have hnone : ∀ {m' : Model} {keys : List GroupKey}, m'.WellFormed → m'.groupOf? id = some key →
      key ∉ keys → (m'.namingsOf keys).filter (·.1 == id) = [] := by
    intro m' keys hm' hid hkeys
    rw [List.filter_eq_nil_iff]
    intro e he hei
    obtain ⟨k, hk, hek⟩ := hm'.groupOf?_namingsOf he
    rw [beq_iff_eq.mp hei, hid] at hek
    obtain rfl := Option.some.inj hek
    exact hkeys hk
  rw [hsplit, namingsOf_append, List.filter_append, hnone h hgroup hpre, hb, namingsOf,
    List.filter_append, hnone (hwf.finalizeGroup key) hfgroup hpost, hg, Option.map_some,
    Option.getD_some, filter_eq_singleton (hwf.nodup_namings hg) hnaming]
  rfl

theorem WellFormed.eq_of_name_finalize (h : m.WellFormed) {a b : TypeId} {s t : TypeEntry}
    (hs : m.finalize.types[a]? = some s) (ht : m.finalize.types[b]? = some t)
    (hsl : s.mergedInto = none) (htl : t.mergedInto = none) (hgroup : s.group = t.group)
    (hname : s.name = t.name) : a = b := by
  have hag : m.groupOf? a = some t.group := by
    rw [← h.groupOf?_finalize, groupOf?, hs, Option.map_some, hgroup]
  have hbg : m.groupOf? b = some t.group := by
    rw [← h.groupOf?_finalize, groupOf?, ht, Option.map_some]
  obtain ⟨before, g, hwf, hg, hbefore, hafter⟩ := h.finalized_group (h.key_mem hbg)
  have htypes : ∀ i, m.groupOf? i = some t.group →
      m.finalize.types[i]? = (before.reconcile g).types[i]? := by
    intro i hi
    rw [hafter.types i, types_finalizeGroup hg]
    rw [hwf.groupOf?_finalizeGroup, hbefore.groupOf?, hi]
  rw [htypes a hag] at hs
  rw [htypes b hbg] at ht
  exact hwf.eq_of_name_reconcile hg hs ht hsl htl hgroup rfl hname

/-- The names in a model `m'` that `m` was finalized to by the namings `log`. -/
structure UniqueNames (m m' : Model) (log : List (TypeId × String)) : Prop where
  names : ∀ i : TypeId, (m'.types[i]?).map TypeEntry.name =
    ((m.assignNames log).types[i]?).map TypeEntry.name
  unique : ∀ {a b : TypeId} {s t : TypeEntry}, m'.types[a]? = some s → m'.types[b]? = some t →
    s.mergedInto = none → t.mergedInto = none → s.group = t.group → s.name = t.name → a = b
  placed : ∀ {id : TypeId} {t : TypeEntry}, m'.types[id]? = some t →
    m'.named? t.group t.name = some id ∨ m'.Filed t.group id
  named : ∀ {key name id}, m'.named? key name = some id → ∃ t, m'.types[id]? = some t ∧
    t.group = key ∧ t.name = name ∧ t.mergedInto = none
  /-- A live object is named once, and by no name of a named type. -/
  once : ∀ {key : GroupKey} {id : TypeId} {t : TypeEntry}, m'.Filed key id →
    m'.types[id]? = some t → t.mergedInto = none →
    log.filter (·.1 == id) = [(id, t.name)] ∧ m'.named? key t.name = none

/-- Whatever was registered and finalized before, finalizing gives the live types of each group
different names, and leaves each named type the name that it was registered under. -/
theorem finalize_unique_names (cs : List Change) :
    UniqueNames (ofChanges cs) (ofChanges cs).finalize
      ((ofChanges cs).namingsOf (ofChanges cs).keys) ∧
    ∀ pre group name kind description post,
      cs = pre ++ .registerNamed group name kind description :: post →
        (ofChanges cs).finalize.named? group name =
          some ((ofChanges pre).registerNamed group name kind description).1 := by
  have hwf := wellFormed_ofChanges cs
  refine ⟨⟨hwf.map_name_finalizeGroups _, hwf.eq_of_name_finalize, hwf.finalize.placed, ?_,
    hwf.namings_finalize⟩, ?_⟩
  · intro key name id hid
    obtain ⟨t, ht, hg, hn, -, hm⟩ := hwf.finalize.named hid
    exact ⟨t, ht, hg, hn, hm⟩
  · rintro pre group name kind description post rfl
    have hpre := wellFormed_ofChanges pre
    have hregistered := hpre.named?_registerNamed group name kind description
    have hchange := hpre.change (.registerNamed group name kind description)
    rw [hwf.named?_finalize, ofChanges_append, List.foldl_cons]
    exact hchange.named?_changes hregistered post

end Model

end SchemaCompiler
