import SchemaCompiler.Proofs.Model.UniqueName

/-! The names among which an object's is chosen: the short name of its bucket, its full name, and the
short name with a number. Some type of the group takes the short name of each bucket. -/

namespace SchemaCompiler

/-- The names of a class of objects with the short name `short` and the full name `long`. -/
inductive Choice (short long : String) : String → Prop
  | short : Choice short long short
  | long : Choice short long long
  | numbered (n : Nat) : Choice short long (short ++ Nat.repr (n + 2))

theorem Choice.short_or_long {short long name : String} (h : Choice short long name)
    (hnumbered : ∀ n, name ≠ short ++ Nat.repr (n + 2)) : name = short ∨ name = long := by
  cases h with
  | short => exact .inl rfl
  | long => exact .inr rfl
  | numbered n => exact absurd rfl (hnumbered n)

theorem choice_numbered (short long : String) (taken : List String) :
    Choice short long (numbered short taken) := by
  obtain ⟨n, heq, -⟩ := exists_numbered short taken
  rw [heq]
  exact .numbered n

theorem AnonymousClass.choice_nameIn (c : AnonymousClass) (short : String) (taken : List String)
    (first only : Bool) : Choice short c.fullName (c.nameIn short taken first only) := by
  rw [nameIn]
  split
  · exact .short
  · split
    · exact .long
    · exact choice_numbered short c.fullName taken

namespace Model

variable {m : Model} {key : GroupKey} {g : Group} {id : TypeId} {name short : String}
  {taken : List String}

theorem choice_furtherNames {cs : List AnonymousClass} (h : (id, name) ∈ furtherNames short taken cs) :
    ∃ c ∈ cs, c.retained = id ∧ Choice short c.fullName name := by
  induction cs generalizing taken with
  | nil => cases h
  | cons c rest ih =>
    rcases List.mem_cons.mp h with heq | h
    · obtain ⟨rfl, rfl⟩ := Prod.mk.inj heq
      exact ⟨c, List.mem_cons_self, rfl, c.choice_nameIn short taken false false⟩
    · obtain ⟨d, hd, hretained, hchoice⟩ := ih h
      exact ⟨d, List.mem_cons_of_mem _ hd, hretained, hchoice⟩

theorem choice_classNames {cs : List AnonymousClass} (h : (id, name) ∈ classNames short taken cs) :
    ∃ c ∈ cs, c.retained = id ∧ Choice short c.fullName name := by
  cases cs with
  | nil => cases h
  | cons c rest =>
    rcases List.mem_cons.mp h with heq | h
    · obtain ⟨rfl, rfl⟩ := Prod.mk.inj heq
      exact ⟨c, List.mem_cons_self, rfl, c.choice_nameIn short taken true rest.isEmpty⟩
    · obtain ⟨d, hd, hretained, hchoice⟩ := choice_furtherNames h
      exact ⟨d, List.mem_cons_of_mem _ hd, hretained, hchoice⟩

/-- An object that is named stands for one of a bucket, and its name is chosen among those for it. -/
theorem choice_groupNames {t : Table String (List TypeId)} (h : (id, name) ∈ m.groupNames taken t) :
    ∃ b ∈ t, (∃ i ∈ b.2, m.resolve i = id) ∧ Choice b.1 (m.fullNameOf id) name := by
  induction t generalizing taken with
  | nil => cases h
  | cons b t ih =>
    rcases List.mem_append.mp h with h | h
    · obtain ⟨c, hc, rfl, hchoice⟩ := choice_classNames h
      have hfull : c.fullName = m.fullNameOf c.retained := by
        obtain ⟨i, -, rfl⟩ := List.mem_map.mp (List.mem_mergeSort.mp hc)
        rfl
      refine ⟨b, List.mem_cons_self, mem_classesOf.mp (List.mem_map_of_mem hc), ?_⟩
      rwa [← hfull]
    · obtain ⟨b', hb', hid, hchoice⟩ := ih h
      exact ⟨b', List.mem_cons_of_mem _ hb', hid, hchoice⟩

/-- The short name of a bucket with objects in it is in use in the end. -/
theorem short_mem_groupNames {t : Table String (List TypeId)} {members : List TypeId}
    (h : (short, members) ∈ t) (hmembers : members ≠ []) :
    short ∈ taken ∨ short ∈ (m.groupNames taken t).map Prod.snd := by
  induction t generalizing taken with
  | nil => cases h
  | cons b t ih =>
    rw [groupNames, List.map_append, List.mem_append]
    rcases List.mem_cons.mp h with rfl | h
    · have hne : m.classesOf members ≠ [] := by
        obtain ⟨i, hi⟩ := List.exists_mem_of_ne_nil members hmembers
        intro hnil
        have hmem := (mem_classesOf (m := m)).mpr ⟨i, hi, rfl⟩
        rw [hnil] at hmem
        cases hmem
      obtain ⟨c, rest, hclasses⟩ := List.exists_cons_of_ne_nil hne
      rw [hclasses, classNames, AnonymousClass.nameIn]
      by_cases htaken : short ∈ taken
      · exact .inl htaken
      · rw [if_pos (by simpa using htaken)]
        exact .inr (.inl List.mem_cons_self)
    · rcases ih h with htaken | hnamed
      · rcases List.mem_append.mp htaken with htaken | htaken
        · exact .inr (.inl (List.mem_reverse.mp htaken))
        · exact .inl htaken
      · exact .inr (.inr hnamed)

theorem WellFormed.choice_namings (h : m.WellFormed) (hg : m.group? key = some g)
    (hid : (id, name) ∈ m.namings g) :
    ∃ short, id ∈ m.bucket key short ∧ Choice short (m.fullNameOf id) name := by
  have hm := h.merging hg
  have hrenames := m.mergeEquals_renames g
  obtain ⟨⟨short, members⟩, hb, ⟨i, hi, hr⟩, hchoice⟩ := choice_groupNames hid
  have hget := (h.anonymous_ordered hg).get?_of_mem hb
  have hi' : i ∈ (m.merging g).bucket key short := by
    rw [hm.bucket, bucket_of_group? hg, hget]
    exact hi
  have hmem := hm.wellFormed.resolve_mem hi'
  rw [hm.bucket, ← hrenames.resolve, hr] at hmem
  rw [hrenames.fullNameOf, hm.toSameUpTo.fullNameOf fun _ => rfl] at hchoice
  exact ⟨short, hmem, hchoice⟩

/-- The name of an object that stands for itself is chosen among those of its bucket. -/
theorem WellFormed.choice_finalize (h : m.WellFormed) (hid : id ∈ m.bucket key short) {t : TypeEntry}
    (ht : m.finalize.types[id]? = some t) (hlive : t.mergedInto = none) :
    Choice short (m.fullNameOf id) t.name := by
  have hgroup : m.groupOf? id = some key := h.filed hid
  obtain ⟨before, g, hwf, hg, hbefore, hafter⟩ := h.finalized_group (h.key_mem hgroup)
  have hbgroup := (hbefore.groupOf? id).trans hgroup
  have hfgroup := (hwf.groupOf?_finalizeGroup key id).trans hbgroup
  have hbucket : ∀ short, before.bucket key short = m.bucket key short := fun short => by
    rw [bucket, hbefore.group?, bucket]
  have hfull : before.fullNameOf id = m.fullNameOf id := by
    rw [fullNameOf, hbefore.types id hgroup, fullNameOf]
  rw [hafter.types id hfgroup, types_finalizeGroup hg] at ht
  obtain ⟨t', ht', hnaming⟩ := hwf.named_by_reconcile hg ⟨short, by rwa [hbucket]⟩
    (by simp [mergedInto?, ht, hlive])
  obtain rfl := Option.some.inj (ht.symm.trans ht')
  obtain ⟨short', hshort, hchoice⟩ := hwf.choice_namings hg hnaming
  rw [hbucket] at hshort
  rwa [h.filed_once hid hshort, ← hfull]

theorem WellFormed.named_of_naming (h : m.WellFormed) (hg : m.group? key = some g)
    (hid : (id, name) ∈ m.namings g) : m.groupOf? id = some key ∧ ∃ t,
      (m.reconcile g).types[id]? = some t ∧ t.name = name ∧ t.mergedInto = none := by
  have hm := h.merging hg
  obtain ⟨i, hi, hr⟩ : ∃ i ∈ g.objects, (m.merging g).resolve i = id :=
    mem_namings.mp (List.mem_map.mpr ⟨_, hid, rfl⟩)
  obtain ⟨short, hmem⟩ := (h.mem_objects hg).mp (h.resolve_objects hg hi)
  rw [hr] at hmem
  have hlt : id < (m.mergeEquals (Table.values g.anonymous)).types.size := by
    rw [(m.mergeEquals_renames g).size_eq, hm.size_eq]
    exact h.lt_size hmem
  have hname := map_name_assignNames _ (h.nodup_namings hg) hid hlt
  rw [← reconcile_eq] at hname
  obtain ⟨t, ht, rfl⟩ := Option.map_eq_some_iff.mp hname
  have hlive : (m.reconcile g).mergedInto? id = none := by
    rw [(h.reconcile_renames hg).mergedInto?, ← hr]
    exact hm.wellFormed.mergedInto?_resolve i
  rw [mergedInto?, ht] at hlive
  exact ⟨h.filed hmem, t, ht, rfl, hlive⟩

/-- Some type of the group bears the short name of each bucket. -/
theorem WellFormed.exists_short (h : m.WellFormed) (hid : id ∈ m.bucket key short) :
    ∃ (i : TypeId) (t : TypeEntry), m.finalize.types[i]? = some t ∧ t.group = key ∧ t.name = short ∧
      t.mergedInto = none := by
  obtain ⟨before, g, hwf, hg, hbefore, hafter⟩ := h.finalized_group (h.key_mem (h.filed hid))
  have hbucket : id ∈ before.bucket key short := by rwa [bucket, hbefore.group?, ← bucket]
  rw [bucket_of_group? hg] at hbucket
  cases hget : Table.get? short g.anonymous with
  | none => simp [hget] at hbucket
  | some members =>
    have hne : members ≠ [] := by
      rw [hget, Option.getD_some] at hbucket
      exact List.ne_nil_of_mem hbucket
    have huse : short ∈ Table.keys g.named ∨ short ∈ ((before.mergeEquals
        (Table.values g.anonymous)).groupNames (Table.keys g.named) g.anonymous).map Prod.snd :=
      short_mem_groupNames (Table.mem_of_get? hget) hne
    rcases huse with htaken | hnamed
    · obtain ⟨i, hi⟩ := (hwf.named_ordered hg).mem_keys.mp htaken
      have hnamed : m.finalize.named? key short = some i := by
        rw [hafter.named?, hwf.named?_finalizeGroup, named?, hg]
        exact hi
      obtain ⟨t, ht, hgroup, hname, -, hlive⟩ := h.finalize.named hnamed
      exact ⟨i, t, ht, hgroup, hname, hlive⟩
    · obtain ⟨⟨i, name⟩, hnaming, rfl⟩ := List.mem_map.mp hnamed
      obtain ⟨hgroup, t, ht, hname, hlive⟩ := hwf.named_of_naming hg hnaming
      have hfgroup := (hwf.groupOf?_finalizeGroup key i).trans hgroup
      rw [← types_finalizeGroup hg] at ht
      have hkey : t.group = key := by
        rw [groupOf?, ht] at hfgroup
        exact Option.some.inj hfgroup
      exact ⟨i, t, (hafter.types i hfgroup).trans ht, hkey, hname, hlive⟩

end Model

end SchemaCompiler
