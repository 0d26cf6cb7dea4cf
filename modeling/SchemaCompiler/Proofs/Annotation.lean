import SchemaCompiler.Annotation
import SchemaCompiler.Proofs.Schema.RoundTrip
import SchemaCompiler.Proofs.Table

/-! What annotations say after several documents were added to them. For each property the last document
that gives an override decides, so that leaving a property alone takes no earlier override back. A type
that some document names hides what stands under a less specific key, also when nothing is in effect for
it. -/

namespace SchemaCompiler

namespace PropertyOverride

/-- What is meant by what is written for a property. -/
inductive Means (room : Nat) : Value → Option PropertyOverride → Prop
  | alone : Means room (.bool true) none
  | delete : Means room (.bool false) (some .delete)
  | reference (path : String) :
    Means room (.text path) (some (.patch { schema := some (Schema.toReference path) }))
  | patch {v : Value} {p : PropertyPatch} (h : PropertyPatch.ofValue? room v = some p) :
    Means room v (some (.patch p))

theorem ofValue?_eq_some_iff {room : Nat} {v : Value} {said : Option PropertyOverride} :
    ofValue? room v = some said ↔ ∃ w, v.content? room = some w ∧ Means room w said := by
  rw [ofValue?, Option.bind_eq_bind, Option.bind_eq_some_iff]
  refine exists_congr fun w => and_congr_right fun _ => ⟨fun h => ?_, fun h => ?_⟩
  · split at h
    · exact Option.some.inj h ▸ .alone
    · exact Option.some.inj h ▸ .delete
    · exact Option.some.inj h ▸ .reference _
    · obtain ⟨p, hp, rfl⟩ := Option.map_eq_some_iff.mp h
      exact .patch hp
  · cases h with
    | alone => rfl
    | delete => rfl
    | reference path => rfl
    | @patch _ p hp =>
      -- neither a flag nor a text is read as a patch
      have hflag : ∀ b, PropertyPatch.ofValue? room (.bool b) = none := fun _ => rfl
      have htext : ∀ s, PropertyPatch.ofValue? room (.text s) = none := fun _ => rfl
      cases w with
      | bool b => exact absurd hp (by simp [hflag])
      | text s => exact absurd hp (by simp [htext])
      | _ => exact congrArg (Option.map fun p => some (patch p)) hp

end PropertyOverride

namespace Annotations

namespace Document

/-- What a document says about a property of a type, if it mentions it: nothing where the property is
left alone, or an override. -/
def says? (d : Document) (type property : String) : Option (Option PropertyOverride) :=
  (Table.get? type d).bind (Table.get? property)

/-- Each type stands once, and under it each property. -/
structure WellFormed (d : Document) : Prop where
  types : Table.Ordered d
  properties : ∀ e ∈ d, Table.Ordered e.2

theorem WellFormed.properties_of_get? {d : Document} (h : d.WellFormed) {type : String}
    {said : Table String (Option PropertyOverride)} (hsaid : Table.get? type d = some said) :
    Table.Ordered said :=
  h.properties _ (Table.mem_of_get? hsaid)

/-- Documents that are read are well formed. -/
theorem wellFormed_ofText? {text : String} {d : Document} (h : ofText? text = some d) :
    d.WellFormed := by
  rw [ofText?] at h
  split at h
  · obtain rfl := Option.some.inj h
    exact ⟨List.Pairwise.nil, by simp⟩
  · obtain ⟨v, -, hv⟩ := Option.bind_eq_some_iff.mp h
    obtain ⟨htypes, -, hread⟩ := Schema.table?_ok hv
    refine ⟨htypes, fun e he => ?_⟩
    obtain ⟨w, hw⟩ := hread e he
    exact (Schema.table?_ok hw).1

end Document

variable {a : Annotations} {d : Document} {docs : List Document} {type property key : String}
  {keys : List String}

/-- The override in effect for a property of a type. -/
def inEffect? (a : Annotations) (type property : String) : Option PropertyOverride :=
  (Table.get? type a).bind (Table.get? property)

theorem get?_mergeType {said : Table String (Option PropertyOverride)} (h : Table.Ordered said)
    (overrides : TypeOverrides) (property : String) :
    Table.get? property (mergeType overrides said) =
      (Table.get? property said).join.or (Table.get? property overrides) := by
  rw [mergeType, h.get?_foldl (f := Option.or) ?_ overrides property]
  · cases Table.get? property said <;> rfl
  · rintro overrides ⟨property', o⟩ k
    cases o with
    | none => simp
    | some o => simp [Table.get?_insert]

theorem get?_merge (h : d.WellFormed) (a : Annotations) (type : String) :
    Table.get? type (merge a d) = match Table.get? type d with
      | some said => some (mergeType ((Table.get? type a).getD []) said)
      | none => Table.get? type a := by
  rw [merge, h.types.get?_foldl (f := fun said old => some (mergeType (old.getD []) said)) ?_ a type]
  · cases Table.get? type d <;> rfl
  · rintro a ⟨type', said⟩ k
    rw [Table.get?_alter]
    split
    · next hk => rw [hk]
    · rfl

theorem inEffect?_merge (h : d.WellFormed) (a : Annotations) (type property : String) :
    inEffect? (merge a d) type property =
      (d.says? type property).join.or (inEffect? a type property) := by
  rw [inEffect?, get?_merge h, inEffect?, Document.says?]
  cases hsaid : Table.get? type d with
  | none => rfl
  | some said =>
    simp only [Option.bind_some, get?_mergeType (h.properties_of_get? hsaid)]
    cases Table.get? type a <;> rfl

/-! Several documents. -/

/-- What the last document that mentions a property says about it. -/
def lastSaid? (docs : List Document) (type property : String) : Option (Option PropertyOverride) :=
  docs.reverse.findSome? (·.says? type property)

/-- The override in the last document that gives one for a property. -/
def lastGiven? (docs : List Document) (type property : String) : Option PropertyOverride :=
  docs.reverse.findSome? fun d => (d.says? type property).join

theorem inEffect?_merged (hdocs : ∀ d ∈ docs, d.WellFormed) (a : Annotations)
    (type property : String) : inEffect? (docs.foldl merge a) type property =
      (lastGiven? docs type property).or (inEffect? a type property) := by
  induction docs generalizing a with
  | nil => rfl
  | cons d docs ih =>
    rw [List.foldl_cons, ih (fun d' hd' => hdocs d' (List.mem_cons_of_mem _ hd')),
      inEffect?_merge (hdocs d List.mem_cons_self), ← Option.or_assoc, lastGiven?, lastGiven?,
      List.reverse_cons, List.findSome?_append]
    congr 2
    simp

theorem findSome?_join {α β : Type} {f : α → Option (Option β)} {as : List α}
    (h : as.findSome? f ≠ some none) :
    as.findSome? (fun a => (f a).join) = (as.findSome? f).join := by
  induction as with
  | nil => rfl
  | cons a as ih =>
    cases ha : f a with
    | none =>
      rw [List.findSome?_cons_of_isNone (by simp [ha])] at h ⊢
      rw [List.findSome?_cons_of_isNone (by simp [ha])]
      exact ih h
    | some o =>
      cases o with
      | none => exact absurd (by simp [ha]) h
      | some b => simp [ha]

/-- The last document that mentions a property is the last one that gives an override, unless it leaves
the property alone. -/
theorem lastGiven?_eq_join (h : lastSaid? docs type property ≠ some none) :
    lastGiven? docs type property = (lastSaid? docs type property).join :=
  findSome?_join h

theorem get?_merged_of_unnamed (hdocs : ∀ d ∈ docs, d.WellFormed) (a : Annotations)
    (hno : ∀ d ∈ docs, Table.get? type d = none) :
    Table.get? type (docs.foldl merge a) = Table.get? type a := by
  induction docs generalizing a with
  | nil => rfl
  | cons d docs ih =>
    rw [List.foldl_cons, ih (fun d' hd' => hdocs d' (List.mem_cons_of_mem _ hd')) _
      (fun d' hd' => hno d' (List.mem_cons_of_mem _ hd')), get?_merge (hdocs d List.mem_cons_self),
      hno d List.mem_cons_self]

/-- The last document that gives an override for a property decides. What the last one says that
mentions it therefore counts, unless that leaves the property alone and an override was given before.
Types and properties that no document mentions keep what they had. -/
theorem merged_last_given (a : Annotations) (docs : List Document) (hdocs : ∀ d ∈ docs, d.WellFormed)
    (type property : String) :
    inEffect? (docs.foldl merge a) type property =
        (lastGiven? docs type property).or (inEffect? a type property) ∧
      (inEffect? (docs.foldl merge a) type property =
          (lastSaid? docs type property).getD (inEffect? a type property) ↔
        (lastSaid? docs type property = some none →
          lastGiven? docs type property = none ∧ inEffect? a type property = none)) ∧
      ((∀ d ∈ docs, Table.get? type d = none) →
        Table.get? type (docs.foldl merge a) = Table.get? type a) ∧
      ∀ room v said, PropertyOverride.ofValue? room v = some said ↔
        ∃ w, v.content? room = some w ∧ PropertyOverride.Means room w said := by
  refine ⟨inEffect?_merged hdocs a type property, ?_, get?_merged_of_unnamed hdocs a,
    fun _ _ _ => PropertyOverride.ofValue?_eq_some_iff⟩
  rw [inEffect?_merged hdocs]
  by_cases hlast : lastSaid? docs type property = some none
  · simp [hlast]
  · rw [lastGiven?_eq_join hlast]
    refine ⟨fun _ h => absurd h hlast, fun _ => ?_⟩
    cases hsaid : lastSaid? docs type property with
    | none => rfl
    | some o =>
      cases o with
      | none => exact absurd hsaid hlast
      | some o => rfl

/-- Drops two properties of a type. -/
def dropping : Document := [("Spec", [("paused", some .delete), ("replicas", some .delete)])]

/-- Leaves one of them alone. -/
def sparing : Document := [("Spec", [("replicas", none)])]

theorem dropping_wellFormed : dropping.WellFormed where
  types := List.pairwise_singleton _ _
  properties := by
    intro e he
    obtain rfl := List.mem_singleton.mp he
    exact List.pairwise_pair.mpr rfl

theorem sparing_wellFormed : sparing.WellFormed where
  types := List.pairwise_singleton _ _
  properties := by
    intro e he
    obtain rfl := List.mem_singleton.mp he
    exact List.pairwise_singleton _ _

theorem merged_last_given_replicas : (∀ d ∈ [sparing, dropping], d.WellFormed) ∧
    inEffect? ([sparing, dropping].foldl merge []) "Spec" "replicas" = some .delete := by
  have hdocs : ∀ d ∈ [sparing, dropping], d.WellFormed := by
    simp [sparing_wellFormed, dropping_wellFormed]
  have hlast : lastSaid? [sparing, dropping] "Spec" "replicas" = some (some .delete) := rfl
  have hcounts := (merged_last_given [] _ hdocs "Spec" "replicas").2.1.mpr (by simp [hlast])
  refine ⟨hdocs, ?_⟩
  rw [hcounts, hlast, Option.getD_some]

/-- What the last document says does not always count: a property that it leaves alone stays dropped. -/
theorem not_last_said : ¬∀ docs : List Document, (∀ d ∈ docs, d.WellFormed) →
    ∀ type property, inEffect? (docs.foldl merge []) type property =
      (lastSaid? docs type property).join := by
  intro h
  have hdocs : ∀ d ∈ [dropping, sparing], d.WellFormed := by
    simp [sparing_wellFormed, dropping_wellFormed]
  have hkept : inEffect? ([dropping, sparing].foldl merge []) "Spec" "replicas" = some .delete := rfl
  have hsaid : (lastSaid? [dropping, sparing] "Spec" "replicas").join = none := rfl
  have hlast := h _ hdocs "Spec" "replicas"
  rw [hkept, hsaid] at hlast
  cases hlast

/-! The overrides of a type, which may be given under several keys. -/

/-- Some document has an entry under the key. -/
def Named (docs : List Document) (key : String) : Prop :=
  ∃ d ∈ docs, (Table.get? key d).isSome

/-- Some override is in effect under the key. -/
def Effective (docs : List Document) (key : String) : Prop :=
  ∃ property, (lastGiven? docs key property).isSome

/-- The first of the keys that `p` holds of. -/
inductive First (p : String → Prop) : List String → String → Prop
  | here {key : String} {keys : List String} (h : p key) : First p (key :: keys) key
  | later {k key : String} {keys : List String} (hk : ¬p k) (h : First p keys key) :
    First p (k :: keys) key

theorem First.holds {p : String → Prop} (h : First p keys key) : p key := by
  induction h with
  | here h => exact h
  | later _ _ ih => exact ih

theorem First.mem {p : String → Prop} (h : First p keys key) : key ∈ keys := by
  induction h with
  | here => exact List.mem_cons_self
  | later _ _ ih => exact List.mem_cons_of_mem _ ih

theorem First.unique {p : String → Prop} {key' : String} (h : First p keys key)
    (h' : First p keys key') : key = key' := by
  induction h with
  | here h =>
    cases h' with
    | here => rfl
    | later hno => exact absurd h hno
  | later hno _ ih =>
    cases h' with
    | here h' => exact absurd h' hno
    | later _ h' => exact ih h'

/-- Where fewer keys will do, the first one is still the first if it is among them. -/
theorem First.narrow {p q : String → Prop} (hpq : ∀ k, q k → p k) (h : First p keys key) (hq : q key) :
    First q keys key := by
  induction h with
  | here => exact .here hq
  | later hno _ ih => exact .later (fun hk => hno (hpq _ hk)) (ih hq)

/-- The answer is what the documents give under the first of the keys that `p` holds of. -/
def FirstWith (docs : List Document) (p : String → Prop) (keys : List String) :
    Option TypeOverrides → Prop
  | none => ∀ key ∈ keys, ¬p key
  | some overrides => ∃ key, First p keys key ∧
      ∀ property, Table.get? property overrides = lastGiven? docs key property

theorem FirstWith.later {p : String → Prop} {k : String} {answer : Option TypeOverrides}
    (h : FirstWith docs p keys answer) (hno : ¬p k) : FirstWith docs p (k :: keys) answer := by
  cases answer with
  | none =>
    intro key hkey
    rcases List.mem_cons.mp hkey with rfl | hkey
    · exact hno
    · exact h key hkey
  | some overrides =>
    obtain ⟨key, hkey, hgiven⟩ := h
    exact ⟨key, .later hno hkey, hgiven⟩

theorem Effective.named (h : Effective docs key) : Named docs key := by
  obtain ⟨property, h⟩ := h
  obtain ⟨o, ho⟩ := Option.isSome_iff_exists.mp h
  obtain ⟨d, hd, hsays⟩ := List.exists_of_findSome?_eq_some ho
  refine ⟨d, List.mem_reverse.mp hd, ?_⟩
  cases hget : Table.get? key d with
  | some said => rfl
  | none => simp [Document.says?, hget] at hsays

theorem get?_merged_eq_none_iff (hdocs : ∀ d ∈ docs, d.WellFormed) (a : Annotations) (key : String) :
    Table.get? key (docs.foldl merge a) = none ↔ ¬Named docs key ∧ Table.get? key a = none := by
  induction docs generalizing a with
  | nil => simp [Named]
  | cons d docs ih =>
    rw [List.foldl_cons, ih (fun d' hd' => hdocs d' (List.mem_cons_of_mem _ hd')),
      get?_merge (hdocs d List.mem_cons_self)]
    cases hd : Table.get? key d with
    | none => simp [Named, hd]
    | some said => simp [Named, hd]

theorem get?_merged_of_some (hdocs : ∀ d ∈ docs, d.WellFormed) {overrides : TypeOverrides}
    (h : Table.get? key (docs.foldl merge []) = some overrides) (property : String) :
    Table.get? property overrides = lastGiven? docs key property := by
  have heffect := inEffect?_merged hdocs [] key property
  rw [inEffect?, h, Option.bind_some] at heffect
  rw [heffect]
  exact Option.or_none

theorem forType_named (hdocs : ∀ d ∈ docs, d.WellFormed) (keys : List String) :
    FirstWith docs (Named docs) keys (forType (docs.foldl merge []) keys) := by
  induction keys with
  | nil => simp [forType, FirstWith]
  | cons k keys ih =>
    have hnamed := get?_merged_eq_none_iff hdocs [] k
    rw [forType, List.findSome?_cons]
    cases hget : Table.get? k (docs.foldl merge []) with
    | some overrides =>
      refine ⟨k, .here ?_, get?_merged_of_some hdocs hget⟩
      by_contra hno
      rw [hnamed.mpr ⟨hno, rfl⟩] at hget
      cases hget
    | none => exact ih.later (hnamed.mp hget).1

/-- Overrides are looked up under the first of the keys that some document names. These are the ones
under the first key with an override in effect exactly if an override is in effect under the first key
that is named: an entry that only leaves properties alone hides what stands under later keys. -/
theorem forType_first_named (docs : List Document) (hdocs : ∀ d ∈ docs, d.WellFormed)
    (keys : List String) :
    FirstWith docs (Named docs) keys (forType (docs.foldl merge []) keys) ∧
      (FirstWith docs (Effective docs) keys (forType (docs.foldl merge []) keys) ↔
        ∀ key, First (Named docs) keys key → Effective docs key) := by
  have hfirst := forType_named hdocs keys
  refine ⟨hfirst, ?_⟩
  cases hanswer : forType (docs.foldl merge []) keys with
  | none =>
    rw [hanswer] at hfirst
    exact ⟨fun _ key hkey => absurd hkey.holds (hfirst key hkey.mem),
      fun _ key hkey heffective => hfirst key hkey heffective.named⟩
  | some overrides =>
    rw [hanswer] at hfirst
    obtain ⟨key, hkey, hgiven⟩ := hfirst
    constructor
    · rintro ⟨key', hkey', hgiven'⟩ k hk
      obtain rfl := hk.unique hkey
      -- the same overrides are given under both keys, and under the second there is one
      obtain ⟨property, hsome⟩ := hkey'.holds
      exact ⟨property, by rwa [← hgiven, hgiven']⟩
    · intro h
      exact ⟨key, hkey.narrow (fun _ => Effective.named) (h key hkey), hgiven⟩

theorem forType_first_named_spec : (∀ d ∈ [sparing, dropping], d.WellFormed) ∧
    FirstWith [sparing, dropping] (Effective [sparing, dropping]) ["FooSpec", "Spec"]
      (forType ([sparing, dropping].foldl merge []) ["FooSpec", "Spec"]) := by
  have hdocs : ∀ d ∈ [sparing, dropping], d.WellFormed := by
    simp [sparing_wellFormed, dropping_wellFormed]
  refine ⟨hdocs, (forType_first_named _ hdocs _).2.mpr ?_⟩
  intro key hkey
  cases hkey with
  | here h =>
    have hno : ∀ d ∈ [sparing, dropping], Table.get? "FooSpec" d = none := by
      simp only [List.mem_cons, List.not_mem_nil, or_false, forall_eq_or_imp, forall_eq]
      exact ⟨rfl, rfl⟩
    obtain ⟨d, hd, hsome⟩ := h
    rw [hno d hd] at hsome
    cases hsome
  | later _ hkey =>
    cases hkey with
    | here => exact ⟨"replicas", rfl⟩
    | later _ hkey => cases hkey

/-- Leaves a property alone under one key and drops a property under a less specific one. -/
def masking : Document := [("FooSpec", [("paused", none)]), ("Spec", [("replicas", some .delete)])]

theorem masking_wellFormed : masking.WellFormed where
  types := List.pairwise_pair.mpr rfl
  properties := by
    intro e he
    simp only [masking, List.mem_cons, List.not_mem_nil, or_false] at he
    rcases he with rfl | rfl
    · exact List.pairwise_singleton _ _
    · exact List.pairwise_singleton _ _

/-- An entry that leaves all its properties alone hides overrides. -/
theorem not_first_effective : ¬∀ docs : List Document, (∀ d ∈ docs, d.WellFormed) →
    ∀ keys, FirstWith docs (Effective docs) keys (forType (docs.foldl merge []) keys) := by
  intro h
  have hanswer : forType ([masking].foldl merge []) ["FooSpec", "Spec"] = some [] := rfl
  have hfirst := h [masking] (by simp [masking_wellFormed]) ["FooSpec", "Spec"]
  rw [hanswer] at hfirst
  obtain ⟨key, hkey, hgiven⟩ := hfirst
  obtain ⟨property, hsome⟩ := hkey.holds
  rw [← hgiven] at hsome
  cases hsome

end Annotations

end SchemaCompiler
