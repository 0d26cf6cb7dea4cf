import SchemaCompiler.Schema.Decoding
import SchemaCompiler.Schema.Encoding
import SchemaCompiler.Proofs.Table

/-! Records as trees. A record is written as the entries for those of its fields that are there; reading
the entries finds each field under its name, with what was written for it. -/

namespace SchemaCompiler

namespace Value

/-- The fields of a record, each with what is written for it if it is there. -/
abbrev Record := List (String × Option Value)

def Record.entries (r : Record) : List (Value × Value) :=
  r.filterMap fun f => f.2.map fun v => (text f.1, v)

def Record.present (r : Record) : Fields :=
  r.filterMap fun f => f.2.map fun v => (f.1, v)

/-- What is written for a list, which is left out if it is empty. -/
def ifAny {α : Type} (write : List α → Value) : List α → Option Value
  | [] => none
  | as => some (write as)

variable {α : Type} {r : Record} {d : Dialect} {names : List String} {room n : Nat} {key : String}

theorem fieldIfSome_eq (key : String) (write : α → Value) (o : Option α) :
    fieldIfSome key write o = Record.entries [(key, o.map write)] := by
  cases o <;> rfl

theorem fieldIfAny_eq (key : String) (write : List α → Value) (as : List α) :
    fieldIfAny key write as = Record.entries [(key, ifAny write as)] := by
  cases as <;> rfl

theorem Record.entries_append (r r' : Record) : entries (r ++ r') = r.entries ++ r'.entries :=
  List.filterMap_append

theorem forall_ifAny {P : Value → Prop} {write : List α → Value} {as : List α} :
    (∀ v, ifAny write as = some v → P v) ↔ (as ≠ [] → P (write as)) := by
  cases as <;> simp [ifAny]

theorem forall_map {P : Value → Prop} {write : α → Value} {o : Option α} :
    (∀ v, o.map write = some v → P v) ↔ ∀ a, o = some a → P (write a) := by
  cases o <;> simp

/-! Reading the entries. -/

theorem namedFields?_entries (hnames : (r.map Prod.fst).Nodup) (hknown : ∀ f ∈ r, f.1 ∈ names) :
    namedFields? d names r.entries = some r.present := by
  induction r with
  | nil => rfl
  | cons f r ih =>
    obtain ⟨name, o⟩ := f
    obtain ⟨hfresh, hnodup⟩ := List.nodup_cons.mp hnames
    have hrest := ih hnodup fun f hf => hknown f (List.mem_cons_of_mem _ hf)
    cases o with
    | none => exact hrest
    | some v =>
      have hmem : names.contains name = true :=
        List.contains_iff_mem.mpr (hknown _ List.mem_cons_self)
      have hnew : (Record.present r).any (fun f => f.1 == name) = false := by
        simp only [Record.present, List.any_eq_false, List.mem_filterMap, Option.map_eq_some_iff,
          beq_iff_eq]
        rintro _ ⟨f, hf, w, -, rfl⟩ rfl
        exact hfresh (List.mem_map.mpr ⟨f, hf, rfl⟩)
      change namedFields? d names ((text name, v) :: Record.entries r) =
        some ((name, v) :: Record.present r)
      simp only [namedFields?, fieldName?, text?, hrest, hmem, hnew, Option.bind_eq_bind,
        Option.bind_some, Bool.not_true, Bool.false_eq_true, if_false]

theorem lookup_present (hnames : (r.map Prod.fst).Nodup) (key : String) :
    r.present.lookup key = (r.lookup key).join := by
  induction r with
  | nil => rfl
  | cons f r ih =>
    obtain ⟨name, o⟩ := f
    obtain ⟨hfresh, hnodup⟩ := List.nodup_cons.mp hnames
    have hrest := ih hnodup
    by_cases hkey : key = name
    · subst hkey
      cases o with
      | some v =>
        change List.lookup key ((key, v) :: Record.present r) = _
        rw [List.lookup_cons_self, List.lookup_cons_self]
        rfl
      | none =>
        have hnone : r.lookup key = none := by
          rw [List.lookup_eq_none_iff]
          intro f hf
          exact bne_iff_ne.mpr fun heq => hfresh (List.mem_map.mpr ⟨f, hf, heq.symm⟩)
        rw [hnone] at hrest
        rw [List.lookup_cons_self]
        exact hrest
    · have hne : (key == name) = false := beq_eq_false_iff_ne.mpr hkey
      rw [List.lookup_cons, hne]
      cases o with
      | none => exact hrest
      | some v =>
        change List.lookup key ((name, v) :: Record.present r) = _
        rw [List.lookup_cons, hne]
        exact hrest

/-- A record is read as it was written, field by field. -/
theorem Record.read (names : List String) (room : Nat) (hnames : r.map Prod.fst = names)
    (hnodup : names.Nodup) (hroom : 0 < room) :
    ∃ fields, (map r.entries).record? d names room = some fields ∧
      ∀ key, fields.lookup key = (r.lookup key).join := by
  subst hnames
  refine ⟨r.present, ?_, lookup_present hnodup⟩
  have hfields := namedFields?_entries (d := d) hnodup fun f hf => List.mem_map_of_mem hf
  simp [record?, entries?, Nat.ne_of_gt hroom, hfields]

namespace Fields

variable {fields : Fields} {read : Value → Option α}

theorem option_of_lookup {o : Option α}
    (hnone : o = none → ∀ v, fields.lookup key = some v → v.isAbsent = true)
    (hsome : ∀ a, o = some a → ∃ v, fields.lookup key = some v ∧ v.isAbsent = false ∧ read v = some a) :
    fields.option key read = some o := by
  rw [option, optional]
  cases o with
  | none =>
    cases hv : fields.lookup key with
    | none => rfl
    | some v => simp [hnone rfl v hv]
  | some a =>
    obtain ⟨v, hv, habsent, hread⟩ := hsome a rfl
    simp [hv, habsent, hread]

theorem option_eq {write : α → Value} {o : Option α} (hlookup : fields.lookup key = o.map write)
    (hread : ∀ a, o = some a → (write a).isAbsent = false ∧ read (write a) = some a) :
    fields.option key read = some o := by
  refine option_of_lookup ?_ fun a ha => ⟨write a, by rw [hlookup, ha]; rfl, hread a ha⟩
  rintro rfl v hv
  cases hlookup.symm.trans hv

/-- What is not there may also be written as null. -/
theorem option_null {write : α → Value} {o : Option α}
    (hlookup : fields.lookup key = some ((o.map write).getD null))
    (hread : ∀ a, o = some a → (write a).isAbsent = false ∧ read (write a) = some a) :
    fields.option key read = some o := by
  refine option_of_lookup ?_ fun a ha => ⟨write a, by rw [hlookup, ha]; rfl, hread a ha⟩
  rintro rfl v hv
  cases hlookup.symm.trans hv
  rfl

theorem optional_eq {v : Value} {a default : α} (hlookup : fields.lookup key = some v)
    (hread : read v = some a) : fields.optional key default read = some a := by
  rw [optional, hlookup]
  exact hread

theorem optional_any {write : List α → Value} {as : List α} {read : Value → Option (List α)}
    (hlookup : fields.lookup key = ifAny write as) (hread : as ≠ [] → read (write as) = some as) :
    fields.optional key [] read = some as := by
  rw [optional, hlookup]
  cases as with
  | nil => rfl
  | cons a as => exact hread (List.cons_ne_nil _ _)

theorem require_eq {v : Value} {a : α} (hlookup : fields.lookup key = some v)
    (hread : read v = some a) : fields.require key read = some a := by
  rw [require, hlookup]
  exact hread

/-- What was read for a field that may be absent. -/
theorem read_of_option {o : Option α} (h : fields.option key read = some o) :
    ∀ a, o = some a → ∃ v, read v = some a := by
  rintro a rfl
  rw [option, optional] at h
  split at h
  · next v _ =>
    split at h
    · cases h
    · obtain ⟨b, hb, hab⟩ := Option.map_eq_some_iff.mp h
      obtain rfl := Option.some.inj hab
      exact ⟨v, hb⟩
  · cases h

theorem read_of_optional {a default : α} (h : fields.optional key default read = some a) :
    a = default ∨ ∃ v, read v = some a := by
  rw [optional] at h
  split at h
  · next v _ => exact .inr ⟨v, h⟩
  · exact .inl (Option.some.inj h).symm

theorem read_of_require {a : α} (h : fields.require key read = some a) : ∃ v, read v = some a := by
  obtain ⟨v, -, hv⟩ := Option.bind_eq_some_iff.mp h
  exact ⟨v, hv⟩

theorem ne_nil_of_require {a : α} (h : fields.require key read = some a) : fields ≠ [] := by
  rintro rfl
  cases h

end Fields

/-- A record without room has no fields. -/
theorem room_of_record? {v : Value} {fields : Fields} (h : v.record? d names room = some fields)
    (hfields : fields ≠ []) : 0 < room := by
  rcases Nat.eq_zero_or_pos room with rfl | hpos
  · exfalso
    cases v <;> simp_all [record?, entries?, isVoid] <;> grind [namedFields?]
  · exact hpos

/-! Depth. -/

theorem depth_map_le_iff {entries : List (Value × Value)} :
    (map entries).depth ≤ n + 1 ↔ entriesDepth entries ≤ n := by
  rw [depth, Nat.succ_le_succ_iff]

theorem depth_entries_le_iff : (map r.entries).depth ≤ n + 1 ↔
    ∀ f ∈ r, ∀ v, f.2 = some v → v.depth ≤ n := by
  rw [depth_map_le_iff]
  induction r with
  | nil => simp [Record.entries, entriesDepth]
  | cons f r ih =>
    obtain ⟨name, o⟩ := f
    rw [List.forall_mem_cons, ← ih]
    cases o with
    | none => simp [Record.entries]
    | some v =>
      change max (max 0 v.depth) (entriesDepth (Record.entries r)) ≤ n ↔ _
      rw [Nat.zero_max, Nat.max_le]
      simp

theorem depth_seq_le_iff {items : List Value} :
    (seq items).depth ≤ n + 1 ↔ ∀ v ∈ items, v.depth ≤ n := by
  rw [depth, Nat.succ_le_succ_iff]
  induction items with
  | nil => simp [itemsDepth]
  | cons v items ih => rw [itemsDepth, Nat.max_le, ih, List.forall_mem_cons]

theorem depth_pos_map (entries : List (Value × Value)) : 0 < (map entries).depth := by
  rw [depth]
  exact Nat.succ_pos _

theorem depth_pos_seq (items : List Value) : 0 < (seq items).depth := by
  rw [depth]
  exact Nat.succ_pos _

/-! Trees without open scalars. -/

/-- The tree can be used throughout, and means what it says. -/
structure Definite (v : Value) : Prop where
  settled : v.settled = v
  usable : v.isUsable = true

theorem definite_text (s : String) : (text s).Definite := ⟨rfl, rfl⟩

theorem definite_bool (b : Bool) : (bool b).Definite := ⟨rfl, rfl⟩

theorem definite_map {entries : List (Value × Value)}
    (h : ∀ e ∈ entries, e.1.Definite ∧ e.2.Definite) : (map entries).Definite := by
  have hboth : settledEntries entries = entries ∧ entriesUsable entries = true := by
    induction entries with
    | nil => exact ⟨rfl, rfl⟩
    | cons e entries ih =>
      obtain ⟨k, v⟩ := e
      obtain ⟨hsettled, husable⟩ := ih fun e he => h e (List.mem_cons_of_mem _ he)
      obtain ⟨hk, hv⟩ := h _ List.mem_cons_self
      simp [settledEntries, entriesUsable, hsettled, husable, hk.settled, hk.usable, hv.settled,
        hv.usable]
  exact ⟨congrArg map hboth.1, hboth.2⟩

theorem definite_seq {items : List Value} (h : ∀ v ∈ items, v.Definite) : (seq items).Definite := by
  have hboth : settledItems items = items ∧ areUsable items = true := by
    induction items with
    | nil => exact ⟨rfl, rfl⟩
    | cons v items ih =>
      obtain ⟨hsettled, husable⟩ := ih fun v hv => h v (List.mem_cons_of_mem _ hv)
      have hv := h _ List.mem_cons_self
      simp [settledItems, areUsable, hsettled, husable, hv.settled, hv.usable]
  exact ⟨congrArg seq hboth.1, hboth.2⟩

theorem definite_entries (h : ∀ f ∈ r, ∀ v, f.2 = some v → v.Definite) :
    (map r.entries).Definite := by
  refine definite_map fun e he => ?_
  obtain ⟨f, hf, hmap⟩ := List.mem_filterMap.mp he
  obtain ⟨v, hv, rfl⟩ := Option.map_eq_some_iff.mp hmap
  exact ⟨definite_text _, h f hf v hv⟩

theorem Definite.content? {v : Value} (h : v.Definite) (hroom : v.depth ≤ room) :
    v.content? room = some v := by
  rw [Value.content?, h.settled]
  simp [h.usable, hroom]

/-! Lists. -/

theorem mapM_map_some {β : Type} {read : β → Option α} {write : α → β} (as : List α)
    (h : ∀ a ∈ as, read (write a) = some a) : (as.map write).mapM read = some as := by
  induction as with
  | nil => rfl
  | cons a as ih =>
    rw [List.map_cons, List.mapM_cons, h a List.mem_cons_self,
      ih fun a ha => h a (List.mem_cons_of_mem _ ha)]
    rfl

/-- Without room only an empty list is read. -/
theorem room_of_items? {v : Value} {items : List Value} (h : v.items? d room = some items)
    (hitems : items ≠ []) : 0 < room := by
  rcases Nat.eq_zero_or_pos room with rfl | hpos
  · cases v <;> simp_all [items?]
  · exact hpos

theorem room_of_entries? {v : Value} {entries : List (Value × Value)}
    (h : v.entries? d room = some entries) (hentries : entries ≠ []) : 0 < room := by
  rcases Nat.eq_zero_or_pos room with rfl | hpos
  · cases v <;> simp_all [entries?]
  · exact hpos

theorem mem_of_mapM {β : Type} {read : β → Option α} {bs : List β} {as : List α}
    (h : bs.mapM read = some as) {a : α} (ha : a ∈ as) : ∃ b ∈ bs, read b = some a := by
  induction bs generalizing as with
  | nil =>
    obtain rfl := Option.some.inj h
    cases ha
  | cons b bs ih =>
    rw [List.mapM_cons] at h
    obtain ⟨x, hx, h⟩ := Option.bind_eq_some_iff.mp h
    obtain ⟨xs, hxs, h⟩ := Option.bind_eq_some_iff.mp h
    obtain rfl := Option.some.inj h
    rcases List.mem_cons.mp ha with rfl | ha
    · exact ⟨b, List.mem_cons_self, hx⟩
    · obtain ⟨b', hb', hread⟩ := ih hxs ha
      exact ⟨b', List.mem_cons_of_mem _ hb', hread⟩

end Value

end SchemaCompiler
