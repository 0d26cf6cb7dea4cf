import SchemaCompiler.Proofs.Preference
import SchemaCompiler.Proofs.QualifiedName
import SchemaCompiler.Proofs.Table

/-! What can be found by a short name. It stands for a definition that no other definition of the name
outranks. Where no two of them agree in version and group, the order in which definitions are listed
does not matter. -/

namespace SchemaCompiler

open QualifiedName (parse?)

namespace ShortNames

variable {names names' : ShortNames} {keys more : List String} {key requested short : String}
  {c d : Candidate}

theorem addKey_of_parse? {q : QualifiedName} (hq : parse? key = some q) :
    names.addKey key = .ok (names.offer ⟨key, q⟩) := by
  delta addKey
  rw [hq]

theorem parse?_of_addKey (hok : names.addKey key = .ok names') : ∃ q, parse? key = some q := by
  cases hq : parse? key with
  | some q => exact ⟨q, rfl⟩
  | none =>
    delta addKey at hok
    rw [hq] at hok
    cases hok

theorem addKeys_succeeds (hparse : ∀ key ∈ more, (parse? key).isSome) (names : ShortNames) :
    ∃ names', more.foldlM addKey names = .ok names' := by
  induction more generalizing names with
  | nil => exact ⟨names, rfl⟩
  | cons key more ih =>
    obtain ⟨q, hq⟩ := Option.isSome_iff_exists.mp (hparse key List.mem_cons_self)
    obtain ⟨names', hnames'⟩ := ih (fun k hk => hparse k (List.mem_cons_of_mem _ hk))
      (names.offer ⟨key, q⟩)
    refine ⟨names', ?_⟩
    rw [List.foldlM_cons, addKey_of_parse? hq]
    exact hnames'

theorem ofKeys_succeeds (hparse : ∀ key ∈ keys, (parse? key).isSome) :
    ∃ names, ofKeys keys = .ok names :=
  addKeys_succeeds hparse {}

/-! What is chosen for each name. -/

/-- A definition among `keys` goes by a name in lower case. -/
structure Stands (keys : List String) (short : String) (c : Candidate) : Prop where
  mem : c.key ∈ keys
  parse : parse? c.key = some c.name
  short : lowercase c.name.name = short

theorem Stands.append (h : Stands keys short c) (more : List String) :
    Stands (keys ++ more) short c :=
  ⟨List.mem_append_left _ h.mem, h.parse, h.short⟩

/-- What is chosen for the names of `keys`: a definition of the name before which no other of them goes. -/
structure Settled (names : ShortNames) (keys : List String) : Prop where
  parse : ∀ key ∈ keys, ∃ q, parse? key = some q
  chosen : ∀ {short c}, Table.get? short names.chosen = some c →
    Stands keys short c ∧ ∀ d, Stands keys short d → d.order c ≠ .lt
  missing : ∀ {short}, Table.get? short names.chosen = none → ∀ d, ¬Stands keys short d
  keys : ∀ key, key ∈ names.keys ↔ key ∈ keys

theorem settled_empty : Settled {} [] where
  parse := by simp
  chosen := by
    intro short c h
    cases h
  missing := fun _ d hd => absurd hd.mem List.not_mem_nil
  keys := fun _ => Iff.rfl

/-- Another definition is chosen for its name if it goes before the one chosen so far. -/
theorem Settled.exists_best (h : Settled names keys) (hc : parse? c.key = some c.name) :
    ∃ best, names.offer c = ⟨Table.insert (lowercase c.name.name) best names.chosen, c.key :: names.keys⟩ ∧
      Stands (keys ++ [c.key]) (lowercase c.name.name) best ∧
        ∀ d, Stands keys (lowercase c.name.name) d ∨ d = c → d.order best ≠ .lt := by
  have hnew : Stands (keys ++ [c.key]) (lowercase c.name.name) c :=
    ⟨List.mem_append_right _ List.mem_cons_self, hc, rfl⟩
  have hsame : c.order c = .eq := Std.ReflCmp.compare_self
  have hself : c.order c ≠ .lt := by simp [hsame]
  cases hold : Table.get? (lowercase c.name.name) names.chosen with
  | none =>
    refine ⟨c, by simp only [offer, hold], hnew, ?_⟩
    rintro d (hd | rfl)
    · exact absurd hd (h.missing hold d)
    · exact hself
  | some old =>
    obtain ⟨hstands, hfirst⟩ := h.chosen hold
    by_cases hlt : c.order old = .lt
    · refine ⟨c, by simp only [offer, hold, hlt, beq_self_eq_true, if_true], hnew, ?_⟩
      rintro d (hd | rfl)
      · exact fun hdc => hfirst d hd (Std.TransCmp.lt_trans hdc hlt)
      · exact hself
    · refine ⟨old, by simp only [offer, hold, beq_iff_eq, hlt, if_false], hstands.append _, ?_⟩
      rintro d (hd | rfl)
      · exact hfirst d hd
      · exact hlt

theorem Stands.cases_append (hd : Stands (keys ++ [c.key]) short d) (hc : parse? c.key = some c.name) :
    Stands keys short d ∨ d = c ∧ short = lowercase c.name.name := by
  rcases List.mem_append.mp hd.mem with hmem | hmem
  · exact .inl ⟨hmem, hd.parse, hd.short⟩
  · have hkey : d.key = c.key := List.mem_singleton.mp hmem
    have hname : d.name = c.name := by
      have hparse := hd.parse
      rw [hkey, hc] at hparse
      exact (Option.some.inj hparse).symm
    obtain ⟨key, name⟩ := d
    obtain rfl : key = c.key := hkey
    obtain rfl : name = c.name := hname
    exact .inr ⟨rfl, hd.short.symm⟩

theorem Settled.offer (h : Settled names keys) (hc : parse? c.key = some c.name) :
    Settled (names.offer c) (keys ++ [c.key]) := by
  obtain ⟨best, hoffer, hbest, hfirst⟩ := h.exists_best hc
  rw [hoffer]
  refine ⟨?_, ?_, ?_, ?_⟩
  · intro key hkey
    rcases List.mem_append.mp hkey with hkey | hkey
    · exact h.parse key hkey
    · exact ⟨c.name, List.mem_singleton.mp hkey ▸ hc⟩
  · intro short e he
    rw [Table.get?_insert] at he
    split at he
    · next hshort =>
      obtain rfl := Option.some.inj he
      rw [hshort]
      refine ⟨hbest, fun d hd => hfirst d ?_⟩
      exact (hd.cases_append hc).imp_right And.left
    · next hshort =>
      obtain ⟨hstands, hothers⟩ := h.chosen he
      refine ⟨hstands.append _, fun d hd => ?_⟩
      rcases hd.cases_append hc with hd | ⟨-, hsame⟩
      · exact hothers d hd
      · exact absurd hsame hshort
  · intro short he d hd
    rw [Table.get?_insert] at he
    split at he
    · cases he
    · next hshort =>
      rcases hd.cases_append hc with hd | ⟨-, hsame⟩
      · exact h.missing he d hd
      · exact hshort hsame
  · intro key
    rw [List.mem_cons, h.keys, List.mem_append, List.mem_singleton, or_comm]

theorem Settled.addKeys (h : Settled names keys) (hok : more.foldlM addKey names = .ok names') :
    Settled names' (keys ++ more) := by
  induction more generalizing names keys with
  | nil =>
    obtain rfl := Except.ok.inj hok
    simpa using h
  | cons key more ih =>
    rw [List.foldlM_cons] at hok
    cases hadd : names.addKey key with
    | error e =>
      rw [hadd] at hok
      cases hok
    | ok next =>
      obtain ⟨q, hq⟩ := parse?_of_addKey hadd
      obtain rfl := Except.ok.inj ((addKey_of_parse? hq).symm.trans hadd)
      rw [hadd] at hok
      have hoffer : Settled (names.offer ⟨key, q⟩) (keys ++ [key]) := h.offer hq
      have hmore := ih hoffer hok
      rwa [List.append_assoc, List.singleton_append] at hmore

theorem settled_of_ofKeys (h : ofKeys keys = .ok names) : Settled names keys :=
  settled_empty.addKeys h

/-! What a request is answered with. -/

/-- What `requested` is to be answered with. A definition that goes by it, whatever the case of letters,
counts first, and of several one that no other outranks. Then a whole key counts. -/
inductive Answer (keys : List String) (requested : String) : Except Error String → Prop
  | named {c : Candidate} (hc : Stands keys (lowercase requested) c)
      (hfirst : ∀ d, Stands keys (lowercase requested) d → ¬d.name.Outranks c.name) :
      Answer keys requested (.ok c.key)
  | whole (hno : ∀ d, ¬Stands keys (lowercase requested) d) (hkey : requested ∈ keys) :
      Answer keys requested (.ok requested)
  | unknown (hno : ∀ d, ¬Stands keys (lowercase requested) d) (hkey : requested ∉ keys) :
      Answer keys requested (.error (.unknownType requested))

theorem Settled.answer (h : Settled names keys) (requested : String) :
    Answer keys requested (names.resolve requested) := by
  rw [resolve]
  cases hc : Table.get? (lowercase requested) names.chosen with
  | some c =>
    obtain ⟨hstands, hfirst⟩ := h.chosen hc
    exact .named hstands fun d hd => Candidate.order_lt_iff.not.mp (hfirst d hd)
  | none =>
    have hno := h.missing hc
    by_cases hkey : requested ∈ keys
    · have hcontains : names.keys.contains requested = true :=
        List.contains_iff_mem.mpr ((h.keys requested).mpr hkey)
      simp only [hcontains, if_true]
      exact .whole hno hkey
    · have hcontains : ¬names.keys.contains requested = true := fun hcontains =>
        hkey ((h.keys requested).mp (List.contains_iff_mem.mp hcontains))
      simp only [hcontains]
      exact .unknown hno hkey

theorem Answer.mem (h : Answer keys requested (.ok key)) : key ∈ keys := by
  cases h with
  | named hc => exact hc.mem
  | whole _ hkey => exact hkey

theorem Answer.ok_iff {answer : Except Error String} (h : Answer keys requested answer) :
    (∃ key, answer = .ok key) ↔
      (∃ c, Stands keys (lowercase requested) c) ∨ requested ∈ keys := by
  cases h with
  | named hc => exact ⟨fun _ => .inl ⟨_, hc⟩, fun _ => ⟨_, rfl⟩⟩
  | whole _ hkey => exact ⟨fun _ => .inr hkey, fun _ => ⟨_, rfl⟩⟩
  | unknown hno hkey =>
    constructor
    · rintro ⟨key, h⟩
      cases h
    · rintro (⟨c, hc⟩ | h)
      · exact absurd hc (hno c)
      · exact absurd h hkey

theorem mem_of_resolve (h : ofKeys keys = .ok names) (hok : names.resolve requested = .ok key) :
    key ∈ keys := by
  have hanswer := (settled_of_ofKeys h).answer requested
  rw [hok] at hanswer
  exact hanswer.mem

/-! The order in which definitions are listed. -/

theorem Stands.version_ne (h : Stands keys short c) : c.name.version ≠ some "" := by
  rcases QualifiedName.parse?_eq_some h.parse with hs | ⟨-, ht⟩
  · simp [(QualifiedName.special?_eq_some hs).2]
  · obtain ⟨-, version, -, hversion, -, hne, -⟩ := QualifiedName.tabledAs_of_tabled? ht
    simpa [hversion] using hne

/-- No two definitions of a name agree in version and group. -/
def Distinct (keys : List String) (short : String) : Prop :=
  ∀ c d, Stands keys short c → Stands keys short d → c.name.version = d.name.version →
    c.name.group = d.name.group → c.key = d.key

theorem Distinct.eq_of_not_outranks (h : Distinct keys short) (hc : Stands keys short c)
    (hd : Stands keys short d) (hcd : ¬c.name.Outranks d.name) (hdc : ¬d.name.Outranks c.name) :
    c.key = d.key := by
  have hlevel : c.order d = .eq := by
    cases horder : c.order d with
    | eq => rfl
    | lt => exact absurd (Candidate.order_lt_iff.mp horder) hcd
    | gt => exact absurd (Candidate.order_lt_iff.mp (Std.OrientedCmp.gt_iff_lt.mp horder)) hdc
  obtain ⟨hversion, hgroup⟩ := Candidate.order_eq_iff.mp hlevel
  refine h c d hc hd ?_ hgroup
  have hcne := hc.version_ne
  have hdne := hd.version_ne
  rw [Candidate.version, Candidate.version] at hversion
  cases hv : c.name.version <;> cases hw : d.name.version <;> simp_all

theorem Answer.eq {keys' : List String} {answer answer' : Except Error String}
    (h : Answer keys requested answer) (h' : Answer keys' requested answer')
    (hsame : ∀ key, key ∈ keys ↔ key ∈ keys') (hdistinct : Distinct keys (lowercase requested)) :
    answer = answer' := by
  have hstands : ∀ {d}, Stands keys (lowercase requested) d ↔ Stands keys' (lowercase requested) d :=
    ⟨fun hd => ⟨(hsame _).mp hd.mem, hd.parse, hd.short⟩,
      fun hd => ⟨(hsame _).mpr hd.mem, hd.parse, hd.short⟩⟩
  cases h with
  | @named c hc hfirst =>
    cases h' with
    | @named d hd hfirst' =>
      have hd := hstands.mpr hd
      rw [hdistinct.eq_of_not_outranks hc hd (hfirst' c (hstands.mp hc)) (hfirst d hd)]
    | whole hno => exact absurd (hstands.mp hc) (hno _)
    | unknown hno => exact absurd (hstands.mp hc) (hno _)
  | whole hno hkey =>
    cases h' with
    | named hd => exact absurd (hstands.mpr hd) (hno _)
    | whole => rfl
    | unknown _ hkey' => exact absurd ((hsame _).mp hkey) hkey'
  | unknown hno hkey =>
    cases h' with
    | named hd => exact absurd (hstands.mpr hd) (hno _)
    | whole _ hkey' => exact absurd ((hsame _).mpr hkey') hkey
    | unknown => rfl

theorem ofKeys_ok_iff : (∃ names, ofKeys keys = .ok names) ↔ ∀ key ∈ keys, ∃ q, parse? key = some q := by
  constructor
  · rintro ⟨names, h⟩
    exact (settled_of_ofKeys h).parse
  · exact fun h => ofKeys_succeeds fun key hkey => Option.isSome_iff_exists.mpr (h key hkey)

/-- Short names are read from definitions exactly if the key of each is an identifier. A request is then
answered with the definition preferred among those that go by it, or with itself if it is a key, or is
unknown, and if those that go by it differ in version or group, listing the definitions in another order
changes no answer. -/
theorem resolve_preferred (keys : List String) (requested : String) :
    ((∃ names, ofKeys keys = .ok names) ↔ ∀ key ∈ keys, ∃ q, parse? key = some q) ∧
      ∀ names, ofKeys keys = .ok names →
        Answer keys requested (names.resolve requested) ∧
        ((∃ key, names.resolve requested = .ok key) ↔
          (∃ c, Stands keys (lowercase requested) c) ∨ requested ∈ keys) ∧
        (Distinct keys (lowercase requested) → ∀ keys', keys'.Perm keys →
          ∃ names', ofKeys keys' = .ok names' ∧ names'.resolve requested = names.resolve requested) := by
  refine ⟨ofKeys_ok_iff, fun names h => ?_⟩
  have hanswer := (settled_of_ofKeys h).answer requested
  refine ⟨hanswer, hanswer.ok_iff, fun hdistinct keys' hperm => ?_⟩
  obtain ⟨names', h'⟩ : ∃ names', ofKeys keys' = .ok names' :=
    ofKeys_ok_iff.mpr fun key hkey => (settled_of_ofKeys h).parse key (hperm.mem_iff.mp hkey)
  have hanswer' := (settled_of_ofKeys h').answer requested
  exact ⟨names', h', (hanswer.eq hanswer' (fun _ => hperm.mem_iff.symm) hdistinct).symm⟩

end ShortNames

end SchemaCompiler
