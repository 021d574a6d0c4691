import Mathlib.Data.Fintype.EquivFin
import Telemetry.Proofs.Tree.EntryKeys

/-!
The names of the keys of list entries. Where all lists of a schema declare distinct key names,
mutators give each entry the declared names, and the check has no fault to find with its keys. Where
some list declares a name twice neither holds: a path has to give as many keys as are declared, so
an entry at a path has a name too many, and an entry of an array has a name too few for the check.
-/

namespace Telemetry

theorem SortedMap.mem_keys_iff {key : Keys} (h : SortedMap.Sorted key) {name : String} :
    name ∈ SortedMap.keys key ↔ (SortedMap.get? key name).isSome := by
  rw [Option.isSome_iff_exists]
  constructor
  · intro hname
    obtain ⟨⟨_, value⟩, hmem, rfl⟩ := List.mem_map.mp hname
    exact ⟨value, SortedMap.get?_eq_some_of_mem h hmem⟩
  · rintro ⟨value, hget⟩
    exact List.mem_map.mpr ⟨(name, value), SortedMap.mem_of_get?_eq_some hget, rfl⟩

/-- No call gives a key twice at one place. -/
def Mutation.Ordered (calls : List Mutation) : Prop :=
  ∀ call ∈ calls, Path.KeysOrdered call.path.elems

namespace Node

section Names

variable {names : List String} {key : Keys}

/-- Of distinct names there are as many as declared just where they are the declared ones. -/
theorem hasKeys_iff_namedBy (hnames : names.Nodup) (hkey : SortedMap.Sorted key) :
    HasKeys names key ↔ Keys.NamedBy names key := by
  have hlength : (SortedMap.keys key).length = key.length := List.length_map _
  constructor
  · rintro ⟨hcount, hsome⟩
    have hsubset : names ⊆ SortedMap.keys key := fun name hname =>
      (SortedMap.mem_keys_iff hkey).mpr (hsome name hname)
    have hperm : names.Perm (SortedMap.keys key) :=
      (List.subperm_of_subset hnames hsubset).perm_of_length_le (by rw [hlength, hcount])
    exact fun name => hperm.mem_iff.symm
  · intro hnamed
    have hperm := (List.perm_ext_iff_of_nodup hkey.nodup_keys hnames).mpr hnamed
    refine ⟨hlength.symm.trans hperm.length_eq, ?_⟩
    exact fun name hname => (SortedMap.mem_keys_iff hkey).mp ((hnamed name).mpr hname)

/-- The keys that items of arrays carry are named as the list declares. -/
theorem namedBy_of_entryKeys {place : String} {fields : List (String × Json)}
    {pairs : List (String × String)} (h : entryKeys place fields names = .ok pairs) :
    Keys.NamedBy names (SortedMap.ofList pairs) := by
  intro name
  rw [SortedMap.mem_keys_iff (SortedMap.sorted_ofList pairs), ← map_fst_of_entryKeys h]
  exact SortedMap.contains_ofList

/-- The keys that a list accepts in a path element. -/
theorem hasKeys_of_requireKeys {max : Option UInt64} {schemas : List (String × SchemaNode)}
    {full : Path} {elem : PathElem}
    (h : (SchemaNode.list names max schemas).requireKeys full elem = .ok ()) :
    HasKeys names elem.keys := by
  obtain ⟨hlength, hnames⟩ := SchemaNode.requireKeys_eq_ok.mp h
  exact hasKeys_iff.mp ⟨hlength.symm, hnames⟩

/-- Keys that are as many as declared and have no other names show that no name is declared
twice. -/
theorem nodup_of_hasKeys (hkey : SortedMap.Sorted key) (hkeys : HasKeys names key)
    (hnamed : Keys.NamedBy names key) : names.Nodup := by
  have hlength : (SortedMap.keys key).length = key.length := List.length_map _
  have hnodup : (SortedMap.keys key).Nodup := hkey.nodup_keys
  have hsubset : SortedMap.keys key ⊆ names := fun name hname => (hnamed name).mp hname
  have hperm : (SortedMap.keys key).Perm names :=
    (List.subperm_of_subset hnodup hsubset).perm_of_length_le (by rw [hlength, hkeys.1])
  exact hperm.nodup_iff.mp hnodup

/-- Whatever names a list declares, some keys are as many and have each of them. -/
theorem exists_hasKeys (names : List String) :
    ∃ key, SortedMap.Sorted key ∧ HasKeys names key := by
  obtain ⟨wanted, hsubset, hcard⟩ :=
    Infinite.exists_superset_card_eq names.toFinset names.length (List.toFinset_card_le names)
  let pairs := wanted.toList.map fun name => (name, "")
  have hfst : pairs.map (·.1) = wanted.toList := by simp [pairs, Function.comp_def]
  refine ⟨SortedMap.ofList pairs, SortedMap.sorted_ofList pairs, ?_, ?_⟩
  · rw [SortedMap.length_ofList (hfst ▸ wanted.nodup_toList), List.length_map,
      Finset.length_toList, hcard]
  · intro name hname
    refine SortedMap.contains_ofList.mpr ?_
    rw [hfst, Finset.mem_toList]
    exact hsubset (List.mem_toFinset.mpr hname)

end Names

section Reports

variable {schema : SchemaNode} {node : Node} {names : List String} {place : String}

theorem mem_violations_iff {violation : Violation} :
    violation ∈ node.violations schema place ↔
      ∃ moves, Breaks schema node place moves violation := by
  obtain ⟨breaches, hreported, hmem, -⟩ := accounts_violations node schema place
  rw [hreported, List.mem_map]
  constructor
  · rintro ⟨⟨moves, _⟩, hbreach, rfl⟩
    exact ⟨moves, (hmem _ _).mp hbreach⟩
  · rintro ⟨moves, hbreaks⟩
    exact ⟨(moves, violation), (hmem _ _).mpr hbreaks, rfl⟩

/-- Entries are looked for in the children of a place. -/
theorem HasEntry.of_fields {other : SchemaNode} {children : List (String × Node)} {key : Keys}
    (h : HasEntry schema (.container children) names key) (hfields : other.fields = schema.fields) :
    HasEntry other (.container children) names key := by
  obtain _ | ⟨mem, known, below⟩ := h
  rw [SchemaNode.child?_eq_get?_fields, ← hfields, ← SchemaNode.child?_eq_get?_fields] at known
  exact .child mem known below

theorem exists_hasEntry_of_breaks {moves : List Move} {violation : Violation}
    (h : Breaks schema node place moves violation) {reported : String}
    (hviolation : violation = .entryKeys reported names) :
    ∃ key, HasEntry schema node names key ∧ ¬ HasKeys names key := by
  induction h with
  | kind other => cases hviolation
  | @value leafSchema value place refused =>
    obtain ⟨type, default⟩ := leafSchema
    cases type <;> cases value <;> cases hviolation
  | unknown mem unknown => cases hviolation
  | child mem known below ih =>
    obtain ⟨key, hentry, hkeys⟩ := ih hviolation
    exact ⟨key, .child mem known hentry, hkeys⟩
  | size long => cases hviolation
  | keys mem other =>
    cases hviolation
    exact ⟨_, .own mem, other⟩
  | entryKind mem other => cases hviolation
  | entry mem kind below ih =>
    obtain ⟨key, hentry, hkeys⟩ := ih hviolation
    cases kind
    exact ⟨key, .entry mem (hentry.of_fields rfl), hkeys⟩

/-- Children are checked in the same way in containers and in entries of lists. -/
theorem exists_breaks_of_hasEntry {key : Keys} (h : HasEntry schema node names key)
    (hkeys : ¬ HasKeys names key) (place : String) :
    (Fits schema node → ∃ moves reported,
        Breaks schema node place moves (.entryKeys reported names)) ∧
      (IsPlace schema node → ∃ moves reported,
        Breaks (.container schema.fields) node place moves (.entryKeys reported names)) := by
  induction h generalizing place with
  | own mem => exact ⟨fun _ => ⟨_, _, .keys mem hkeys⟩, nofun⟩
  | @child schema childSchema children name child names key mem known below ih =>
    have hinside : IsPlace schema (.container children) → ∃ moves reported,
        Breaks (.container schema.fields) (.container children) place moves
          (.entryKeys reported names) := by
      intro hplace
      have hget := SortedMap.get?_eq_some_of_mem hplace.sorted mem
      obtain ⟨moves, reported, hbreaks⟩ :=
        (ih hkeys (place ++ "/" ++ name)).1 (hplace.child_fits hget known)
      rw [SchemaNode.child?_eq_get?_fields] at known
      exact ⟨_, _, .child mem known hbreaks⟩
    refine ⟨?_, hinside⟩
    intro hfits
    cases hfits with
    | container sorted known fits => exact hinside (.container sorted known fits)
  | @entry declared max schemas entries other entry names key mem below ih =>
    refine ⟨?_, nofun⟩
    intro hfits
    obtain ⟨_, hsame, hsorted, hentries⟩ := select?_of_fits_list hfits
    cases hsame
    have hplace := hentries other entry (SortedMap.get?_eq_some_of_mem hsorted mem)
    obtain ⟨moves, reported, hbreaks⟩ := (ih hkeys (place ++ keysText other)).2 hplace
    obtain ⟨inner, rfl⟩ := fits_container hplace
    exact ⟨_, _, .entry mem (.container schemas inner) hbreaks⟩

/-- The check finds fault with the keys of an entry. -/
def ReportsKeys (schema : SchemaNode) (root : Node) : Prop :=
  ∃ violations place names, validate schema root = .error (.validation violations) ∧
    .entryKeys place names ∈ violations

/-- The check finds fault with keys just where they are not as many as declared, or lack one. -/
theorem reportsKeys_iff (h : Fits schema node) :
    ReportsKeys schema node ↔ ¬ EachEntry HasKeys schema node := by
  have hreports : ReportsKeys schema node ↔
      ∃ place names, .entryKeys place names ∈ node.violations schema "" := by
    unfold ReportsKeys validate
    cases node.violations schema "" with
    | nil => simp
    | cons first rest => simp
  rw [hreports]
  constructor
  · rintro ⟨reported, names, hmem⟩ heach
    obtain ⟨moves, hbreaks⟩ := mem_violations_iff.mp hmem
    obtain ⟨key, hentry, hkeys⟩ := exists_hasEntry_of_breaks hbreaks rfl
    exact hkeys (heach names key hentry)
  · intro hnot
    simp only [EachEntry, not_forall] at hnot
    obtain ⟨names, key, hentry, hkeys⟩ := hnot
    obtain ⟨moves, reported, hbreaks⟩ := (exists_breaks_of_hasEntry hentry hkeys "").1 h
    exact ⟨reported, names, mem_violations_iff.mpr ⟨moves, hbreaks⟩⟩

end Reports

section Distinct

variable {schema : SchemaNode} {calls : List Mutation}

theorem exists_descend_of_hasEntry {node : Node} {names : List String} {key : Keys}
    (h : HasEntry schema node names key) :
    ∃ elems max schemas, schema.descend elems = some (.list names max schemas) := by
  induction h with
  | own mem => exact ⟨[], _, _, rfl⟩
  | @child schema childSchema children name child names key mem known below ih =>
    obtain ⟨elems, max, schemas, hdescend⟩ := ih
    refine ⟨.plain name :: elems, max, schemas, ?_⟩
    rw [SchemaNode.descend, PathElem.plain, known, Option.bind_some, hdescend]
  | entry mem below ih => exact ih

/-- However an entry was made, its keys have the declared names or are as many as the list
declares. -/
theorem eachEntry_accepted (hcalls : Mutation.Ordered calls) :
    EachEntry (fun names key =>
      SortedMap.Sorted key ∧ (HasKeys names key ∨ Keys.NamedBy names key)) schema
      (Mutation.build schema calls) := by
  refine eachEntry_build ?_ ?_
  · intro place fields names pairs hpairs
    exact ⟨SortedMap.sorted_ofList pairs, Or.inr (namedBy_of_entryKeys hpairs)⟩
  · intro call hcall elem helem names max schemas full hrequire
    exact ⟨hcalls call hcall elem helem, Or.inl (hasKeys_of_requireKeys hrequire)⟩

theorem eachEntry_of_distinctKeys (hdistinct : schema.DistinctKeys)
    (hcalls : Mutation.Ordered calls) :
    EachEntry (fun names key => HasKeys names key ∧ Keys.NamedBy names key) schema
      (Mutation.build schema calls) := by
  intro names key hentry
  obtain ⟨elems, max, schemas, hdescend⟩ := exists_descend_of_hasEntry hentry
  obtain ⟨hsorted, haccepted⟩ := eachEntry_accepted hcalls names key hentry
  have hsame := hasKeys_iff_namedBy (hdistinct elems names max schemas hdescend) hsorted
  rcases haccepted with hkeys | hnamed
  · exact ⟨hkeys, hsame.mp hkeys⟩
  · exact ⟨hsame.mpr hnamed, hnamed⟩

end Distinct

end Node

end Telemetry
