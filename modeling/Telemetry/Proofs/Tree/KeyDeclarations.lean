import Telemetry.Proofs.Tree.KeyNames

/-!
Entries that show what a list declares. Every list of a schema can be reached by a path, one of its
entries created there and another one stored as the only item of an array. Hence mutators give all
entries the declared names, and the check finds no fault with their keys, just for the schemas whose
lists declare distinct names.
-/

namespace Telemetry

namespace SchemaNode

variable {schema place : SchemaNode}

/-- Elements with keys that lead where the names of some elements lead. -/
theorem exists_spelling (hkeyed : schema.Keyed) {elems : List PathElem}
    (hdescend : schema.descend elems = some place)
    (hinner : ∀ leafSchema, place ≠ .leaf leafSchema) :
    ∃ spelled, Path.KeysOrdered spelled ∧ ∀ full depth last, ∃ depth',
      locateFrom full schema depth (spelled ++ [last]) = locateFrom full place depth' [last] := by
  induction elems generalizing schema with
  | nil =>
    cases hdescend
    exact ⟨[], Path.keysOrdered_nil, fun full depth last => ⟨depth, rfl⟩⟩
  | cons elem rest ih =>
    obtain ⟨child, hchild, hrest⟩ := Option.bind_eq_some_iff.mp hdescend
    obtain ⟨spelled, hordered, hlocate⟩ := ih (hkeyed.child hchild) hrest
    -- the keys of the element depend on what its name leads to
    have hstep : ∃ keys, SortedMap.Sorted keys ∧ ∀ full depth,
        child.requirePassable full depth ⟨elem.name, keys⟩ false = .ok () := by
      cases child with
      | leaf leafSchema =>
        cases rest with
        | nil =>
          cases hrest
          exact absurd rfl (hinner leafSchema)
        | cons next more => cases hrest
      | container schemas => exact ⟨[], SortedMap.sorted_nil, fun _ _ => rfl⟩
      | list names max schemas =>
        obtain ⟨keys, hsorted, hkeys⟩ := Node.exists_hasKeys names
        obtain ⟨hlength, hnames⟩ := Node.hasKeys_iff.mpr hkeys
        have hne : names ≠ [] := hkeyed.child hchild [] names max schemas rfl
        exact ⟨keys, hsorted, fun _ _ => requirePassable_entry hne hlength.symm hnames⟩
    obtain ⟨keys, hsorted, hpassable⟩ := hstep
    refine ⟨⟨elem.name, keys⟩ :: spelled, ?_, ?_⟩
    · exact List.forall_mem_cons.mpr ⟨hsorted, hordered⟩
    · intro full depth last
      obtain ⟨depth', hsame⟩ := hlocate full (depth + 1) last
      refine ⟨depth', hsame ▸ ?_⟩
      have hmore : (spelled ++ [last]).isEmpty = false := by simp
      have hfor : schema.childFor full depth ⟨elem.name, keys⟩ = .ok child :=
        childFor_eq_ok.mpr hchild
      rw [List.cons_append, locateFrom, hfor, hmore]
      simp only [bind, Except.bind, hpassable]

/-- A path to each child of a node, with any keys that the child accepts at the end. -/
theorem exists_parents (hkeyed : schema.Keyed) {elems : List PathElem} {name : String}
    {target : SchemaNode} (hdescend : schema.descend elems = some place)
    (hchild : place.child? name = some target) :
    ∃ parents, Path.KeysOrdered parents ∧ ∀ key,
      (∀ full depth, target.requirePassable full depth ⟨name, key⟩ true = .ok ()) →
        schema.locate (Path.ofElems (parents ++ [⟨name, key⟩])) = .ok target := by
  have hinner : ∀ leafSchema, place ≠ .leaf leafSchema := by
    rintro leafSchema rfl
    cases hchild
  obtain ⟨parents, hordered, hparents⟩ := exists_spelling hkeyed hdescend hinner
  refine ⟨parents, hordered, ?_⟩
  intro key hpassable
  obtain ⟨depth, hsame⟩ := hparents (Path.ofElems (parents ++ [⟨name, key⟩])) 0 ⟨name, key⟩
  exact hsame.trans (locateFrom_cons_eq_ok.mpr ⟨target, hchild, hpassable _ depth, rfl⟩)

end SchemaNode

namespace Node

section Reaching

variable {schema childSchema target : SchemaNode} {node sub : Node} {names : List String}
  {key : Keys} {path : Path} {elem last : PathElem} {step : Step}

private theorem mem_insert_self {κ α : Type} [Ord κ] [Std.LawfulEqOrd κ] (m : List (κ × α))
    (k : κ) (a : α) : (k, a) ∈ SortedMap.insert m k a :=
  SortedMap.mem_of_get?_eq_some (SortedMap.get?_insert_self m k a)

theorem hasEntry_insertEntry {children : List (String × Node)} {name : String}
    {max : Option UInt64} {schemas : List (String × SchemaNode)} {entries : List (Keys × Node)}
    {entry : Node} (hchild : schema.child? name = some (.list names max schemas)) :
    HasEntry schema (.container (SortedMap.insert children name
      (.list (SortedMap.insert entries key entry)))) names key :=
  .child (mem_insert_self _ _ _) hchild (.own (mem_insert_self _ _ _))

theorem hasEntry_store (hplace : IsPlace schema node)
    (hleads : SchemaNode.Leads schema elem childSchema step)
    (h : HasEntry childSchema sub names key) : HasEntry schema (node.store step sub) names key := by
  obtain ⟨children, rfl⟩ := hplace.isContainer
  cases hleads with
  | container hchild noKeys => exact .child (mem_insert_self _ _ _) hchild h
  | entry hchild =>
    obtain ⟨entries, -, -, -, hstore⟩ := fits_storedEntries hplace hchild
    rw [hstore]
    exact .child (mem_insert_self _ _ _) hchild (.entry (mem_insert_self _ _ _) h)

/-- What an edit puts at the last element is at or below the root. -/
theorem hasEntry_editBelow {α : Type} {edit : ChildEdit α} {parents : List PathElem} {depth : Nat}
    (hedit : ∀ place children, IsPlace place (.container children) →
      place.child? last.name = some target →
        HasEntry place (.container (edit place children).2) names key)
    (hplace : IsPlace schema node)
    (hlocate : SchemaNode.locateFrom path schema depth (parents ++ [last]) = .ok target) :
    HasEntry schema (editBelow true path edit schema node depth parents).2 names key := by
  induction parents generalizing schema node depth with
  | nil =>
    obtain ⟨child, hchild, -, hrest⟩ := SchemaNode.locateFrom_cons_eq_ok.mp hlocate
    cases SchemaNode.locateFrom_nil_eq_ok.mp hrest
    obtain ⟨children, rfl⟩ := hplace.isContainer
    exact hedit schema children hplace hchild
  | cons elem rest ih =>
    obtain ⟨child, hchild, hpassable, hrest⟩ := SchemaNode.locateFrom_cons_eq_ok.mp hlocate
    have hmore : (rest ++ [last]).isEmpty = false := by simp
    change child.requirePassable path depth elem (rest ++ [last]).isEmpty = .ok () at hpassable
    rw [hmore] at hpassable
    have hstep := SchemaNode.stepInto_of_requirePassable hchild hpassable
    have hleads := SchemaNode.leads_of_stepInto hstep
    rcases enter_cases hplace hleads true path depth with
      ⟨-, hcreate, -⟩ | ⟨sub, henter, hsub, -⟩
    · cases hcreate
    · simp only [editBelow, hstep, henter]
      exact hasEntry_store hplace hleads (ih hsub hrest)

/-- What a mutator puts at an accepted path is at or below the root. -/
theorem hasEntry_mutate {α : Type} {atRoot : Edited α Node} {edit : PathElem → ChildEdit α}
    (hplace : IsPlace schema node) (hlocate : schema.locate path = .ok target)
    (hlast : path.elems.getLast? = some last)
    (hedit : ∀ place children, IsPlace place (.container children) →
      place.child? last.name = some target →
        HasEntry place (.container (edit last place children).2) names key) :
    HasEntry schema (node.mutate schema path atRoot edit).2 names key := by
  unfold mutate
  simp only [hlocate, hlast, requireReached_node]
  rw [SchemaNode.locate, elems_eq_append_of_getLast? hlast] at hlocate
  exact hasEntry_editBelow hedit hplace hlocate

end Reaching

section Declared

variable {schema place : SchemaNode} {elems : List PathElem} {names : List String}
  {max : Option UInt64} {schemas : List (String × SchemaNode)} {name : String}

/-- An entry with any keys that a list accepts can be created. -/
theorem exists_create (hkeyed : schema.Keyed) (hdescend : schema.descend elems = some place)
    (hchild : place.child? name = some (.list names max schemas)) (hne : names ≠ []) {key : Keys}
    (hsorted : SortedMap.Sorted key) (hkeys : HasKeys names key) :
    ∃ path, Path.KeysOrdered path.elems ∧
      HasEntry schema (emptyContainer.create schema path).2 names key := by
  obtain ⟨hlength, hnames⟩ := hasKeys_iff.mpr hkeys
  have hsome : key.isEmpty = false := by
    cases key with
    | nil => exact absurd (List.eq_nil_of_length_eq_zero hlength.symm) hne
    | cons pair rest => rfl
  obtain ⟨parents, hordered, hlocate⟩ := SchemaNode.exists_parents hkeyed hdescend hchild
  replace hlocate := hlocate key fun full depth =>
    SchemaNode.requirePassable_entry hne hlength.symm hnames
  refine ⟨Path.ofElems (parents ++ [⟨name, key⟩]),
    hordered.append (List.forall_mem_singleton.mpr hsorted), ?_⟩
  rw [create_eq_mutate]
  refine hasEntry_mutate (IsPlace.empty schema) hlocate List.getLast?_concat ?_
  intro inner children hinside hlist
  obtain ⟨entries, hentries, -⟩ :=
    select?_of_fits_list (fits_child_getD hinside hlist Fits.emptyList)
  have hrequire : ∀ full, (SchemaNode.list names max schemas).requireKeys full ⟨name, key⟩ =
      .ok () := fun full => SchemaNode.requireKeys_eq_ok.mpr ⟨hlength.symm, hnames⟩
  unfold createLast
  rw [SchemaNode.childFor_eq_ok.mpr hlist]
  simp only [hsome, hrequire, hentries]
  exact hasEntry_insertEntry hlist

def keyFields (names : List String) : List (String × Json) :=
  SortedMap.ofList (names.map fun name => (":" ++ name, .string ""))

theorem localName_qualified (name : String) : localName (":" ++ name) = name := by
  have htext : (":" ++ name).toList = ':' :: name.toList := by simp
  rw [localName, htext]
  simp

theorem entryKeys_keyFields (place : String) {names wanted : List String} (h : wanted ⊆ names) :
    entryKeys place (keyFields names) wanted = .ok (wanted.map fun name => (name, "")) := by
  induction wanted with
  | nil => rfl
  | cons name rest ih =>
    have hfind : ∃ raw, (keyFields names).find? (fun field => localName field.1 == name) =
        some (raw, .string "") := by
      cases hfound : (keyFields names).find? fun field => localName field.1 == name with
      | some field =>
        have hmem := SortedMap.mem_of_mem_ofList (List.mem_of_find?_eq_some hfound)
        obtain ⟨other, -, rfl⟩ := List.mem_map.mp hmem
        exact ⟨_, rfl⟩
      | none =>
        have hlisted : SortedMap.contains (keyFields names) (":" ++ name) = true := by
          rw [keyFields, SortedMap.contains_ofList, List.map_map]
          exact List.mem_map.mpr ⟨name, h List.mem_cons_self, rfl⟩
        obtain ⟨value, hget⟩ := Option.isSome_iff_exists.mp hlisted
        have hnot := List.find?_eq_none.mp hfound _ (SortedMap.mem_of_get?_eq_some hget)
        simp [localName_qualified] at hnot
    obtain ⟨raw, hraw⟩ := hfind
    rw [entryKeys, hraw]
    simp only [Json.keyText, bind, Except.bind, ih fun other hother =>
      h (List.mem_cons_of_mem name hother), List.map_cons]

theorem regular_keyFields (names : List String) :
    (Json.array [.object (keyFields names)]).Regular 2 := by
  refine .array (List.forall_mem_singleton.mpr (.object (SortedMap.sorted_ofList _) ?_))
  intro field hfield
  obtain ⟨name, -, rfl⟩ := List.mem_map.mp (SortedMap.mem_of_mem_ofList hfield)
  exact .string 0 ""

theorem no_doubles_keyFields (names : List String) :
    ∀ x ∈ (Json.array [.object (keyFields names)]).doubles, (JsonNumber.double x).ReadsBack := by
  intro x hx
  obtain ⟨item, hitem, hx⟩ := Json.mem_doublesOfItems.mp hx
  cases List.mem_singleton.mp hitem
  obtain ⟨field, hfield, hx⟩ := Json.mem_doublesOfFields.mp hx
  obtain ⟨name, -, rfl⟩ := List.mem_map.mp (SortedMap.mem_of_mem_ofList hfield)
  cases hx

/-- An entry that an array stores in a list has the keys of its fields, also where the rest of the
item cannot be stored. -/
theorem hasEntry_mergeItems {fields : List (String × Json)} {place : String}
    {pairs : List (String × String)} (hpairs : entryKeys place fields names = .ok pairs)
    (entries : List (Keys × Node)) :
    HasEntry (.list names max schemas)
      (.list (mergeItems [.object fields] (.list names max schemas) place entries).2) names
      (SortedMap.ofList pairs) := by
  unfold mergeItems
  simp only [SchemaNode.keyNames_list, hpairs]
  split
  · exact .own (mem_insert_self _ _ _)
  · exact .own (mem_insert_self _ _ _)

/-- The array of one item that is stored in a list leaves an entry with the keys of its fields. -/
theorem hasEntry_put_array {path : Path} {last : PathElem} {fields : List (String × Json)}
    {pairs : List (String × String)} {depth : Nat}
    (hlocate : schema.locate path = .ok (.list names max schemas))
    (hlast : path.elems.getLast? = some last) (hplain : last.keys.isEmpty = true)
    (hregular : (Json.array [.object fields]).Regular depth) (hdepth : depth ≤ Document.depthLimit)
    (hdoubles : ∀ x ∈ (Json.array [.object fields]).doubles, (JsonNumber.double x).ReadsBack)
    (hpairs : ∀ place, entryKeys place fields names = .ok pairs) :
    HasEntry schema (emptyContainer.put schema path
      (.json (Json.array [.object fields]).render.toUTF8.data.toList)).2 names
      (SortedMap.ofList pairs) := by
  have hread := hregular.ofTyped_render hdepth hdoubles
  rw [put_eq_mutate]
  refine hasEntry_mutate (IsPlace.empty schema) hlocate hlast ?_
  intro inner children hinside hlist
  obtain ⟨entries, hentries, -⟩ :=
    select?_of_fits_list (fits_child_getD hinside hlist Fits.emptyList)
  unfold putLast
  rw [SchemaNode.childFor_eq_ok.mpr hlist]
  simp only [hplain, if_true, hread, hentries]
  exact .child (mem_insert_self _ _ _) hlist (hasEntry_mergeItems (hpairs _) entries)

/-- An entry with the declared names only can be stored in a list. -/
theorem exists_put (hkeyed : schema.Keyed) (hdescend : schema.descend elems = some place)
    (hchild : place.child? name = some (.list names max schemas)) :
    ∃ path value key, Path.KeysOrdered path.elems ∧ SortedMap.Sorted key ∧
      Keys.NamedBy names key ∧
      HasEntry schema (emptyContainer.put schema path value).2 names key := by
  obtain ⟨parents, hordered, hlocate⟩ := SchemaNode.exists_parents hkeyed hdescend hchild
  have hpairs := fun place => entryKeys_keyFields place (List.Subset.refl names)
  exact ⟨_, _, _, hordered.append (Path.keysOrdered_plain name), SortedMap.sorted_ofList _,
    namedBy_of_entryKeys (hpairs ""),
    hasEntry_put_array (hlocate [] fun full depth => rfl) List.getLast?_concat rfl
      (regular_keyFields names) (by decide) (no_doubles_keyFields names) hpairs⟩

end Declared

/-- A list of a schema whose root is a container is a child of some node. -/
theorem exists_place_of_descend {schemas : List (String × SchemaNode)} {elems : List PathElem}
    {target : SchemaNode} (hdescend : (SchemaNode.container schemas).descend elems = some target)
    (htarget : ∀ children, target ≠ .container children) :
    ∃ parents place name, (SchemaNode.container schemas).descend parents = some place ∧
      place.child? name = some target := by
  cases hlast : elems.getLast? with
  | none =>
    cases List.getLast?_eq_none_iff.mp hlast
    cases hdescend
    exact absurd rfl (htarget schemas)
  | some last =>
    rw [elems_eq_append_of_getLast? hlast, SchemaNode.descend_append] at hdescend
    obtain ⟨place, hplace, hchild⟩ := Option.bind_eq_some_iff.mp hdescend
    obtain ⟨child, hchild, hsame⟩ := Option.bind_eq_some_iff.mp hchild
    cases hsame
    exact ⟨_, place, last.name, hplace, hchild⟩

section Schemas

variable {schema : Schema}

theorem exists_list_place (hcheck : schema.check = .ok ()) {elems : List PathElem}
    {names : List String} {max : Option UInt64} {schemas : List (String × SchemaNode)}
    (hdescend : schema.root.descend elems = some (.list names max schemas)) :
    schema.root.Keyed ∧ names ≠ [] ∧ ∃ parents place name,
      schema.root.descend parents = some place ∧
        place.child? name = some (.list names max schemas) := by
  obtain ⟨⟨children, hroot⟩, hnode⟩ := schema.root_of_check hcheck
  have hkeyed := SchemaNode.keyed_of_check hnode
  refine ⟨hkeyed, hkeyed elems names max schemas hdescend, ?_⟩
  rw [hroot] at hdescend ⊢
  exact exists_place_of_descend hdescend (by simp)

/-- Trees that mutators build have the shape of the schema. All their entries have the declared key
names, for all calls, just if all lists declare distinct names; and just then, for all calls, the
check finds no fault with keys. -/
theorem entry_keys_are_declared_iff (hcheck : schema.check = .ok ()) :
    (∀ calls, Fits schema.root (Mutation.build schema.root calls)) ∧
      (schema.root.DistinctKeys ↔ ∀ calls, Mutation.Ordered calls →
        EachEntry Keys.NamedBy schema.root (Mutation.build schema.root calls)) ∧
      (schema.root.DistinctKeys ↔ ∀ calls, Mutation.Ordered calls →
        ¬ ReportsKeys schema.root (Mutation.build schema.root calls)) := by
  obtain ⟨⟨children, hroot⟩, -⟩ := schema.root_of_check hcheck
  have hfits : ∀ calls, Fits schema.root (Mutation.build schema.root calls) := by
    intro calls
    have hplace := isPlace_build schema.root calls
    rw [hroot] at hplace ⊢
    exact hplace
  refine ⟨hfits, ⟨?_, ?_⟩, ?_, ?_⟩
  · intro hdistinct calls hcalls names key hentry
    exact (eachEntry_of_distinctKeys hdistinct hcalls names key hentry).2
  · intro hnamed elems names max schemas hdescend
    obtain ⟨hkeyed, hne, parents, place, name, hplace, hchild⟩ := exists_list_place hcheck hdescend
    obtain ⟨key, hsorted, hkeys⟩ := exists_hasKeys names
    obtain ⟨path, hordered, hentry⟩ := exists_create hkeyed hplace hchild hne hsorted hkeys
    have hcalls : Mutation.Ordered [.create path] := List.forall_mem_singleton.mpr hordered
    exact nodup_of_hasKeys hsorted hkeys (hnamed _ hcalls names key hentry)
  · intro hdistinct calls hcalls
    rw [reportsKeys_iff (hfits calls), not_not]
    intro names key hentry
    exact (eachEntry_of_distinctKeys hdistinct hcalls names key hentry).1
  · intro hsilent elems names max schemas hdescend
    obtain ⟨hkeyed, -, parents, place, name, hplace, hchild⟩ := exists_list_place hcheck hdescend
    obtain ⟨path, value, key, hordered, hsorted, hnamed, hentry⟩ := exists_put hkeyed hplace hchild
    have hcalls : Mutation.Ordered [.put path value] := List.forall_mem_singleton.mpr hordered
    have hkeys := hsilent _ hcalls
    rw [reportsKeys_iff (hfits _), not_not] at hkeys
    exact nodup_of_hasKeys hsorted (hkeys names key hentry) hnamed

end Schemas

section Interfaces

open Notification (interfaceFields)

/-- Whatever is called for interfaces that are told apart by their names. -/
theorem entry_keys_are_declared_interfaces :
    let schema : Schema := ⟨[], .container (interfaceFields ["name"])⟩
    (schema.check = .ok () ∧ schema.root.DistinctKeys) ∧
      ∀ calls, Mutation.Ordered calls →
        EachEntry Keys.NamedBy schema.root (Mutation.build schema.root calls) ∧
          ¬ ReportsKeys schema.root (Mutation.build schema.root calls) := by
  intro schema
  have hcheck : schema.check = .ok () := rfl
  have hdistinct : schema.root.DistinctKeys := distinctKeys_interfaceFields (by decide)
  obtain ⟨-, hnamed, hsilent⟩ := entry_keys_are_declared_iff hcheck
  exact ⟨⟨hcheck, hdistinct⟩, fun calls hcalls =>
    ⟨hnamed.mp hdistinct calls hcalls, hsilent.mp hdistinct calls hcalls⟩⟩

/-- Where a name is declared twice an entry at a path has a key that is not declared, and the check
finds fault with an entry of an array. -/
theorem entry_keys_are_not_declared :
    let schema : Schema := ⟨[], .container (interfaceFields ["name", "name"])⟩
    let created : List Mutation :=
      [.create (.ofElems [⟨"interface", [("name", "eth0"), ("slot", "1")]⟩])]
    let stored : List Mutation := [.put (.ofElems [.plain "interface"])
      (.json (Json.array [.object [("name", .string "eth0")]]).render.toUTF8.data.toList)]
    schema.check = .ok () ∧ Mutation.Ordered created ∧ Mutation.Ordered stored ∧
      ¬ EachEntry Keys.NamedBy schema.root (Mutation.build schema.root created) ∧
      ReportsKeys schema.root (Mutation.build schema.root stored) := by
  intro schema created stored
  have hcreated : Mutation.build schema.root created = .container [("interface",
      .list [([("name", "eth0"), ("slot", "1")], .container [])])] := by rfl
  have hcreatedEntry : HasEntry schema.root (Mutation.build schema.root created)
      ["name", "name"] [("name", "eth0"), ("slot", "1")] := by
    rw [hcreated]
    exact .child List.mem_cons_self rfl (.own List.mem_cons_self)
  have hregular : (Json.array [.object [("name", .string "eth0")]]).Regular 2 :=
    .array (List.forall_mem_singleton.mpr (.object (List.pairwise_singleton _ _)
      (List.forall_mem_singleton.mpr (.string 0 "eth0"))))
  have hlocate : schema.root.locate (.ofElems [.plain "interface"]) =
      .ok (.list ["name", "name"] none [("mtu", .leafOf (.uint none none))]) := rfl
  have hstoredEntry : HasEntry schema.root (Mutation.build schema.root stored)
      ["name", "name"] [("name", "eth0")] :=
    hasEntry_put_array hlocate rfl rfl hregular (by decide) (List.forall_mem_nil _) fun _ => rfl
  refine ⟨rfl, ?_, ?_, ?_, ?_⟩
  · exact List.forall_mem_singleton.mpr (List.forall_mem_singleton.mpr
      (List.pairwise_pair.mpr (by decide)))
  · exact List.forall_mem_singleton.mpr (Path.keysOrdered_plain "interface")
  · intro hnamed
    exact absurd ((hnamed _ _ hcreatedEntry "slot").mp (by decide)) (by decide)
  · have hfits : Fits schema.root (Mutation.build schema.root stored) :=
      isPlace_build schema.root stored
    rw [reportsKeys_iff hfits]
    intro hkeys
    exact absurd (hkeys _ _ hstoredEntry).1 (by decide)

end Interfaces

end Node

end Telemetry
