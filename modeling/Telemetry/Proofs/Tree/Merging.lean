import Telemetry.Proofs.Tree.Denotation
import Telemetry.Proofs.Tree.Edits
import Telemetry.Proofs.Tree.Merges

/-!
Storing values on leaf maps. A merge that goes through writes exactly the leaves that its JSON
value denotes, in their order, over what is there; so does storing a value at a path. Both keep
a tree in the shape of its schema, also where they fail half way.
-/

namespace Telemetry

namespace LeafMap

/-- An edit that goes through has written the denoted leaves. -/
def Writes (result : Except TreeError Unit) (denoted : Option Assignments)
    (before after : LeafMap) : Prop :=
  result = .ok () → ∃ leaves, denoted = some leaves ∧ after = before.assignAll leaves

variable {before between after : LeafMap} {denoted : Option Assignments}
  {result : Except TreeError Unit}

theorem writes_error (e : TreeError) : Writes (.error e) denoted before after := by
  intro h
  cases h

theorem writes_nothing (result : Except TreeError Unit) (m : LeafMap) :
    Writes result (some []) m m :=
  fun _ => ⟨[], rfl, rfl⟩

/-- Edits that are done one after the other write their leaves one after the other. -/
theorem Writes.andThen {first : Option Assignments}
    (hfirst : Writes (.ok ()) first before between) (h : Writes result denoted between after) :
    Writes result (first.bind fun leaves => denoted.map (leaves ++ ·)) before after := by
  intro hok
  obtain ⟨leaves, rfl, hbetween⟩ := hfirst rfl
  obtain ⟨rest, rfl, hafter⟩ := h hok
  refine ⟨leaves ++ rest, rfl, ?_⟩
  rw [hafter, hbetween, assignAll_append]

end LeafMap

namespace Node

open LeafMap (Writes)

section Insert

variable {children : List (String × Node)} {name : String}

/-- A child that selects what was there by all keys but one changes what is below that one. -/
private theorem leafAt?_insert_eq_under {child sub : Node} {key : Keys}
    (hselect : child.select? key = some sub)
    (hother : ∀ other, other ≠ key → child.select? other =
      (SortedMap.get? children name).bind (·.select? other)) :
    (container (SortedMap.insert children name child)).leafAt? =
      LeafMap.under (fun _ => sub.leafAt?) [⟨name, key⟩] (container children).leafAt? := by
  funext elems
  cases elems with
  | nil => rfl
  | cons elem rest =>
    rw [leafAt?_insert_cons]
    obtain ⟨elemName, elemKeys⟩ := elem
    by_cases hname : elemName = name
    · subst hname
      by_cases hkeys : elemKeys = key
      · subst hkeys
        simp [hselect, LeafMap.under_cons_self, LeafMap.under_nil]
      · rw [LeafMap.under_cons_of_ne _ _ _ _ (by simpa using hkeys), leafAt?_container_cons]
        simp [hother elemKeys hkeys, Option.bind_assoc]
    · rw [LeafMap.under_cons_of_ne _ _ _ _ (by simp [hname])]
      simp [hname]

private theorem under_eq_assignAll {m old new : LeafMap} {elem : PathElem}
    {leaves : Assignments} (hold : m.below elem = old) (hnew : new = old.assignAll leaves) :
    LeafMap.under (fun _ => new) [elem] m = m.assignAll (leaves.nest [elem]) := by
  rw [LeafMap.assignAll_eq_under]
  apply LeafMap.under_congr
  rw [hnew, ← hold]
  rfl

/-- What is written to a child is written below its name. -/
theorem leafAt?_insert_single {child : Node} {leaves : Assignments}
    (hold : IsSingle ((SortedMap.get? children name).getD emptyContainer))
    (hchild : IsSingle child)
    (h : child.leafAt? =
      ((SortedMap.get? children name).getD emptyContainer).leafAt?.assignAll leaves) :
    (container (SortedMap.insert children name child)).leafAt? =
      (container children).leafAt?.assignAll (leaves.nest [PathElem.plain name]) := by
  have hselect : ∀ key, (SortedMap.get? children name).bind (·.select? key) =
      if key = [] then SortedMap.get? children name else none := by
    intro key
    cases hget : SortedMap.get? children name with
    | none => simp
    | some old => simpa [hget] using hold key
  have hsub : child.select? [] = some child := by simp [hchild []]
  rw [leafAt?_insert_eq_under hsub]
  · refine under_eq_assignAll ?_ h
    funext rest
    rw [LeafMap.below, leafAt?_cons, next?_container]
    simp only [hselect []]
    cases SortedMap.get? children name with
    | none => simp [leafAt?_emptyContainer]
    | some old => simp
  · intro other hne
    rw [hselect, hchild]
    simp [hne]

/-- What is written to an entry is written below its name and keys. -/
theorem leafAt?_insert_entry {entries : List (Keys × Node)} {key : Keys} {entry : Node}
    {leaves : Assignments}
    (hlist : (SortedMap.get? children name).getD emptyList = .list entries)
    (h : entry.leafAt? =
      ((SortedMap.get? entries key).getD emptyContainer).leafAt?.assignAll leaves) :
    (container (SortedMap.insert children name
      (.list (SortedMap.insert entries key entry)))).leafAt? =
      (container children).leafAt?.assignAll (leaves.nest [⟨name, key⟩]) := by
  have hselect : ∀ key, (SortedMap.get? children name).bind (·.select? key) =
      SortedMap.get? entries key := by
    intro key
    cases hget : SortedMap.get? children name with
    | none =>
      rw [hget, Option.getD_none, emptyList, Node.list.injEq] at hlist
      rw [← hlist]
      rfl
    | some old =>
      rw [hget, Option.getD_some] at hlist
      simp [hlist]
  have hsub : (list (SortedMap.insert entries key entry)).select? key = some entry := by
    simp [SortedMap.get?_insert_self]
  rw [leafAt?_insert_eq_under hsub]
  · refine under_eq_assignAll ?_ h
    funext rest
    rw [LeafMap.below, leafAt?_cons, next?_container]
    simp only [hselect key]
    cases SortedMap.get? entries key with
    | none => simp [leafAt?_emptyContainer]
    | some old => simp
  · intro other hne
    rw [hselect, select?_list, SortedMap.get?_insert_of_ne _ _ hne]

/-- Of two children put under one name the second counts. -/
theorem leafAt?_insert_insert (children : List (String × Node)) (name : String)
    (first second : Node) :
    (container (SortedMap.insert (SortedMap.insert children name first) name second)).leafAt? =
      (container (SortedMap.insert children name second)).leafAt? := by
  funext elems
  cases elems with
  | nil => rfl
  | cons elem rest =>
    rw [leafAt?_insert_cons, leafAt?_insert_cons, leafAt?_insert_cons]
    by_cases h : elem.name = name <;> simp [h]

end Insert

section Present

variable {schema : SchemaNode} {children : List (String × Node)} {name : String}

theorem isSingle_getD_leaf {leafSchema : LeafSchema}
    (hplace : IsPlace schema (.container children))
    (hchild : schema.child? name = some (.leaf leafSchema)) :
    IsSingle ((SortedMap.get? children name).getD emptyContainer) := by
  cases hget : SortedMap.get? children name with
  | none => exact isSingle_container []
  | some child =>
    obtain ⟨value, rfl⟩ := fits_leaf (hplace.child_fits hget hchild)
    exact isSingle_leaf value

/-- A leaf is written over what is there. -/
theorem leafAt?_insert_leaf {leafSchema : LeafSchema}
    (hplace : IsPlace schema (.container children))
    (hchild : schema.child? name = some (.leaf leafSchema)) (value : LeafValue) :
    (container (SortedMap.insert children name (.leaf value))).leafAt? =
      (container children).leafAt?.assignAll [([PathElem.plain name], value)] := by
  have hleaf : (leaf value).leafAt? =
      ((SortedMap.get? children name).getD emptyContainer).leafAt?.assignAll [([], value)] := by
    funext rest
    cases rest with
    | nil => rfl
    | cons elem more =>
      cases hget : SortedMap.get? children name with
      | none => rfl
      | some child =>
        obtain ⟨old, rfl⟩ := fits_leaf (hplace.child_fits hget hchild)
        rfl
  exact leafAt?_insert_single (isSingle_getD_leaf hplace hchild) (isSingle_leaf value) hleaf

variable {result : Except TreeError Unit} {denoted : Option Assignments}

/-- What is written to a container is written below its name. -/
theorem writes_container {schemas : List (String × SchemaNode)} {child : Node}
    (hold : Fits (.container schemas) ((SortedMap.get? children name).getD emptyContainer))
    (hchild : Fits (.container schemas) child)
    (h : Writes result denoted ((SortedMap.get? children name).getD emptyContainer).leafAt?
      child.leafAt?) :
    Writes result (denoted.map (.nest [PathElem.plain name])) (container children).leafAt?
      (container (SortedMap.insert children name child)).leafAt? := by
  intro hok
  obtain ⟨leaves, rfl, hwritten⟩ := h hok
  obtain ⟨_, hsingle⟩ := fits_container hold
  obtain ⟨_, rfl⟩ := fits_container hchild
  exact ⟨_, rfl, leafAt?_insert_single (hsingle ▸ isSingle_container _) (isSingle_container _)
    hwritten⟩

/-- What is written to an entry of a list is written below the name and the keys. -/
theorem writes_entry {entries : List (Keys × Node)} {key : Keys} {entry : Node}
    (hlist : (SortedMap.get? children name).getD emptyList = .list entries)
    (h : Writes result denoted ((SortedMap.get? entries key).getD emptyContainer).leafAt?
      entry.leafAt?) :
    Writes result (denoted.map (.nest [⟨name, key⟩])) (container children).leafAt?
      (container (SortedMap.insert children name
        (.list (SortedMap.insert entries key entry)))).leafAt? := by
  intro hok
  obtain ⟨leaves, rfl, hwritten⟩ := h hok
  exact ⟨_, rfl, leafAt?_insert_entry hlist hwritten⟩

end Present

mutual

theorem ObjectMerge.spec {json : Json} {schema : SchemaNode} {place : String}
    {entry : Option Keys} {node merged : Node} {result : Except TreeError Unit}
    (hmerge : ObjectMerge json schema place entry node result merged)
    (hplace : IsPlace schema node) : IsPlace schema merged ∧
      Writes result (json.placeLeaves? schema) node.leafAt? merged.leafAt? := by
  match hmerge, hplace with
  | .fields hfields, hplace => exact hfields.spec hplace
  | .notContainer _, hplace => exact ⟨hplace, LeafMap.writes_error _⟩
  | .notObject _, hplace => exact ⟨hplace, LeafMap.writes_error _⟩

theorem FieldsMerge.spec {fields : List (String × Json)} {schema : SchemaNode} {place : String}
    {entry : Option Keys} {children merged : List (String × Node)}
    {result : Except TreeError Unit}
    (hmerge : FieldsMerge fields schema place entry children result merged)
    (hplace : IsPlace schema (.container children)) : IsPlace schema (.container merged) ∧
      Writes result (Json.fieldLeaves? fields schema) (container children).leafAt?
        (container merged).leafAt? := by
  match hmerge, hplace with
  | .done, hplace => exact ⟨hplace, LeafMap.writes_nothing _ _⟩
  | .stop hfield, hplace => exact ⟨(hfield.spec hplace).1, LeafMap.writes_error _⟩
  | .next hfield hothers, hplace =>
    obtain ⟨hbetween, hfirst⟩ := hfield.spec hplace
    obtain ⟨hkept, hrest⟩ := hothers.spec hbetween
    rw [Json.fieldLeaves?_cons]
    exact ⟨hkept, hfirst.andThen hrest⟩

theorem FieldMerge.spec {raw : String} {value : Json} {schema : SchemaNode} {place : String}
    {entry : Option Keys} {children merged : List (String × Node)}
    {result : Except TreeError Unit}
    (hmerge : FieldMerge raw value schema place entry children result merged)
    (hplace : IsPlace schema (.container children)) : IsPlace schema (.container merged) ∧
      Writes result (Json.leavesOfField? raw value schema) (container children).leafAt?
        (container merged).leafAt? := by
  match hmerge, hplace with
  | .key hkey, hplace =>
    rw [Json.leavesOfField?, if_pos hkey]
    exact ⟨hplace, LeafMap.writes_nothing _ _⟩
  | .unknown _ _, hplace => exact ⟨hplace, LeafMap.writes_error _⟩
  | .noScalar _ _ _, hplace => exact ⟨hplace, LeafMap.writes_error _⟩
  | .leaf hkey hknown hread, hplace =>
    refine ⟨hplace.insert hknown (Fits.leaf _ _), ?_⟩
    simp only [Json.leavesOfField?, if_neg hkey, hknown]
    rw [← LeafValue.toOption_ofJson, hread]
    exact fun _ => ⟨_, rfl, leafAt?_insert_leaf hplace hknown _⟩
  | .container hkey hknown hobject, hplace =>
    have hold := fits_child_getD hplace hknown (IsPlace.empty (.container _))
    obtain ⟨hkept, hwrites⟩ := hobject.spec hold
    simp only [Json.leavesOfField?, if_neg hkey, hknown]
    exact ⟨hplace.insert hknown hkept, writes_container hold hkept hwrites⟩
  | .list hkey hknown hlist, hplace =>
    obtain ⟨hkept, hwrites⟩ := hlist.spec (fits_child_getD hplace hknown Fits.emptyList)
    simp only [Json.leavesOfField?, if_neg hkey, hknown]
    exact ⟨hplace.insert hknown hkept, hwrites _ _ rfl⟩

theorem ListMerge.spec {json : Json} {keys : List String} {max : Option UInt64}
    {schemas : List (String × SchemaNode)} {place : String} {node merged : Node}
    {result : Except TreeError Unit}
    (hmerge : ListMerge json keys max schemas place node result merged)
    (hfits : Fits (.list keys max schemas) node) : Fits (.list keys max schemas) merged ∧
      ∀ name children, (SortedMap.get? children name).getD emptyList = node →
        Writes result (json.listLeaves? (.list keys max schemas) name)
          (container children).leafAt?
            (container (SortedMap.insert children name merged)).leafAt? := by
  match hmerge, hfits with
  | .items hitems, hfits => exact hitems.spec hfits
  | .notList _, hfits => exact ⟨hfits, fun _ _ _ => LeafMap.writes_error _⟩
  | .notArray _, hfits => exact ⟨hfits, fun _ _ _ => LeafMap.writes_error _⟩

theorem ItemsMerge.spec {items : List Json} {keys : List String} {max : Option UInt64}
    {schemas : List (String × SchemaNode)} {place : String} {entries merged : List (Keys × Node)}
    {result : Except TreeError Unit}
    (hmerge : ItemsMerge items keys max schemas place entries result merged)
    (hfits : Fits (.list keys max schemas) (.list entries)) :
    Fits (.list keys max schemas) (.list merged) ∧
      ∀ name children, (SortedMap.get? children name).getD emptyList = .list entries →
        Writes result (Json.itemLeaves? items (.list keys max schemas) name)
          (container children).leafAt?
          (container (SortedMap.insert children name (.list merged))).leafAt? := by
  match hmerge, hfits with
  | .done, hfits =>
    refine ⟨hfits, ?_⟩
    intro name children hlist
    have hsame := leafAt?_insert_getD children name emptyList emptyList_has_no_leaf
    rw [hlist] at hsame
    rw [hsame]
    exact LeafMap.writes_nothing _ _
  | .stop hitem, hfits => exact ⟨(hitem.spec hfits).1, fun _ _ _ => LeafMap.writes_error _⟩
  | .next hitem hothers, hfits =>
    obtain ⟨hbetween, hfirst⟩ := hitem.spec hfits
    obtain ⟨hkept, hrest⟩ := hothers.spec hbetween
    refine ⟨hkept, ?_⟩
    intro name children hlist
    -- the rest runs where the list is in place already
    have hput := hrest name (SortedMap.insert children name _)
      (by rw [SortedMap.get?_insert_self]; rfl)
    rw [leafAt?_insert_insert] at hput
    rw [Json.itemLeaves?_cons]
    exact (hfirst name children hlist).andThen hput

theorem ItemMerge.spec {item : Json} {keys : List String} {max : Option UInt64}
    {schemas : List (String × SchemaNode)} {place : String} {entries merged : List (Keys × Node)}
    {result : Except TreeError Unit}
    (hmerge : ItemMerge item keys max schemas place entries result merged)
    (hfits : Fits (.list keys max schemas) (.list entries)) :
    Fits (.list keys max schemas) (.list merged) ∧
      ∀ name children, (SortedMap.get? children name).getD emptyList = .list entries →
        Writes result (Json.leavesOfItem? item (.list keys max schemas) name)
          (container children).leafAt?
          (container (SortedMap.insert children name (.list merged))).leafAt? := by
  match hmerge, hfits with
  | .notObject _, hfits => exact ⟨hfits, fun _ _ _ => LeafMap.writes_error _⟩
  | .noKeys _, hfits => exact ⟨hfits, fun _ _ _ => LeafMap.writes_error _⟩
  | .entry hread hobject, hfits =>
    obtain ⟨hkept, hwrites⟩ := hobject.spec (fits_entry_getD hfits _)
    refine ⟨hfits.insertEntry _ hkept, ?_⟩
    intro name children hlist
    simp only [Json.leavesOfItem?, SchemaNode.keyNames_list, entryKeys?_of_eq_ok hread]
    exact writes_entry hlist hwrites

end

section Put

variable {schema : SchemaNode} {children : List (String × Node)} {last : PathElem}

private theorem putLast_container (hplace : IsPlace schema (.container children))
    {schemas : List (String × SchemaNode)}
    (hchild : schema.child? last.name = some (.container schemas)) (hkeys : last.keys = [])
    (json : Json) (place : String) :
    let merged := mergeObject json (.container schemas) place none
      ((SortedMap.get? children last.name).getD emptyContainer)
    IsPlace schema (.container (SortedMap.insert children last.name merged.2)) ∧
      Writes merged.1 ((json.placeLeaves? (.container schemas)).map (Assignments.nest [last]))
        (container children).leafAt?
        (container (SortedMap.insert children last.name merged.2)).leafAt? := by
  have hold := fits_child_getD hplace hchild (IsPlace.empty (.container schemas))
  have hmerge := (objectMerge_mergeObject json (.container schemas) place none _).spec hold
  have hplain : PathElem.plain last.name = last := by rw [PathElem.plain, ← hkeys]
  have hwrites := writes_container hold hmerge.1 hmerge.2
  rw [hplain] at hwrites
  exact ⟨hplace.insert hchild hmerge.1, hwrites⟩

theorem putLast_spec (path : Path) (last : PathElem) (value : TypedValue)
    (hplace : IsPlace schema (.container children)) :
    IsPlace schema (.container (putLast path last value schema children).2) ∧
      Writes (putLast path last value schema children).1
        ((schema.child? last.name).bind (value.lastLeaves? last)) (container children).leafAt?
        (container (putLast path last value schema children).2).leafAt? := by
  unfold putLast
  cases hfor : schema.childFor path (path.elems.length - 1) last with
  | error e => exact ⟨hplace, LeafMap.writes_error e⟩
  | ok childSchema =>
    have hchild := SchemaNode.childFor_eq_ok.mp hfor
    rw [hchild, Option.bind_some]
    cases childSchema with
    | leaf leafSchema =>
      cases hkeys : SchemaNode.requireNoKeys path last with
      | error e => exact ⟨hplace, LeafMap.writes_error e⟩
      | ok =>
        simp only [TypedValue.lastLeaves?]
        rw [← LeafValue.toOption_ofTyped _ _ path.text]
        cases LeafValue.ofTyped leafSchema.type value path.text with
        | error e => exact ⟨hplace, LeafMap.writes_error e⟩
        | ok scalar =>
          have hplain : PathElem.plain last.name = last := by
            rw [PathElem.plain, ← SchemaNode.requireNoKeys_eq_ok.mp hkeys]
          refine ⟨hplace.insert hchild (Fits.leaf leafSchema scalar), ?_⟩
          exact fun _ => ⟨_, rfl, hplain ▸ leafAt?_insert_leaf hplace hchild scalar⟩
    | container schemas =>
      cases hkeys : SchemaNode.requireNoKeys path last with
      | error e => exact ⟨hplace, LeafMap.writes_error e⟩
      | ok =>
        simp only [TypedValue.lastLeaves?]
        rw [← TypedValue.toOption_ofTyped _ path.text]
        cases Json.ofTyped value path.text with
        | error e => exact ⟨hplace, LeafMap.writes_error e⟩
        | ok json =>
          exact putLast_container hplace hchild (SchemaNode.requireNoKeys_eq_ok.mp hkeys) json _
    | list keys max schemas =>
      have hempty : Fits (.list keys max schemas) emptyList := Fits.emptyList
      have hold := fits_child_getD hplace hchild hempty
      obtain ⟨entries, hentries, _⟩ := select?_of_fits_list hold
      rw [hentries] at hold
      simp only [TypedValue.lastLeaves?, hentries]
      rw [← TypedValue.toOption_ofTyped _ path.text]
      by_cases hkeys : last.keys = []
      · simp only [hkeys, List.isEmpty_nil, if_true]
        cases Json.ofTyped value path.text with
        | error e => exact ⟨hplace, LeafMap.writes_error e⟩
        | ok json =>
          obtain ⟨hfits, hwrites⟩ :=
            (listMerge_mergeList json keys max schemas path.text _).spec hold
          exact ⟨hplace.insert hchild hfits, hwrites _ children hentries⟩
      · simp only [List.isEmpty_iff, hkeys, if_false]
        cases (SchemaNode.list keys max schemas).requireKeys path last with
        | error e => exact ⟨hplace, LeafMap.writes_error e⟩
        | ok =>
          cases Json.ofTyped value path.text with
          | error e => exact ⟨hplace, LeafMap.writes_error e⟩
          | ok json =>
            have hmerge := (objectMerge_mergeObject json (.list keys max schemas) path.text
              (some last.keys) _).spec (fits_entry_getD hold last.keys)
            exact ⟨hplace.insert hchild (hold.insertEntry last.keys hmerge.1),
              writes_entry hentries hmerge.2⟩

def putRoot (schema : SchemaNode) (root : Node) (path : Path) (value : TypedValue) :
    Edited Unit Node :=
  match Json.ofTyped value path.text with
  | .error e => (.error e, root)
  | .ok json => mergeObject json schema "" none root

theorem put_eq_mutate (schema : SchemaNode) (node : Node) (path : Path) (value : TypedValue) :
    node.put schema path value =
      node.mutate schema path (putRoot schema node path value) (putLast path · value) := rfl

theorem put_spec {node : Node} (path : Path) (value : TypedValue) (hplace : IsPlace schema node) :
    IsPlace schema (node.put schema path value).2 ∧
      Writes (node.put schema path value).1 (value.leaves? schema path.elems) node.leafAt?
        (node.put schema path value).2.leafAt? := by
  unfold put TypedValue.leaves?
  cases schema.locate path with
  | error e => exact ⟨hplace, LeafMap.writes_error e⟩
  | ok located =>
    cases hlast : path.elems.getLast? with
    | none =>
      simp only
      rw [← TypedValue.toOption_ofTyped _ path.text]
      cases Json.ofTyped value path.text with
      | error e => exact ⟨hplace, LeafMap.writes_error e⟩
      | ok json => exact (objectMerge_mergeObject json schema "" none node).spec hplace
    | some last =>
      have hkeeps : KeepsPlaces (putLast path last value) := fun schema children h =>
        (putLast_spec path last value h).1
      simp only [requireReached_node]
      refine ⟨isPlace_editBelow hkeeps hplace _ _ _ _, ?_⟩
      intro hok
      obtain ⟨place, inner, hinner, hresult, hfocused⟩ :=
        focused_of_editBelow hkeeps hplace (requireReached_eq_ok.mp hok)
      obtain ⟨leaves, hleaves, hwritten⟩ := (putLast_spec path last value hinner).2 hresult
      have hdescend : schema.descend path.elems = place.child? last.name := by
        rw [elems_eq_append_of_getLast? hlast, SchemaNode.descend_append, hfocused.descend]
        simp [SchemaNode.descend]
      refine ⟨leaves.nest path.elems.dropLast, by rw [hdescend, hleaves]; rfl, ?_⟩
      rw [LeafMap.assignAll_eq_under]
      exact hfocused.leaves_eq_under hwritten

end Put

end Node

end Telemetry
