import Telemetry.Proofs.Tree.Filling

/-!
Filling in defaults of a checked schema. It goes through for every tree whose nodes have the kinds
of their schema nodes, a schema node at a time, each changing what stands under its own name only.
Doing it again changes nothing.
-/

namespace Telemetry

namespace Node

/-- An edit that goes through for each entry goes through for the list and keeps its keys. -/
theorem exists_editEntries {edit : Node → Edited Unit Node} {R : Node → Node → Prop}
    {entries : List (Keys × Node)}
    (h : ∀ entry ∈ entries, ∃ after, edit entry.2 = (.ok (), after) ∧ R entry.2 after) :
    ∃ edited, editEntries edit entries = (.ok (), edited) ∧
      SortedMap.keys edited = SortedMap.keys entries ∧
      ∀ key, Option.Rel R (SortedMap.get? entries key) (SortedMap.get? edited key) := by
  induction entries with
  | nil => exact ⟨[], rfl, rfl, fun _ => .none⟩
  | cons head rest ih =>
    obtain ⟨key, entry⟩ := head
    obtain ⟨⟨after, hafter, hrel⟩, hrest⟩ := List.forall_mem_cons.mp h
    obtain ⟨edited, hedited, hkeys, hbelow⟩ := ih hrest
    refine ⟨(key, after) :: edited, ?_, congrArg (key :: ·) hkeys, ?_⟩
    · rw [editEntries, hafter]
      simp only [hedited]
    · intro other
      simp only [SortedMap.get?]
      split
      · exact .some hrel
      · exact hbelow other

def FillsIn (schemas : List (String × SchemaNode)) : Prop :=
  ∀ place children, (container children).Ordered →
    Matches (.container schemas) (.container children) →
      ∃ filled, fillChildren schemas place children = (.ok (), filled) ∧
        Settled (.container schemas) (.container children) (.container filled)

section Filling

variable {schemas : List (String × SchemaNode)} {schema : SchemaNode} {name : String}
  {children : List (String × Node)}

theorem FillsIn.node (h : FillsIn schemas) {node : Node} (hordered : node.Ordered)
    (hkinds : Matches (.container schemas) node) (place : String) :
    ∃ after, fillChildrenOf schemas place node = (.ok (), after) ∧
      Settled (.container schemas) node after := by
  obtain _ | ⟨below⟩ := hkinds
  obtain ⟨filled, hfilled, hsettled⟩ := h place _ hordered (.container below)
  exact ⟨_, by rw [fillChildrenOf, hfilled], hsettled⟩

theorem FillsIn.entries (h : FillsIn schemas) {keys : List String} {max : Option UInt64}
    {entries : List (Keys × Node)} (hordered : (list entries).Ordered)
    (hkinds : Matches (.list keys max schemas) (.list entries)) (place : String) :
    ∃ filled, editEntries (fillChildrenOf schemas place) entries = (.ok (), filled) ∧
      Settled (.list keys max schemas) (.list entries) (.list filled) := by
  cases hordered with
  | list sorted ordered =>
    have hedit : ∀ entry ∈ entries, ∃ after, fillChildrenOf schemas place entry.2 =
        (.ok (), after) ∧ Settled (.container schemas) entry.2 after := by
      rintro ⟨key, entry⟩ hmem
      cases hkinds with
      | list below =>
        exact h.node (ordered key entry hmem)
          (below key entry (SortedMap.get?_eq_some_of_mem sorted hmem)) place
    obtain ⟨filled, hfilled, hkeys, hbelow⟩ := exists_editEntries hedit
    have hsorted : (SortedMap.keys filled).Pairwise fun a b => compare a b = .lt :=
      hkeys ▸ List.pairwise_map.mpr sorted
    exact ⟨filled, hfilled, settled_list hkinds (List.pairwise_map.mp hsorted) hbelow⟩

/-- The first schema node changes what stands under its name, and nothing else. -/
theorem exists_fillChildren_cons (hfills : FillsIn schema.fields)
    (hconverts : schema.DefaultsConvert) (hsorted : SortedMap.Sorted children)
    (hchild : ∀ child, SortedMap.get? children name = some child →
      child.Ordered ∧ Matches schema child) (rest : List (String × SchemaNode)) (place : String) :
    ∃ between, fillChildren ((name, schema) :: rest) place children =
        fillChildren rest place between ∧ SortedMap.Sorted between ∧
      (∀ other, other ≠ name → SortedMap.get? between other = SortedMap.get? children other) ∧
      FilledBelow (some schema) (SortedMap.get? children name) (SortedMap.get? between name) := by
  have hinsert : ∀ {after : Node},
      FilledBelow (some schema) (SortedMap.get? children name) (some after) →
        SortedMap.Sorted (SortedMap.insert children name after) ∧
        (∀ other, other ≠ name → SortedMap.get? (SortedMap.insert children name after) other =
          SortedMap.get? children other) ∧
        FilledBelow (some schema) (SortedMap.get? children name)
          (SortedMap.get? (SortedMap.insert children name after) name) := by
    intro after hafter
    refine ⟨hsorted.insert name after, ?_, ?_⟩
    · exact fun other hne => SortedMap.get?_insert_of_ne children after hne
    · rwa [SortedMap.get?_insert_self]
  cases schema with
  | leaf leafSchema =>
    simp only [fillChildren]
    cases hget : SortedMap.get? children name with
    | some child =>
      obtain ⟨hordered, hkinds⟩ := hchild child hget
      refine ⟨children, ?_, hsorted, fun _ _ => rfl, ?_⟩
      · cases leafSchema.default <;> rfl
      · rw [hget]
        cases hkinds with
        | leaf value => exact .present ⟨hordered, .leaf _ _, .leaf _ _⟩
    | none =>
      cases hdefault : leafSchema.default with
      | none =>
        refine ⟨children, rfl, hsorted, fun _ _ => rfl, ?_⟩
        rw [hget]
        refine .absent ?_
        intro other hother
        cases hother
        exact hdefault
      | some default =>
        obtain ⟨value, hvalue⟩ := hconverts [] leafSchema default rfl hdefault
        simp only [hvalue]
        rw [hget] at hinsert
        exact ⟨_, rfl, hinsert (.default hdefault hvalue)⟩
  | container schemas =>
    simp only [fillChildren]
    cases hget : SortedMap.get? children name with
    | none =>
      refine ⟨children, rfl, hsorted, fun _ _ => rfl, ?_⟩
      rw [hget]
      refine .absent ?_
      intro other hother
      cases hother
    | some child =>
      obtain ⟨hordered, hkinds⟩ := hchild child hget
      obtain ⟨after, hafter, hsettled⟩ := FillsIn.node hfills hordered hkinds (place ++ "/" ++ name)
      have hfields : (SchemaNode.container schemas).fields = schemas := rfl
      rw [hfields] at hafter
      simp only [hafter]
      rw [hget] at hinsert
      exact ⟨_, rfl, hinsert (.present hsettled)⟩
  | list keys max schemas =>
    simp only [fillChildren]
    cases hget : SortedMap.get? children name with
    | none =>
      refine ⟨children, rfl, hsorted, fun _ _ => rfl, ?_⟩
      rw [hget]
      refine .absent ?_
      intro other hother
      cases hother
    | some child =>
      obtain ⟨hordered, hkinds⟩ := hchild child hget
      cases hkinds with
      | @list _ _ _ entries below =>
        have hfields : (SchemaNode.list keys max schemas).fields = schemas := rfl
        rw [hfields] at hfills
        obtain ⟨filled, hfilled, hsettled⟩ :=
          hfills.entries hordered (.list below : Matches (.list keys max schemas) _)
            (place ++ "/" ++ name)
        simp only [hfilled]
        rw [hget] at hinsert
        exact ⟨_, rfl, hinsert (.present hsettled)⟩

/-- One schema node after the other changes what stands under its name. -/
theorem exists_fillChildren (hschemas : SortedMap.Sorted schemas)
    (hfills : ∀ schema ∈ schemas, FillsIn schema.2.fields ∧ schema.2.DefaultsConvert)
    (hsorted : SortedMap.Sorted children)
    (hchild : ∀ name schema child, SortedMap.get? schemas name = some schema →
      SortedMap.get? children name = some child → child.Ordered ∧ Matches schema child)
    (place : String) :
    ∃ filled, fillChildren schemas place children = (.ok (), filled) ∧ SortedMap.Sorted filled ∧
      ∀ name, FilledBelow (SortedMap.get? schemas name) (SortedMap.get? children name)
        (SortedMap.get? filled name) := by
  induction schemas generalizing children with
  | nil => exact ⟨children, by rw [fillChildren], hsorted, fun name => .unknown _⟩
  | cons head rest ih =>
    obtain ⟨name, schema⟩ := head
    obtain ⟨⟨hfirst, hconverts⟩, hrest⟩ := List.forall_mem_cons.mp hfills
    have hself : SortedMap.get? ((name, schema) :: rest) name = some schema :=
      SortedMap.get?_eq_some_of_mem hschemas List.mem_cons_self
    have hnot : SortedMap.get? rest name = none := SortedMap.get?_tail_self hschemas
    obtain ⟨between, hbetween, hbetweenSorted, hothers, hname⟩ :=
      exists_fillChildren_cons hfirst hconverts hsorted
        (fun child => hchild name schema child hself) rest place
    have hne : ∀ {other found}, SortedMap.get? rest other = some found → other ≠ name := by
      rintro other found hfound rfl
      rw [hnot] at hfound
      cases hfound
    obtain ⟨filled, hfilled, hfilledSorted, hbelow⟩ := ih hschemas.tail hrest hbetweenSorted (by
      intro other found child hfound hget
      rw [hothers other (hne hfound)] at hget
      refine hchild other found child ?_ hget
      rwa [SortedMap.get?_cons_of_ne (hne hfound)])
    refine ⟨filled, hbetween.trans hfilled, hfilledSorted, ?_⟩
    intro other
    by_cases hother : other = name
    · subst hother
      have hkept := hbelow other
      rw [hnot] at hkept
      rw [hself]
      generalize SortedMap.get? filled other = after at hkept ⊢
      cases hkept with
      | unknown => exact hname
    · rw [SortedMap.get?_cons_of_ne hother, ← hothers other hother]
      exact hbelow other

theorem fillsIn_of_ordered (hordered : schema.Ordered) (hconverts : schema.DefaultsConvert) :
    FillsIn schema.fields := by
  have hchildren : ∀ {schemas : List (String × SchemaNode)}, SortedMap.Sorted schemas →
      (∀ schema ∈ schemas, FillsIn schema.2.fields ∧ schema.2.DefaultsConvert) →
        FillsIn schemas := by
    intro schemas hschemas hfills place children hbefore hkinds
    have hbelow := hbefore
    obtain _ | ⟨sorted, ordered⟩ := hbelow
    obtain ⟨filled, hfilled, hsorted, hbelow⟩ := exists_fillChildren hschemas hfills sorted (by
      intro name schema child hschema hget
      obtain _ | ⟨kinds⟩ := hkinds
      exact ⟨ordered name child (SortedMap.mem_of_get?_eq_some hget),
        kinds name child schema hget hschema⟩) place
    exact ⟨filled, hfilled, settled_container hbefore hkinds hsorted hbelow⟩
  induction hordered with
  | leaf schema => exact hchildren SortedMap.sorted_nil nofun
  | container sorted below ih =>
    refine hchildren sorted ?_
    intro child hmem
    have hchild := hconverts.child (SortedMap.get?_eq_some_of_mem sorted hmem)
    exact ⟨ih child hmem hchild, hchild⟩
  | list sorted below ih =>
    refine hchildren sorted ?_
    intro child hmem
    have hchild := hconverts.child (SortedMap.get?_eq_some_of_mem sorted hmem)
    exact ⟨ih child hmem hchild, hchild⟩

end Filling

/-- Where a schema passes its check, filling in defaults goes through for each tree of its kinds.
What was there is kept, each default that was missing from a container that was there has become a
leaf with its value, and nothing else has been added. Filling in again changes nothing. -/
theorem defaults_are_filled_in {schema : Schema} {root : Node} (hcheck : schema.check = .ok ())
    (hschema : schema.root.Ordered) (hroot : root.Ordered) (hkinds : Matches schema.root root) :
    ∃ filled, root.fillDefaults schema.root = (.ok (), filled) ∧
      FilledIn schema.root root.contents filled.contents ∧
      filled.fillDefaults schema.root = (.ok (), filled) := by
  obtain ⟨⟨schemas, hcontainer⟩, hnode⟩ := schema.root_of_check hcheck
  have hfills := fillsIn_of_ordered hschema (SchemaNode.defaultsConvert_of_check hnode)
  rw [hcontainer] at hfills hkinds ⊢
  obtain ⟨filled, hfilled, hsettled⟩ := FillsIn.node hfills hroot hkinds ""
  obtain ⟨again, hagain, hsettledAgain⟩ :=
    FillsIn.node hfills hsettled.ordered hsettled.kinds ""
  have hsame : filled.contents = again.contents := by
    funext moves
    cases hmoves : again.contents moves with
    | some content =>
      rcases hsettledAgain.filled.nothingElse moves content hmoves with hbefore | ⟨_, _, hmissing⟩
      · exact hbefore
      · exact absurd hmissing hsettled.filled.not_missing
    | none =>
      cases hbefore : filled.contents moves with
      | none => rfl
      | some content =>
        rw [hsettledAgain.filled.kept moves content hbefore] at hmoves
        cases hmoves
  cases hsettled.ordered.eq_of_contents hsettledAgain.ordered hsame
  exact ⟨filled, hfilled, hsettled.filled, hagain⟩

/-- The size of packets is filled in for an interface that is there, and no system is created for
its name. -/
theorem defaults_are_filled_in_interfaces :
    let mtu : LeafSchema := ⟨.uint none none, some (.nat 1500)⟩
    let name : LeafSchema := ⟨.string none none, some (.string "router")⟩
    let schema : Schema := ⟨[], .container [("interface", .list ["name"] none [("mtu", .leaf mtu)]),
      ("system", .container [("name", .leaf name)])]⟩
    let root : Node := .container [("interface", .list [([("name", "eth0")], .container [])])]
    let eth0 : List Move := [.child "interface", .entry [("name", "eth0")]]
    (schema.check = .ok () ∧ schema.root.Ordered ∧ root.Ordered ∧ Matches schema.root root) ∧
      ∃ filled, root.fillDefaults schema.root = (.ok (), filled) ∧
        filled.contents (eth0 ++ [.child "mtu"]) = some (.leaf (.uint 1500)) ∧
        filled.contents [.child "system"] = none ∧
        filled.fillDefaults schema.root = (.ok (), filled) := by
  intro mtu name schema root eth0
  have hcheck : schema.check = .ok () := rfl
  have hschema : schema.root.Ordered := by
    refine .container (List.pairwise_pair.mpr (by decide)) ?_
    intro child hchild
    rcases List.mem_pair.mp hchild with rfl | rfl
    · exact .list (List.pairwise_singleton _ _) (List.forall_mem_singleton.mpr (.leaf mtu))
    · exact .container (List.pairwise_singleton _ _) (List.forall_mem_singleton.mpr (.leaf name))
  have hroot : root.Ordered := by
    refine .container (List.pairwise_singleton _ _) ?_
    rintro _ _ (_ | ⟨_, ⟨⟩⟩)
    refine .list (List.pairwise_singleton _ _) ?_
    rintro _ _ (_ | ⟨_, ⟨⟩⟩)
    exact .container List.Pairwise.nil nofun
  have hkinds : Matches schema.root root := by
    refine .container ?_
    intro child node childSchema hget hknown
    cases List.mem_singleton.mp (SortedMap.mem_of_get?_eq_some hget)
    cases hknown
    refine .list ?_
    intro key entry hentry
    cases List.mem_singleton.mp (SortedMap.mem_of_get?_eq_some hentry)
    exact .container nofun
  obtain ⟨filled, hfilled, hspec, hagain⟩ := defaults_are_filled_in hcheck hschema hroot hkinds
  refine ⟨⟨hcheck, hschema, hroot, hkinds⟩, filled, hfilled, ?_, ?_, hagain⟩
  · have hmissing : Missing schema.root root.contents (eth0 ++ [.child "mtu"]) mtu (.nat 1500) :=
      .inside rfl (.inside rfl (.here rfl rfl rfl rfl))
    obtain ⟨value, hvalue, hmtu⟩ := hspec.added _ _ _ hmissing
    cases hvalue ""
    exact hmtu
  · cases hsystem : filled.contents [.child "system"] with
    | none => rfl
    | some content =>
      rcases hspec.nothingElse _ _ hsystem with hbefore | ⟨leafSchema, default, hmissing⟩
      · cases hbefore
      · obtain ⟨-, -, known, -⟩ | ⟨-, ⟨⟩⟩ := hmissing
        cases known

end Node

end Telemetry
