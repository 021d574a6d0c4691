import Telemetry.Proofs.Siblings
import Telemetry.Proofs.Tree.Patch

/-!
A difference that is extended to siblings says one thing about every path. The paths of the
difference are all different, siblings stand outside of the state containers and its own paths
inside, and a sibling tells its leaf, so nothing meets nothing else. What cannot be extended is
refused for its first path that is not one of a state leaf.
-/

namespace Telemetry

open SetRequest (pathOf)

namespace Notification

def changedPaths (n : Notification) : List Path :=
  n.deletes ++ n.updates.map pathOf

section Difference

variable {a b : Node} {difference : Notification}

theorem nodup_deletes_ofDiff (h : ofDiff a b = .ok difference) : difference.deletes.Nodup :=
  nodup_of_increase (deletes_increase_of_ofDiff h)

theorem nodup_updates_ofDiff (h : ofDiff a b = .ok difference) :
    (difference.updates.map pathOf).Nodup :=
  nodup_of_increase (List.pairwise_map.mpr (updates_increase_of_ofDiff h))

/-- What is deleted has no leaf in the second tree, and what is updated has one. -/
theorem disjoint_of_ofDiff (h : ofDiff a b = .ok difference) :
    ∀ path ∈ difference.deletes, path ∉ difference.updates.map pathOf := by
  unfold ofDiff at h
  split at h
  · cases h
    intro path hdelete hupdate
    obtain ⟨⟨text, lost⟩, hlost, rfl⟩ := List.mem_map.mp hdelete
    obtain ⟨hbefore, hgone⟩ := List.mem_filter.mp hlost
    obtain ⟨update, hmem, hsame⟩ := List.mem_map.mp hupdate
    obtain ⟨⟨other, gained⟩, hgained, rfl⟩ := List.mem_map.mp hmem
    have hafter := List.mem_of_mem_filter hgained
    have hpaths : gained.1 = lost.1 := hsame
    have htext : other = text := by
      rw [← Node.text_of_mem_leavesByText hafter, ← Node.text_of_mem_leavesByText hbefore, hpaths]
    rw [htext] at hafter
    simp [SortedMap.contains, SortedMap.get?_eq_some_of_mem (Node.sorted_leavesByText b) hafter]
      at hgone
  · cases h

end Difference

end Notification

namespace Siblings

variable {s : Siblings}

section Renaming

theorem not_isState_iff {elems : List PathElem} :
    ¬ s.IsState elems ↔ elems.length < 2 ∨
      ∃ above parent last, elems = above ++ [parent, last] ∧ parent.name ≠ s.state := by
  by_cases hlength : 2 ≤ elems.length
  · obtain ⟨above, parent, last, rfl⟩ := exists_append_of_length hlength
    rw [isState_iff, renameParent_append]
    constructor
    · intro h
      refine Or.inr ⟨above, parent, last, rfl, ?_⟩
      intro hname
      exact h ⟨_, if_pos hname⟩
    · rintro (hshort | ⟨above', parent', last', hsame, hname⟩)
      · omega
      · obtain ⟨-, hlast⟩ := List.append_inj' hsame rfl
        obtain ⟨rfl, -⟩ := List.cons.inj hlast
        simp [hname]
  · have hshort : elems.length < 2 := Nat.lt_of_not_le hlength
    refine iff_of_true ?_ (Or.inl hshort)
    rintro ⟨above, parent, last, rfl, -⟩
    simp at hlength

/-- No sibling stands in a state container. -/
theorem not_isState_of_renameParent (hnames : s.state ≠ s.config) {elems sibling : List PathElem}
    (h : s.renameParent elems = some sibling) : ¬ s.IsState sibling := by
  obtain ⟨above, parent, last, rfl, -, rfl⟩ := renameParent_eq_some.mp h
  exact not_isState_iff.mpr (Or.inr ⟨above, _, last, rfl, hnames.symm⟩)

end Renaming

section Lists

variable {notState : String → String → SiblingError} {paths siblings : List Path}

/-- The siblings of different paths are different, and none of them is one of the paths. -/
theorem nodup_siblings_append (hnames : s.state ≠ s.config) (hnodup : paths.Nodup)
    (h : paths.mapM (s.siblingOf notState) = .ok siblings) : (siblings ++ paths).Nodup := by
  refine List.nodup_append.mpr ⟨nodup_of_mapM h hnodup ?_, hnodup, ?_⟩
  · intro path hpath other hother sibling hsibling hsame
    obtain ⟨elems, helems, rfl⟩ := siblingOf_eq_ok.mp hsibling
    obtain ⟨others, hothers, hrest⟩ := siblingOf_eq_ok.mp hsame
    obtain ⟨horigin, rfl, htarget⟩ := Path.mk.inj hrest
    have hequal : path.elems = other.elems :=
      eq_of_mem_copies hnames (isState_of_mapM h hpath) (isState_of_mapM h hother)
        (mem_copies.mpr (Or.inr helems)) (mem_copies.mpr (Or.inr hothers))
    cases path
    cases other
    exact congr (congr (congrArg Path.mk horigin) hequal) htarget
  · rintro sibling hsibling path hpath rfl
    obtain ⟨own, hown, hrename⟩ := (mem_of_mapM_eq_ok h).mp hsibling
    obtain ⟨elems, helems, rfl⟩ := siblingOf_eq_ok.mp hrename
    exact not_isState_of_renameParent hnames helems (isState_of_mapM h hpath)

/-- Where paths are different from others, so are they with the siblings of both. -/
theorem disjoint_siblings_append (hnames : s.state ≠ s.config)
    {notState' : String → String → SiblingError} {others siblings' : List Path}
    (h : paths.mapM (s.siblingOf notState) = .ok siblings)
    (h' : others.mapM (s.siblingOf notState') = .ok siblings')
    (hdisjoint : ∀ path ∈ paths, path ∉ others) :
    ∀ path ∈ siblings ++ paths, path ∉ siblings' ++ others := by
  intro path hpath hother
  obtain ⟨own, hmem, copy, hcopy, rfl⟩ := (mem_siblings_append h).mp hpath
  obtain ⟨other, hmem', copy', hcopy', hsame⟩ := (mem_siblings_append h').mp hother
  obtain ⟨horigin, rfl, htarget⟩ := Path.mk.inj hsame
  have hequal : own.elems = other.elems :=
    eq_of_mem_copies hnames (isState_of_mapM h hmem) (isState_of_mapM h' hmem') hcopy hcopy'
  have hown : own = other := by
    cases own
    cases other
    exact congr (congr (congrArg Path.mk horigin) hequal) htarget
  exact hdisjoint own hmem (hown ▸ hmem')

/-- What is extended holds a path and its sibling in turn: where one is of a state leaf the other
is there too. -/
theorem sibling_mem_append (h : paths.mapM (s.siblingOf notState) = .ok siblings) {path : Path}
    (hpath : path ∈ siblings ++ paths) {above : List PathElem} {parent last : PathElem}
    (helems : path.elems = above ++ [parent, last]) (hname : parent.name = s.state) :
    { path with elems := above ++ [{ parent with name := s.config }, last] } ∈
      siblings ++ paths := by
  have hstate : s.IsState path.elems := ⟨above, parent, last, helems, hname⟩
  obtain ⟨own, hown, copy, hcopy, rfl⟩ := (mem_siblings_append h).mp hpath
  obtain rfl : copy = own.elems := eq_of_isState_of_mem_copies hstate hcopy
  refine (mem_siblings_append h).mpr ⟨own, hown, _, mem_copies.mpr (Or.inr ?_), rfl⟩
  rw [helems, renameParent_append, if_pos hname]

end Lists

section Refusals

variable {n : Notification}

def refusal (s : Siblings) (notState : String → String → SiblingError) (path : Path) :
    SiblingError :=
  if path.elems.length < 2 then .tooShort path.text s.state else notState path.text s.state

/-- A notification is refused for the first of its paths that is not one of a state leaf, deletes
looked at before updates. -/
inductive Refuses (s : Siblings) (n : Notification) : SiblingError → Prop
  | delete {before : List Path} {path : Path} {after : List Path}
      (split : n.deletes = before ++ path :: after)
      (passed : ∀ other ∈ before, s.IsState other.elems) (fails : ¬ s.IsState path.elems) :
      Refuses s n (s.refusal .nonStateDelete path)
  | update {before : List Update} {update : Update} {after : List Update}
      (split : n.updates = before ++ update :: after)
      (deletes : ∀ path ∈ n.deletes, s.IsState path.elems)
      (passed : ∀ other ∈ before, s.IsState (pathOf other).elems)
      (fails : ¬ s.IsState (pathOf update).elems) :
      Refuses s n (s.refusal .nonStateUpdate (pathOf update))

theorem exists_siblingOf {notState : String → String → SiblingError} {path : Path} :
    (∃ sibling, s.siblingOf notState path = .ok sibling) ↔ s.IsState path.elems := by
  rw [isState_iff]
  constructor
  · rintro ⟨sibling, h⟩
    obtain ⟨elems, helems, -⟩ := siblingOf_eq_ok.mp h
    exact ⟨elems, helems⟩
  · rintro ⟨elems, helems⟩
    exact ⟨_, siblingOf_eq_ok.mpr ⟨elems, helems, rfl⟩⟩

theorem siblingOf_eq_error {notState : String → String → SiblingError} {path : Path}
    {e : SiblingError} :
    s.siblingOf notState path = .error e ↔
      ¬ s.IsState path.elems ∧ e = s.refusal notState path := by
  rw [← exists_siblingOf, siblingOf, refusal]
  by_cases hlength : path.elems.length < 2
  · simp [hlength, eq_comm]
  · cases hrename : s.renameParent path.elems <;> simp [hlength, eq_comm]

theorem exists_siblingUpdate {update : Update} :
    (∃ sibling, s.siblingUpdate update = .ok sibling) ↔ s.IsState (pathOf update).elems := by
  rw [← exists_siblingOf]
  simp only [siblingUpdate, map_eq_ok, pathOf]
  constructor
  · rintro ⟨-, path, h, -⟩
    exact ⟨path, h⟩
  · rintro ⟨path, h⟩
    exact ⟨_, path, h, rfl⟩

theorem siblingUpdate_eq_error {update : Update} {e : SiblingError} :
    s.siblingUpdate update = .error e ↔
      ¬ s.IsState (pathOf update).elems ∧ e = s.refusal .nonStateUpdate (pathOf update) := by
  rw [← siblingOf_eq_error, siblingUpdate, pathOf]
  cases s.siblingOf .nonStateUpdate (update.path.getD Path.root) <;> simp [Except.map]

theorem extend_eq_error {e : SiblingError} : s.extend n = .error e ↔ s.Refuses n e := by
  have hrun : s.extend n = .error e ↔ n.deletes.mapM (s.siblingOf .nonStateDelete) = .error e ∨
      (∀ path ∈ n.deletes, s.IsState path.elems) ∧ n.updates.mapM s.siblingUpdate = .error e := by
    have hdeletes : (∃ siblings, n.deletes.mapM (s.siblingOf .nonStateDelete) = .ok siblings) ↔
        ∀ path ∈ n.deletes, s.IsState path.elems := by
      simp only [exists_mapM_eq_ok, exists_siblingOf]
    simp [extend, bind_eq_error, ← hdeletes]
  rw [hrun, mapM_eq_error, mapM_eq_error]
  simp only [exists_siblingOf, siblingOf_eq_error, exists_siblingUpdate, siblingUpdate_eq_error]
  constructor
  · rintro (⟨before, path, after, hsplit, hpassed, hfails, rfl⟩ |
      ⟨hdeletes, before, update, after, hsplit, hpassed, hfails, rfl⟩)
    · exact .delete hsplit hpassed hfails
    · exact .update hsplit hdeletes hpassed hfails
  · intro h
    cases h with
    | delete hsplit hpassed hfails => exact Or.inl ⟨_, _, _, hsplit, hpassed, hfails, rfl⟩
    | update hsplit hdeletes hpassed hfails =>
      exact Or.inr ⟨hdeletes, _, _, _, hsplit, hpassed, hfails, rfl⟩

/-- A notification is refused just if some path of it is not one of a state leaf. -/
theorem exists_extend_eq_error : (∃ e, s.extend n = .error e) ↔
    ∃ path ∈ n.changedPaths, ¬ s.IsState path.elems := by
  constructor
  · rintro ⟨e, h⟩
    cases extend_eq_error.mp h with
    | @delete before path after hsplit hpassed hfails =>
      exact ⟨path, by simp [Notification.changedPaths, hsplit], hfails⟩
    | @update before update after hsplit hdeletes hpassed hfails =>
      exact ⟨pathOf update, by simp [Notification.changedPaths, hsplit], hfails⟩
  · rintro ⟨path, hpath, hfails⟩
    cases hrun : s.extend n with
    | error e => exact ⟨e, rfl⟩
    | ok extended =>
      obtain ⟨deletes, updates, hdeletes, hupdates, -⟩ := extend_eq_ok hrun
      rcases List.mem_append.mp hpath with hdelete | hupdate
      · exact absurd (isState_of_mapM hdeletes hdelete) hfails
      · obtain ⟨update, hmem, rfl⟩ := List.mem_map.mp hupdate
        obtain ⟨sibling, hsibling⟩ := exists_of_mapM_eq_ok hupdates hmem
        exact absurd (exists_siblingUpdate.mp ⟨sibling, hsibling⟩) hfails

end Refusals

/-- A notification says all that another one says, and the same of the siblings, but says nothing
twice and nothing against itself. -/
structure Doubles (s : Siblings) (n extended : Notification) : Prop where
  updates_once : (extended.updates.map pathOf).Nodup
  deletes_once : extended.deletes.Nodup
  disjoint : ∀ path ∈ extended.deletes, path ∉ extended.updates.map pathOf
  updates_length : extended.updates.length = 2 * n.updates.length
  deletes_length : extended.deletes.length = 2 * n.deletes.length
  recovers : { extended with
    updates := extended.updates.take (extended.updates.length / 2)
    deletes := extended.deletes.drop (extended.deletes.length / 2) } = n
  delete_sibling : ∀ path ∈ extended.deletes, ∀ above parent last,
    path.elems = above ++ [parent, last] → parent.name = s.state →
      { path with elems := above ++ [{ parent with name := s.config }, last] } ∈ extended.deletes
  update_sibling : ∀ update ∈ extended.updates, ∀ above parent last,
    (pathOf update).elems = above ++ [parent, last] → parent.name = s.state →
      { update with path := some { pathOf update with
        elems := above ++ [{ parent with name := s.config }, last] } } ∈ extended.updates

section Extension

variable {n extended : Notification}

theorem pathOf_of_siblingUpdate {update sibling : Update}
    (h : s.siblingUpdate update = .ok sibling) :
    s.siblingOf .nonStateUpdate (pathOf update) = .ok (pathOf sibling) ∧
      sibling = { update with path := some (pathOf sibling) } := by
  obtain ⟨path, hpath, rfl⟩ := map_eq_ok.mp h
  exact ⟨hpath, rfl⟩

/-- The siblings of updates stand at the siblings of their paths. -/
theorem mapM_siblingUpdate {updates siblings : List Update}
    (h : updates.mapM s.siblingUpdate = .ok siblings) :
    (updates.map pathOf).mapM (s.siblingOf .nonStateUpdate) = .ok (siblings.map pathOf) := by
  induction updates generalizing siblings with
  | nil =>
    cases h
    rfl
  | cons update updates ih =>
    obtain ⟨sibling, rest, hsibling, hrest, rfl⟩ := mapM_eq_ok_cons.mp h
    exact mapM_eq_ok_cons.mpr
      ⟨_, _, (pathOf_of_siblingUpdate hsibling).1, ih hrest, rfl⟩

/-- Extending a notification that does not contradict itself does not bring in a contradiction. -/
theorem doubles_of_extend (hnames : s.state ≠ s.config) (hdeletes : n.deletes.Nodup)
    (hupdates : (n.updates.map pathOf).Nodup)
    (hdisjoint : ∀ path ∈ n.deletes, path ∉ n.updates.map pathOf)
    (h : s.extend n = .ok extended) : s.Doubles n extended := by
  obtain ⟨deletes, updates, hdeleted, hupdated, rfl⟩ := extend_eq_ok h
  have hpaths := mapM_siblingUpdate hupdated
  have hdeletesLength := length_of_mapM hdeleted
  have hupdatesLength := length_of_mapM hupdated
  have hmem : ∀ {path : Path}, path ∈ (n.updates ++ updates).map pathOf ↔
      path ∈ updates.map pathOf ++ n.updates.map pathOf := by
    intro path
    simp only [List.map_append, List.mem_append, or_comm]
  refine {
    updates_once := ?_
    deletes_once := nodup_siblings_append hnames hdeletes hdeleted
    disjoint := ?_
    updates_length := ?_
    deletes_length := ?_
    recovers := ?_
    delete_sibling := ?_
    update_sibling := ?_ }
  · rw [List.map_append]
    exact List.nodup_append_comm.mp (nodup_siblings_append hnames hupdates hpaths)
  · intro path hpath
    rw [hmem]
    exact disjoint_siblings_append hnames hdeleted hpaths hdisjoint path hpath
  · rw [List.length_append, hupdatesLength, Nat.two_mul]
  · rw [List.length_append, hdeletesLength, Nat.two_mul]
  · have htake : (n.updates ++ updates).length / 2 = n.updates.length := by
      rw [List.length_append]
      omega
    have hdrop : (deletes ++ n.deletes).length / 2 = deletes.length := by
      rw [List.length_append]
      omega
    simp only [htake, hdrop, List.take_left, List.drop_left]
  · intro path hpath above parent last helems hname
    exact sibling_mem_append hdeleted hpath helems hname
  · intro update hupdate above parent last helems hname
    rcases List.mem_append.mp hupdate with hown | hsibling
    · obtain ⟨sibling, hsibling⟩ := exists_of_mapM_eq_ok hupdated hown
      obtain ⟨hpath, hsame⟩ := pathOf_of_siblingUpdate hsibling
      obtain ⟨elems, hrename, hpath⟩ := siblingOf_eq_ok.mp hpath
      rw [helems, renameParent_append, if_pos hname] at hrename
      rw [Option.some.inj hrename, ← hpath, ← hsame]
      exact List.mem_append_right _ ((mem_of_mapM_eq_ok hupdated).mpr ⟨update, hown, hsibling⟩)
    · -- a sibling is not in a state container itself
      obtain ⟨own, -, hsibling⟩ := (mem_of_mapM_eq_ok hupdated).mp hsibling
      obtain ⟨elems, hrename, hpath⟩ :=
        siblingOf_eq_ok.mp (pathOf_of_siblingUpdate hsibling).1
      rw [hpath] at helems
      exact absurd ⟨above, parent, last, helems, hname⟩
        (not_isState_of_renameParent hnames hrename)

/-- What is published of a difference never contradicts itself. A difference is extended unless
one of its paths has no state container above its last element, and is refused for the first
such path. -/
theorem difference_is_doubled (hnames : s.state ≠ s.config)
    (children others : List (String × Node)) :
    ∃ difference,
      Notification.ofDiff (.container children) (.container others) = .ok difference ∧
      (∀ extended, s.extend difference = .ok extended → s.Doubles difference extended) ∧
      (∀ e, s.extend difference = .error e ↔ s.Refuses difference e) ∧
      ((∃ e, s.extend difference = .error e) ↔ ∃ path ∈ difference.changedPaths,
        path.elems.length < 2 ∨
          ∃ above parent last, path.elems = above ++ [parent, last] ∧ parent.name ≠ s.state) := by
  have hdifference : ∃ difference,
      Notification.ofDiff (.container children) (.container others) = .ok difference := ⟨_, rfl⟩
  obtain ⟨difference, hdifference⟩ := hdifference
  refine ⟨difference, hdifference, ?_, fun e => extend_eq_error, ?_⟩
  · intro extended hextended
    exact doubles_of_extend hnames (Notification.nodup_deletes_ofDiff hdifference)
      (Notification.nodup_updates_ofDiff hdifference)
      (Notification.disjoint_of_ofDiff hdifference) hextended
  · simp only [exists_extend_eq_error, not_isState_iff]

end Extension

section Witness

def stateNumbers (leaves : List (String × UInt64)) : List (String × Node) :=
  [("state", .container (leaves.map fun leaf => (leaf.1, .leaf (.uint leaf.2))))]

/-- A changed size of packets is updated and a lost speed is deleted, both at two places. -/
theorem difference_is_doubled_stateNumbers :
    standard.state ≠ standard.config ∧ ∃ difference extended,
      Notification.ofDiff (.container (stateNumbers [("mtu", 1500), ("speed", 10)]))
        (.container (stateNumbers [("mtu", 9000)])) = .ok difference ∧
      standard.extend difference = .ok extended ∧ standard.Doubles difference extended ∧
      extended.deletes.length = 2 ∧ extended.updates.length = 2 := by
  have hnames : standard.state ≠ standard.config := by decide
  obtain ⟨difference, hdifference, hdoubles, -⟩ := difference_is_doubled hnames
    (stateNumbers [("mtu", 1500), ("speed", 10)]) (stateNumbers [("mtu", 9000)])
  have hlengths : ((Notification.ofDiff (.container (stateNumbers [("mtu", 1500), ("speed", 10)]))
      (.container (stateNumbers [("mtu", 9000)]))).toOption.bind fun difference =>
        (standard.extend difference).toOption.map fun extended =>
          (extended.deletes.length, extended.updates.length)) = some (2, 2) := by
    decide +kernel
  rw [hdifference] at hlengths
  obtain ⟨extended, hextended, hlengths⟩ := Option.map_eq_some_iff.mp hlengths
  have hextended := toOption_eq_some.mp hextended
  obtain ⟨hdeletes, hupdates⟩ := Prod.mk.inj hlengths
  exact ⟨hnames, difference, extended, hdifference, hextended, hdoubles extended hextended,
    hdeletes, hupdates⟩

end Witness

end Siblings

end Telemetry
