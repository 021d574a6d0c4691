import Telemetry.Proofs.Path.Identity

/-!
Matching as a relation. Patterns are paths, so a match may be matched against in turn, and an
instance of an instance of a pattern is an instance of the pattern. A literal `*` in the middle
does no harm: it is matched by the wildcard only. Paths are appended to either side of a match
without breaking it, and what both sides begin with does not decide it.
-/

namespace Telemetry

namespace PathElem

theorem isMatch_iff {elem pattern : PathElem} :
    elem.isMatch pattern = true ↔ (pattern.name = wildcard ∨ pattern.name = elem.name) ∧
      ∀ key value, (key, value) ∈ pattern.keys →
        ∃ actual, SortedMap.get? elem.keys key = some actual ∧
          (value = wildcard ∨ value = actual) := by
  simp only [isMatch, Bool.and_eq_true, Bool.or_eq_true, beq_iff_eq, List.all_eq_true, Prod.forall]
  refine and_congr_right fun _ => forall_congr' fun key => forall_congr' fun value => ?_
  cases SortedMap.get? elem.keys key <;> simp

theorem isMatch_trans {elem middle pattern : PathElem} (h : elem.isMatch middle = true)
    (hmiddle : middle.isMatch pattern = true) : elem.isMatch pattern = true := by
  obtain ⟨hname, hkeys⟩ := isMatch_iff.mp h
  obtain ⟨hmiddleName, hmiddleKeys⟩ := isMatch_iff.mp hmiddle
  refine isMatch_iff.mpr ⟨?_, ?_⟩
  · rcases hmiddleName with hwild | hsame
    · exact Or.inl hwild
    · rw [hsame]
      exact hname
  · intro key value hmem
    obtain ⟨between, hbetween, hvalue⟩ := hmiddleKeys key value hmem
    obtain ⟨actual, hactual, hbetweenValue⟩ :=
      hkeys key between (SortedMap.mem_of_get?_eq_some hbetween)
    refine ⟨actual, hactual, ?_⟩
    rcases hvalue with hwild | hsame
    · exact Or.inl hwild
    · rw [hsame]
      exact hbetweenValue

end PathElem

namespace Path

theorem matchElems_trans {elems middle pattern : List PathElem}
    (h : matchElems elems middle = true) (hmiddle : matchElems middle pattern = true) :
    matchElems elems pattern = true := by
  induction pattern generalizing elems middle with
  | nil => cases elems <;> rfl
  | cons last pattern ih =>
    cases middle with
    | nil => cases hmiddle
    | cons between middle =>
      cases elems with
      | nil => cases h
      | cons elem elems =>
        simp only [matchElems, Bool.and_eq_true] at h hmiddle ⊢
        exact ⟨PathElem.isMatch_trans h.1 hmiddle.1, ih h.2 hmiddle.2⟩

theorem isMatch_trans {path middle pattern : Path} (h : path.isMatch middle = true)
    (hmiddle : middle.isMatch pattern = true) : path.isMatch pattern = true :=
  matchElems_trans h hmiddle

/-- What is below a match is a match. -/
theorem matchElems_append {elems pattern : List PathElem} (h : matchElems elems pattern = true)
    (rest : List PathElem) : matchElems (elems ++ rest) pattern = true := by
  induction pattern generalizing elems with
  | nil => cases elems ++ rest <;> rfl
  | cons first pattern ih =>
    cases elems with
    | nil => cases h
    | cons elem elems =>
      simp only [List.cons_append, matchElems, Bool.and_eq_true] at h ⊢
      exact ⟨h.1, ih h.2⟩

theorem matchElems_append_append (base elems pattern : List PathElem) :
    matchElems (base ++ elems) (base ++ pattern) =
      (matchElems base base && matchElems elems pattern) := by
  induction base with
  | nil => rfl
  | cons elem base ih => simp only [List.cons_append, matchElems, ih, Bool.and_assoc]

theorem isMatch_self {path : Path} (h : KeysOrdered path.elems) : path.isMatch path = true :=
  matchElems_self h

/-- A path matches what it begins with, read as a pattern. -/
theorem isMatch_of_startsWith {path start : Path} (h : KeysOrdered start.elems)
    (hstart : path.startsWith start = true) : path.isMatch start = true := by
  obtain ⟨rest, hrest⟩ := List.isPrefixOf_iff_prefix.mp hstart
  rw [isMatch, ← hrest]
  exact matchElems_append (matchElems_self h) rest

theorem isMatch_join {path pattern : Path} (h : path.isMatch pattern = true) (rest : Path) :
    (path.join rest).isMatch pattern = true :=
  matchElems_append h rest.elems

/-- Joined to one base path, a path and a pattern match if they do without it. -/
theorem isMatch_join_join {base : Path} (h : KeysOrdered base.elems) (path pattern : Path) :
    (base.join path).isMatch (base.join pattern) = path.isMatch pattern := by
  change matchElems (base.elems ++ path.elems) (base.elems ++ pattern.elems) = _
  rw [matchElems_append_append, matchElems_self h, Bool.true_and]
  rfl

/-- Matching is a preorder that goes with joining: every path matches itself, a match of a match
is a match, a path matches what it begins with, what is below a match is a match, and a common
base path may be added or dropped. A `*` in the paths, as a name or as a key value, is no
exception to any of it. -/
theorem matching_is_preorder :
    (∀ path : Path, KeysOrdered path.elems → path.isMatch path = true) ∧
      (∀ path middle pattern : Path, path.isMatch middle = true → middle.isMatch pattern = true →
        path.isMatch pattern = true) ∧
      (∀ path start : Path, KeysOrdered start.elems → path.startsWith start = true →
        path.isMatch start = true) ∧
      (∀ path pattern rest : Path, path.isMatch pattern = true →
        (path.join rest).isMatch pattern = true) ∧
      ∀ base path pattern : Path, KeysOrdered base.elems →
        ((base.join path).isMatch (base.join pattern) = true ↔ path.isMatch pattern = true) := by
  refine ⟨fun path => isMatch_self, fun path middle pattern => isMatch_trans,
    fun path start => isMatch_of_startsWith, fun path pattern rest h => isMatch_join h rest, ?_⟩
  intro base path pattern h
  rw [isMatch_join_join h]

/-- A queue of an interface, the interfaces of the literal name `*`, and any element that has a
name: each matches the next, also below a base path that holds wildcards itself. -/
theorem matching_is_preorder_interfaces :
    let queue : Path := .ofElems [⟨"interface", [("name", "eth0"), ("slot", "1")]⟩, .plain "queue"]
    let every : Path := .ofElems [⟨"interface", [("name", "*")]⟩]
    let named : Path := .ofElems [⟨"*", [("name", "*")]⟩]
    let base : Path := .ofElems [⟨"*", [("*", "*")]⟩]
    KeysOrdered queue.elems ∧ queue.isMatch queue = true ∧ every.isMatch every = true ∧
      queue.isMatch every = true ∧ every.isMatch named = true ∧ queue.isMatch named = true ∧
      (queue.join base).isMatch queue = true ∧ (every.join queue).isMatch named = true ∧
      (base.join queue).isMatch (base.join named) = true ∧
      ¬ (base.join named).isMatch (base.join every) = true := by
  intro queue every named base
  have hkeys : SortedMap.Sorted [("name", "eth0"), ("slot", "1")] :=
    List.pairwise_pair.mpr (by decide)
  have hqueue : KeysOrdered queue.elems :=
    (keysOrdered_singleton hkeys).append (keysOrdered_plain "queue")
  have hevery : KeysOrdered every.elems := keysOrdered_singleton (List.pairwise_singleton _ _)
  have hbase : KeysOrdered base.elems := keysOrdered_singleton (List.pairwise_singleton _ _)
  obtain ⟨hself, htrans, hstart, hjoin, hbelow⟩ := matching_is_preorder
  have hinstance : queue.isMatch every = true := by decide +kernel
  have hwider : every.isMatch named = true := by decide +kernel
  have hnamed : queue.isMatch named = true := htrans queue every named hinstance hwider
  refine ⟨hqueue, hself queue hqueue, hself every hevery, hinstance, hwider, hnamed, ?_,
    hjoin every named queue hwider, (hbelow base queue named hbase).mpr hnamed, ?_⟩
  · exact hstart (queue.join base) queue hqueue (by decide +kernel)
  · rw [hbelow base named every hbase]
    decide +kernel

end Path

end Telemetry
