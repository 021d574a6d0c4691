import Telemetry.Proofs.Cache.Changes
import Telemetry.Proofs.Tree.Leaves

/-!
Texts as places. The cache keeps a leaf, and a difference of trees finds one, under the text of its
path, so two paths share a place if they are written alike. In a tree no two leaves are, since none
stands at the root; in the cache a leaf at the empty path and one at an element without name and
keys take the same place, and the later one is all that is left.
-/

namespace Telemetry

namespace CacheTarget

/-- Of two leaves that are written together the first is found afterwards unless the second has
taken its place. -/
theorem get?_apply_pair {t after : CacheTarget} {changes : Notification} {p q : Path}
    {v w : TypedValue} {time : Int64}
    (h : t.apply ⟨time, none, [Update.of p v, Update.of q w], [], false⟩ = .ok (after, changes)) :
    SortedMap.get? after.leaves p.text =
      if p.text = q.text then some ⟨q.bare, w, time⟩ else some ⟨p.bare, v, time⟩ := by
  obtain ⟨updates, hupdates, -, rfl, -⟩ := apply_eq_ok_iff.mp h
  have hresolve : resolve Path.root [Update.of p v, Update.of q w] =
      .ok [(p.bare, v), (q.bare, w)] := rfl
  change resolve Path.root [Update.of p v, Update.of q w] = _ at hupdates
  rw [hresolve, Except.ok.injEq] at hupdates
  have htexts : p.bare.text = p.text ∧ q.bare.text = q.text := ⟨rfl, rfl⟩
  simp only [leaves_commit, ← hupdates, writeAll, List.foldl_cons, List.foldl_nil, htexts]
  rw [SortedMap.get?_insert, SortedMap.get?_insert_self]

end CacheTarget

namespace Path

/-- The texts of two paths tell them apart unless one of the paths is empty and the other is one
element with neither name nor keys. With this exception no two paths share a place in the cache:
of two different ones that are written together, both are found. Leaves of one tree never share a
place in a difference. -/
theorem text_tells_apart_iff (p q : Path) :
    ((p.text = q.text ↔ p.elems = q.elems) ↔ ¬ p.WrittenAlike q) ∧
      (∀ (t after : CacheTarget) (changes : Notification) (v w : TypedValue) (time : Int64),
        t.apply ⟨time, none, [Update.of p v, Update.of q w], [], false⟩ = .ok (after, changes) →
        p.elems ≠ q.elems →
        (SortedMap.get? after.leaves p.text = some ⟨p.bare, v, time⟩ ↔ ¬ p.WrittenAlike q)) ∧
      ∀ (root : Node) (v w : LeafValue), root.isContainer = true → (p, v) ∈ root.leaves →
        (q, w) ∈ root.leaves → (p.text = q.text ↔ p.elems = q.elems) := by
  have hdiffer : p.WrittenAlike q → p.elems ≠ q.elems := by
    rintro (⟨hp, hq⟩ | ⟨hp, hq⟩) <;>
    · rw [hp, hq]
      simp
  refine ⟨?_, ?_, ?_⟩
  · rw [text_eq_iff]
    constructor
    · intro h halike
      exact hdiffer halike (h.mp (Or.inr halike))
    · intro hnot
      simp [hnot]
  · intro t after changes v w time h hne
    rw [CacheTarget.get?_apply_pair h]
    have htext := text_eq_iff p q
    simp only [hne, false_or] at htext
    rw [← htext]
    constructor
    · intro hfound hsame
      rw [if_pos hsame] at hfound
      have hpath := congrArg CachedLeaf.path (Option.some.inj hfound)
      exact hne (congrArg elems hpath).symm
    · intro hapart
      rw [if_neg hapart]
  · intro root v w hroot hp hq
    have hpne := Node.elems_ne_nil_of_mem_leaves hroot hp
    have hqne := Node.elems_ne_nil_of_mem_leaves hroot hq
    exact ofElems_text_inj hpne hqne

/-- A slash in a name is told apart from one between names. -/
theorem text_tells_apart_slashes :
    let p := ofElems [.plain "in/out", .plain ""]
    let q := ofElems [.plain "in", .plain "out", .plain ""]
    p.text ≠ q.text ∧ ∃ after changes,
      (CacheTarget.fresh "target").apply
          ⟨1, none, [Update.of p (.uint 1), Update.of q (.uint 2)], [], false⟩ =
        .ok (after, changes) ∧
      SortedMap.get? after.leaves p.text = some ⟨p, .uint 1, 1⟩ := by
  intro p q
  obtain ⟨htext, hslots, -⟩ := text_tells_apart_iff p q
  have hdiffer : p.elems ≠ q.elems := by decide
  have hnot : ¬ p.WrittenAlike q := by
    unfold WrittenAlike
    decide
  refine ⟨fun hsame => hdiffer ((htext.mpr hnot).mp hsame), _, _, rfl, ?_⟩
  exact (hslots (.fresh "target") _ _ (.uint 1) (.uint 2) 1 rfl hdiffer).mpr hnot

/-- A leaf at the empty path is lost when one at a nameless element is written. -/
theorem root_is_not_told_apart :
    let nameless : Path := ofElems [.plain ""]
    root.text = nameless.text ∧ root.elems ≠ nameless.elems ∧ ∃ after changes,
      (CacheTarget.fresh "target").apply
          ⟨1, none, [Update.of root (.uint 1), Update.of nameless (.uint 2)], [], false⟩ =
        .ok (after, changes) ∧
      after.leaves = [("/", ⟨nameless, .uint 2, 1⟩)] :=
  ⟨rfl, by decide, _, _, rfl, rfl⟩

end Path

end Telemetry
