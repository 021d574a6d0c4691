import Telemetry.Path.Text
import Telemetry.Proofs.SortedMap

/-!
The text of a path identifies its elements. Each escape leaves the characters that may end a
part unescaped nowhere inside of it, so a part and what follows it are recovered from their
concatenation: first names, then the selectors one by one, then element after element. Only
the empty path is left out, whose text is also that of one nameless element. Paths whose key
sets are ordered match themselves.
-/

namespace Telemetry

namespace PathElem

def escapeChars (special text : List Char) : List Char :=
  text.flatMap fun c => if c = '\\' ∨ c ∈ special then ['\\', c] else [c]

theorem toList_escape (special : List Char) (text : String) :
    (escape special text).toList = escapeChars special text.toList := by
  simp [escape, escapeChars]

theorem escapeChars_nil (special : List Char) : escapeChars special [] = [] := rfl

theorem escapeChars_cons (special : List Char) (c : Char) (text : List Char) :
    escapeChars special (c :: text) =
      (if c = '\\' ∨ c ∈ special then ['\\', c] else [c]) ++ escapeChars special text := by
  simp [escapeChars]

private def EndsBy (special rest : List Char) : Prop :=
  rest = [] ∨ ∃ c more, rest = c :: more ∧ c ∈ special

private theorem endsBy_cons {special : List Char} {c : Char} {more : List Char}
    (h : c ∈ special) : EndsBy special (c :: more) :=
  Or.inr ⟨c, more, rfl, h⟩

/-- Escaped text does not look like the end of the part. -/
private theorem not_endsBy_escapeChars_cons {special : List Char} (hs : '\\' ∉ special)
    (c : Char) (text rest : List Char) :
    ¬ EndsBy special (escapeChars special (c :: text) ++ rest) := by
  rw [escapeChars_cons]
  intro h
  by_cases hc : c = '\\' ∨ c ∈ special
  · rcases h with h | ⟨d, more, h, hd⟩
    · simp [hc] at h
    · simp only [hc, if_true, List.cons_append, List.cons.injEq] at h
      exact hs (h.1 ▸ hd)
  · rcases h with h | ⟨d, more, h, hd⟩
    · simp [hc] at h
    · simp only [hc, if_false, List.cons_append, List.cons.injEq] at h
      exact hc (Or.inr (h.1 ▸ hd))

private theorem escapeChars_cons_inj {special : List Char}
    {c d : Char} {a b r s : List Char}
    (h : escapeChars special (c :: a) ++ r = escapeChars special (d :: b) ++ s) :
    c = d ∧ escapeChars special a ++ r = escapeChars special b ++ s := by
  rw [escapeChars_cons, escapeChars_cons] at h
  by_cases hc : c = '\\' ∨ c ∈ special <;> by_cases hd : d = '\\' ∨ d ∈ special
  · simpa [hc, hd] using h
  · simp only [hc, hd, if_true, if_false, List.cons_append, List.cons.injEq] at h
    exact absurd (Or.inl h.1.symm) hd
  · simp only [hc, hd, if_true, if_false, List.cons_append, List.cons.injEq] at h
    exact absurd (Or.inl h.1) hc
  · simpa [hc, hd] using h

/-- An escaped part and what follows it are recovered from their concatenation. -/
private theorem escapeChars_append_inj {special : List Char} (hs : '\\' ∉ special)
    {a b r s : List Char} (hr : EndsBy special r) (hs' : EndsBy special s)
    (h : escapeChars special a ++ r = escapeChars special b ++ s) : a = b ∧ r = s := by
  induction a generalizing b with
  | nil =>
    cases b with
    | nil => exact ⟨rfl, h⟩
    | cons d b =>
      rw [escapeChars_nil, List.nil_append] at h
      exact absurd (h ▸ hr) (not_endsBy_escapeChars_cons hs d b s)
  | cons c a ih =>
    cases b with
    | nil =>
      rw [escapeChars_nil, List.nil_append] at h
      exact absurd (h ▸ hs') (not_endsBy_escapeChars_cons hs c a r)
    | cons d b =>
      obtain ⟨hcd, hrest⟩ := escapeChars_cons_inj h
      obtain ⟨hab, hrs⟩ := ih hrest
      exact ⟨by rw [hcd, hab], hrs⟩

def selectorChars (pair : String × String) : List Char :=
  '[' :: escapeChars ['=', ']'] pair.1.toList ++ '=' :: escapeChars [']'] pair.2.toList ++ [']']

def elemChars (elem : PathElem) : List Char :=
  escapeChars ['/', '[', ']'] elem.name.toList ++ elem.keys.flatMap selectorChars

theorem toList_text (elem : PathElem) : elem.text.toList = elemChars elem := by
  simp only [text, elemChars, String.toList_append, toList_escape, String.toList_join,
    List.flatMap_map]
  congr 1
  congr 1
  funext pair
  simp [selectorChars]

private theorem selectorChars_append_inj {x y : String × String} {r s : List Char}
    (h : selectorChars x ++ r = selectorChars y ++ s) : x = y ∧ r = s := by
  simp only [selectorChars, List.append_assoc, List.cons_append, List.cons.injEq, true_and,
    List.nil_append] at h
  obtain ⟨hkey, hvalue⟩ := escapeChars_append_inj (by decide)
    (endsBy_cons (by decide)) (endsBy_cons (by decide)) h
  simp only [List.cons.injEq, true_and] at hvalue
  obtain ⟨hvalue, hrest⟩ := escapeChars_append_inj (by decide)
    (endsBy_cons (by decide)) (endsBy_cons (by decide)) hvalue
  exact ⟨Prod.ext (String.toList_inj.mp hkey) (String.toList_inj.mp hvalue),
    (List.cons.inj hrest).2⟩

private abbrev EndsElem (rest : List Char) : Prop := EndsBy ['/'] rest

private theorem selectorChars_ne_endsElem (x : String × String) (r : List Char) :
    ¬ EndsElem (selectorChars x ++ r) := by
  rintro (h | ⟨c, more, h, hc⟩)
  · simp [selectorChars] at h
  · simp only [selectorChars, List.cons_append, List.cons.injEq] at h
    rw [← h.1] at hc
    exact absurd hc (by decide)

private theorem keysChars_append_inj {ks ls : Keys} {r s : List Char}
    (hr : EndsElem r) (hs : EndsElem s)
    (h : ks.flatMap selectorChars ++ r = ls.flatMap selectorChars ++ s) :
    ks = ls ∧ r = s := by
  induction ks generalizing ls with
  | nil =>
    cases ls with
    | nil => exact ⟨rfl, h⟩
    | cons y ls =>
      simp only [List.flatMap_nil, List.nil_append, List.flatMap_cons, List.append_assoc] at h
      exact absurd (h ▸ hr) (selectorChars_ne_endsElem y _)
  | cons x ks ih =>
    cases ls with
    | nil =>
      simp only [List.flatMap_nil, List.nil_append, List.flatMap_cons, List.append_assoc] at h
      exact absurd (h ▸ hs) (selectorChars_ne_endsElem x _)
    | cons y ls =>
      simp only [List.flatMap_cons, List.append_assoc] at h
      obtain ⟨hxy, hrest⟩ := selectorChars_append_inj h
      obtain ⟨hks, hrs⟩ := ih hrest
      exact ⟨by rw [hxy, hks], hrs⟩

private theorem endsBy_keysChars {ks : Keys} {r : List Char} (hr : EndsElem r) :
    EndsBy ['/', '[', ']'] (ks.flatMap selectorChars ++ r) := by
  cases ks with
  | nil =>
    rcases hr with rfl | ⟨c, more, rfl, hc⟩
    · exact Or.inl rfl
    · have hslash : c = '/' := by simpa using hc
      exact endsBy_cons (by simp [hslash])
  | cons x ks => exact endsBy_cons (by decide)

private theorem elemChars_append_inj {x y : PathElem} {r s : List Char}
    (hr : EndsElem r) (hs : EndsElem s) (h : elemChars x ++ r = elemChars y ++ s) :
    x = y ∧ r = s := by
  simp only [elemChars, List.append_assoc] at h
  obtain ⟨hname, hrest⟩ := escapeChars_append_inj (by decide)
    (endsBy_keysChars hr) (endsBy_keysChars hs) h
  obtain ⟨hkeys, hrs⟩ := keysChars_append_inj hr hs hrest
  cases x
  cases y
  exact ⟨by simp_all [String.toList_inj], hrs⟩

def pathChars (elems : List PathElem) : List Char :=
  elems.flatMap fun elem => '/' :: elemChars elem

private theorem endsElem_pathChars (elems : List PathElem) : EndsElem (pathChars elems) := by
  cases elems with
  | nil => exact Or.inl rfl
  | cons elem rest => exact endsBy_cons (by decide)

private theorem pathChars_inj {xs ys : List PathElem} (h : pathChars xs = pathChars ys) :
    xs = ys := by
  induction xs generalizing ys with
  | nil =>
    cases ys with
    | nil => rfl
    | cons y ys => simp [pathChars] at h
  | cons x xs ih =>
    cases ys with
    | nil => simp [pathChars] at h
    | cons y ys =>
      simp only [pathChars, List.flatMap_cons, List.cons_append, List.cons.injEq,
        true_and] at h
      obtain ⟨hxy, hrest⟩ :=
        elemChars_append_inj (endsElem_pathChars xs) (endsElem_pathChars ys) h
      rw [hxy, ih hrest]

theorem toList_pathText {path : Path} (h : path.elems ≠ []) :
    path.text.toList = pathChars path.elems := by
  have hempty : path.elems.isEmpty = false := by simpa using h
  simp only [Path.text, hempty, Bool.false_eq_true, if_false, String.toList_join,
    List.flatMap_map, pathChars]
  congr 1
  funext elem
  simp [toList_text]

/-- Only an element with neither name nor keys has an empty text. -/
theorem elemChars_eq_nil_iff {elem : PathElem} : elemChars elem = [] ↔ elem = .plain "" := by
  obtain ⟨name, keys⟩ := elem
  have hpart : ∀ c, (if c = '\\' ∨ c ∈ ['/', '[', ']'] then ['\\', c] else [c]) ≠ [] := by
    intro c
    split <;> exact List.cons_ne_nil _ _
  simp only [elemChars, escapeChars, List.append_eq_nil_iff, List.flatMap_eq_nil_iff, hpart,
    selectorChars, List.cons_append, reduceCtorEq, imp_false, ← List.eq_nil_iff_forall_not_mem,
    String.toList_eq_nil_iff, plain, mk.injEq]

theorem isMatch_self {elem : PathElem} (h : SortedMap.Sorted elem.keys) :
    elem.isMatch elem = true := by
  simp only [isMatch, beq_self_eq_true, Bool.or_true, Bool.true_and, List.all_eq_true]
  rintro ⟨key, value⟩ hmem
  simp [SortedMap.get?_eq_some_of_mem h hmem]

end PathElem

namespace Path

/-- Paths that have elements at all have different texts if their elements differ. -/
theorem elems_eq_of_text_eq {p q : Path} (hp : p.elems ≠ []) (hq : q.elems ≠ [])
    (h : p.text = q.text) : p.elems = q.elems := by
  apply PathElem.pathChars_inj
  rw [← PathElem.toList_pathText hp, ← PathElem.toList_pathText hq, h]

theorem ofElems_text_inj {p q : List PathElem} (hp : p ≠ []) (hq : q ≠ []) :
    (ofElems p).text = (ofElems q).text ↔ p = q := by
  constructor
  · exact fun h => elems_eq_of_text_eq hp hq h
  · rintro rfl
    rfl

/-- A path matches what any path of the same text matches: only the empty path shares its text,
and that matches the empty pattern only. -/
theorem isMatch_of_text_eq {p pattern : Path} {q : List PathElem} (hq : q ≠ [])
    (h : p.text = (ofElems q).text) (hmatch : p.isMatch pattern = true) :
    (ofElems q).isMatch pattern = true := by
  by_cases hp : p.elems = []
  · cases helems : pattern.elems with
    | nil =>
      rw [isMatch, helems]
      cases q <;> rfl
    | cons elem rest =>
      rw [isMatch, hp, helems] at hmatch
      cases hmatch
  · have hsame : p.elems = q := elems_eq_of_text_eq hp hq h
    rw [isMatch, hsame] at hmatch
    exact hmatch

def Named (elems : List PathElem) : Prop :=
  ∀ elem ∈ elems, elem.name ≠ ""

/-- The text of the empty path is that of one element with neither name nor keys, and of no other
elements. -/
theorem text_eq_root_iff {elems : List PathElem} (h : elems ≠ []) :
    (ofElems elems).text = root.text ↔ elems = [.plain ""] := by
  have hchars : (ofElems elems).text.toList = PathElem.pathChars elems := PathElem.toList_pathText h
  rw [← String.toList_inj, hchars]
  change PathElem.pathChars elems = ['/'] ↔ _
  cases elems with
  | nil => exact absurd rfl h
  | cons elem rest =>
    simp only [PathElem.pathChars, List.flatMap_cons, List.cons_append, List.cons.injEq, true_and,
      List.append_eq_nil_iff, PathElem.elemChars_eq_nil_iff, List.flatMap_eq_nil_iff,
      List.cons_ne_nil, imp_false, ← List.eq_nil_iff_forall_not_mem]

/-- One path is empty, and the other is one element with neither name nor keys. -/
def WrittenAlike (p q : Path) : Prop :=
  (p.elems = [] ∧ q.elems = [.plain ""]) ∨ (p.elems = [.plain ""] ∧ q.elems = [])

/-- Two paths have the same text if they have the same elements, or if they are these two. -/
theorem text_eq_iff (p q : Path) : p.text = q.text ↔ p.elems = q.elems ∨ p.WrittenAlike q := by
  obtain ⟨_, elems, _⟩ := p
  obtain ⟨_, others, _⟩ := q
  change (ofElems elems).text = (ofElems others).text ↔ elems = others ∨
    (elems = [] ∧ others = [.plain ""]) ∨ (elems = [.plain ""] ∧ others = [])
  cases elems with
  | nil =>
    cases others with
    | nil => simp
    | cons other more =>
      have hroot := text_eq_root_iff (List.cons_ne_nil other more)
      rw [eq_comm]
      simpa [root] using hroot
  | cons elem rest =>
    cases others with
    | nil => simpa [root] using text_eq_root_iff (List.cons_ne_nil elem rest)
    | cons other more =>
      simpa using ofElems_text_inj (List.cons_ne_nil elem rest) (List.cons_ne_nil other more)

/-- The empty path has the text of no named element. -/
theorem text_ne_root_of_named {elem : PathElem} (rest : List PathElem)
    (h : elem.name ≠ "") : (ofElems (elem :: rest)).text ≠ root.text := by
  intro htext
  have hnameless := (text_eq_root_iff (List.cons_ne_nil elem rest)).mp htext
  exact h (congrArg PathElem.name (List.cons.inj hnameless).1)

/-- Paths of named elements have different texts if they differ, the empty path included. -/
theorem text_inj_of_named {p q : List PathElem} (hp : Named p) (hq : Named q) :
    (ofElems p).text = (ofElems q).text ↔ p = q := by
  cases p with
  | nil =>
    cases q with
    | nil => simp
    | cons elem rest =>
      have hne := text_ne_root_of_named rest (hq elem List.mem_cons_self)
      exact ⟨fun h => absurd h.symm hne, fun h => by cases h⟩
  | cons elem rest =>
    cases q with
    | nil =>
      have hne := text_ne_root_of_named rest (hp elem List.mem_cons_self)
      exact ⟨fun h => absurd h hne, fun h => by cases h⟩
    | cons other more => exact ofElems_text_inj (List.cons_ne_nil _ _) (List.cons_ne_nil _ _)

/-- Every element selects by an ordered key set. -/
def KeysOrdered (elems : List PathElem) : Prop :=
  ∀ elem ∈ elems, SortedMap.Sorted elem.keys

theorem keysOrdered_nil : KeysOrdered [] := by
  intro elem helem
  cases helem

theorem keysOrdered_singleton {elem : PathElem} (h : SortedMap.Sorted elem.keys) :
    KeysOrdered [elem] := by
  intro other hother
  rwa [List.mem_singleton.mp hother]

theorem keysOrdered_plain (name : String) : KeysOrdered [PathElem.plain name] :=
  keysOrdered_singleton SortedMap.sorted_nil

theorem KeysOrdered.append {elems rest : List PathElem} (helems : KeysOrdered elems)
    (hrest : KeysOrdered rest) : KeysOrdered (elems ++ rest) := by
  intro elem helem
  rcases List.mem_append.mp helem with helem | helem
  · exact helems elem helem
  · exact hrest elem helem

theorem matchElems_self {elems : List PathElem} (h : KeysOrdered elems) :
    matchElems elems elems = true := by
  induction elems with
  | nil => rfl
  | cons elem rest ih =>
    simp only [matchElems, Bool.and_eq_true]
    exact ⟨PathElem.isMatch_self (h elem List.mem_cons_self),
      ih fun e he => h e (List.mem_cons_of_mem _ he)⟩

end Path

end Telemetry
