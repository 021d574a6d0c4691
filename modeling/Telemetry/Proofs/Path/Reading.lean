import Telemetry.Proofs.Path.Elements
import Telemetry.Proofs.Path.Identity

/-!
Reading the text of a path gives the path back. Each escape leaves the marks that end a part
unescaped nowhere inside of it, so the text is cut where its elements begin, each selector is
closed where it ends, and its key name ends at its `=`. What is read has named elements and keys,
and these are all that is needed to read its text again.
-/

namespace Telemetry

namespace Glyph

def marked (special text : List Char) : List Glyph :=
  text.map fun c => if c = '\\' ∨ c ∈ special then .escaped c else .plain c

/-- Reading undoes escaping, whatever follows. -/
theorem ofChars_escapeChars (special text rest : List Char) :
    ofChars (PathElem.escapeChars special text ++ rest) = marked special text ++ ofChars rest := by
  induction text with
  | nil => rfl
  | cons c text ih =>
    rw [PathElem.escapeChars_cons, List.append_assoc, marked, List.map_cons, List.cons_append,
      ← marked, ← ih]
    by_cases hc : c = '\\' ∨ c ∈ special
    · rw [if_pos hc, if_pos hc]
      rfl
    · rw [if_neg hc, if_neg hc]
      exact ofChars_plain (fun h => hc (Or.inl h)) _

theorem letters_marked (special : List Char) (text : String) :
    letters (marked special text.toList) = text := by
  have hletter : (fun c => letter? (if c = '\\' ∨ c ∈ special then .escaped c else .plain c)) =
      some := by
    funext c
    split <;> rfl
  rw [letters, marked, List.filterMap_map]
  show String.ofList (text.toList.filterMap fun c =>
    letter? (if c = '\\' ∨ c ∈ special then .escaped c else .plain c)) = text
  rw [hletter, List.filterMap_some, String.ofList_toList]

/-- A mark that is escaped does not occur unescaped. -/
theorem plain_notMem_marked {special : List Char} {mark : Char} (h : mark ∈ special)
    (text : List Char) : plain mark ∉ marked special text := by
  intro hmem
  obtain ⟨c, -, hc⟩ := List.mem_map.mp hmem
  split at hc
  · cases hc
  · rename_i hspecial
    cases hc
    exact hspecial (Or.inr h)

end Glyph

namespace PathElem

open Glyph (marked)

/-- An element that can be written and read: it has a name, its keys have names, and they are
in order. -/
structure IsReadable (elem : PathElem) : Prop where
  name : elem.name ≠ ""
  keys : ∀ pair ∈ elem.keys, pair.1 ≠ ""
  sorted : SortedMap.Sorted elem.keys

def bodyGlyphs (pair : String × String) : List Glyph :=
  marked ['=', ']'] pair.1.toList ++ .plain '=' :: marked [']'] pair.2.toList

def selectorGlyphs (pairs : List (String × String)) : List Glyph :=
  pairs.flatMap fun pair => .plain '[' :: bodyGlyphs pair ++ [.plain ']']

def glyphs (elem : PathElem) : List Glyph :=
  marked ['/', '[', ']'] elem.name.toList ++ selectorGlyphs elem.keys

theorem selectorGlyphs_cons (pair : String × String) (pairs : List (String × String)) :
    selectorGlyphs (pair :: pairs) =
      .plain '[' :: (bodyGlyphs pair ++ .plain ']' :: selectorGlyphs pairs) := by
  simp [selectorGlyphs]

theorem ofChars_selectorChars (pairs : List (String × String)) (rest : List Char) :
    Glyph.ofChars (pairs.flatMap selectorChars ++ rest) =
      selectorGlyphs pairs ++ Glyph.ofChars rest := by
  induction pairs with
  | nil => rfl
  | cons pair pairs ih =>
    simp only [List.flatMap_cons, selectorChars, List.cons_append, List.append_assoc,
      selectorGlyphs_cons, bodyGlyphs, List.nil_append]
    rw [Glyph.ofChars_plain (by decide), Glyph.ofChars_escapeChars,
      Glyph.ofChars_plain (by decide), Glyph.ofChars_escapeChars,
      Glyph.ofChars_plain (by decide), ih]

theorem ofChars_elemChars (elem : PathElem) (rest : List Char) :
    Glyph.ofChars (elemChars elem ++ rest) = elem.glyphs ++ Glyph.ofChars rest := by
  rw [elemChars, List.append_assoc, Glyph.ofChars_escapeChars, ofChars_selectorChars, glyphs,
    List.append_assoc]

/-- No bracket closes inside of a selector. -/
theorem plain_notMem_bodyGlyphs (pair : String × String) :
    Glyph.plain ']' ∉ bodyGlyphs pair := by
  simp [bodyGlyphs, Glyph.plain_notMem_marked]

theorem pairOf_bodyGlyphs (pair : String × String) : Glyph.pairOf (bodyGlyphs pair) = pair := by
  have hkey : Glyph.plain '=' ∉ marked ['=', ']'] pair.1.toList :=
    Glyph.plain_notMem_marked (by decide) _
  rw [Glyph.pairOf, Glyph.keyOf, Glyph.valueOf, bodyGlyphs, Glyph.takeWhile_append hkey,
    Glyph.dropWhile_append hkey, List.tail_cons, Glyph.letters_marked, Glyph.letters_marked]

/-- Selectors are read one after the other. -/
theorem readSelectors?_selectorGlyphs {pair : String × String} {pairs : List (String × String)}
    (h : ∀ other ∈ pair :: pairs, other.1 ≠ "") :
    readSelectors? (bodyGlyphs pair ++ .plain ']' :: selectorGlyphs pairs) =
      some (pair :: pairs) := by
  have hgood : ∀ other : String × String, other.1 ≠ "" →
      ¬ (Glyph.plain '=' ∉ bodyGlyphs other ∨ Glyph.keyOf (bodyGlyphs other) = "") := by
    intro other hother
    have hkey : Glyph.keyOf (bodyGlyphs other) = other.1 :=
      congrArg Prod.fst (pairOf_bodyGlyphs other)
    have hequals : Glyph.plain '=' ∈ bodyGlyphs other := by simp [bodyGlyphs]
    rw [hkey]
    exact not_or.mpr ⟨not_not_intro hequals, hother⟩
  induction pairs generalizing pair with
  | nil =>
    rw [Glyph.readSelectors?_append (plain_notMem_bodyGlyphs pair),
      if_neg (hgood pair (h pair List.mem_cons_self)), pairOf_bodyGlyphs]
    rfl
  | cons next pairs ih =>
    rw [Glyph.readSelectors?_append (plain_notMem_bodyGlyphs pair),
      if_neg (hgood pair (h pair List.mem_cons_self)), pairOf_bodyGlyphs, selectorGlyphs_cons]
    simp only [if_true]
    rw [ih fun other hother => h other (List.mem_cons_of_mem _ hother)]
    rfl

/-- The selectors of an element are closed, and nothing in its name opens one or ends it. -/
theorem closed_glyphs (elem : PathElem) : Glyph.Closed ['/'] elem.glyphs := by
  have hselectors : ∀ pairs : List (String × String),
      Glyph.Closed ['/'] (selectorGlyphs pairs) := by
    intro pairs
    induction pairs with
    | nil => exact .nil
    | cons pair pairs ih => exact .selector (plain_notMem_bodyGlyphs pair) ih
  refine Glyph.Closed.append (Glyph.closed_of_notMem ?_ ?_) (hselectors elem.keys)
  · exact Glyph.plain_notMem_marked (by decide) _
  · intro mark hmark
    rw [List.mem_singleton.mp hmark]
    exact Glyph.plain_notMem_marked (by decide) _

/-- What is read has named keys. -/
theorem key_ne_of_readSelectors? {glyphs : List Glyph} {pairs : List (String × String)}
    (h : readSelectors? glyphs = some pairs) {pair : String × String} (hpair : pair ∈ pairs) :
    pair.1 ≠ "" := by
  fun_induction readSelectors? glyphs generalizing pairs with
  | case1 => cases h
  | case2 => cases h
  | case3 => cases h
  | case4 glyphs body key value hkey hname hcut =>
    cases h
    rw [List.mem_singleton.mp hpair]
    simpa using hname
  | case5 glyphs body key value hkey hname more hcut hrest ih =>
    obtain ⟨others, hothers, rfl⟩ := Option.map_eq_some_iff.mp h
    rcases List.mem_cons.mp hpair with rfl | hpair
    · simpa using hname
    · exact ih hothers hpair
  | case6 => cases h

theorem ofSegment_glyphs {elem : PathElem} (h : elem.IsReadable) (path : String) :
    ofSegment path elem.glyphs = .ok elem := by
  have hbracket : Glyph.plain '[' ∉ marked ['/', '[', ']'] elem.name.toList :=
    Glyph.plain_notMem_marked (by decide) _
  have hname : elem.name.isEmpty = false := by simpa using h.name
  have hkeys : SortedMap.ofList elem.keys = elem.keys := SortedMap.ofList_eq_self h.sorted
  obtain ⟨name, keys⟩ := elem
  cases keys with
  | nil =>
    have hglyphs : glyphs ⟨name, []⟩ = marked ['/', '[', ']'] name.toList := List.append_nil _
    rw [hglyphs, ofSegment, Glyph.cutAt?_eq_none hbracket]
    simp only [Glyph.letters_marked, hname, Bool.false_eq_true, if_false]
    rfl
  | cons pair pairs =>
    rw [glyphs, selectorGlyphs_cons, ofSegment, Glyph.cutAt?_append hbracket]
    simp only [Glyph.letters_marked, hname, Bool.false_eq_true, if_false,
      readSelectors?_selectorGlyphs h.keys, hkeys]

theorem isReadable_of_ofSegment {path : String} {segment : List Glyph} {elem : PathElem}
    (h : ofSegment path segment = .ok elem) : elem.IsReadable := by
  have hread : ∃ name pairs, name ≠ "" ∧ (∀ pair ∈ pairs, pair.1 ≠ "") ∧
      elem = ⟨name, SortedMap.ofList pairs⟩ := by
    unfold ofSegment at h
    cases hcut : Glyph.cutAt? '[' segment with
    | none =>
      simp only [hcut] at h
      split at h
      · cases h
      · rename_i hname
        refine ⟨Glyph.letters segment, [], by simpa using hname, ?_, (Except.ok.inj h).symm⟩
        intro pair hpair
        cases hpair
    | some cut =>
      simp only [hcut] at h
      split at h
      · cases h
      · rename_i hname
        split at h
        · cases h
        · rename_i pairs hpairs
          exact ⟨Glyph.letters cut.1, pairs, by simpa using hname,
            fun _ => key_ne_of_readSelectors? hpairs, (Except.ok.inj h).symm⟩
  obtain ⟨name, pairs, hname, hpairs, rfl⟩ := hread
  refine ⟨hname, ?_, SortedMap.sorted_ofList pairs⟩
  intro pair hpair
  have hget := SortedMap.get?_eq_some_of_mem (SortedMap.sorted_ofList pairs) hpair
  exact hpairs pair (SortedMap.mem_of_get?_ofList hget)

end PathElem

namespace Path

open PathElem (IsReadable)

/-- A path's text is cut where its elements begin. -/
theorem isCut_pathGlyphs {piece : List Glyph} (h : Glyph.Closed ['/'] piece)
    (elems : List PathElem) :
    Glyph.IsCut (piece ++ elems.flatMap fun elem => .plain '/' :: elem.glyphs)
      (piece :: elems.map PathElem.glyphs) := by
  induction elems generalizing piece with
  | nil => simpa using Glyph.IsCut.last h
  | cons elem rest ih => exact .slash h (ih elem.closed_glyphs)

theorem segments?_pathGlyphs {elems : List PathElem} (h : ∀ elem ∈ elems, elem.glyphs ≠ []) :
    segments? false [] (elems.flatMap fun elem => .plain '/' :: elem.glyphs) =
      some (elems.map PathElem.glyphs) := by
  have hkept : (elems.map PathElem.glyphs).filter (fun piece => !piece.isEmpty) =
      elems.map PathElem.glyphs := by
    simpa using h
  have hcut := (isCut_pathGlyphs .nil elems).segments?_eq
  rw [List.filter_cons_of_neg (by simp), hkept] at hcut
  exact hcut

/-- The glyphs of a path's text. -/
theorem ofChars_pathChars (elems : List PathElem) :
    Glyph.ofChars (PathElem.pathChars elems) =
      elems.flatMap fun elem => .plain '/' :: elem.glyphs := by
  induction elems with
  | nil => rfl
  | cons elem rest ih =>
    rw [PathElem.pathChars, List.flatMap_cons, ← PathElem.pathChars, List.cons_append,
      Glyph.ofChars_plain (by decide), PathElem.ofChars_elemChars, ih]
    rfl

/-- The text of a path is read as its elements. -/
theorem ofText_text {path : Path} (h : ∀ elem ∈ path.elems, elem.IsReadable) :
    ofText path.text = .ok (ofElems path.elems) := by
  by_cases hempty : path.elems = []
  · have htext : path.text = "/" := by simp [text, hempty]
    rw [htext, hempty]
    rfl
  · have hglyphs : ∀ elem ∈ path.elems, elem.glyphs ≠ [] := by
      intro elem helem hnil
      have hname : elem.name.toList = [] := by
        have hmarked := (List.append_eq_nil_iff.mp hnil).1
        exact List.map_eq_nil_iff.mp hmarked
      exact (h elem helem).name (String.toList_eq_nil_iff.mp hname)
    rw [ofText, PathElem.toList_pathText hempty, ofChars_pathChars, segments?_pathGlyphs hglyphs]
    have hread : (path.elems.map PathElem.glyphs).mapM (PathElem.ofSegment path.text) =
        .ok path.elems :=
      mapM_map_eq_ok fun elem helem => PathElem.ofSegment_glyphs (h elem helem) path.text
    show ((path.elems.map PathElem.glyphs).mapM (PathElem.ofSegment path.text)).map ofElems = _
    rw [hread]
    rfl

/-- What is read can be written and read again. -/
theorem isReadable_of_ofText {text : String} {path : Path} (h : ofText text = .ok path) :
    path = ofElems path.elems ∧ ∀ elem ∈ path.elems, elem.IsReadable := by
  unfold ofText at h
  split at h
  · cases h
  · obtain ⟨elems, helems, rfl⟩ := map_eq_ok.mp h
    refine ⟨rfl, ?_⟩
    intro elem helem
    obtain ⟨segment, -, hsegment⟩ := (mem_of_mapM_eq_ok helems).mp helem
    exact PathElem.isReadable_of_ofSegment hsegment

/-- The text of every path of readable elements is read as these elements, without origin and
target. Every text that is read gives such a path, so its text is read as the same path again. -/
theorem text_round_trips :
    (∀ path : Path, (∀ elem ∈ path.elems, elem.IsReadable) →
      ofText path.text = .ok (ofElems path.elems)) ∧
    ∀ text path, ofText text = .ok path →
      path.origin = "" ∧ path.target = "" ∧ (∀ elem ∈ path.elems, elem.IsReadable) ∧
        ofText path.text = .ok path := by
  refine ⟨fun path h => ofText_text h, ?_⟩
  intro text path h
  obtain ⟨hbare, hreadable⟩ := isReadable_of_ofText h
  refine ⟨by rw [hbare]; rfl, by rw [hbare]; rfl, hreadable, ?_⟩
  rw [ofText_text hreadable, ← hbare]

def specialPath : Path :=
  ⟨"origin", [⟨"/[=]\\", [("/[=]\\", "/[=]\\"), ("name", "")]⟩, .plain "ü"], "target"⟩

/-- The special characters are escaped where they have to be, and only there. -/
theorem text_round_trips_specialPath :
    specialPath.text = "/\\/\\[=\\]\\\\[/[\\=\\]\\\\=/[=\\]\\\\][name=]/ü" ∧
      (∀ elem ∈ specialPath.elems, elem.IsReadable) ∧
      ofText specialPath.text = .ok (ofElems specialPath.elems) ∧
      ofText (ofElems specialPath.elems).text = .ok (ofElems specialPath.elems) := by
  have hreadable : ∀ elem ∈ specialPath.elems, elem.IsReadable := by
    intro elem helem
    simp only [specialPath, List.mem_cons, List.not_mem_nil, or_false] at helem
    rcases helem with rfl | rfl
    · refine ⟨by decide, by decide, ?_⟩
      exact List.pairwise_pair.mpr (by decide)
    · exact ⟨by decide, by decide, SortedMap.sorted_nil⟩
  have hread := text_round_trips.1 specialPath hreadable
  exact ⟨by decide, hreadable, hread, (text_round_trips.2 _ _ hread).2.2.2⟩

end Path

end Telemetry
