import Mathlib.Data.List.TakeWhile
import Telemetry.Proofs.Except
import Telemetry.Proofs.Path.Grammar
import Telemetry.Proofs.SortedMap

/-!
Reading a text comes to what the grammar says. Selectors are read one after the other, so reading
fails at the first malformed one, and a closed segment is read exactly if it is not bad. Segments
are read in order, so the first bad one decides the error.
-/

namespace Telemetry

namespace Glyph

section Selectors

variable {mark : Char} {before after body segment glyphs : List Glyph}

theorem cutAt?_append (h : plain mark ∉ before) (after : List Glyph) :
    cutAt? mark (before ++ plain mark :: after) = some (before, after) := by
  induction before with
  | nil => simp [cutAt?]
  | cons glyph before ih =>
    have hglyph : glyph ≠ plain mark := fun heq => h (heq ▸ List.mem_cons_self)
    rw [List.cons_append, cutAt?, if_neg hglyph, ih fun hmem => h (List.mem_cons_of_mem _ hmem)]
    rfl

theorem cutAt?_eq_none (h : plain mark ∉ glyphs) : cutAt? mark glyphs = none := by
  induction glyphs with
  | nil => rfl
  | cons glyph rest ih =>
    have hglyph : glyph ≠ plain mark := fun heq => h (heq ▸ List.mem_cons_self)
    rw [cutAt?, if_neg hglyph, ih fun hmem => h (List.mem_cons_of_mem _ hmem)]
    rfl

theorem ne_of_notMem (h : plain mark ∉ glyphs) :
    ∀ glyph ∈ glyphs, (glyph != plain mark) = true := by
  intro glyph hglyph
  rw [bne_iff_ne]
  rintro rfl
  exact h hglyph

theorem takeWhile_of_notMem (h : plain mark ∉ glyphs) :
    glyphs.takeWhile (· != plain mark) = glyphs :=
  List.takeWhile_eq_self_iff.mpr (ne_of_notMem h)

theorem takeWhile_append (h : plain mark ∉ before) (after : List Glyph) :
    (before ++ plain mark :: after).takeWhile (· != plain mark) = before := by
  rw [List.takeWhile_append_of_pos (ne_of_notMem h), List.takeWhile_cons_of_neg (by simp),
    List.append_nil]

theorem dropWhile_append (h : plain mark ∉ before) (after : List Glyph) :
    (before ++ plain mark :: after).dropWhile (· != plain mark) = plain mark :: after := by
  rw [List.dropWhile_append_of_pos (ne_of_notMem h), List.dropWhile_cons_of_neg (by simp)]

/-- What is read from just after an opening bracket, up to the selector after it. -/
theorem readSelectors?_append (hbody : plain ']' ∉ body) (rest : List Glyph) :
    PathElem.readSelectors? (body ++ plain ']' :: rest) =
      if plain '=' ∉ body ∨ keyOf body = "" then none
      else
        match rest with
        | [] => some [pairOf body]
        | next :: more =>
          if next = plain '[' then (PathElem.readSelectors? more).map (pairOf body :: ·)
          else none := by
  have hcut := cutAt?_append hbody rest
  rw [PathElem.readSelectors?]
  split
  · rename_i hnone
    rw [hcut] at hnone
    cases hnone
  · rename_i hsome
    rw [hcut] at hsome
    cases hsome
    by_cases hequals : plain '=' ∈ body
    · obtain ⟨key, value, rfl, hkey⟩ := List.eq_append_cons_of_mem hequals
      have hkeyOf : keyOf (key ++ plain '=' :: value) = letters key := by
        rw [keyOf, takeWhile_append hkey]
      have hpair : pairOf (key ++ plain '=' :: value) = (letters key, letters value) := by
        rw [pairOf, hkeyOf, valueOf, dropWhile_append hkey, List.tail_cons]
      rw [hkeyOf, hpair]
      simp only [cutAt?_append hkey]
      by_cases hname : letters key = ""
      · simp [hname]
      · simp only [String.isEmpty_iff, hname, hequals, not_true_eq_false, or_false, if_false]
        cases rest <;> rfl
    · simp only [cutAt?_eq_none hequals]
      simp [hequals]

/-- Reading fails at a malformed selector, and therefore at every selector before it. -/
theorem readSelectors?_of_malformed (hbefore : Closed [] before) (hbody : plain ']' ∉ body)
    (hbad : IsMalformed body after)
    (hglyphs : before ++ (bracketed body ++ after) = plain '[' :: glyphs) :
    PathElem.readSelectors? glyphs = none := by
  induction hbefore generalizing glyphs with
  | nil =>
    have hrest : glyphs = body ++ plain ']' :: after := by
      simpa [bracketed] using (List.cons.inj hglyphs).2.symm
    rw [hrest, readSelectors?_append hbody]
    split
    · rfl
    · rename_i hgood
      obtain ⟨hafter, hnext⟩ := (or_assoc.mpr hbad).resolve_left hgood
      cases after with
      | nil => exact absurd rfl hafter
      | cons next more => exact if_neg fun heq => hnext (congrArg some heq)
  | outside hbracket _ _ _ => exact absurd (List.cons.inj hglyphs).1 hbracket
  | @selector earlier rest hearlier _ ih =>
    have hrest : glyphs = earlier ++ plain ']' :: (rest ++ (bracketed body ++ after)) := by
      simpa [bracketed] using (List.cons.inj hglyphs).2.symm
    rw [hrest, readSelectors?_append hearlier]
    split
    · rfl
    · cases hmore : rest ++ (bracketed body ++ after) with
      | nil => simp [bracketed] at hmore
      | cons next more =>
        by_cases hnext : next = plain '['
        · subst hnext
          simp [ih hmore]
        · exact if_neg hnext

/-- Closed selectors are read unless one of them is malformed. -/
theorem read_or_malformed (h : Closed [] (plain '[' :: glyphs)) :
    (∃ bodies : List (List Glyph), plain '[' :: glyphs = bodies.flatMap bracketed ∧
      (∀ body ∈ bodies, plain ']' ∉ body) ∧
      PathElem.readSelectors? glyphs = some (bodies.map pairOf)) ∨
      HasMalformedKey (plain '[' :: glyphs) := by
  generalize hwhole : plain '[' :: glyphs = whole at h
  induction h generalizing glyphs with
  | nil => cases hwhole
  | outside hbracket _ _ _ => exact absurd (List.cons.inj hwhole).1.symm hbracket
  | @selector body rest hbody hrest ih =>
    have hglyphs : glyphs = body ++ plain ']' :: rest := by
      simpa [bracketed] using (List.cons.inj hwhole).2
    have hread := readSelectors?_append hbody rest
    rw [← hglyphs] at hread
    by_cases hbad : IsMalformed body rest
    · exact .inr ⟨body, rest, ⟨[], rfl, .nil, hbody⟩, hbad⟩
    · obtain ⟨hgood, hrestGood⟩ := not_or.mp (mt or_assoc.mp hbad)
      rw [if_neg hgood] at hread
      cases rest with
      | nil => exact .inl ⟨[body], by simp, by simpa using hbody, hread⟩
      | cons next more =>
        have hnext : next = plain '[' := by simpa using hrestGood
        subst hnext
        simp only [if_true] at hread
        rcases ih rfl with ⟨bodies, hbodies, hclosed, hmore⟩ |
          ⟨later, after, ⟨before, hsplit, hbefore, hlater⟩, hlaterBad⟩
        · rw [hmore] at hread
          refine .inl ⟨body :: bodies, ?_, List.forall_mem_cons.mpr ⟨hbody, hclosed⟩, hread⟩
          rw [List.flatMap_cons, ← hbodies]
        · refine .inr ⟨later, after, ⟨bracketed body ++ before, ?_, .selector hbody hbefore,
            hlater⟩, hlaterBad⟩
          rw [hsplit, List.append_assoc]

/-- The selectors of a segment are those after its name. -/
theorem hasMalformedKey_append_iff (hname : plain '[' ∉ before) :
    HasMalformedKey (before ++ plain '[' :: glyphs) ↔ HasMalformedKey (plain '[' :: glyphs) := by
  induction before with
  | nil => rfl
  | cons glyph before ih =>
    rw [List.mem_cons, not_or] at hname
    rw [← ih hname.2]
    constructor
    · rintro ⟨body, after, ⟨earlier, hsplit, hearlier, hbody⟩, hbad⟩
      cases hearlier with
      | nil => exact absurd (List.cons.inj hsplit).1.symm hname.1
      | outside _ _ hrest =>
        exact ⟨body, after, ⟨_, (List.cons.inj hsplit).2, hrest, hbody⟩, hbad⟩
      | selector _ _ => exact absurd (List.cons.inj hsplit).1.symm hname.1
    · rintro ⟨body, after, ⟨earlier, hsplit, hearlier, hbody⟩, hbad⟩
      refine ⟨body, after, ⟨glyph :: earlier, ?_, .outside (Ne.symm hname.1) (by simp) hearlier,
        hbody⟩, hbad⟩
      rw [List.cons_append, hsplit, List.cons_append]

/-- A segment is a name, or a name and what begins with an opening bracket. -/
theorem name_or_selectors (segment : List Glyph) :
    (namePart segment = segment ∧ plain '[' ∉ segment) ∨
      ∃ glyphs, segment = namePart segment ++ plain '[' :: glyphs ∧
        plain '[' ∉ namePart segment := by
  by_cases hmem : plain '[' ∈ segment
  · obtain ⟨name, glyphs, rfl, hname⟩ := List.eq_append_cons_of_mem hmem
    rw [namePart, takeWhile_append hname]
    exact .inr ⟨glyphs, rfl, hname⟩
  · exact .inl ⟨takeWhile_of_notMem hmem, hmem⟩

end Selectors

section Segment

variable {name glyphs segment : List Glyph} {elem other : PathElem}

theorem closed_of_append (hname : plain '[' ∉ name) (h : Closed [] (name ++ glyphs)) :
    Closed [] glyphs := by
  induction name with
  | nil => exact h
  | cons glyph name ih =>
    rw [List.mem_cons, not_or] at hname
    generalize hwhole : glyph :: name ++ glyphs = whole at h
    cases h with
    | nil => cases hwhole
    | outside _ _ hrest =>
      cases hwhole
      exact ih hname.2 hrest
    | selector _ _ => exact absurd (List.cons.inj hwhole).1.symm hname.1

theorem ofSegment_of_hasEmptyName (path : String) (h : HasEmptyName segment) :
    PathElem.ofSegment path segment = .error (.emptyName path) := by
  have hempty : (letters (namePart segment)).isEmpty = true := by
    rw [h]
    rfl
  rcases name_or_selectors segment with ⟨hwhole, hname⟩ | ⟨glyphs, hsplit, hname⟩
  · rw [hwhole] at hempty
    rw [PathElem.ofSegment, cutAt?_eq_none hname]
    exact if_pos hempty
  · rw [hsplit, PathElem.ofSegment, cutAt?_append hname]
    exact if_pos hempty

theorem ofSegment_of_hasMalformedKey (path : String) (hname : ¬ HasEmptyName segment)
    (h : HasMalformedKey segment) :
    PathElem.ofSegment path segment = .error (.malformedKey path (sources segment)) := by
  have hnamed : (letters (namePart segment)).isEmpty = false := by simpa [HasEmptyName] using hname
  rcases name_or_selectors segment with ⟨-, hnone⟩ | ⟨glyphs, hsplit, hname⟩
  · obtain ⟨body, after, ⟨before, rfl, -⟩, -⟩ := h
    exact absurd (by simp [bracketed]) hnone
  · rw [hsplit] at h
    obtain ⟨body, after, ⟨before, hglyphs, hbefore, hbody⟩, hbad⟩ :=
      (hasMalformedKey_append_iff hname).mp h
    have hread := readSelectors?_of_malformed hbefore hbody hbad hglyphs.symm
    have hcut := cutAt?_append hname glyphs
    rw [← hsplit] at hcut
    simp [PathElem.ofSegment, hcut, hnamed, hread]

/-- A closed segment that is not bad is read as the element that it stands for. -/
theorem exists_ofSegment (path : String) (hclosed : Closed [] segment) (hgood : ¬ IsBad segment) :
    ∃ elem, PathElem.ofSegment path segment = .ok elem ∧ Denotes segment elem := by
  obtain ⟨hname, hkeys⟩ := not_or.mp hgood
  have hnamed : (letters (namePart segment)).isEmpty = false := by simpa [HasEmptyName] using hname
  have hdenotes : ∀ bodies : List (List Glyph),
      segment = namePart segment ++ bodies.flatMap bracketed →
      (∀ body ∈ bodies, plain ']' ∉ body) →
      Denotes segment ⟨letters (namePart segment), SortedMap.ofList (bodies.map pairOf)⟩ := by
    intro bodies hsplit hbodies
    exact ⟨rfl, SortedMap.sorted_ofList _, bodies, hsplit, hbodies,
      SortedMap.get?_ofList_eq_lookup _⟩
  rcases name_or_selectors segment with ⟨hwhole, hnone⟩ | ⟨glyphs, hsplit, hnone⟩
  · refine ⟨_, ?_, hdenotes [] (by simp [hwhole]) (by simp)⟩
    rw [hwhole] at hnamed ⊢
    simp [PathElem.ofSegment, cutAt?_eq_none hnone, hnamed]
  · have hcut := cutAt?_append hnone glyphs
    rw [← hsplit] at hcut
    rw [hsplit] at hclosed hkeys
    rcases read_or_malformed (closed_of_append hnone hclosed) with
      ⟨bodies, hbodies, hinside, hread⟩ | hbad
    · refine ⟨_, ?_, hdenotes bodies (by rw [← hbodies]; exact hsplit) hinside⟩
      simp [PathElem.ofSegment, hcut, hnamed, hread]
    · exact absurd ((hasMalformedKey_append_iff hnone).mpr hbad) hkeys

theorem flatMap_bracketed_inj {bodies others : List (List Glyph)}
    (hbodies : ∀ body ∈ bodies, plain ']' ∉ body) (hothers : ∀ body ∈ others, plain ']' ∉ body)
    (h : bodies.flatMap bracketed = others.flatMap bracketed) : bodies = others := by
  induction bodies generalizing others with
  | nil =>
    cases others with
    | nil => rfl
    | cons other others => simp [bracketed] at h
  | cons body bodies ih =>
    cases others with
    | nil => simp [bracketed] at h
    | cons other others =>
      obtain ⟨hbody, hbodies⟩ := List.forall_mem_cons.mp hbodies
      obtain ⟨hother, hothers⟩ := List.forall_mem_cons.mp hothers
      have hcut := cutAt?_append hbody (bodies.flatMap bracketed)
      have hotherCut := cutAt?_append hother (others.flatMap bracketed)
      have htail : body ++ plain ']' :: bodies.flatMap bracketed =
          other ++ plain ']' :: others.flatMap bracketed := by
        simpa [bracketed] using h
      rw [htail, hotherCut] at hcut
      obtain ⟨hsame, hrest⟩ := Prod.mk.inj (Option.some.inj hcut)
      rw [hsame, ih hbodies hothers hrest.symm]

/-- A segment stands for one element only. -/
theorem Denotes.unique (h : Denotes segment elem) (hother : Denotes segment other) :
    elem = other := by
  obtain ⟨bodies, hsplit, hbodies, hkeys⟩ := h.keys
  obtain ⟨others, hotherSplit, hothers, hotherKeys⟩ := hother.keys
  have hsame := flatMap_bracketed_inj hbodies hothers
    (List.append_cancel_left (hsplit.symm.trans hotherSplit))
  have hmaps : elem.keys = other.keys := by
    refine SortedMap.ext_get? h.sorted hother.sorted fun key => ?_
    rw [hkeys, hotherKeys, hsame]
  have hnames : elem.name = other.name := h.name.trans hother.name.symm
  obtain ⟨elemName, elemKeys⟩ := elem
  obtain ⟨otherName, otherKeys⟩ := other
  rw [PathElem.mk.injEq]
  exact ⟨hnames, hmaps⟩

/-- A closed segment is read if it is not bad, and then as the element that it stands for. -/
theorem ofSegment_eq_ok_iff (path : String) (hclosed : Closed [] segment) :
    PathElem.ofSegment path segment = .ok elem ↔ ¬ IsBad segment ∧ Denotes segment elem := by
  constructor
  · intro h
    have hgood : ¬ IsBad segment := by
      intro hbad
      by_cases hname : HasEmptyName segment
      · rw [ofSegment_of_hasEmptyName path hname] at h
        cases h
      · rw [ofSegment_of_hasMalformedKey path hname (hbad.resolve_left hname)] at h
        cases h
    obtain ⟨found, hfound, hdenotes⟩ := exists_ofSegment path hclosed hgood
    rw [h] at hfound
    cases hfound
    exact ⟨hgood, hdenotes⟩
  · rintro ⟨hgood, hdenotes⟩
    obtain ⟨found, hfound, hfoundDenotes⟩ := exists_ofSegment path hclosed hgood
    rw [hfound, hfoundDenotes.unique hdenotes]

end Segment

end Glyph

namespace Path

open Glyph

variable {text : String} {glyphs : List Glyph} {segments : List (List Glyph)}
  {result : Except PathError Path}

/-- The segments of a text are closed, and reading it reads one after the other. -/
theorem ofText_eq_of_hasSegments (hread : IsReading text.toList glyphs)
    (hcut : HasSegments glyphs segments) : (∀ segment ∈ segments, Closed [] segment) ∧
      ofText text = (segments.mapM (PathElem.ofSegment text)).map ofElems := by
  obtain ⟨pieces, hpieces, rfl⟩ := hcut
  constructor
  · intro segment hsegment
    exact (hpieces.closed_of_mem (List.mem_filter.mp hsegment).1).weaken
  · rw [ofText, ← isReading_iff.mp hread, hpieces.segments?_eq]

/-- Nothing else is read than what the text has to come to. -/
theorem Reads.ofText_eq (h : Reads text result) : ofText text = result := by
  -- The segments before the first bad one are read, and it decides the error.
  have herror : ∀ {glyphs bad : List Glyph} {good rest : List (List Glyph)} {e : PathError},
      IsReading text.toList glyphs → HasSegments glyphs (good ++ bad :: rest) →
      (∀ segment ∈ good, ¬ IsBad segment) → PathElem.ofSegment text bad = .error e →
      ofText text = .error e := by
    intro glyphs bad good rest e hread hcut hgood hbad
    obtain ⟨hclosed, heq⟩ := ofText_eq_of_hasSegments hread hcut
    have hfirst : ∀ segment ∈ good, ∃ elem, PathElem.ofSegment text segment = .ok elem := by
      intro segment hsegment
      have hsegmentClosed := hclosed segment (List.mem_append_left _ hsegment)
      obtain ⟨elem, helem, -⟩ := exists_ofSegment text hsegmentClosed (hgood segment hsegment)
      exact ⟨elem, helem⟩
    rw [heq, mapM_eq_error.mpr ⟨good, bad, rest, rfl, hfirst, hbad⟩]
    rfl
  cases h with
  | unterminated hread hinside =>
    rw [ofText, ← isReading_iff.mp hread, hinside.segments?_eq_none]
  | emptyName hread hcut hgood hbad =>
    exact herror hread hcut hgood (ofSegment_of_hasEmptyName text hbad)
  | malformedKey hread hcut hgood hname hbad =>
    exact herror hread hcut hgood (ofSegment_of_hasMalformedKey text hname hbad)
  | path hread hcut hgood hdenotes =>
    obtain ⟨hclosed, heq⟩ := ofText_eq_of_hasSegments hread hcut
    have hall := (List.forall₂_and_left _ _).mpr ⟨hclosed, (List.forall₂_and_left _ _).mpr
      ⟨hgood, hdenotes⟩⟩
    have helems := hall.imp fun _ _ h => (ofSegment_eq_ok_iff text h.1).mpr h.2
    rw [heq, mapM_eq_ok_iff_forall₂.mpr helems]
    rfl

/-- Whatever a text is, it has to come to what is read. -/
theorem reads_ofText (text : String) : Reads text (ofText text) := by
  have hreading := isReading_ofChars text.toList
  rcases closed_or_endsInside (ofChars text.toList) with hwhole | hinside
  · obtain ⟨pieces, hpieces⟩ := hwhole.exists_cut
    have hcut : HasSegments _ _ := ⟨pieces, hpieces, rfl⟩
    obtain ⟨hclosed, heq⟩ := ofText_eq_of_hasSegments hreading hcut
    rw [heq]
    cases hmap : (pieces.filter fun piece => !piece.isEmpty).mapM (PathElem.ofSegment text) with
    | ok elems =>
      have hall := (List.forall₂_and_left _ _).mpr ⟨hclosed, mapM_eq_ok_iff_forall₂.mp hmap⟩
      have hread := hall.imp fun _ _ h => (ofSegment_eq_ok_iff text h.1).mp h.2
      obtain ⟨hgood, hdenotes⟩ := (List.forall₂_and_left _ _).mp hread
      exact .path hreading hcut hgood hdenotes
    | error e =>
      obtain ⟨good, bad, rest, hsplit, hgoodRead, hbadRead⟩ := mapM_eq_error.mp hmap
      rw [hsplit] at hcut hclosed
      have hgood : ∀ segment ∈ good, ¬ IsBad segment := by
        intro segment hsegment
        obtain ⟨elem, helem⟩ := hgoodRead segment hsegment
        have hsegmentClosed := hclosed segment (List.mem_append_left _ hsegment)
        exact ((ofSegment_eq_ok_iff text hsegmentClosed).mp helem).1
      by_cases hname : HasEmptyName bad
      · rw [ofSegment_of_hasEmptyName text hname] at hbadRead
        cases hbadRead
        exact .emptyName hreading hcut hgood hname
      · by_cases hbad : HasMalformedKey bad
        · rw [ofSegment_of_hasMalformedKey text hname hbad] at hbadRead
          cases hbadRead
          exact .malformedKey hreading hcut hgood hname hbad
        · obtain ⟨elem, helem, -⟩ :=
            exists_ofSegment text (hclosed bad (by simp)) (not_or.mpr ⟨hname, hbad⟩)
          rw [hbadRead] at helem
          cases helem
  · rw [(Reads.unterminated hreading hinside).ofText_eq]
    exact .unterminated hreading hinside

/-- The segments of a text may as well be taken out of it as texts, with their escapes, and each of
these be read from its beginning. -/
theorem ofText_eq_of_texts (text : String) :
    ofText text =
      match (segments? false [] (ofChars text.toList)).map (·.map sources) with
      | none => .error (.unterminatedKey text)
      | some texts =>
        ((texts.map fun part => ofChars part.toList).mapM (PathElem.ofSegment text)).map
          ofElems := by
  rw [ofText]
  rcases closed_or_endsInside (ofChars text.toList) with hwhole | hinside
  · obtain ⟨pieces, hpieces⟩ := hwhole.exists_cut
    have hsame : ∀ segment ∈ pieces.filter fun piece => !piece.isEmpty,
        ofChars (sources segment).toList = segment := fun _ hsegment =>
      (isReading_ofChars text.toList).ofChars_segment ⟨pieces, hpieces, rfl⟩ hsegment
    simp only [hpieces.segments?_eq, Option.map_some, List.map_map, Function.comp_def]
    rw [List.map_congr_left hsame, List.map_id']
  · rw [hinside.segments?_eq_none]
    rfl

/-- Reading a text comes to what the grammar says. It is unterminated exactly if it ends inside of
a selector. Otherwise the first bad segment decides: its name is empty, or else one of its keys is
malformed. If no segment is bad the path has the elements that the segments stand for. -/
theorem ofText_eq_iff_reads (text : String) (result : Except PathError Path) :
    ofText text = result ↔ Reads text result :=
  ⟨fun h => h ▸ reads_ofText text, Reads.ofText_eq⟩

end Path

end Telemetry
