import Mathlib.Data.List.Forall2
import Telemetry.Path.Text

/-!
The grammar of path text, stated without scanning. Characters are read as glyphs from left to
right. A run of glyphs either has all its selectors closed or ends inside of one. If they are
closed it is cut at the slashes outside of selectors, and a segment is bad if it has no name or
one of its selectors is malformed. The scan for segments goes from one selector to the next, as
the grammar does: it finds the pieces between the slashes, and none if a selector is left open.
-/

namespace Telemetry

namespace Glyph

/-- Characters are read from left to right. A backslash makes the next character literal; at the
end it escapes nothing. -/
structure IsReading (chars : List Char) (glyphs : List Glyph) : Prop where
  written : glyphs.flatMap source = chars
  unescaped : plain '\\' ∉ glyphs
  last : ∀ before after, glyphs = before ++ dangling :: after → after = []

def bracketed (body : List Glyph) : List Glyph :=
  plain '[' :: (body ++ [plain ']'])

/-- All selectors are closed, and none of the `marks` stands outside of selectors. -/
inductive Closed (marks : List Char) : List Glyph → Prop
  | nil : Closed marks []
  | outside {glyph : Glyph} {rest : List Glyph} (hbracket : glyph ≠ plain '[')
      (hmarks : ∀ mark ∈ marks, glyph ≠ plain mark) :
      Closed marks rest → Closed marks (glyph :: rest)
  | selector {body rest : List Glyph} (hbody : plain ']' ∉ body) :
      Closed marks rest → Closed marks (bracketed body ++ rest)

def EndsInside (glyphs : List Glyph) : Prop :=
  ∃ before after, glyphs = before ++ plain '[' :: after ∧ Closed [] before ∧ plain ']' ∉ after

/-- The pieces between the slashes outside of selectors. -/
inductive IsCut : List Glyph → List (List Glyph) → Prop
  | last {piece : List Glyph} : Closed ['/'] piece → IsCut piece [piece]
  | slash {piece rest : List Glyph} {pieces : List (List Glyph)} : Closed ['/'] piece →
      IsCut rest pieces → IsCut (piece ++ plain '/' :: rest) (piece :: pieces)

def HasSegments (glyphs : List Glyph) (segments : List (List Glyph)) : Prop :=
  ∃ pieces, IsCut glyphs pieces ∧ segments = pieces.filter fun piece => !piece.isEmpty

def namePart (segment : List Glyph) : List Glyph :=
  segment.takeWhile (· != plain '[')

/-- A selector of a segment, and what follows it. -/
def HasSelector (segment body after : List Glyph) : Prop :=
  ∃ before, segment = before ++ (bracketed body ++ after) ∧ Closed [] before ∧ plain ']' ∉ body

def keyOf (body : List Glyph) : String :=
  letters (body.takeWhile (· != plain '='))

def valueOf (body : List Glyph) : String :=
  letters (body.dropWhile (· != plain '=')).tail

def pairOf (body : List Glyph) : String × String :=
  (keyOf body, valueOf body)

/-- A selector lacks `=` or a key name, or something else than a selector follows it. -/
def IsMalformed (body after : List Glyph) : Prop :=
  plain '=' ∉ body ∨ keyOf body = "" ∨ (after ≠ [] ∧ after.head? ≠ some (plain '['))

def HasEmptyName (segment : List Glyph) : Prop :=
  letters (namePart segment) = ""

def HasMalformedKey (segment : List Glyph) : Prop :=
  ∃ body after, HasSelector segment body after ∧ IsMalformed body after

def IsBad (segment : List Glyph) : Prop :=
  HasEmptyName segment ∨ HasMalformedKey segment

/-- The element that a segment stands for. Of selectors with the same key the last one counts. -/
structure Denotes (segment : List Glyph) (elem : PathElem) : Prop where
  name : elem.name = letters (namePart segment)
  sorted : SortedMap.Sorted elem.keys
  keys : ∃ bodies : List (List Glyph), segment = namePart segment ++ bodies.flatMap bracketed ∧
    (∀ body ∈ bodies, plain ']' ∉ body) ∧
    ∀ key, SortedMap.get? elem.keys key = (bodies.map pairOf).reverse.lookup key

end Glyph

namespace Path

open Glyph

/-- What reading a text has to come to. -/
inductive Reads (text : String) : Except PathError Path → Prop
  | unterminated {glyphs : List Glyph} (hread : IsReading text.toList glyphs)
      (hinside : EndsInside glyphs) : Reads text (.error (.unterminatedKey text))
  | emptyName {glyphs bad : List Glyph} {good rest : List (List Glyph)}
      (hread : IsReading text.toList glyphs) (hcut : HasSegments glyphs (good ++ bad :: rest))
      (hgood : ∀ segment ∈ good, ¬ IsBad segment) (hbad : HasEmptyName bad) :
      Reads text (.error (.emptyName text))
  | malformedKey {glyphs bad : List Glyph} {good rest : List (List Glyph)}
      (hread : IsReading text.toList glyphs) (hcut : HasSegments glyphs (good ++ bad :: rest))
      (hgood : ∀ segment ∈ good, ¬ IsBad segment) (hname : ¬ HasEmptyName bad)
      (hbad : HasMalformedKey bad) : Reads text (.error (.malformedKey text (sources bad)))
  | path {glyphs : List Glyph} {segments : List (List Glyph)} {elems : List PathElem}
      (hread : IsReading text.toList glyphs) (hcut : HasSegments glyphs segments)
      (hgood : ∀ segment ∈ segments, ¬ IsBad segment)
      (hdenotes : List.Forall₂ Denotes segments elems) : Reads text (.ok (ofElems elems))

end Path

namespace Glyph

section Reading

variable {chars : List Char} {glyphs : List Glyph}

theorem ofChars_plain {c : Char} (h : c ≠ '\\') (rest : List Char) :
    ofChars (c :: rest) = plain c :: ofChars rest := by
  rw [ofChars]
  · rintro rfl rfl
    exact h rfl
  · intro d more hd
    exact absurd hd h

theorem IsReading.cons {glyph : Glyph} (h : IsReading chars glyphs) (hplain : glyph ≠ plain '\\')
    (hdangling : glyph ≠ dangling) : IsReading (glyph.source ++ chars) (glyph :: glyphs) := by
  refine ⟨by rw [List.flatMap_cons, h.written], ?_, ?_⟩
  · rw [List.mem_cons, not_or]
    exact ⟨hplain.symm, h.unescaped⟩
  · intro before after hsplit
    rcases List.cons_eq_append_iff.mp hsplit with ⟨-, hhead⟩ | ⟨rest, -, hrest⟩
    · exact absurd (List.cons.inj hhead).1.symm hdangling
    · exact h.last rest after hrest

theorem isReading_ofChars (chars : List Char) : IsReading chars (ofChars chars) := by
  fun_induction ofChars chars with
  | case1 => exact ⟨rfl, by simp, by simp⟩
  | case2 =>
    refine ⟨rfl, by simp, ?_⟩
    intro before after hsplit
    rcases List.cons_eq_append_iff.mp hsplit with ⟨-, hhead⟩ | ⟨rest, -, hrest⟩
    · exact (List.cons.inj hhead).2
    · simp at hrest
  | case3 c rest ih => exact @IsReading.cons _ _ (escaped c) ih nofun nofun
  | case4 c rest hlast hescape ih =>
    refine @IsReading.cons _ _ (plain c) ih ?_ nofun
    rintro ⟨⟩
    cases rest with
    | nil => exact hlast rfl rfl
    | cons d more => exact hescape d more rfl rfl

/-- A part of what is read is what its own text is read as. -/
theorem IsReading.of_infix {part : List Glyph} (h : IsReading chars glyphs)
    (hpart : part <:+: glyphs) : IsReading (part.flatMap source) part := by
  obtain ⟨earlier, later, rfl⟩ := hpart
  refine ⟨rfl, fun hmem => h.unescaped (by simp [hmem]), ?_⟩
  rintro before after rfl
  have hend := h.last (earlier ++ before) (after ++ later) (by simp)
  exact (List.append_eq_nil_iff.mp hend).1

/-- A text is read in one way only. -/
theorem isReading_iff : IsReading chars glyphs ↔ glyphs = ofChars chars := by
  refine ⟨?_, fun h => h ▸ isReading_ofChars chars⟩
  intro h
  induction glyphs generalizing chars with
  | nil =>
    rw [← h.written]
    rfl
  | cons glyph glyphs ih =>
    have hrest := ih (h.of_infix (List.suffix_cons glyph glyphs).isInfix)
    rw [← h.written, List.flatMap_cons]
    cases glyph with
    | plain c =>
      have hc : c ≠ '\\' := by
        rintro rfl
        exact h.unescaped List.mem_cons_self
      exact (congrArg (plain c :: ·) hrest).trans (ofChars_plain hc _).symm
    | escaped c => exact congrArg (escaped c :: ·) hrest
    | dangling =>
      rw [h.last [] glyphs rfl]
      rfl

end Reading

section Closed

variable {chars marks : List Char} {glyphs before after segment body rest : List Glyph}

theorem Closed.append (hbefore : Closed marks before) (hafter : Closed marks after) :
    Closed marks (before ++ after) := by
  induction hbefore with
  | nil => exact hafter
  | outside hbracket hmarks _ ih => exact .outside hbracket hmarks ih
  | selector hbody _ ih =>
    rw [List.append_assoc]
    exact .selector hbody ih

theorem Closed.weaken (h : Closed marks glyphs) : Closed [] glyphs := by
  induction h with
  | nil => exact .nil
  | outside hbracket _ _ ih => exact .outside hbracket (by simp) ih
  | selector hbody _ ih => exact .selector hbody ih

theorem closed_of_notMem (hbracket : plain '[' ∉ glyphs)
    (hmarks : ∀ mark ∈ marks, plain mark ∉ glyphs) : Closed marks glyphs := by
  induction glyphs with
  | nil => exact .nil
  | cons glyph rest ih =>
    rw [List.mem_cons, not_or] at hbracket
    refine .outside (Ne.symm hbracket.1) ?_ (ih hbracket.2 ?_)
    · rintro mark hmark rfl
      exact hmarks mark hmark List.mem_cons_self
    · exact fun mark hmark hmem => hmarks mark hmark (List.mem_cons_of_mem _ hmem)

/-- Either all selectors are closed, or the last one that is opened is not. -/
theorem closed_or_endsInside (glyphs : List Glyph) : Closed [] glyphs ∨ EndsInside glyphs := by
  induction hlength : glyphs.length using Nat.strongRecOn generalizing glyphs with
  | _ length ih =>
    subst hlength
    cases glyphs with
    | nil => exact .inl .nil
    | cons glyph rest =>
      by_cases hbracket : glyph = plain '['
      · subst hbracket
        by_cases hmem : plain ']' ∈ rest
        · obtain ⟨body, after, rfl, hbody⟩ := List.eq_append_cons_of_mem hmem
          have hwhole : plain '[' :: (body ++ plain ']' :: after) = bracketed body ++ after := by
            simp [bracketed]
          rw [hwhole]
          rcases ih after.length (by simp; omega) after rfl with hclosed |
            ⟨before, last, rfl, hbefore, hlast⟩
          · exact .inl (.selector hbody hclosed)
          · exact .inr ⟨bracketed body ++ before, last, by simp, .selector hbody hbefore, hlast⟩
        · exact .inr ⟨[], rest, rfl, .nil, hmem⟩
      · rcases ih rest.length (by simp) rest rfl with hclosed | ⟨before, last, rfl, hbefore, hlast⟩
        · exact .inl (.outside hbracket (by simp) hclosed)
        · exact .inr ⟨glyph :: before, last, rfl, .outside hbracket (by simp) hbefore, hlast⟩

/-- Inside of a selector a segment runs on over what is no closing bracket. -/
theorem segments?_inside (hbracket : plain ']' ∉ glyphs)
    (current rest : List Glyph) :
    Path.segments? true current (glyphs ++ rest) =
      Path.segments? true (glyphs.reverse ++ current) rest := by
  induction glyphs generalizing current with
  | nil => rfl
  | cons glyph glyphs ih =>
    have hplain : (glyph != plain ']') = true := by
      rw [bne_iff_ne]
      exact fun heq => hbracket (heq ▸ List.mem_cons_self)
    rw [List.cons_append, Path.segments?, if_pos rfl, hplain,
      ih fun h => hbracket (List.mem_cons_of_mem _ h)]
    simp

/-- A segment runs on over a selector, whatever it contains. -/
theorem segments?_bracketed (hbody : plain ']' ∉ body) (current rest : List Glyph) :
    Path.segments? false current (bracketed body ++ rest) =
      Path.segments? false ((bracketed body).reverse ++ current) rest := by
  have hopens : bracketed body ++ rest = plain '[' :: (body ++ plain ']' :: rest) := by
    simp [bracketed]
  rw [hopens, Path.segments?, if_neg Bool.false_ne_true, if_neg (by decide)]
  change Path.segments? true _ _ = _
  rw [segments?_inside hbody, Path.segments?, if_pos rfl]
  simp [bracketed]

/-- A segment runs on over closed selectors. -/
theorem Closed.segments?_append (h : Closed ['/'] segment) (current rest : List Glyph) :
    Path.segments? false current (segment ++ rest) =
      Path.segments? false (segment.reverse ++ current) rest := by
  induction h generalizing current with
  | nil => rfl
  | outside hbracket hmarks _ ih =>
    rw [List.cons_append, Path.segments?, if_neg Bool.false_ne_true,
      if_neg (hmarks '/' List.mem_cons_self), beq_eq_false_iff_ne.mpr hbracket, ih,
      List.reverse_cons, List.append_assoc]
    rfl
  | selector hbody _ ih =>
    rw [List.append_assoc, segments?_bracketed hbody, ih, List.reverse_append, List.append_assoc]

/-- There are no segments where a selector is not closed. -/
theorem EndsInside.segments?_eq_none (h : EndsInside glyphs) (current : List Glyph) :
    Path.segments? false current glyphs = none := by
  obtain ⟨before, after, rfl, hbefore, hafter⟩ := h
  induction hbefore generalizing current with
  | nil =>
    have hinside := segments?_inside hafter (plain '[' :: current) []
    rw [List.append_nil] at hinside
    rw [List.nil_append, Path.segments?, if_neg Bool.false_ne_true, if_neg (by decide)]
    change Path.segments? true _ _ = _
    rw [hinside]
    rfl
  | outside hbracket _ _ ih =>
    rw [List.cons_append, Path.segments?, if_neg Bool.false_ne_true]
    split
    · rw [ih]
      rfl
    · rw [beq_eq_false_iff_ne.mpr hbracket]
      exact ih _
  | selector hbody _ ih =>
    rw [List.append_assoc, segments?_bracketed hbody]
    exact ih _

theorem IsCut.closed_of_mem {pieces : List (List Glyph)} (h : IsCut glyphs pieces)
    {piece : List Glyph} (hpiece : piece ∈ pieces) : Closed ['/'] piece := by
  induction h with
  | last hclosed =>
    rw [List.mem_singleton.mp hpiece]
    exact hclosed
  | slash hclosed _ ih =>
    rcases List.mem_cons.mp hpiece with rfl | hpiece
    · exact hclosed
    · exact ih hpiece

theorem IsCut.isInfix_of_mem {pieces : List (List Glyph)} (h : IsCut glyphs pieces)
    {piece : List Glyph} (hpiece : piece ∈ pieces) : piece <:+: glyphs := by
  induction h with
  | last _ =>
    obtain rfl := List.mem_singleton.mp hpiece
    exact List.infix_rfl
  | slash _ _ ih =>
    rcases List.mem_cons.mp hpiece with rfl | hpiece
    · exact (List.prefix_append _ _).isInfix
    · exact (ih hpiece).trans ((List.suffix_cons _ _).trans (List.suffix_append _ _)).isInfix

/-- Reading the text of a segment once more gives the segment. -/
theorem IsReading.ofChars_segment {segments : List (List Glyph)} (h : IsReading chars glyphs)
    (hcut : HasSegments glyphs segments) (hsegment : segment ∈ segments) :
    ofChars (sources segment).toList = segment := by
  obtain ⟨pieces, hpieces, rfl⟩ := hcut
  have hpiece := hpieces.isInfix_of_mem (List.mem_filter.mp hsegment).1
  rw [sources, String.toList_ofList]
  exact (isReading_iff.mp (h.of_infix hpiece)).symm

/-- What is put in front belongs to the first piece. -/
theorem IsCut.prepend {pieces : List (List Glyph)} (h : IsCut glyphs pieces)
    (hbefore : ∀ piece, Closed ['/'] piece → Closed ['/'] (before ++ piece)) :
    ∃ more, IsCut (before ++ glyphs) more := by
  cases h with
  | last hpiece => exact ⟨_, .last (hbefore _ hpiece)⟩
  | slash hpiece hrest =>
    rw [← List.append_assoc]
    exact ⟨_, .slash (hbefore _ hpiece) hrest⟩

theorem Closed.exists_cut (h : Closed [] glyphs) : ∃ pieces, IsCut glyphs pieces := by
  induction h with
  | nil => exact ⟨_, .last .nil⟩
  | @outside glyph rest hbracket _ _ ih =>
    obtain ⟨pieces, hpieces⟩ := ih
    by_cases hslash : glyph = plain '/'
    · subst hslash
      exact ⟨_, .slash .nil hpieces⟩
    · change ∃ pieces, IsCut ([glyph] ++ rest) pieces
      exact hpieces.prepend fun piece hpiece => .outside hbracket (by simpa using hslash) hpiece
  | selector hbody _ ih =>
    obtain ⟨pieces, hpieces⟩ := ih
    exact hpieces.prepend fun piece hpiece => .selector hbody hpiece

theorem IsCut.segments?_eq {pieces : List (List Glyph)} (h : IsCut glyphs pieces) :
    Path.segments? false [] glyphs = some (pieces.filter fun piece => !piece.isEmpty) := by
  have hadd : ∀ (piece : List Glyph) pieces,
      Path.addSegment piece (pieces.filter fun piece => !piece.isEmpty) =
        (piece :: pieces).filter fun piece => !piece.isEmpty := by
    intro piece pieces
    cases piece <;> rfl
  induction h with
  | @last piece hpiece =>
    have hrun := hpiece.segments?_append [] []
    rw [List.append_nil, List.append_nil] at hrun
    rw [hrun, Path.segments?, if_neg Bool.false_ne_true, List.reverse_reverse]
    exact congrArg some (hadd piece [])
  | @slash piece rest pieces hpiece _ ih =>
    rw [hpiece.segments?_append, List.append_nil, Path.segments?, if_neg Bool.false_ne_true,
      if_pos rfl, ih, List.reverse_reverse]
    exact congrArg some (hadd piece pieces)

end Closed

end Glyph

end Telemetry
