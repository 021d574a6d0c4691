import Telemetry.Path.Basic
import Telemetry.Text.Quoted

/-!
The text form of paths, as in `/interfaces/interface[name=eth0]/state`. A backslash makes the
next character literal. Reading marks every character as plain or escaped once; the marked text is
cut into segments, and each segment into a name and its selectors.
-/

namespace Telemetry

inductive PathError where
  | emptyName (path : String)
  | unterminatedKey (path : String)
  | malformedKey (path element : String)
deriving DecidableEq, Repr

namespace PathError

def message : PathError → String
  | emptyName path => s!"path {Text.quoted path} contains an element with an empty name"
  | unterminatedKey path => s!"path {Text.quoted path} has an unterminated key selector"
  | malformedKey path element =>
    s!"path {Text.quoted path} has a malformed key selector in element {Text.quoted element}"

end PathError

/-- A character of path text. -/
inductive Glyph where
  | plain (c : Char)
  | escaped (c : Char)
  /-- A backslash at the end of the text, which escapes nothing. -/
  | dangling
deriving DecidableEq, Repr

namespace Glyph

def ofChars : List Char → List Glyph
  | [] => []
  | ['\\'] => [dangling]
  | '\\' :: c :: rest => escaped c :: ofChars rest
  | c :: rest => plain c :: ofChars rest

def letter? : Glyph → Option Char
  | plain c => some c
  | escaped c => some c
  | dangling => none

/-- The characters that a glyph is written with. -/
def source : Glyph → List Char
  | plain c => [c]
  | escaped c => ['\\', c]
  | dangling => ['\\']

def letters (glyphs : List Glyph) : String :=
  String.ofList (glyphs.filterMap letter?)

def sources (glyphs : List Glyph) : String :=
  String.ofList (glyphs.flatMap source)

/-- Cuts at the first plain `mark`, which belongs to neither part. -/
def cutAt? (mark : Char) : List Glyph → Option (List Glyph × List Glyph)
  | [] => none
  | glyph :: rest =>
    if glyph = plain mark then some ([], rest)
    else (cutAt? mark rest).map fun (before, after) => (glyph :: before, after)

theorem length_of_cutAt? {mark : Char} {glyphs before after : List Glyph}
    (h : cutAt? mark glyphs = some (before, after)) : after.length < glyphs.length := by
  induction glyphs generalizing before after with
  | nil => simp [cutAt?] at h
  | cons glyph rest ih =>
    unfold cutAt? at h
    split at h
    · simp only [Option.some.injEq, Prod.mk.injEq] at h
      simp [h.2]
    · obtain ⟨⟨b, a⟩, hcut, heq⟩ := Option.map_eq_some_iff.mp h
      simp only [Prod.mk.injEq] at heq
      have hlen := ih hcut
      rw [heq.2] at hlen
      simp only [List.length_cons]
      omega

end Glyph

namespace PathElem

def escape (special : List Char) (text : String) : String :=
  String.ofList (text.toList.flatMap fun c =>
    if c = '\\' ∨ c ∈ special then ['\\', c] else [c])

def text (elem : PathElem) : String :=
  escape ['/', '[', ']'] elem.name
    ++ String.join (elem.keys.map fun (key, value) =>
      "[" ++ escape ['=', ']'] key ++ "=" ++ escape [']'] value ++ "]")

/-- Reads selectors from just after an opening bracket on. Each is a key name that is not
empty, `=` and a value, and the next one follows at once. -/
def readSelectors? (glyphs : List Glyph) : Option (List (String × String)) :=
  match hcut : Glyph.cutAt? ']' glyphs with
  | none => none
  | some (body, rest) =>
    match Glyph.cutAt? '=' body with
    | none => none
    | some (key, value) =>
      if (Glyph.letters key).isEmpty then none
      else
        match rest, hcut with
        | [], _ => some [(Glyph.letters key, Glyph.letters value)]
        | next :: more, _hcut =>
          if next = .plain '[' then
            (readSelectors? more).map ((Glyph.letters key, Glyph.letters value) :: ·)
          else none
termination_by glyphs.length
decreasing_by
  have := Glyph.length_of_cutAt? _hcut
  simp only [List.length_cons] at this
  omega

def ofSegment (path : String) (segment : List Glyph) : Except PathError PathElem :=
  let (name, selectors) :=
    match Glyph.cutAt? '[' segment with
    | none => (Glyph.letters segment, some [])
    | some (before, after) => (Glyph.letters before, readSelectors? after)
  if name.isEmpty then .error (.emptyName path)
  else
    match selectors with
    | none => .error (.malformedKey path (Glyph.sources segment))
    | some pairs => .ok ⟨name, SortedMap.ofList pairs⟩

end PathElem

namespace Path

/-- The text of a path; the empty path is `/`. Origin and target do not show. -/
def text (path : Path) : String :=
  if path.elems.isEmpty then "/"
  else String.join (path.elems.map fun elem => "/" ++ elem.text)

def addSegment (segment : List Glyph) (segments : List (List Glyph)) : List (List Glyph) :=
  if segment.isEmpty then segments else segment :: segments

/-- Cuts glyphs at plain slashes outside of brackets and drops empty segments. `inside` says
whether a bracket is open, `current` is the segment so far in reverse. None when a bracket
stays open. -/
def segments? (inside : Bool) (current : List Glyph) : List Glyph → Option (List (List Glyph))
  | [] => if inside then none else some (addSegment current.reverse [])
  | glyph :: rest =>
    if inside then segments? (glyph != .plain ']') (glyph :: current) rest
    else if glyph = .plain '/' then
      (segments? false [] rest).map (addSegment current.reverse)
    else segments? (glyph == .plain '[') (glyph :: current) rest

def ofText (text : String) : Except PathError Path :=
  match segments? false [] (Glyph.ofChars text.toList) with
  | none => .error (.unterminatedKey text)
  | some segments => (segments.mapM (PathElem.ofSegment text)).map ofElems

end Path

end Telemetry
