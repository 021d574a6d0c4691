import Telemetry.SortedMap

/-!
Paths into a tree of named nodes. An element names a child and may select one entry of a
list by its keys. Patterns are paths too: `*` as an element name or a key value matches
anything, and a pattern element without some key does not look at that key.
-/

namespace Telemetry

/-- Key values by key name, in increasing order of the names. -/
abbrev Keys := List (String × String)

/-- Key sets are ordered as sequences of pairs. -/
instance : Ord Keys :=
  ⟨List.compareLex (compareLex (compareOn fun pair : String × String => pair.1)
    (compareOn fun pair => pair.2))⟩

structure PathElem where
  name : String
  keys : Keys
deriving DecidableEq, Repr

structure Path where
  origin : String
  elems : List PathElem
  target : String
deriving DecidableEq, Repr

def wildcard : String := "*"

namespace PathElem

def plain (name : String) : PathElem :=
  ⟨name, []⟩

/-- Whether the element is an instance of `pattern`. -/
def isMatch (elem pattern : PathElem) : Bool :=
  (pattern.name == wildcard || pattern.name == elem.name)
    && pattern.keys.all fun (key, value) =>
      match SortedMap.get? elem.keys key with
      | some actual => value == wildcard || value == actual
      | none => false

end PathElem

namespace Path

def ofElems (elems : List PathElem) : Path :=
  ⟨"", elems, ""⟩

def root : Path :=
  ofElems []

def isRoot (path : Path) : Bool :=
  path.elems.isEmpty

def join (path other : Path) : Path :=
  { path with elems := path.elems ++ other.elems }

def bare (path : Path) : Path :=
  ofElems path.elems

def startsWith (path other : Path) : Bool :=
  other.elems.isPrefixOf path.elems

/-- Whether each element of `pattern` matches the one at its place, patterns being free to
end early. -/
def matchElems : List PathElem → List PathElem → Bool
  | _, [] => true
  | [], _ :: _ => false
  | elem :: elems, pattern :: patterns => elem.isMatch pattern && matchElems elems patterns

/-- Whether `path` is at or below an instance of `pattern`. -/
def isMatch (path pattern : Path) : Bool :=
  matchElems path.elems pattern.elems

end Path

end Telemetry
