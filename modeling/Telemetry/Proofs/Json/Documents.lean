import Telemetry.Json.Document
import Telemetry.Proofs.SortedMap
import Telemetry.Proofs.Except

/-!
What reading gives. No number that is read is a NaN, nor a negative integer that is not negative
(`Document.canonical_ofText?`), and the value of a document is `Regular`: its objects are sorted,
its numbers canonical and its depth bounded. In the other direction `Document.ofJson` is a value
written as a document, and a regular value is the value of that document.
-/

namespace Telemetry

/-! ### Numbers -/

namespace Binary64

theorem magnitude_ofMagnitude (negative : Bool) {m : Nat} (h : m < 1 <<< 63) :
    (ofMagnitude negative m).magnitude = m := by
  have h' : m < 9223372036854775808 := h
  simp only [magnitude, word, ofMagnitude, UInt64.toNat_ofNat']
  cases negative
  · simp; omega
  · simp; omega

theorem magnitude_lt (x : Binary64) : x.magnitude < 1 <<< 63 :=
  Nat.mod_lt _ (by decide)

theorem isNaN_ofMagnitude (negative : Bool) {m : Nat} (h : m ≤ 2047 <<< 52) :
    (ofMagnitude negative m).isNaN = false := by
  have hm : m < 1 <<< 63 := Nat.lt_of_le_of_lt h (by decide)
  simpa [isNaN, magnitude_ofMagnitude negative hm] using h

@[simp]
theorem isNaN_ofRatio (negative : Bool) (num den : Nat) :
    (ofRatio negative num den).isNaN = false := by
  unfold ofRatio
  split
  · exact isNaN_ofMagnitude negative (Nat.zero_le _)
  · exact isNaN_ofMagnitude negative (Nat.min_le_right _ _)

@[simp]
theorem isNaN_ofNat (n : Nat) : (ofNat n).isNaN = false :=
  isNaN_ofRatio false n 1

@[simp]
theorem isNaN_ofInt (i : Int) : (ofInt i).isNaN = false :=
  isNaN_ofRatio _ i.natAbs 1

@[simp]
theorem isNaN_neg (x : Binary64) : x.neg.isNaN = x.isNaN := by
  simp [isNaN, neg, magnitude_ofMagnitude _ x.magnitude_lt]

/-- A number is equal to itself unless it is a NaN. -/
theorem beq_self {x : Binary64} (h : x.isNaN = false) : (x == x) = true := by
  change equal x x = true
  simp [equal, h]

end Binary64

namespace JsonNumber

/-- The integers below zero are the negative ones, and no double is a NaN. -/
def Canonical : JsonNumber → Prop
  | .natural _ => True
  | .negative i => i < 0
  | .double x => x.isNaN = false

theorem equal_self {n : JsonNumber} (h : n.Canonical) : n.equal n = true := by
  cases n with
  | natural n => simp [equal]
  | negative i => simp [equal]
  | double x => exact Binary64.beq_self h

theorem isNaN_toBinary64 {n : JsonNumber} (h : n.Canonical) : n.toBinary64.isNaN = false := by
  cases n with
  | natural n => exact Binary64.isNaN_ofNat _
  | negative i => exact Binary64.isNaN_ofInt _
  | double x => exact h

end JsonNumber

namespace Document

theorem isNaN_shiftDown (steps n : Nat) {x : Binary64} (h : x.isNaN = false) :
    (shiftDown steps x n).isNaN = false := by
  induction steps generalizing x n with
  | zero => exact h
  | succ steps ih =>
    unfold shiftDown
    split
    · exact Binary64.isNaN_ofRatio _ _ _
    · split
      · exact h
      · exact ih _ (Binary64.isNaN_ofRatio _ _ _)

theorem canonical_scaledDouble? {negative : Bool} {significand : Nat} {exponent : Int}
    {n : JsonNumber} (h : scaledDouble? negative significand exponent = some n) :
    n.Canonical := by
  obtain ⟨y, hy, rfl⟩ := Option.map_eq_some_iff.mp h
  have hx : (Binary64.ofNat significand).isNaN = false := Binary64.isNaN_ofNat _
  have hNaN : y.isNaN = false := by
    split at hy
    · exact Option.some.inj hy ▸ isNaN_shiftDown _ _ hx
    · split at hy
      · dsimp only at hy
        split at hy
        · exact Option.some.inj hy ▸ Binary64.isNaN_ofRatio _ _ _
        · cases hy
      · split at hy
        · exact Option.some.inj hy ▸ hx
        · cases hy
  cases negative
  · exact hNaN
  · exact (Binary64.isNaN_neg y).trans hNaN

theorem canonical_numberOf? {negative : Bool} {whole : List Char} {fraction : Option (List Char)}
    {exponent : Option Int} {n : JsonNumber}
    (h : numberOf? negative whole fraction exponent = some n) : n.Canonical := by
  simp only [numberOf?] at h
  split at h
  · split at h
    · exact canonical_scaledDouble? h
    · split at h
      · cases h
        trivial
      · split at h
        · rename_i hs
          cases h
          have hs' : (Significand.pushAll ⟨0, 0⟩ whole).value ≤ 9223372036854775808 := hs.2
          simp only [JsonNumber.Canonical, Int64.lt_iff_toInt_lt]
          rw [Int64.toInt_ofInt_of_le (by omega) (by omega)]
          simpa using hs.1
        · cases h
          exact (Binary64.isNaN_neg _).trans (Binary64.isNaN_ofNat _)
  · exact canonical_scaledDouble? h

/-! ### Documents -/

def readFraction? (text : List Char) : Option (Option (List Char) × List Char) :=
  match text with
  | '.' :: rest =>
    let digits := rest.takeWhile (·.isDigit)
    if digits.isEmpty then none else some (some digits, rest.dropWhile (·.isDigit))
  | rest => some (none, rest)

def readPower? (text : List Char) : Option (Option Int × List Char) :=
  match text with
  | 'e' :: rest => (readExponent? rest).map fun (e, rest) => (some e, rest)
  | 'E' :: rest => (readExponent? rest).map fun (e, rest) => (some e, rest)
  | rest => some (none, rest)

def startsBadly (whole : List Char) : Bool :=
  whole.isEmpty || (whole.head? == some '0' && 1 < whole.length)

/-- A number is its whole digits, its fraction and its exponent, read one after the other. -/
theorem readNumber?_eq (negative : Bool) (text : List Char) :
    readNumber? negative text =
      if startsBadly (text.takeWhile (·.isDigit)) then none
      else
        (readFraction? (text.dropWhile (·.isDigit))).bind fun (fraction, rest) =>
          (readPower? rest).map fun (exponent, rest) =>
            (.number (numberOf? negative (text.takeWhile (·.isDigit)) fraction exponent),
              rest) := by
  have hbad (whole : List Char) : startsBadly whole = true ↔
      whole.isEmpty ∨ (whole.head? = some '0' ∧ 1 < whole.length) := by
    simp [startsBadly]
  have hpower (whole : List Char) (fraction : Option (List Char)) (rest : List Char) :
      ((readPower? rest).map fun (exponent, rest) =>
        (Document.number (numberOf? negative whole fraction exponent), rest)) = (do
          let (exponent, rest) ←
            match rest with
            | 'e' :: rest => (readExponent? rest).map fun (e, rest) => (some e, rest)
            | 'E' :: rest => (readExponent? rest).map fun (e, rest) => (some e, rest)
            | rest => some (none, rest)
          some (.number (numberOf? negative whole fraction exponent), rest)) := by
    unfold readPower?
    split
    · cases readExponent? _ <;> rfl
    · cases readExponent? _ <;> rfl
    · rfl
  simp only [readNumber?, hbad]
  split
  · rfl
  · simp only [hpower]
    generalize text.dropWhile (·.isDigit) = tail
    unfold readFraction?
    split
    · rename_i rest
      cases hdigits : (rest.takeWhile (·.isDigit)).isEmpty with
      | true => simp [hdigits]
      | false =>
        simp only [hdigits]
        rfl
    · simp only [Option.bind_some]
      rfl

inductive Canonical : Document → Prop
  | null : Canonical .null
  | bool (b : Bool) : Canonical (.bool b)
  | number {value : Option JsonNumber} (canonical : ∀ n ∈ value, n.Canonical) :
    Canonical (.number value)
  | string (value : Option String) : Canonical (.string value)
  | array {items : List Document} (canonical : ∀ item ∈ items, Canonical item) :
    Canonical (.array items)
  | object {fields : List (Option String × Document)}
    (canonical : ∀ field ∈ fields, Canonical field.2) : Canonical (.object fields)

theorem canonical_readNumber? {negative : Bool} {text rest : List Char} {document : Document}
    (h : readNumber? negative text = some (document, rest)) : document.Canonical := by
  rw [readNumber?_eq] at h
  split at h
  · cases h
  · obtain ⟨⟨fraction, afterFraction⟩, -, h⟩ := Option.bind_eq_some_iff.mp h
    obtain ⟨⟨exponent, afterExponent⟩, -, h⟩ := Option.map_eq_some_iff.mp h
    cases h
    exact .number fun n hn => canonical_numberOf? hn

mutual

theorem canonical_readValue : ∀ {fuel : Nat} {text rest : List Char} {document : Document},
    readValue fuel text = some (document, rest) → document.Canonical
  | 0, _, _, _, h => by cases h
  | fuel + 1, text, rest, document, h => by
    unfold readValue at h
    split at h
    · cases h
      exact .null
    · cases h
      exact .bool true
    · cases h
      exact .bool false
    · obtain ⟨⟨s, _⟩, -, h⟩ := Option.map_eq_some_iff.mp h
      cases h
      exact .string s
    · exact canonical_readNumber? h
    · split at h
      · cases h
        exact .array (by simp)
      · obtain ⟨⟨items, _⟩, hitems, h⟩ := Option.map_eq_some_iff.mp h
        cases h
        exact .array (canonical_readItems hitems)
    · split at h
      · cases h
        exact .object (by simp)
      · obtain ⟨⟨fields, _⟩, hfields, h⟩ := Option.map_eq_some_iff.mp h
        cases h
        exact .object (canonical_readFields hfields)
    · exact canonical_readNumber? h

theorem canonical_readItems : ∀ {fuel : Nat} {text rest : List Char} {items : List Document},
    readItems fuel text = some (items, rest) → ∀ item ∈ items, item.Canonical
  | 0, _, _, _, h => by cases h
  | fuel + 1, text, rest, items, h => by
    unfold readItems at h
    obtain ⟨⟨first, _⟩, hfirst, h⟩ := Option.bind_eq_some_iff.mp h
    have hhead := canonical_readValue hfirst
    dsimp only at h
    split at h
    · obtain ⟨⟨others, _⟩, hothers, h⟩ := Option.map_eq_some_iff.mp h
      cases h
      exact List.forall_mem_cons.mpr ⟨hhead, canonical_readItems hothers⟩
    · cases h
      exact List.forall_mem_singleton.mpr hhead
    · cases h

theorem canonical_readFields : ∀ {fuel : Nat} {text rest : List Char}
    {fields : List (Option String × Document)},
    readFields fuel text = some (fields, rest) → ∀ field ∈ fields, field.2.Canonical
  | 0, _, _, _, h => by cases h
  | fuel + 1, text, rest, fields, h => by
    unfold readFields at h
    split at h
    · obtain ⟨⟨name, _⟩, -, h⟩ := Option.bind_eq_some_iff.mp h
      dsimp only at h
      split at h
      · obtain ⟨⟨value, _⟩, hvalue, h⟩ := Option.bind_eq_some_iff.mp h
        have hhead := canonical_readValue hvalue
        dsimp only at h
        split at h
        · obtain ⟨⟨others, _⟩, hothers, h⟩ := Option.map_eq_some_iff.mp h
          cases h
          exact List.forall_mem_cons.mpr ⟨hhead, canonical_readFields hothers⟩
        · cases h
          exact List.forall_mem_singleton.mpr hhead
        · cases h
      · cases h
    · cases h

end

theorem canonical_ofText? {text : String} {document : Document} (h : ofText? text = some document) :
    document.Canonical := by
  simp only [ofText?] at h
  split at h
  · rename_i hread
    split at h
    · cases h
      exact canonical_readValue hread
    · cases h
  · cases h

end Document

/-! ### Values -/

/-- A value as reading gives it, arrays and objects nesting at most `depth` deep. -/
inductive Json.Regular : Nat → Json → Prop
  | null (depth : Nat) : Regular depth .null
  | bool (depth : Nat) (b : Bool) : Regular depth (.bool b)
  | number (depth : Nat) {n : JsonNumber} (canonical : n.Canonical) : Regular depth (.number n)
  | string (depth : Nat) (s : String) : Regular depth (.string s)
  | array {depth : Nat} {items : List Json} (regular : ∀ item ∈ items, Regular depth item) :
    Regular (depth + 1) (.array items)
  | object {depth : Nat} {fields : List (String × Json)} (sorted : SortedMap.Sorted fields)
    (regular : ∀ field ∈ fields, Regular depth field.2) : Regular (depth + 1) (.object fields)

namespace Document

mutual

def ofJson : Json → Document
  | .null => .null
  | .bool b => .bool b
  | .number n => .number (some n)
  | .string s => .string (some s)
  | .array items => .array (ofItems items)
  | .object fields => .object (ofFields fields)

def ofItems : List Json → List Document
  | [] => []
  | item :: items => ofJson item :: ofItems items

def ofFields : List (String × Json) → List (Option String × Document)
  | [] => []
  | (name, value) :: fields => (some name, ofJson value) :: ofFields fields

end

theorem ofItems_eq_map (items : List Json) : ofItems items = items.map ofJson := by
  induction items with
  | nil => rfl
  | cons item items ih => simp [ofItems, ih]

theorem ofFields_eq_map (fields : List (String × Json)) :
    ofFields fields = fields.map fun field => (some field.1, ofJson field.2) := by
  induction fields with
  | nil => rfl
  | cons field fields ih => simp [ofFields, ih]

theorem valuesAt?_eq_mapM (items : List Document) (depth : Nat) :
    valuesAt? items depth = items.mapM (valueAt? · depth) := by
  induction items with
  | nil => rfl
  | cons item items ih =>
    rw [List.mapM_cons, valuesAt?, ih]
    cases item.valueAt? depth <;> cases items.mapM (valueAt? · depth) <;> rfl

def fieldAt? (depth : Nat) (field : Option String × Document) : Option (String × Json) :=
  field.1.bind fun name => (field.2.valueAt? depth).map fun value => (name, value)

theorem fieldsAt?_eq_mapM (fields : List (Option String × Document)) (depth : Nat) :
    fieldsAt? fields depth = fields.mapM (fieldAt? depth) := by
  induction fields with
  | nil => rfl
  | cons field fields ih =>
    obtain ⟨name, item⟩ := field
    rw [List.mapM_cons, ← ih, fieldAt?, fieldsAt?.eq_def]
    dsimp only
    cases name <;> cases item.valueAt? depth <;> cases fieldsAt? fields depth <;> rfl

/-- A document whose value is neither an array nor an object is that value. -/
theorem eq_ofJson_of_valueAt? {depth : Nat} {document : Document} {v : Json}
    (h : document.valueAt? depth = some v) (hitems : ∀ items, v ≠ .array items)
    (hfields : ∀ fields, v ≠ .object fields) : document = ofJson v := by
  cases document with
  | null =>
    cases h
    rfl
  | bool b =>
    cases h
    rfl
  | number n =>
    obtain ⟨n, rfl, rfl⟩ := Option.map_eq_some_iff.mp h
    rfl
  | string s =>
    obtain ⟨s, rfl, rfl⟩ := Option.map_eq_some_iff.mp h
    rfl
  | array items =>
    cases depth with
    | zero => cases h
    | succ depth =>
      obtain ⟨values, -, rfl⟩ := Option.map_eq_some_iff.mp h
      exact absurd rfl (hitems values)
  | object fields =>
    cases depth with
    | zero => cases h
    | succ depth =>
      obtain ⟨values, -, rfl⟩ := Option.map_eq_some_iff.mp h
      exact absurd rfl (hfields (SortedMap.ofList values))

/-- Where a document has a value at some depth, its value at any other one is regular at that
depth: the depth decides only whether there is a value. -/
theorem Canonical.regular {document : Document} (h : document.Canonical) {depth other : Nat}
    {v w : Json} (hv : document.valueAt? depth = some v) (hw : document.valueAt? other = some w) :
    w.Regular depth := by
  induction h generalizing depth other v w with
  | null =>
    cases hw
    exact .null depth
  | bool b =>
    cases hw
    exact .bool depth b
  | number canonical =>
    obtain ⟨n, hn, rfl⟩ := Option.map_eq_some_iff.mp hw
    exact .number depth (canonical n hn)
  | string value =>
    obtain ⟨s, -, rfl⟩ := Option.map_eq_some_iff.mp hw
    exact .string depth s
  | array canonical ih =>
    cases depth with
    | zero => cases hv
    | succ depth =>
      cases other with
      | zero => cases hw
      | succ other =>
        obtain ⟨values, hvalues, -⟩ := Option.map_eq_some_iff.mp hv
        obtain ⟨others, hothers, rfl⟩ := Option.map_eq_some_iff.mp hw
        rw [Nat.add_sub_cancel, valuesAt?_eq_mapM] at hvalues hothers
        refine .array fun value hvalue => ?_
        obtain ⟨item, hitem, hread⟩ := exists_of_mem_mapM hothers hvalue
        obtain ⟨same, -, hsame⟩ := exists_of_mapM_eq_some hvalues hitem
        exact ih item hitem hsame hread
  | object canonical ih =>
    cases depth with
    | zero => cases hv
    | succ depth =>
      cases other with
      | zero => cases hw
      | succ other =>
        obtain ⟨values, hvalues, -⟩ := Option.map_eq_some_iff.mp hv
        obtain ⟨others, hothers, rfl⟩ := Option.map_eq_some_iff.mp hw
        rw [Nat.add_sub_cancel, fieldsAt?_eq_mapM] at hvalues hothers
        refine .object (SortedMap.sorted_ofList others) fun value hvalue => ?_
        obtain ⟨field, hfield, hread⟩ :=
          exists_of_mem_mapM hothers (SortedMap.mem_of_mem_ofList hvalue)
        obtain ⟨same, -, hsame⟩ := exists_of_mapM_eq_some hvalues hfield
        obtain ⟨_, -, hnamed⟩ := Option.bind_eq_some_iff.mp hread
        obtain ⟨_, hother, rfl⟩ := Option.map_eq_some_iff.mp hnamed
        obtain ⟨_, -, hnamed⟩ := Option.bind_eq_some_iff.mp hsame
        obtain ⟨_, hvalue, -⟩ := Option.map_eq_some_iff.mp hnamed
        exact ih field hfield hvalue hother

end Document

namespace Json

namespace Regular

/-- A regular value is the value of its document. -/
theorem valueAt?_ofJson {depth : Nat} {v : Json} (h : v.Regular depth) :
    (Document.ofJson v).valueAt? depth = some v := by
  induction h with
  | null depth => rfl
  | bool depth b => rfl
  | number depth canonical => rfl
  | string depth s => rfl
  | @array depth items regular ih =>
    have hitems := mapM_map_eq_some (f := (Document.valueAt? · depth)) (g := Document.ofJson) ih
    simp [Document.ofJson, Document.valueAt?, Document.valuesAt?_eq_mapM,
      Document.ofItems_eq_map, hitems]
  | @object depth fields sorted regular ih =>
    have hfields : ∀ field ∈ fields,
        Document.fieldAt? depth (some field.1, Document.ofJson field.2) = some field := by
      intro field hfield
      rw [Document.fieldAt?, Option.bind_some, ih field hfield]
      rfl
    simp [Document.ofJson, Document.valueAt?, Document.fieldsAt?_eq_mapM,
      Document.ofFields_eq_map, mapM_map_eq_some hfields, Json.ofFields,
      SortedMap.ofList_eq_self sorted]

theorem mono {small large : Nat} {v : Json} (h : v.Regular small) (hle : small ≤ large) :
    v.Regular large := by
  induction h generalizing large with
  | null depth => exact .null large
  | bool depth b => exact .bool large b
  | number depth canonical => exact .number large canonical
  | string depth s => exact .string large s
  | array regular ih =>
    obtain ⟨large, rfl⟩ := Nat.exists_eq_add_of_le' (Nat.one_le_of_lt hle)
    exact .array fun item hitem => ih item hitem (by omega)
  | object sorted regular ih =>
    obtain ⟨large, rfl⟩ := Nat.exists_eq_add_of_le' (Nat.one_le_of_lt hle)
    exact .object sorted fun field hfield => ih field hfield (by omega)

theorem equal_self {depth : Nat} {v : Json} (h : v.Regular depth) : v.equal v = true := by
  induction h with
  | null depth => rfl
  | bool depth b => simp [equal]
  | number depth canonical => exact JsonNumber.equal_self canonical
  | string depth s => simp [equal]
  | @array depth items regular ih =>
    rw [equal]
    clear regular
    induction items with
    | nil => rfl
    | cons item items ihItems =>
      rw [equalItems, ih item List.mem_cons_self,
        ihItems fun other hother => ih other (List.mem_cons_of_mem item hother)]
      rfl
  | @object depth fields sorted regular ih =>
    rw [equal]
    clear sorted regular
    induction fields with
    | nil => rfl
    | cons field fields ihFields =>
      rw [equalFields, beq_self_eq_true, ih field List.mem_cons_self,
        ihFields fun other hother => ih other (List.mem_cons_of_mem field hother)]
      rfl

end Regular

end Json

end Telemetry
