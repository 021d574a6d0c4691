import Telemetry.Proofs.Json.Tokens

/-!
Reading the text of a JSON value. The reader finds the document of a value at the start of every
text that begins with the text of the value, provided each double in it is read back from its own
text: strings, integers and nesting need no such proviso (`Json.Regular.ofText?_render`).
-/

namespace Telemetry

namespace Json

mutual

def doubles : Json → List Binary64
  | .number (.double x) => [x]
  | .array items => doublesOfItems items
  | .object fields => doublesOfFields fields
  | _ => []

def doublesOfItems : List Json → List Binary64
  | [] => []
  | item :: items => item.doubles ++ doublesOfItems items

def doublesOfFields : List (String × Json) → List Binary64
  | [] => []
  | (_, value) :: fields => value.doubles ++ doublesOfFields fields

end

theorem mem_doublesOfItems {items : List Json} {x : Binary64} :
    x ∈ doublesOfItems items ↔ ∃ item ∈ items, x ∈ item.doubles := by
  induction items with
  | nil => simp [doublesOfItems]
  | cons item items ih => simp [doublesOfItems, ih]

theorem mem_doublesOfFields {fields : List (String × Json)} {x : Binary64} :
    x ∈ doublesOfFields fields ↔ ∃ field ∈ fields, x ∈ field.2.doubles := by
  induction fields with
  | nil => simp [doublesOfFields]
  | cons field fields ih => simp [doublesOfFields, ih]

/-- Wherever the text of the value stands, the reader finds the document of the value there, given
fuel for each of its characters. It goes on with what comes next, but for white space. -/
def IsFound (v : Json) : Prop :=
  ∀ {fuel : Nat} {rest : List Char}, 2 * v.render.toList.length ≤ fuel → Document.Stops rest →
    ∃ left,
      Document.readValue (fuel + 1) (v.render.toList ++ rest) = some (Document.ofJson v, left) ∧
        Document.skipBlank left = Document.skipBlank rest

def itemsText : List Json → List Char
  | [] => []
  | item :: items => item.render.toList ++ (renderItems items).toList

def fieldsText : List (String × Json) → List Char
  | [] => []
  | (name, value) :: fields =>
    (quote name).toList ++ ':' :: (value.render.toList ++ (renderFields fields).toList)

theorem toList_renderItems_cons (item : Json) (items : List Json) :
    (renderItems (item :: items)).toList = ',' :: itemsText (item :: items) := by
  simp [renderItems, itemsText]

theorem toList_renderFields_cons (field : String × Json) (fields : List (String × Json)) :
    (renderFields (field :: fields)).toList = ',' :: fieldsText (field :: fields) := by
  simp [renderFields, fieldsText]

theorem toList_render_array (items : List Json) :
    (render (.array items)).toList = '[' :: (itemsText items ++ [']']) := by
  cases items with
  | nil => rfl
  | cons item items => simp [render, itemsText]

theorem toList_render_object (fields : List (String × Json)) :
    (render (.object fields)).toList = '\x7b' :: (fieldsText fields ++ ['\x7d']) := by
  cases fields with
  | nil => rfl
  | cons field fields => simp [render, fieldsText]

end Json

namespace Document

/-- No value starts with a closing bracket. -/
theorem readItems_bracket (fuel : Nat) (text : List Char) :
    readItems fuel (']' :: text) = none := by
  cases fuel with
  | zero => rfl
  | succ fuel =>
    cases fuel with
    | zero => rfl
    | succ fuel => rfl

/-- What the first character of a value says about what follows it. -/
theorem readValue_quote (fuel : Nat) (text : List Char) :
    readValue (fuel + 1) ('"' :: text) =
      (readString text).map fun (s, rest) => (.string s, rest) := rfl

theorem readValue_bracket (fuel : Nat) (text : List Char) :
    readValue (fuel + 1) ('[' :: text) =
      match skipBlank text with
      | ']' :: rest => some (.array [], rest)
      | rest => (readItems fuel rest).map fun (items, rest) => (.array items, rest) := rfl

theorem readValue_brace (fuel : Nat) (text : List Char) :
    readValue (fuel + 1) ('\x7b' :: '"' :: text) =
      (readFields fuel ('"' :: text)).map fun (fields, rest) => (.object fields, rest) := rfl

theorem readValue_array {fuel : Nat} {text rest : List Char} {items : List Document}
    (h : readItems fuel text = some (items, rest)) :
    readValue (fuel + 1) ('[' :: text) = some (.array items, rest) := by
  rw [readValue_bracket]
  split
  · rename_i hclose
    rw [← readItems_skipBlank, hclose, readItems_bracket] at h
    cases h
  · rw [readItems_skipBlank, h]
    rfl

theorem readValue_object {fuel : Nat} {name : String} {text rest : List Char}
    {fields : List (Option String × Document)}
    (h : readFields fuel ((Json.quote name).toList ++ text) = some (fields, rest)) :
    readValue (fuel + 1) ('\x7b' :: ((Json.quote name).toList ++ text)) =
      some (.object fields, rest) := by
  have hquote : (Json.quote name).toList = '"' :: (name.toList.flatMap Json.escape ++ ['"']) := by
    simp [Json.quote]
  rw [hquote, List.cons_append] at h ⊢
  rw [readValue_brace, h]
  rfl

section

variable {fuel : Nat} {text left : List Char} {item : Document}

/-- After an item, what comes next decides how to go on. -/
theorem readItems_succ (h : readValue fuel text = some (item, left)) :
    readItems (fuel + 1) text =
      match skipBlank left with
      | ',' :: rest => (readItems fuel rest).map fun (items, rest) => (item :: items, rest)
      | ']' :: rest => some ([item], rest)
      | _ => none := by
  rw [readItems, h]
  rfl

/-- After the name of a field and its value as well. -/
theorem readFields_quote {name : String} (h : readValue fuel text = some (item, left)) :
    readFields (fuel + 1) ((Json.quote name).toList ++ ':' :: text) =
      match skipBlank left with
      | ',' :: rest =>
        (readFields fuel rest).map fun (fields, rest) => ((some name, item) :: fields, rest)
      | '\x7d' :: rest => some ([(some name, item)], rest)
      | _ => none := by
  have hquote : skipBlank ((Json.quote name).toList ++ ':' :: text) =
      '"' :: (name.toList.flatMap Json.escape ++ '"' :: ':' :: text) := by
    simp [Json.quote, skipBlank, isBlank]
  have hcolon : skipBlank (':' :: text) = ':' :: text := rfl
  rw [readFields, hquote]
  simp only [readString_quoted, Option.bind_eq_bind, Option.bind_some, hcolon]
  rw [h]
  rfl

end

/-- Items are read up to their closing bracket. Each takes a call for itself and one for what
follows it, which its own characters and its comma pay for. -/
theorem readItems_itemsText {item : Json} {items : List Json}
    (h : ∀ v ∈ item :: items, v.IsFound) {fuel : Nat} {rest : List Char}
    (hfuel : 2 * (Json.itemsText (item :: items)).length ≤ fuel) :
    readItems (fuel + 2) (Json.itemsText (item :: items) ++ ']' :: rest) =
      some (ofItems (item :: items), rest) := by
  induction items generalizing item fuel with
  | nil =>
    have htext : Json.itemsText [item] = item.render.toList := by
      simp [Json.itemsText, Json.renderItems]
    rw [htext] at hfuel ⊢
    obtain ⟨left, hread, hleft⟩ := h item List.mem_cons_self hfuel (.bracket rest)
    have hskip : skipBlank left = ']' :: rest := hleft
    rw [readItems_succ hread, hskip]
    rfl
  | cons next items ih =>
    have htext : Json.itemsText (item :: next :: items) =
        item.render.toList ++ ',' :: Json.itemsText (next :: items) := by
      rw [Json.itemsText, Json.toList_renderItems_cons]
    rw [htext, List.length_append, List.length_cons] at hfuel
    obtain ⟨fuel, rfl⟩ := Nat.exists_eq_add_of_le' (show 1 ≤ fuel by omega)
    obtain ⟨left, hread, hleft⟩ := h item List.mem_cons_self
      (by omega : 2 * item.render.toList.length ≤ fuel + 1)
      (.comma (Json.itemsText (next :: items) ++ ']' :: rest))
    have hskip : skipBlank left = ',' :: (Json.itemsText (next :: items) ++ ']' :: rest) := hleft
    have hrest : readItems (fuel + 2) (Json.itemsText (next :: items) ++ ']' :: rest) =
        some (ofItems (next :: items), rest) :=
      ih (fun v hv => h v (List.mem_cons_of_mem item hv)) (by omega)
    rw [htext, List.append_assoc, List.cons_append, readItems_succ hread, hskip]
    change Option.map _ (readItems (fuel + 2) _) = _
    rw [hrest]
    rfl

/-- Fields are read up to their closing brace in the same way. -/
theorem readFields_fieldsText {field : String × Json} {fields : List (String × Json)}
    (h : ∀ other ∈ field :: fields, other.2.IsFound) {fuel : Nat} {rest : List Char}
    (hfuel : 2 * (Json.fieldsText (field :: fields)).length ≤ fuel) :
    readFields (fuel + 2) (Json.fieldsText (field :: fields) ++ '\x7d' :: rest) =
      some (ofFields (field :: fields), rest) := by
  induction fields generalizing field fuel with
  | nil =>
    obtain ⟨name, value⟩ := field
    have htext : Json.fieldsText [(name, value)] =
        (Json.quote name).toList ++ ':' :: value.render.toList := by
      simp [Json.fieldsText, Json.renderFields]
    rw [htext, List.length_append, List.length_cons] at hfuel
    obtain ⟨left, hread, hleft⟩ := h (name, value) List.mem_cons_self
      (by omega : 2 * value.render.toList.length ≤ fuel) (.brace rest)
    have hskip : skipBlank left = '\x7d' :: rest := hleft
    rw [htext, List.append_assoc, List.cons_append, readFields_quote hread, hskip]
    rfl
  | cons next fields ih =>
    obtain ⟨name, value⟩ := field
    have htext : Json.fieldsText ((name, value) :: next :: fields) = (Json.quote name).toList ++
        ':' :: (value.render.toList ++ ',' :: Json.fieldsText (next :: fields)) := by
      rw [Json.fieldsText, Json.toList_renderFields_cons]
    rw [htext] at hfuel
    simp only [List.length_append, List.length_cons] at hfuel
    obtain ⟨fuel, rfl⟩ := Nat.exists_eq_add_of_le' (show 1 ≤ fuel by omega)
    obtain ⟨left, hread, hleft⟩ := h (name, value) List.mem_cons_self
      (by omega : 2 * value.render.toList.length ≤ fuel + 1)
      (.comma (Json.fieldsText (next :: fields) ++ '\x7d' :: rest))
    have hskip : skipBlank left = ',' :: (Json.fieldsText (next :: fields) ++ '\x7d' :: rest) :=
      hleft
    have hrest : readFields (fuel + 2) (Json.fieldsText (next :: fields) ++ '\x7d' :: rest) =
        some (ofFields (next :: fields), rest) :=
      ih (fun other hother => h other (List.mem_cons_of_mem _ hother)) (by omega)
    rw [htext, List.append_assoc, List.cons_append, List.append_assoc, List.cons_append,
      readFields_quote hread, hskip]
    change Option.map _ (readFields (fuel + 2) _) = _
    rw [hrest]
    rfl

end Document

namespace Json

/-- A number that is read back from its text is found wherever its text stands. -/
theorem isFound_number {n : JsonNumber} (h : n.ReadsBack) : IsFound (.number n) := by
  intro fuel rest hfuel hrest
  obtain ⟨left, hread, hleft⟩ := Document.ofText?_eq_number.mp h
  refine ⟨left ++ rest, hrest.readValue hread fuel, ?_⟩
  rw [Document.skipBlank, Document.skipBlank] at *
  rw [List.dropWhile_append, hleft]
  rfl

theorem isFound_string (s : String) : IsFound (.string s) := by
  intro fuel rest hfuel hrest
  have htext : (render (.string s)).toList ++ rest =
      '"' :: (s.toList.flatMap escape ++ '"' :: rest) := by
    simp [render, quote]
  refine ⟨rest, ?_, rfl⟩
  rw [htext, Document.readValue_quote, Document.readString_quoted]
  rfl

theorem isFound_array {items : List Json} (h : ∀ item ∈ items, item.IsFound) :
    IsFound (.array items) := by
  intro fuel rest hfuel _
  refine ⟨rest, ?_, rfl⟩
  rw [toList_render_array] at hfuel ⊢
  cases items with
  | nil => rfl
  | cons item items =>
    simp only [List.length_cons, List.length_append, List.length_nil] at hfuel
    obtain ⟨fuel, rfl⟩ := Nat.exists_eq_add_of_le' (show 2 ≤ fuel by omega)
    rw [List.cons_append, List.append_assoc, List.singleton_append]
    exact Document.readValue_array (Document.readItems_itemsText h (by omega))

theorem isFound_object {fields : List (String × Json)} (h : ∀ field ∈ fields, field.2.IsFound) :
    IsFound (.object fields) := by
  intro fuel rest hfuel _
  refine ⟨rest, ?_, rfl⟩
  rw [toList_render_object] at hfuel ⊢
  cases fields with
  | nil => rfl
  | cons field fields =>
    simp only [List.length_cons, List.length_append, List.length_nil] at hfuel
    obtain ⟨fuel, rfl⟩ := Nat.exists_eq_add_of_le' (show 2 ≤ fuel by omega)
    have hread : Document.readFields (fuel + 2) (fieldsText (field :: fields) ++ '\x7d' :: rest) =
        some (Document.ofFields (field :: fields), rest) :=
      Document.readFields_fieldsText h (by omega)
    obtain ⟨name, value⟩ := field
    rw [List.cons_append, List.append_assoc, List.singleton_append]
    rw [fieldsText, List.append_assoc] at hread ⊢
    exact Document.readValue_object hread

/-- The reader finds a regular value whose doubles are read back. -/
theorem Regular.isFound {depth : Nat} {v : Json} (h : v.Regular depth)
    (hdoubles : ∀ x ∈ v.doubles, (JsonNumber.double x).ReadsBack) : v.IsFound := by
  induction h with
  | null depth =>
    intro fuel rest _ _
    exact ⟨rest, rfl, rfl⟩
  | bool depth b =>
    intro fuel rest _ _
    cases b with
    | true => exact ⟨rest, rfl, rfl⟩
    | false => exact ⟨rest, rfl, rfl⟩
  | @number depth n canonical =>
    cases n with
    | natural n => exact isFound_number (JsonNumber.readsBack_natural n)
    | negative i => exact isFound_number (JsonNumber.readsBack_negative canonical)
    | double x => exact isFound_number (hdoubles x List.mem_cons_self)
  | string depth s => exact isFound_string s
  | array regular ih =>
    exact isFound_array fun item hitem => ih item hitem fun x hx =>
      hdoubles x (mem_doublesOfItems.mpr ⟨item, hitem, hx⟩)
  | object sorted regular ih =>
    exact isFound_object fun field hfield => ih field hfield fun x hx =>
      hdoubles x (mem_doublesOfFields.mpr ⟨field, hfield, hx⟩)

/-- The text of a regular value whose doubles are read back is the text of its document. -/
theorem Regular.ofText?_render {depth : Nat} {v : Json} (h : v.Regular depth)
    (hdoubles : ∀ x ∈ v.doubles, (JsonNumber.double x).ReadsBack) :
    Document.ofText? v.render = some (Document.ofJson v) := by
  obtain ⟨left, hread, hleft⟩ := h.isFound hdoubles
    (by omega : 2 * v.render.toList.length ≤ 2 * v.render.toList.length + 1) .nil
  rw [List.append_nil] at hread
  have hskip : Document.skipBlank left = [] := hleft
  simp [Document.ofText?, hread, hskip]

end Json

end Telemetry
