import Mathlib.Algebra.GroupWithZero.Nat
import Mathlib.Data.Nat.Log
import Telemetry.Wire

/-!
The bytes that the sizes of updates are the sizes of. An update is written field by field in the
order of the field numbers; a field is its tag, then its content, behind its length unless the
length is fixed or shows in the content.
-/

namespace Telemetry.Wire

/-- A natural number in groups of seven bits, the lowest first. All but the last are marked. -/
def varint (n : Nat) : List UInt8 :=
  if n < 128 then [UInt8.ofNat n]
  else UInt8.ofNat (n % 128 + 128) :: varint (n / 128)

def fixed (bytes n : Nat) : List UInt8 :=
  (List.range bytes).map fun i => UInt8.ofNat (n / 256 ^ i % 256)

inductive Layout where
  /-- A natural number in groups of bits. -/
  | varint
  | eightBytes
  /-- Bytes behind their number. -/
  | delimited
  | fourBytes

def tag (field : Nat) : Layout → List UInt8
  | .varint => varint (8 * field)
  | .eightBytes => varint (8 * field + 1)
  | .delimited => varint (8 * field + 2)
  | .fourBytes => varint (8 * field + 5)

def bytesField (field : Nat) (content : List UInt8) : List UInt8 :=
  tag field .delimited ++ varint content.length ++ content

def utf8 (s : String) : List UInt8 := s.toUTF8.data.toList

def textField (field : Nat) (s : String) : List UInt8 :=
  if s.isEmpty then [] else bytesField field (utf8 s)

def encodeKey (key value : String) : List UInt8 :=
  textField 1 key ++ textField 2 value

def encodeElem (elem : PathElem) : List UInt8 :=
  textField 1 elem.name ++ elem.keys.flatMap fun (key, value) => bytesField 2 (encodeKey key value)

def encodePath (path : Path) : List UInt8 :=
  textField 2 path.origin ++ path.elems.flatMap (fun elem => bytesField 3 (encodeElem elem))
    ++ textField 4 path.target

mutual

def encodeValue : TypedValue → List UInt8
  | .empty => []
  | .string s => bytesField 1 (utf8 s)
  | .int i => tag 2 .varint ++ varint i.toUInt64.toNat
  | .uint u => tag 3 .varint ++ varint u.toNat
  | .bool b => tag 4 .varint ++ varint b.toNat
  | .bytes b => bytesField 5 b
  | .float f => tag 6 .fourBytes ++ fixed 4 f.bits.toNat
  | .double d => tag 14 .eightBytes ++ fixed 8 d.bits.toNat
  | .leafList elements => bytesField 8 (encodeElements elements)
  | .json text => bytesField 10 text
  | .jsonIetf text => bytesField 11 text
  | .ascii s => bytesField 12 (utf8 s)
  | .protoBytes b => bytesField 13 b

def encodeElements : List TypedValue → List UInt8
  | [] => []
  | value :: rest => bytesField 1 (encodeValue value) ++ encodeElements rest

end

def encodeUpdate (path : Path) (value : TypedValue) : List UInt8 :=
  bytesField 1 (encodePath path) ++ bytesField 3 (encodeValue value)

@[simp]
theorem length_varint (n : Nat) : (varint n).length = varintLength n := by
  induction n using Nat.strongRecOn with
  | ind n ih =>
    unfold varint varintLength
    rw [Nat.log2_eq_log_two]
    split
    · rename_i hsmall
      have hlog : Nat.log 2 n < 7 := by
        rcases Nat.eq_zero_or_pos n with rfl | hpos
        · decide
        · exact Nat.log_lt_of_lt_pow hpos.ne' hsmall
      rw [Nat.div_eq_of_lt hlog]
      rfl
    · rename_i hlarge
      have hlog : 7 ≤ Nat.log 2 n := Nat.le_log_of_pow_le (by decide) (Nat.not_lt.mp hlarge)
      have hrest := ih (n / 128) (by omega)
      have hdiv : Nat.log 2 (n / 128) = Nat.log 2 n - 7 := Nat.log_div_base_pow 2 n 7
      rw [varintLength, Nat.log2_eq_log_two, hdiv] at hrest
      rw [List.length_cons, hrest]
      omega

@[simp]
theorem length_fixed (bytes n : Nat) : (fixed bytes n).length = bytes := by
  simp [fixed]

theorem varintLength_of_lt {n : Nat} (h : n < 128) : varintLength n = 1 := by
  rw [← length_varint, varint, if_pos h]
  rfl

/-- The tag of a field with a small number is one byte. -/
theorem length_tag {field : Nat} (h : field < 16) (layout : Layout) :
    (tag field layout).length = 1 := by
  cases layout <;>
  · rw [tag, length_varint]
    exact varintLength_of_lt (by omega)

theorem length_bytesField {field : Nat} (h : field < 16) (content : List UInt8) :
    (bytesField field content).length = delimited content.length := by
  simp only [bytesField, delimited, List.length_append, length_tag h, length_varint]

@[simp]
theorem length_utf8 (s : String) : (utf8 s).length = s.utf8ByteSize := rfl

theorem length_textField {field : Nat} (h : field < 16) (s : String) :
    (textField field s).length = stringField s := by
  unfold textField stringField
  split
  · rfl
  · rw [length_bytesField h, length_utf8]

theorem total_eq_sum (sizes : List Nat) : total sizes = sizes.sum := rfl

theorem length_encodeKey (key value : String) :
    (encodeKey key value).length = stringField key + stringField value := by
  rw [encodeKey, List.length_append, length_textField (by decide), length_textField (by decide)]

theorem length_encodeElem (elem : PathElem) : (encodeElem elem).length = elemSize elem := by
  rw [encodeElem, List.length_append, length_textField (by decide), List.length_flatMap, elemSize,
    total_eq_sum]
  simp only [length_bytesField (by decide : 2 < 16), length_encodeKey]

theorem length_encodePath (path : Path) : (encodePath path).length = pathSize path := by
  rw [encodePath, List.length_append, List.length_append, length_textField (by decide),
    length_textField (by decide), List.length_flatMap, pathSize, total_eq_sum]
  simp only [length_bytesField (by decide : 3 < 16), length_encodeElem]

mutual

theorem length_encodeValue (value : TypedValue) : (encodeValue value).length = valueSize value := by
  cases value with
  | empty => rfl
  | leafList elements =>
    rw [encodeValue, valueSize, length_bytesField (by decide), length_encodeElements]
  | bool b =>
    have hsmall : varintLength b.toNat = 1 := by cases b <;> rfl
    rw [encodeValue, valueSize, List.length_append, length_tag (by decide), length_varint, hsmall]
  | _ => simp [encodeValue, valueSize, length_bytesField, length_tag]

theorem length_encodeElements (elements : List TypedValue) :
    (encodeElements elements).length = elementsSize elements := by
  cases elements with
  | nil => rfl
  | cons value rest =>
    rw [encodeElements, elementsSize, List.length_append, length_bytesField (by decide),
      length_encodeValue, length_encodeElements]

end

/-- The size of an update is the number of its bytes. -/
theorem length_encodeUpdate (path : Path) (value : TypedValue) :
    (encodeUpdate path value).length = updateSize path value := by
  rw [encodeUpdate, List.length_append, length_bytesField (by decide),
    length_bytesField (by decide), length_encodePath, length_encodeValue, updateSize]

end Telemetry.Wire
