import Telemetry.Proofs.Json.Integers
import Telemetry.Proofs.Tree.Scalars

/-!
Conversion of values into leaves is exact. The leaf is of the kind that its type stores, an integer
is the one that the value carries, and the value that a leaf is served as is converted to the same
leaf. An integer that 64 bits of its type do not hold is refused.
-/

namespace Telemetry

def LeafValue.integer? : LeafValue → Option Int
  | .int i => some i.toInt
  | .uint u => some u.toNat
  | _ => none

def TypedValue.integer? : TypedValue → Option Int
  | .int i => some i.toInt
  | .uint u => some u.toNat
  | .json text => (String.fromUTF8? ⟨text.toArray⟩).bind Json.integer?
  | .jsonIetf text => (String.fromUTF8? ⟨text.toArray⟩).bind Json.integer?
  | _ => none

def LeafType.Beyond : LeafType → Int → Prop
  | .int _ _, n => n < Int64.minValue.toInt ∨ Int64.maxValue.toInt < n
  | .uint _ _, n => n < 0 ∨ (UInt64.size : Int) ≤ n
  | _, _ => False

/-- A leaf never holds an integer beyond its type. -/
theorem LeafType.Stores.integer?_ne {type : LeafType} {leaf : LeafValue} (h : type.Stores leaf)
    {n : Int} (hn : type.Beyond n) : ∃ i, leaf.integer? = some i ∧ i ≠ n := by
  cases type <;> cases leaf <;> try cases h
  case int.int min max i =>
    have hlow : Int64.minValue.toInt ≤ i.toInt := i.le_toInt
    have hhigh : i.toInt ≤ Int64.maxValue.toInt := i.toInt_le
    exact ⟨_, rfl, by simp only [Beyond] at hn; omega⟩
  case uint.uint min max u =>
    have hhigh : u.toNat < UInt64.size := u.toNat_lt_size
    exact ⟨_, rfl, by simp only [Beyond] at hn; omega⟩
  all_goals cases hn

namespace LeafValue

theorem exists_of_ofBytes {type : LeafType} {bytes : List UInt8} {place : String} {leaf : LeafValue}
    (h : (do ofJson type (← Json.ofBytes bytes place) place) = .ok leaf) :
    ∃ text json, String.fromUTF8? ⟨bytes.toArray⟩ = some text ∧ Json.ofText? text = some json ∧
      ofJson type json place = .ok leaf := by
  obtain ⟨json, hjson, h⟩ := bind_eq_ok.mp h
  unfold Json.ofBytes at hjson
  split at hjson
  · rename_i hread
    cases hjson
    obtain ⟨text, htext, hvalue⟩ := Option.bind_eq_some_iff.mp hread
    exact ⟨text, _, htext, hvalue, h⟩
  · cases hjson

/-- A value is converted to a leaf of the kind that the type stores. -/
theorem stores_of_ofTyped {type : LeafType} {value : TypedValue} {place : String}
    {leaf : LeafValue} (h : ofTyped type value place = .ok leaf) : type.Stores leaf := by
  unfold ofTyped at h
  split at h
  case h_1 | h_16 => cases h
  case h_2 | h_3 =>
    obtain ⟨_, _, -, -, h⟩ := exists_of_ofBytes h
    exact stores_of_ofJson h
  case h_10 | h_12 =>
    dsimp only at h
    split at h
    · cases h
      trivial
    · cases h
  case h_13 | h_14 =>
    obtain ⟨-, rfl⟩ := ofDouble_eq_ok.mp h
    trivial
  all_goals
    cases h
    trivial

/-- The integer of a leaf is the one that the JSON text carries. -/
theorem integer?_of_ofJson {type : LeafType} {text : String} {json : Json} {place : String}
    {leaf : LeafValue} {n : Int} (hjson : Json.ofText? text = some json)
    (h : ofJson type json place = .ok leaf) (hn : leaf.integer? = some n) :
    Json.integer? text = some n := by
  have hstores := stores_of_ofJson h
  cases leaf with
  | int i =>
    cases type <;> try cases hstores
    cases hn
    obtain ⟨_, hi, ⟨number, rfl, hnumber⟩ | ⟨s, rfl, hs⟩⟩ := exists_of_ofJson_int h
    · cases hi
      exact Json.integer?_of_number hjson hnumber
    · cases hi
      rw [Json.integer?_of_string hjson, Integer.integer?_of_signed? hs]
  | uint u =>
    cases type <;> try cases hstores
    cases hn
    obtain ⟨_, hu, ⟨number, rfl, hnumber⟩ | ⟨s, rfl, hs⟩⟩ := exists_of_ofJson_uint h
    · cases hu
      exact Json.integer?_of_number hjson hnumber
    · cases hu
      rw [Json.integer?_of_string hjson, Integer.integer?_of_unsigned? hs]
  | _ => cases hn

/-- The integer of a leaf is the one that the value carries. -/
theorem integer?_of_ofTyped {type : LeafType} {value : TypedValue} {place : String}
    {leaf : LeafValue} {n : Int} (h : ofTyped type value place = .ok leaf)
    (hn : leaf.integer? = some n) : value.integer? = some n := by
  unfold ofTyped at h
  split at h
  case h_1 | h_16 => cases h
  case h_2 | h_3 =>
    obtain ⟨text, json, htext, hjson, h⟩ := exists_of_ofBytes h
    rw [TypedValue.integer?, htext]
    exact integer?_of_ofJson hjson h hn
  case h_10 =>
    dsimp only at h
    split at h
    · rename_i i _ _ hi
      cases h
      cases hn
      rw [TypedValue.integer?, Int64.toNat_toUInt64_of_le hi, Int64.toInt_eq_toNatClampNeg hi]
    · cases h
  case h_12 =>
    dsimp only at h
    split at h
    · rename_i u _ _ hu
      cases h
      cases hn
      have hsize : u.toNat < 9223372036854775808 := hu
      have hvalue : u.toInt64.toInt = u.toNat :=
        BitVec.toInt_eq_toNat_of_lt (x := u.toBitVec) (by rw [UInt64.toNat_toBitVec]; omega)
      rw [TypedValue.integer?, hvalue]
    · cases h
  case h_13 | h_14 =>
    obtain ⟨-, rfl⟩ := ofDouble_eq_ok.mp h
    cases hn
  all_goals
    cases h
    exact hn

/-- Conversion is exact: a leaf is of the kind that its type stores and finite, its integer is the
one that the value carries, and it is converted to itself from the value that it is served as. An
integer that 64 bits of the type do not hold is an error. -/
theorem conversion_is_exact (type : LeafType) (value : TypedValue) (path : String) :
    (∀ leaf, ofTyped type value path = .ok leaf →
      type.Stores leaf ∧ leaf.IsFinite ∧
      (∀ n, leaf.integer? = some n → value.integer? = some n) ∧
      ∀ place, ofTyped type leaf.toTyped place = .ok leaf) ∧
    ∀ n, value.integer? = some n → type.Beyond n → ∃ e, ofTyped type value path = .error e := by
  refine ⟨fun leaf h => ⟨stores_of_ofTyped h, isFinite_of_ofTyped h,
    fun n hn => integer?_of_ofTyped h hn,
    fun place => (stores_of_ofTyped h).ofTyped_toTyped (isFinite_of_ofTyped h) place⟩, ?_⟩
  intro n hn hbeyond
  cases h : ofTyped type value path with
  | error e => exact ⟨e, rfl⟩
  | ok leaf =>
    obtain ⟨i, hi, hne⟩ := (stores_of_ofTyped h).integer?_ne hbeyond
    have hsame := (integer?_of_ofTyped h hi).symm.trans hn
    exact absurd (Option.some.inj hsame) hne

/-- The number `2 ^ 63` in a document is kept whole for an unsigned leaf, which is converted to
itself from what it is served as, and refused for a signed one. -/
theorem conversion_is_exact_at_limit :
    ofTyped (.uint none none) (.json "9223372036854775808".toUTF8.toList) "/octets" =
      .ok (.uint 9223372036854775808) ∧
    ofTyped (.uint none none) (.uint 9223372036854775808) "/octets" =
      .ok (.uint 9223372036854775808) ∧
    (TypedValue.json "9223372036854775808".toUTF8.toList).integer? =
      some 9223372036854775808 ∧
    ∃ e, ofTyped (.int none none) (.json "9223372036854775808".toUTF8.toList) "/offset" =
      .error e := by
  have hvalue : (TypedValue.json "9223372036854775808".toUTF8.toList).integer? =
      some 9223372036854775808 := by decide +kernel
  have hkept : (ofTyped (.uint none none) (.json "9223372036854775808".toUTF8.toList)
      "/octets").toOption.bind integer? = some 9223372036854775808 := by decide +kernel
  have hleaf : ofTyped (.uint none none) (.json "9223372036854775808".toUTF8.toList) "/octets" =
      .ok (.uint 9223372036854775808) := by
    cases h : ofTyped (.uint none none) (.json "9223372036854775808".toUTF8.toList) "/octets" with
    | error e =>
      rw [h] at hkept
      cases hkept
    | ok leaf =>
      rw [h] at hkept
      have hkind := stores_of_ofTyped h
      cases leaf with
      | uint u =>
        have hsame : u.toNat = (9223372036854775808 : UInt64).toNat :=
          Int.ofNat.inj (Option.some.inj hkept)
        rw [UInt64.toNat_inj.mp hsame]
      | _ => cases hkind
  obtain ⟨-, -, -, hagain⟩ := (conversion_is_exact _ _ _).1 _ hleaf
  refine ⟨hleaf, hagain "/octets", hvalue, ?_⟩
  exact (conversion_is_exact (.int none none) _ "/offset").2 _ hvalue (.inr (by decide))

end LeafValue

end Telemetry
