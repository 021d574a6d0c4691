import Telemetry.Number.Integer
import Telemetry.Proofs.Json.Tokens
import Mathlib.Data.List.DropRight

/-!
The integer that a text spells, of whatever size. `Decimal.integer?` is that of digits after an
optional sign. `Json.integer?` is that of a JSON text: a number without fraction and exponent
between white space, or a string that holds a sign and digits. The readers of 64-bit integers
accept only what spells the integer that they give.
-/

namespace Telemetry

namespace Decimal

def value (digits : List Char) : Nat :=
  digits.foldl (fun n c => 10 * n + (c.toNat - '0'.toNat)) 0

def natural? (text : List Char) : Option Nat :=
  if text ≠ [] ∧ text.all (·.isDigit) then some (value text) else none

def integer? : List Char → Option Int
  | '-' :: digits => (natural? digits).map fun n : Nat => -(n : Int)
  | '+' :: digits => (natural? digits).map Int.ofNat
  | digits => (natural? digits).map Int.ofNat

theorem natural?_of_digits? {text : List Char} {n : Nat} (h : Integer.digits? text = some n) :
    natural? text = some n := by
  simp only [Integer.digits?, takeDigits] at h
  obtain ⟨hall, h⟩ := Option.ite_none_left_eq_some.mp h
  obtain ⟨hcount, hrest⟩ := not_or.mp hall
  replace hrest : text.dropWhile (·.isDigit) = [] := by simpa using hrest
  have htext : text.takeWhile (·.isDigit) = text := by
    simpa [hrest] using List.takeWhile_append_dropWhile (p := (·.isDigit)) (l := text)
  rw [htext] at h hcount
  have hdigits : text.all (·.isDigit) = true :=
    List.all_eq_true.mpr (List.dropWhile_eq_nil_iff.mp hrest)
  rw [natural?, if_pos ⟨fun hnil => hcount (by rw [hnil]; rfl), hdigits⟩]
  exact h

/-- The integer behind a sign. -/
theorem integer?_of_takeSign {text body : List Char} {negative : Bool} {n : Nat}
    (hsign : takeSign text = (negative, body)) (hbody : Integer.digits? body = some n) :
    integer? text = some (if negative then -(n : Int) else n) := by
  unfold takeSign at hsign
  split at hsign
  · cases hsign
    simp [integer?, natural?_of_digits? hbody]
  · cases hsign
    simp [integer?, natural?_of_digits? hbody]
  · rename_i hminus hplus
    cases hsign
    unfold integer?
    split
    · exact absurd rfl (hminus _)
    · exact absurd rfl (hplus _)
    · simp [natural?_of_digits? hbody]

end Decimal

namespace Integer

/-- A signed integer is the one that its text spells. -/
theorem integer?_of_signed? {text : String} {i : Int64} (h : signed? text = some i) :
    Decimal.integer? text.toList = some i.toInt := by
  obtain ⟨negative, body, hsign⟩ :
      ∃ negative body, Decimal.takeSign text.toList = (negative, body) := ⟨_, _, rfl⟩
  simp only [signed?, hsign] at h
  cases hbody : digits? body with
  | none => simp [hbody] at h
  | some n =>
    rw [Decimal.integer?_of_takeSign hsign hbody]
    simp only [hbody] at h
    cases negative with
    | true =>
      obtain ⟨hn, h⟩ := Option.ite_none_right_eq_some.mp h
      have hsize : n ≤ 9223372036854775808 := hn
      rw [← Option.some.inj h, Int64.toInt_ofInt_of_le (by omega) (by omega)]
      rfl
    | false =>
      obtain ⟨hn, h⟩ := Option.ite_none_right_eq_some.mp h
      have hsize : n < 9223372036854775808 := hn
      rw [← Option.some.inj h, Int64.toInt_ofInt_of_le (by omega) (by omega)]
      rfl

/-- So is an unsigned one. -/
theorem integer?_of_unsigned? {text : String} {u : UInt64} (h : unsigned? text = some u) :
    Decimal.integer? text.toList = some (u.toNat : Int) := by
  obtain ⟨negative, body, hsign⟩ :
      ∃ negative body, Decimal.takeSign text.toList = (negative, body) := ⟨_, _, rfl⟩
  simp only [unsigned?, hsign] at h
  cases hbody : digits? body with
  | none => simp [hbody] at h
  | some n =>
    rw [Decimal.integer?_of_takeSign hsign hbody]
    simp only [hbody] at h
    obtain ⟨⟨hnegative, hn⟩, hu⟩ := Option.ite_none_right_eq_some.mp h
    obtain rfl : negative = false := by simpa using hnegative
    rw [← Option.some.inj hu, UInt64.toNat_ofNat_of_lt' hn]
    rfl

end Integer

namespace Document

open Decimal

/-- The integer of a number token without fraction and exponent: a minus at most, and no zero in
front of other digits. -/
def literal? : List Char → Option Int
  | '-' :: digits =>
    if startsBadly digits then none else (natural? digits).map fun n : Nat => -(n : Int)
  | digits => if startsBadly digits then none else (natural? digits).map Int.ofNat

def strip (text : List Char) : List Char :=
  (skipBlank text).rdropWhile isBlank

namespace Significand

theorem dropped_le_pushAll (digits : List Char) (s : Significand) :
    s.dropped ≤ (s.pushAll digits).dropped := by
  induction digits generalizing s with
  | nil => exact Nat.le_refl _
  | cons c digits ih =>
    refine Nat.le_trans ?_ (ih (s.push c))
    unfold push
    dsimp only
    split
    · rename_i hfits
      exact Nat.le_of_eq hfits.1
    · exact Nat.le_succ _

/-- Digits of which none was dropped are gathered exactly. -/
theorem value_pushAll {digits : List Char} {s : Significand}
    (h : (s.pushAll digits).dropped = 0) :
    (s.pushAll digits).value =
      digits.foldl (fun n c => 10 * n + (c.toNat - '0'.toNat)) s.value ∧
    (s.value < UInt64.size → (s.pushAll digits).value < UInt64.size) := by
  induction digits generalizing s with
  | nil => exact ⟨rfl, id⟩
  | cons c digits ih =>
    have hpush : (s.push c).dropped = 0 :=
      Nat.le_zero.mp (h ▸ dropped_le_pushAll digits (s.push c))
    obtain ⟨hvalue, hsize⟩ := ih (s := s.push c) h
    have hfits : 10 * s.value + (c.toNat - '0'.toNat) < UInt64.size ∧
        (s.push c).value = 10 * s.value + (c.toNat - '0'.toNat) := by
      unfold push at hpush ⊢
      dsimp only at hpush ⊢
      split at hpush
      · rename_i hfits
        rw [if_pos hfits]
        exact ⟨hfits.2, rfl⟩
      · cases hpush
    refine ⟨?_, fun _ => hsize (hfits.2 ▸ hfits.1)⟩
    rw [List.foldl_cons, ← hfits.2]
    exact hvalue

end Significand

/-- Scaling gives doubles only. -/
theorem toInt?_of_scaledDouble? {negative : Bool} {significand : Nat} {exponent : Int}
    {n : JsonNumber} (h : scaledDouble? negative significand exponent = some n) :
    n.toInt? = none := by
  obtain ⟨y, -, rfl⟩ := Option.map_eq_some_iff.mp h
  rfl

/-- A number that is an integer has neither fraction nor exponent, and its digits spell it. -/
theorem value_of_numberOf? {negative : Bool} {whole : List Char} {fraction : Option (List Char)}
    {exponent : Option Int} {n : JsonNumber} {i : Int}
    (h : numberOf? negative whole fraction exponent = some n) (hi : n.toInt? = some i) :
    fraction = none ∧ exponent = none ∧
      i = if negative then -(value whole : Int) else value whole := by
  simp only [numberOf?] at h
  split at h
  · refine ⟨rfl, rfl, ?_⟩
    split at h
    · rw [toInt?_of_scaledDouble? h] at hi
      cases hi
    · rename_i hdropped
      obtain ⟨hvalue, hsize⟩ := Significand.value_pushAll (Nat.eq_zero_of_not_pos hdropped)
      replace hvalue : (Significand.pushAll ⟨0, 0⟩ whole).value = value whole := hvalue
      specialize hsize (by decide)
      rw [hvalue] at h hsize
      split at h
      · rename_i hsign
        obtain rfl : negative = false := by simpa using hsign
        cases h
        cases hi
        rw [UInt64.toNat_ofNat_of_lt' hsize]
        rfl
      · rename_i hsign
        obtain rfl : negative = true := by simpa using hsign
        split at h
        · rename_i hbounds
          have hmin : value whole ≤ 9223372036854775808 := hbounds.2
          cases h
          cases hi
          rw [Int64.toInt_ofInt_of_le (by omega) (by omega)]
          rfl
        · cases h
          cases hi
  · rw [toInt?_of_scaledDouble? h] at hi
    cases hi

theorem eq_of_readFraction? {text rest : List Char} (h : readFraction? text = some (none, rest)) :
    text = rest := by
  unfold readFraction? at h
  split at h
  · dsimp only at h
    split at h <;> cases h
  · cases h
    rfl

theorem eq_of_readPower? {text rest : List Char} (h : readPower? text = some (none, rest)) :
    text = rest := by
  unfold readPower? at h
  split at h
  · obtain ⟨_, -, h⟩ := Option.map_eq_some_iff.mp h
    cases h
  · obtain ⟨_, -, h⟩ := Option.map_eq_some_iff.mp h
    cases h
  · cases h
    rfl

/-- A number token that stands for an integer consists of digits alone. -/
theorem digits_of_readNumber? {negative : Bool} {text left : List Char} {n : JsonNumber} {i : Int}
    (h : readNumber? negative text = some (.number (some n), left)) (hi : n.toInt? = some i) :
    ∃ whole, text = whole ++ left ∧ startsBadly whole = false ∧
      (∀ c ∈ whole, c.isDigit = true) ∧
        i = if negative then -(value whole : Int) else value whole := by
  rw [readNumber?_eq] at h
  obtain ⟨hgood, h⟩ := Option.ite_none_left_eq_some.mp h
  obtain ⟨⟨fraction, afterFraction⟩, hfraction, h⟩ := Option.bind_eq_some_iff.mp h
  obtain ⟨⟨exponent, afterExponent⟩, hexponent, h⟩ := Option.map_eq_some_iff.mp h
  obtain ⟨hnumber, hleft⟩ := Prod.mk.inj h
  obtain ⟨rfl, rfl, hvalue⟩ := value_of_numberOf? (Document.number.inj hnumber) hi
  -- with no point and no mark, what follows the digits is what is left
  have hrest : text.dropWhile (·.isDigit) = left := by
    rw [eq_of_readFraction? hfraction, eq_of_readPower? hexponent, hleft]
  refine ⟨text.takeWhile (·.isDigit), ?_, by simpa using hgood, ?_, hvalue⟩
  · rw [← hrest, List.takeWhile_append_dropWhile]
  · exact fun c hc => List.mem_takeWhile_imp hc

/-- White space after digits is dropped. -/
theorem rdropWhile_isBlank_digits (sign : List Char) {digits left : List Char} (hne : digits ≠ [])
    (hdigits : ∀ c ∈ digits, c.isDigit = true) (hleft : skipBlank left = []) :
    (sign ++ (digits ++ left)).rdropWhile isBlank = sign ++ digits := by
  have hblank : ∀ d ∈ left.reverse, isBlank d = true := by
    simpa using List.dropWhile_eq_nil_iff.mp hleft
  have hlast : ∀ hl : sign ++ digits ≠ [], ¬isBlank ((sign ++ digits).getLast hl) = true := by
    intro hl
    rw [List.getLast_append_of_ne_nil hl hne,
      isBlank_of_isDigit (hdigits _ (List.getLast_mem hne))]
    decide
  rw [← List.append_assoc, List.rdropWhile, List.reverse_append,
    List.dropWhile_append_of_pos hblank, ← List.rdropWhile, List.rdropWhile_eq_self_iff.mpr hlast]

theorem literal?_digits (negative : Bool) {digits : List Char} (hgood : startsBadly digits = false)
    (hdigits : ∀ c ∈ digits, c.isDigit = true) :
    literal? ((if negative then ['-'] else []) ++ digits) =
      some (if negative then -(value digits : Int) else value digits) := by
  have hnatural : natural? digits = some (value digits) := by
    refine if_pos ⟨?_, List.all_eq_true.mpr hdigits⟩
    rintro rfl
    cases hgood
  cases negative with
  | true => simp [literal?, hgood, hnatural]
  | false =>
    change literal? digits = _
    unfold literal?
    split
    · exact absurd (hdigits '-' (by simp)) (by decide)
    · simp [hgood, hnatural]

/-- An integer that a text has as its value is the one that its token spells. -/
theorem literal?_of_ofText? {text : String} {n : JsonNumber} {i : Int}
    (h : Json.ofText? text = some (.number n)) (hi : n.toInt? = some i) :
    literal? (strip text.toList) = some i := by
  obtain ⟨left, hread, hleft⟩ := ofText?_eq_number.mp h
  obtain ⟨negative, number, hskip, hnumber⟩ : ∃ negative number,
      skipBlank text.toList = (if negative then ['-'] else []) ++ number ∧
        readNumber? negative number = some (.number (some n), left) := by
    rcases readNumber?_of_readValue hread with ⟨number, hskip, h⟩ | ⟨c, number, hskip, -, h⟩
    · exact ⟨true, number, hskip, h⟩
    · exact ⟨false, c :: number, hskip, h⟩
  obtain ⟨whole, rfl, hgood, hdigits, rfl⟩ := digits_of_readNumber? hnumber hi
  have hne : whole ≠ [] := by
    rintro rfl
    cases hgood
  rw [strip, hskip, rdropWhile_isBlank_digits _ hne hdigits hleft, literal?_digits _ hgood hdigits]

end Document

namespace Json

/-- The integer that a JSON text carries: a number without fraction and exponent between white
space, or a string that holds digits after an optional sign. -/
def integer? (text : String) : Option Int :=
  match ofText? text with
  | some (.string s) => Decimal.integer? s.toList
  | _ => Document.literal? (Document.strip text.toList)

theorem integer?_of_number {text : String} {n : JsonNumber} {i : Int}
    (h : ofText? text = some (.number n)) (hi : n.toInt? = some i) : integer? text = some i := by
  rw [integer?, h]
  exact Document.literal?_of_ofText? h hi

theorem integer?_of_string {text s : String} (h : ofText? text = some (.string s)) :
    integer? text = Decimal.integer? s.toList := by
  rw [integer?, h]

end Json

end Telemetry
