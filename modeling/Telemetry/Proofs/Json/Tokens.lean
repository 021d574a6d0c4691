import Telemetry.Proofs.Json.Documents

/-!
Reading the texts of strings and numbers. A quoted string is read as the string, whatever
characters it has. A number is read the same whether its text ends or goes on with what may follow
a value, so a number that `ReadsBack` from its text alone is found inside longer texts as well.
Integers read back from their digits; not every double does.
-/

namespace Telemetry

namespace Document

/-! ### Strings -/

theorem hexUnit?_hexDigit {n : Nat} (h : n < 32) (rest : List Char) :
    hexUnit? ('0' :: '0' :: Json.hexDigit (n / 16) :: Json.hexDigit (n % 16) :: rest) =
      some (n, rest) := by
  have hdigits : ∀ n < 32, hexValue? (Json.hexDigit (n / 16)) = some (n / 16) ∧
      hexValue? (Json.hexDigit (n % 16)) = some (n % 16) := by decide
  obtain ⟨hhigh, hlow⟩ := hdigits n h
  have hzero : hexValue? '0' = some 0 := by decide
  simp only [hexUnit?, hzero, hhigh, hlow, Option.bind_eq_bind, Option.bind_some]
  congr 2
  omega

/-- Reading takes one step over the text of one character. -/
theorem readPieces_escape (seen : List Piece) (fuel : Nat) (c : Char) (rest : List Char) :
    readPieces seen (fuel + 1) (Json.escape c ++ rest) =
      readPieces (.char c :: seen) fuel rest := by
  unfold Json.escape
  split
  · rfl
  · rfl
  · rfl
  · rfl
  · rfl
  · rename_i hquote hbackslash _ _ _
    have hc : Char.ofNat c.toNat = c := Char.ofNat_toNat c
    split
    · rename_i h
      rw [h] at hc
      rw [← hc]
      rfl
    · split
      · rename_i h
        rw [h] at hc
        rw [← hc]
        rfl
      · split
        · rename_i h
          have hunit : Piece.ofUnit c.toNat = .char c := by
            rw [Piece.ofUnit, if_neg (by omega), hc]
          simp only [List.cons_append, List.nil_append, readPieces, hexUnit?_hexDigit h, hunit]
        · rename_i h
          rw [List.singleton_append, readPieces]
          · rw [if_neg (not_or.mpr ⟨h, hbackslash⟩)]
          · exact hquote
          · intro _ hslash
            exact absurd hslash hbackslash
          · intro _ _ hslash
            exact absurd hslash hbackslash

theorem readPieces_escaped (chars : List Char) (seen : List Piece) {fuel : Nat} (rest : List Char)
    (h : chars.length < fuel) :
    readPieces seen fuel (chars.flatMap Json.escape ++ '"' :: rest) =
      some (seen.reverse ++ chars.map Piece.char, rest) := by
  induction chars generalizing seen fuel with
  | nil =>
    obtain ⟨fuel, rfl⟩ := Nat.exists_eq_add_of_le' (Nat.one_le_of_lt h)
    simp [readPieces]
  | cons c chars ih =>
    obtain ⟨fuel, rfl⟩ := Nat.exists_eq_add_of_le' (Nat.one_le_of_lt h)
    rw [List.flatMap_cons, List.append_assoc, readPieces_escape, ih _ (by simpa using h)]
    simp

theorem joinPieces_chars (chars : List Char) : joinPieces (chars.map Piece.char) = some chars := by
  induction chars with
  | nil => rfl
  | cons c chars ih => simp [joinPieces, ih]

theorem escape_ne_nil (c : Char) : Json.escape c ≠ [] := by
  unfold Json.escape
  split
  all_goals try simp
  split
  · simp
  · split
    · simp
    · split <;> simp

theorem length_le_flatMap_escape (chars : List Char) :
    chars.length ≤ (chars.flatMap Json.escape).length := by
  induction chars with
  | nil => simp
  | cons c chars ih =>
    have hpos := List.length_pos_iff.mpr (escape_ne_nil c)
    simp only [List.flatMap_cons, List.length_append, List.length_cons]
    omega

/-- The text of a string after its opening quote is read as the string. -/
theorem readString_quoted (s : String) (rest : List Char) :
    readString (s.toList.flatMap Json.escape ++ '"' :: rest) = some (some s, rest) := by
  have hlen := length_le_flatMap_escape s.toList
  have hfuel : s.toList.length < (s.toList.flatMap Json.escape ++ '"' :: rest).length + 1 := by
    rw [List.length_append]
    omega
  rw [readString, readPieces_escaped _ _ _ hfuel]
  simp [joinPieces_chars]

/-! ### Numbers -/

inductive Stops : List Char → Prop
  | nil : Stops []
  | comma (rest : List Char) : Stops (',' :: rest)
  | bracket (rest : List Char) : Stops (']' :: rest)
  | brace (rest : List Char) : Stops ('\x7d' :: rest)

section

variable {rest : List Char} (hrest : Stops rest)
include hrest

theorem Stops.digits (text : List Char) :
    (text ++ rest).takeWhile (·.isDigit) = text.takeWhile (·.isDigit) ∧
      (text ++ rest).dropWhile (·.isDigit) = text.dropWhile (·.isDigit) ++ rest := by
  induction text with
  | nil => cases hrest <;> exact ⟨rfl, rfl⟩
  | cons c text ih =>
    cases hc : c.isDigit with
    | true => simp [hc, ih]
    | false => simp [hc]

theorem Stops.takeDigits (text : List Char) :
    Decimal.takeDigits (text ++ rest) =
      ((Decimal.takeDigits text).1, (Decimal.takeDigits text).2.1,
        (Decimal.takeDigits text).2.2 ++ rest) := by
  simp only [Decimal.takeDigits, (hrest.digits text).1, (hrest.digits text).2]

theorem Stops.readFraction? {text left : List Char} {fraction : Option (List Char)}
    (h : readFraction? text = some (fraction, left)) :
    Document.readFraction? (text ++ rest) = some (fraction, left ++ rest) := by
  unfold Document.readFraction? at h
  split at h
  · rename_i text
    simp only [List.cons_append, Document.readFraction?, (hrest.digits text).1,
      (hrest.digits text).2]
    dsimp only at h
    split at h
    · cases h
    · rename_i hdigits
      cases h
      simp [hdigits]
  · rename_i hpoint
    cases h
    cases text with
    | nil => cases hrest <;> rfl
    | cons c text =>
      rw [List.cons_append, Document.readFraction?.eq_def]
      split
      · rename_i hc
        cases hc
        exact absurd rfl (hpoint text)
      · rfl

theorem Stops.readExponent? {text left : List Char} {e : Int}
    (h : readExponent? text = some (e, left)) :
    Document.readExponent? (text ++ rest) = some (e, left ++ rest) := by
  cases text with
  | nil => simp [Document.readExponent?, Decimal.takeSign, Decimal.takeDigits] at h
  | cons c text =>
    have hsign : Decimal.takeSign (c :: text ++ rest) =
        ((Decimal.takeSign (c :: text)).1, (Decimal.takeSign (c :: text)).2 ++ rest) := by
      by_cases hminus : c = '-'
      · subst hminus
        rfl
      · by_cases hplus : c = '+'
        · subst hplus
          rfl
        · simp [Decimal.takeSign, hminus, hplus]
    simp only [Document.readExponent?, hsign, hrest.takeDigits] at h ⊢
    split at h
    · cases h
    · rename_i hcount
      rw [if_neg hcount]
      cases h
      rfl

theorem Stops.readPower? {text left : List Char} {exponent : Option Int}
    (h : readPower? text = some (exponent, left)) :
    Document.readPower? (text ++ rest) = some (exponent, left ++ rest) := by
  unfold Document.readPower? at h
  split at h
  · obtain ⟨⟨e, after⟩, hexponent, h⟩ := Option.map_eq_some_iff.mp h
    cases h
    simp [Document.readPower?, hrest.readExponent? hexponent]
  · obtain ⟨⟨e, after⟩, hexponent, h⟩ := Option.map_eq_some_iff.mp h
    cases h
    simp [Document.readPower?, hrest.readExponent? hexponent]
  · rename_i hsmall hlarge
    cases h
    cases text with
    | nil => cases hrest <;> rfl
    | cons c text =>
      rw [List.cons_append, Document.readPower?.eq_def]
      split
      · rename_i hc
        cases hc
        exact absurd rfl (hsmall text)
      · rename_i hc
        cases hc
        exact absurd rfl (hlarge text)
      · rfl

/-- What stops a number does not change how it is read. -/
theorem Stops.readNumber? {negative : Bool} {text left : List Char} {document : Document}
    (h : readNumber? negative text = some (document, left)) :
    Document.readNumber? negative (text ++ rest) = some (document, left ++ rest) := by
  rw [readNumber?_eq] at h ⊢
  rw [(hrest.digits text).1, (hrest.digits text).2]
  split at h
  · cases h
  · rename_i hgood
    obtain ⟨⟨fraction, afterFraction⟩, hfraction, h⟩ := Option.bind_eq_some_iff.mp h
    obtain ⟨⟨exponent, afterExponent⟩, hexponent, h⟩ := Option.map_eq_some_iff.mp h
    cases h
    simp [hgood, hrest.readFraction? hfraction, hrest.readPower? hexponent]

end

/-! The digits of an integer. -/

theorem head?_toDigits {n : Nat} (h : 0 < n) : (Nat.toDigits 10 n).head? ≠ some '0' := by
  induction n using Nat.strongRecOn with
  | ind n ih =>
    rcases Nat.lt_or_ge n 10 with hn | hn
    · rw [Nat.toDigits_of_lt_base hn, List.head?_singleton]
      intro hzero
      exact absurd (Nat.digitChar_eq_zero.mp (Option.some.inj hzero)) (by omega)
    · rw [Nat.toDigits_of_base_le (by decide) hn, List.head?_append, Option.or_of_isSome
        (by simp [Nat.toDigits_ne_nil])]
      exact ih (n / 10) (by omega) (by omega)

theorem startsBadly_toDigits (n : Nat) : startsBadly (Nat.toDigits 10 n) = false := by
  rcases Nat.eq_zero_or_pos n with rfl | hn
  · rfl
  · simp [startsBadly, head?_toDigits hn, Nat.toDigits_ne_nil]

theorem push_digitChar {n d : Nat} (hd : d < 10) (h : 10 * n + d < UInt64.size) :
    Significand.push ⟨n, 0⟩ d.digitChar = ⟨10 * n + d, 0⟩ := by
  have hdigit : d.digitChar.toNat - '0'.toNat = d := by
    rw [Nat.toNat_digitChar_of_lt_ten hd]
    exact Nat.add_sub_cancel_left 48 d
  simp only [Significand.push, hdigit]
  exact if_pos ⟨trivial, h⟩

/-- A natural number of 64 bits is gathered from its digits. -/
theorem pushAll_toDigits {n : Nat} (h : n < UInt64.size) :
    Significand.pushAll ⟨0, 0⟩ (Nat.toDigits 10 n) = ⟨n, 0⟩ := by
  induction n using Nat.strongRecOn with
  | ind n ih =>
    rcases Nat.lt_or_ge n 10 with hn | hn
    · rw [Nat.toDigits_of_lt_base hn]
      exact (push_digitChar hn (by omega)).trans (by rw [Nat.mul_zero, Nat.zero_add])
    · have hfront := ih (n / 10) (by omega) (by omega)
      rw [Significand.pushAll] at hfront
      rw [Nat.toDigits_of_base_le (by decide) hn, Significand.pushAll, List.foldl_append, hfront]
      exact (push_digitChar (Nat.mod_lt n (by decide)) (by omega)).trans
        (by rw [Nat.div_add_mod])

theorem readNumber?_toDigits (negative : Bool) (n : Nat) :
    readNumber? negative (Nat.toDigits 10 n) =
      some (.number (numberOf? negative (Nat.toDigits 10 n) none none), []) := by
  have hdigits : ∀ c ∈ Nat.toDigits 10 n, c.isDigit = true := fun c hc =>
    Nat.isDigit_of_mem_toDigits (by decide) (by decide) hc
  have htake : (Nat.toDigits 10 n ++ []).takeWhile (·.isDigit) = Nat.toDigits 10 n ++ [] :=
    List.takeWhile_append_of_pos hdigits
  have hdrop : (Nat.toDigits 10 n ++ []).dropWhile (fun c => c.isDigit) = ([] : List Char) :=
    List.dropWhile_append_of_pos hdigits
  rw [List.append_nil] at htake hdrop
  simp [readNumber?_eq, htake, hdrop, startsBadly_toDigits, readFraction?, readPower?]

/-! The start of a value. -/

theorem skipBlank_cons {c : Char} (h : isBlank c = false) (text : List Char) :
    skipBlank (c :: text) = c :: text := by
  simp [skipBlank, h]

theorem skipBlank_skipBlank (text : List Char) : skipBlank (skipBlank text) = skipBlank text := by
  induction text with
  | nil => rfl
  | cons c text ih =>
    cases hc : isBlank c with
    | true => simpa [skipBlank, hc] using ih
    | false => simp [skipBlank_cons hc]

theorem skipBlank_append {text : List Char} (h : skipBlank text ≠ []) (rest : List Char) :
    skipBlank (text ++ rest) = skipBlank text ++ rest := by
  rw [skipBlank, List.dropWhile_append, if_neg]
  · rfl
  · simpa [skipBlank] using h

/-- White space in front of a value is passed over. -/
theorem readValue_skipBlank (fuel : Nat) (text : List Char) :
    readValue fuel (skipBlank text) = readValue fuel text := by
  cases fuel with
  | zero => rfl
  | succ fuel => rw [readValue, readValue, skipBlank_skipBlank]

theorem readItems_skipBlank (fuel : Nat) (text : List Char) :
    readItems fuel (skipBlank text) = readItems fuel text := by
  cases fuel with
  | zero => rfl
  | succ fuel => rw [readItems, readItems, readValue_skipBlank]

/-- A number starts with a digit. -/
theorem exists_of_readNumber? {negative : Bool} {text left : List Char} {document : Document}
    (h : readNumber? negative text = some (document, left)) :
    ∃ c rest, text = c :: rest ∧ c.isDigit = true := by
  rw [readNumber?_eq] at h
  cases text with
  | nil => cases h
  | cons c rest =>
    cases hc : c.isDigit with
    | true => exact ⟨c, rest, rfl, hc⟩
    | false => simp [startsBadly, hc] at h

theorem ne_of_isDigit {c d : Char} (hc : c.isDigit = true) (hd : d.isDigit = false) : c ≠ d := by
  rintro rfl
  rw [hc] at hd
  cases hd

theorem isBlank_of_isDigit {c : Char} (h : c.isDigit = true) : isBlank c = false := by
  simp [isBlank, ne_of_isDigit (d := ' ') h (by decide), ne_of_isDigit (d := '\n') h (by decide),
    ne_of_isDigit (d := '\t') h (by decide), ne_of_isDigit (d := '\r') h (by decide)]

theorem readValue_digit (fuel : Nat) {c : Char} (h : c.isDigit = true) (text : List Char) :
    readValue (fuel + 1) (c :: text) = readNumber? false (c :: text) := by
  rw [readValue, skipBlank_cons (isBlank_of_isDigit h)]
  split
  all_goals try rfl
  all_goals
    rename_i heq
    exact absurd (List.cons.inj heq).1 (ne_of_isDigit h (by decide))

theorem readValue_minus (fuel : Nat) (text : List Char) :
    readValue (fuel + 1) ('-' :: text) = readNumber? true text :=
  rfl

/-- A value that is a number starts, after white space, with a minus or a digit. -/
theorem readNumber?_of_readValue {fuel : Nat} {text left : List Char} {n : Option JsonNumber}
    (h : readValue fuel text = some (.number n, left)) :
    (∃ number, skipBlank text = '-' :: number ∧
      readNumber? true number = some (.number n, left)) ∨
    ∃ c number, skipBlank text = c :: number ∧ c.isDigit = true ∧
      readNumber? false (c :: number) = some (.number n, left) := by
  cases fuel with
  | zero => cases h
  | succ fuel =>
    rw [readValue] at h
    split at h
    · cases h
    · cases h
    · cases h
    · obtain ⟨_, -, h⟩ := Option.map_eq_some_iff.mp h
      cases h
    · rename_i number hskip
      exact .inl ⟨number, hskip, h⟩
    · split at h
      · cases h
      · obtain ⟨_, -, h⟩ := Option.map_eq_some_iff.mp h
        cases h
    · split at h
      · cases h
      · obtain ⟨_, -, h⟩ := Option.map_eq_some_iff.mp h
        cases h
    · obtain ⟨c, number, hskip, hc⟩ := exists_of_readNumber? h
      exact .inr ⟨c, number, hskip, hc, hskip ▸ h⟩

/-- What stops a number does not change how it is read as a value. -/
theorem Stops.readValue {rest : List Char} (hrest : Stops rest) {fuel : Nat}
    {text left : List Char} {n : Option JsonNumber}
    (h : Document.readValue fuel text = some (.number n, left)) (other : Nat) :
    Document.readValue (other + 1) (text ++ rest) = some (.number n, left ++ rest) := by
  rcases readNumber?_of_readValue h with ⟨number, hskip, h⟩ | ⟨c, number, hskip, hc, h⟩
  · rw [← readValue_skipBlank, skipBlank_append (by simp [hskip]), hskip]
    exact hrest.readNumber? h
  · rw [← readValue_skipBlank, skipBlank_append (by simp [hskip]), hskip, List.cons_append,
      readValue_digit _ hc]
    exact hrest.readNumber? h

/-- A text has a number as its value when the reader finds it at the start and leaves white space
at most. -/
theorem ofText?_eq_number {text : String} {n : JsonNumber} :
    Json.ofText? text = some (.number n) ↔ ∃ left,
      readValue (2 * text.toList.length + 2) text.toList = some (.number (some n), left) ∧
        skipBlank left = [] := by
  constructor
  · intro h
    obtain ⟨document, hdocument, hvalue⟩ := Option.bind_eq_some_iff.mp h
    obtain rfl : document = .number (some n) :=
      eq_ofJson_of_valueAt? hvalue (by simp) (by simp)
    simp only [ofText?] at hdocument
    split at hdocument
    · rename_i left hread
      split at hdocument
      · rename_i hleft
        cases hdocument
        exact ⟨left, hread, by simpa using hleft⟩
      · cases hdocument
    · cases hdocument
  · rintro ⟨left, hread, hleft⟩
    have hdocument : ofText? text = some (.number (some n)) := by
      simp [ofText?, hread, hleft]
    rw [Json.ofText?, hdocument]
    rfl

end Document

namespace JsonNumber

def ReadsBack (n : JsonNumber) : Prop :=
  Json.ofText? n.render = some (.number n)

def same : JsonNumber → JsonNumber → Bool
  | .natural m, .natural n => m == n
  | .negative i, .negative j => i == j
  | .double x, .double y => x.bits == y.bits
  | _, _ => false

theorem same_iff {m n : JsonNumber} : m.same n = true ↔ m = n := by
  cases m with
  | natural m => cases n <;> simp [same]
  | negative i => cases n <;> simp [same]
  | double x =>
    cases n with
    | double y =>
      cases x
      cases y
      simp [same]
    | _ => simp [same]

/-- A number is read back if its text has a value and that is the number. -/
instance : DecidablePred ReadsBack := fun n =>
  match h : Json.ofText? n.render with
  | some (.number m) => decidable_of_iff (m.same n = true) (by simp [ReadsBack, h, same_iff])
  | some .null | some (.bool _) | some (.string _) | some (.array _) | some (.object _) =>
    isFalse (by simp [ReadsBack, h])
  | none => isFalse (by simp [ReadsBack, h])

theorem toList_toString (n : Nat) : (toString n).toList = Nat.toDigits 10 n := by
  rw [Nat.toString_eq_ofList_toDigits, String.toList_ofList]

/-- Natural numbers are read back from their digits. -/
theorem readsBack_natural (n : UInt64) : (natural n).ReadsBack := by
  have hvalue : Document.numberOf? false (Nat.toDigits 10 n.toNat) none none =
      some (natural n) := by
    simp [Document.numberOf?, Document.pushAll_toDigits n.toNat_lt_size]
  obtain ⟨c, digits, hdigits⟩ : ∃ c digits, Nat.toDigits 10 n.toNat = c :: digits :=
    List.exists_cons_of_ne_nil Nat.toDigits_ne_nil
  have hc : c.isDigit = true :=
    Nat.isDigit_of_mem_toDigits (b := 10) (n := n.toNat) (by decide) (by decide) (by simp [hdigits])
  refine Document.ofText?_eq_number.mpr ⟨[], ?_, rfl⟩
  rw [render, toList_toString, hdigits, Document.readValue_digit _ hc, ← hdigits,
    Document.readNumber?_toDigits, hvalue]

/-- So are negative ones, from the digits after their sign. -/
theorem readsBack_negative {i : Int64} (h : i < 0) : (negative i).ReadsBack := by
  have hneg : i.toInt < 0 := Int64.lt_iff_toInt_lt.mp h
  have hmin := Int64.le_toInt i
  obtain ⟨m, hm⟩ := Int.eq_negSucc_of_lt_zero hneg
  have hsize : m + 1 ≤ 9223372036854775808 := by omega
  have hi : Int64.ofInt (-(m + 1 : Nat)) = i := by
    change Int64.ofInt (Int.negSucc m) = i
    rw [← hm, Int64.ofInt_toInt]
  have hvalue : Document.numberOf? true (Nat.toDigits 10 (m + 1)) none none =
      some (negative i) := by
    have hdigits := Document.pushAll_toDigits (n := m + 1) (Nat.lt_of_le_of_lt hsize (by decide))
    simp only [Document.numberOf?, hdigits]
    rw [if_neg (by decide), if_neg (by decide), if_pos ⟨Nat.succ_pos m, hsize⟩, hi]
  have htext : (negative i).render.toList = '-' :: Nat.toDigits 10 (m + 1) := by
    have hrender : (negative i).render = "-" ++ toString (m + 1) := by
      rw [render, hm]
      rfl
    rw [hrender, String.toList_append, toList_toString]
    rfl
  refine Document.ofText?_eq_number.mpr ⟨[], ?_, rfl⟩
  rw [htext, Document.readValue_minus, Document.readNumber?_toDigits, hvalue]

end JsonNumber

end Telemetry
