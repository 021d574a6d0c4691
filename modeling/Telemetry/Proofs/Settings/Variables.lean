import Telemetry.Proofs.Settings.Overlay
import Telemetry.Settings.Variables

/-!
What the variables of the environment give. The last variable that is not empty and names a setting
gives it a value, but not its text: a flag, an integer or a number is printed anew, and the text is
kept only if it was spelled as it is printed.
-/

namespace Telemetry

namespace SortedMap

variable {κ α : Type} [Ord κ] [Std.LawfulEqOrd κ] [DecidableEq κ]

/-- The value of a key is the last one listed. -/
theorem get?_ofList_eq_getLast? (entries : List (κ × α)) (k : κ) :
    get? (ofList entries) k =
      (entries.filterMap fun entry => if k = entry.1 then some entry.2 else none).getLast? := by
  induction entries with
  | nil => rfl
  | cons entry rest ih => rw [get?_ofList_cons, getLast?_filterMap_cons, ih]

end SortedMap

namespace PlaceStep

theorem eq_nil_of_readMore {fuel : Nat} {text : List Char} (h : readMore fuel text = some []) :
    text = [] := by
  cases fuel with
  | zero => simpa [readMore] using h
  | succ fuel =>
    unfold readMore at h
    split at h
    · rfl
    · dsimp only at h
      split at h
      · cases h
      · obtain ⟨_, -, h⟩ := Option.map_eq_some_iff.mp h
        cases h
    · split at h
      · obtain ⟨_, -, h⟩ := Option.map_eq_some_iff.mp h
        cases h
      · cases h
    · cases h

theorem eq_of_readMore {fuel : Nat} {text : List Char} {name : String}
    (h : readMore fuel text = some [.name name]) : text = '.' :: name.toList := by
  cases fuel with
  | zero => simp [readMore] at h
  | succ fuel =>
    unfold readMore at h
    split at h
    · cases h
    · rename_i rest
      dsimp only at h
      split at h
      · cases h
      · obtain ⟨steps, hrest, h⟩ := Option.map_eq_some_iff.mp h
        obtain ⟨hname, rfl⟩ := List.cons.inj h
        have hall : rest.takeWhile isNameChar = rest := by
          simpa [eq_nil_of_readMore hrest] using
            List.takeWhile_append_dropWhile (p := isNameChar) (l := rest)
        rw [← PlaceStep.name.inj hname, String.toList_ofList, hall]
    · split at h
      · obtain ⟨_, -, h⟩ := Option.map_eq_some_iff.mp h
        cases h
      · cases h
    · cases h

/-- Two names are spelled with a point between them. -/
theorem eq_of_ofText_pair {text first second : String}
    (h : ofText text = [.name first, .name second]) : text = first ++ "." ++ second := by
  unfold ofText at h
  dsimp only at h
  split at h
  · rename_i steps hsteps
    obtain ⟨hfirst, rfl⟩ := List.cons.inj h
    obtain ⟨-, hmore⟩ := Option.ite_none_left_eq_some.mp hsteps
    have htext : text.toList = text.toList.takeWhile isNameChar ++ '.' :: second.toList := by
      rw [← eq_of_readMore hmore, List.takeWhile_append_dropWhile]
    rw [← String.toList_inj, htext, ← PlaceStep.name.inj hfirst]
    simp
  · cases h

end PlaceStep

namespace Text

theorem lowerChar_eq_self {c : Char} (hkelvin : c ≠ '\u212a') (h : ¬(65 ≤ c.toNat ∧ c.toNat ≤ 90)) :
    lowerChar c = c := by
  rw [lowerChar, if_neg hkelvin]
  exact dif_neg h

theorem lowerChar_lowerChar (c : Char) : lowerChar (lowerChar c) = lowerChar c := by
  by_cases hkelvin : c = '\u212a'
  · subst hkelvin
    rfl
  · by_cases hupper : 65 ≤ c.toNat ∧ c.toNat ≤ 90
    · have hcode : (lowerChar c).toNat = c.toNat + 32 := by
        have hvalue : (lowerChar c).val = c.val + ('a'.val - 'A'.val) := by
          rw [lowerChar, if_neg hkelvin]
          exact congrArg Char.val (dif_pos hupper)
        have hshift : ('a'.val - 'A'.val).toNat = 32 := rfl
        simp only [Char.toNat, hvalue, UInt32.toNat_add] at hupper ⊢
        omega
      refine lowerChar_eq_self ?_ (by omega)
      intro heq
      have hkelvinCode : (lowerChar c).toNat = 8490 := congrArg Char.toNat heq
      omega
    · rw [lowerChar_eq_self hkelvin hupper, lowerChar_eq_self hkelvin hupper]

/-- A text without capitals is its own lower case. -/
theorem lower_eq_self {text : String} (h : ∀ c ∈ text.toList, lowerChar c = c) :
    lower text = text := by
  rw [lower, List.map_congr_left h, List.map_id', String.ofList_toList]

end Text

namespace Variables

def text? (environment : List (String × String)) (spot : String) : Option String :=
  (environment.filterMap fun (name, text) =>
    if ¬text.isEmpty ∧ place? name = some spot then some text else none).getLast?

/-- A text that is printed as it is spelled: a flag in lower case, an integer or a number in the
spelling that is printed, or none of these. -/
def Kept (text : String) : Prop :=
  text = "true" ∨ text = "false" ∨
    (Text.lower text ≠ "true" ∧ Text.lower text ≠ "false" ∧
      match Integer.signed? text with
      | some i => text = toString i.toInt
      | none => ∀ x, Binary64.ofText? text = some x → text = Layout.plain.render x)

theorem text?_valueOf_iff_kept (text : String) :
    (valueOf text).text? = some text ↔ Kept text := by
  by_cases htrue : Text.lower text = "true"
  · have hprinted : (valueOf text).text? = some text ↔ text = "true" := by
      simp [valueOf, htrue, RawSetting.text?, eq_comm]
    refine hprinted.trans ⟨.inl, ?_⟩
    rintro (h | rfl | ⟨hne, -⟩)
    · exact h
    · exact absurd htrue (by decide)
    · exact absurd htrue hne
  by_cases hfalse : Text.lower text = "false"
  · have hprinted : (valueOf text).text? = some text ↔ text = "false" := by
      simp [valueOf, hfalse, RawSetting.text?, eq_comm]
    refine hprinted.trans ⟨fun h => .inr (.inl h), ?_⟩
    rintro (rfl | h | ⟨-, hne, -⟩)
    · exact absurd hfalse (by decide)
    · exact h
    · exact absurd hfalse hne
  have hnever : text ≠ "true" ∧ text ≠ "false" := by
    constructor
    · rintro rfl
      exact htrue (by decide)
    · rintro rfl
      exact hfalse (by decide)
  simp only [Kept, valueOf, htrue, hfalse, hnever, if_false, false_or, ne_eq, not_false_eq_true,
    true_and]
  cases Integer.signed? text with
  | some i => simp [RawSetting.text?, eq_comm]
  | none =>
    cases Binary64.ofText? text with
    | some x => simp [RawSetting.text?, eq_comm]
    | none => simp [RawSetting.text?]

instance : DecidablePred Kept := fun text => decidable_of_iff _ (text?_valueOf_iff_kept text)

/-- The variable that sets a place, if there is one, has a text that is kept. -/
def Keeps (environment : List (String × String)) (spot : String) : Prop :=
  ∀ text, text? environment spot = some text → Kept text

theorem keeps_iff_kept {environment : List (String × String)} {spot text : String}
    (h : text? environment spot = some text) : Keeps environment spot ↔ Kept text :=
  ⟨fun hkeeps => hkeeps text h, fun hkept _ hother => Option.some.inj (h.symm.trans hother) ▸ hkept⟩

theorem keeps_of_none {environment : List (String × String)} {spot : String}
    (h : text? environment spot = none) : Keeps environment spot := by
  intro text htext
  rw [h] at htext
  cases htext

/-- A variable gives no table. -/
theorem scalar?_valueOf (text : String) : (valueOf text).scalar? = some (valueOf text) := by
  unfold valueOf
  dsimp only
  split
  · rfl
  · split
    · rfl
    · split
      · rfl
      · split <;> rfl

theorem mem_withPoints {chars : List Char} {c : Char} (h : c ∈ withPoints chars) :
    c = '.' ∨ c ∈ chars := by
  induction chars using withPoints.induct with
  | case1 rest ih =>
    rcases List.mem_cons.mp h with rfl | h
    · exact .inl rfl
    · exact (ih h).imp_right fun h => by simp [h]
  | case2 d rest hne ih =>
    rw [withPoints] at h
    · rcases List.mem_cons.mp h with rfl | h
      · exact .inr List.mem_cons_self
      · exact (ih h).imp_right fun h => by simp [h]
    · exact hne
  | case3 => cases h

/-- The names of places are in lower case. -/
theorem lowerChar_of_place? {name spot : String} (h : place? name = some spot) {c : Char}
    (hc : c ∈ spot.toList) : Text.lowerChar c = c := by
  obtain ⟨-, hspot⟩ := Option.ite_none_right_eq_some.mp h
  rw [← Option.some.inj hspot, String.toList_ofList] at hc
  rcases mem_withPoints hc with rfl | hc
  · rfl
  · have hname := List.mem_of_mem_drop hc
    rw [Text.lower, String.toList_ofList] at hname
    obtain ⟨d, -, rfl⟩ := List.mem_map.mp hname
    exact Text.lowerChar_lowerChar d

theorem lower_of_place? {name first second : String}
    (h : place? name = some (first ++ "." ++ second)) :
    Text.lower first = first ∧ Text.lower second = second := by
  have hchars (c : Char) (hc : c ∈ first.toList ∨ c ∈ second.toList) : Text.lowerChar c = c := by
    refine lowerChar_of_place? h ?_
    simp only [String.toList_append, List.mem_append]
    exact hc.imp_left .inl
  exact ⟨Text.lower_eq_self fun c hc => hchars c (.inl hc),
    Text.lower_eq_self fun c hc => hchars c (.inr hc)⟩

/-- Of the places of variables only the one that is spelled out gives something to a setting. -/
theorem placed?_of_mem_layer {environment : List (String × String)} {group name spot : String}
    {value : RawSetting}
    (hsteps : PlaceStep.ofText (group ++ "." ++ name) = [.name group, .name name])
    (hgroup : Text.lower group = group) (hname : Text.lower name = name)
    (hmem : (spot, value) ∈ layer environment) :
    RawSetting.placed? group name value (PlaceStep.ofText spot) =
      if group ++ "." ++ name = spot then some value else none := by
  obtain ⟨⟨_, text⟩, -, hvariable⟩ := List.mem_filterMap.mp (SortedMap.mem_of_mem_ofList hmem)
  obtain ⟨-, hvariable⟩ := Option.ite_none_left_eq_some.mp hvariable
  obtain ⟨_, hspot, hentry⟩ := Option.map_eq_some_iff.mp hvariable
  obtain ⟨hsame, rfl⟩ := Prod.mk.inj hentry
  rw [hsame] at hspot
  by_cases hplace : group ++ "." ++ name = spot
  · rw [if_pos hplace, ← hplace, hsteps]
    simp only [RawSetting.placed?, hgroup, hname, and_self, if_true]
    exact scalar?_valueOf text
  · rw [if_neg hplace]
    unfold RawSetting.placed?
    split
    · rw [RawSetting.entries_of_scalar? (scalar?_valueOf text)]
      exact ite_self none
    · rename_i first second hpair
      refine if_neg ?_
      rintro ⟨hfirst, hsecond⟩
      have htext := PlaceStep.eq_of_ofText_pair hpair
      obtain ⟨hlowerFirst, hlowerSecond⟩ := lower_of_place? (htext ▸ hspot)
      exact hplace (by rw [htext, ← hfirst, ← hsecond, hlowerFirst, hlowerSecond])
    · rfl

/-- Variables give what the last one for the place gives. -/
theorem given?_layer {group name : String}
    (hsteps : PlaceStep.ofText (group ++ "." ++ name) = [.name group, .name name])
    (hgroup : Text.lower group = group) (hname : Text.lower name = name)
    (environment : List (String × String)) :
    (layer environment).given? group name =
      (text? environment (group ++ "." ++ name)).map valueOf := by
  have hplaced : ∀ entry ∈ layer environment,
      RawSetting.placed? group name entry.2 (PlaceStep.ofText entry.1) =
        if group ++ "." ++ name = entry.1 then some entry.2 else none :=
    fun _ hmem => placed?_of_mem_layer hsteps hgroup hname hmem
  rw [Layer.given?, List.filterMap_congr hplaced, ← SortedMap.get?_ofList_eq_getLast?, layer,
    SortedMap.ofList_eq_self (SortedMap.sorted_ofList _), SortedMap.get?_ofList_eq_getLast?,
    List.filterMap_filterMap, text?, ← List.getLast?_map, List.map_filterMap]
  refine congrArg List.getLast? (List.filterMap_congr fun entry _ => ?_)
  obtain ⟨label, text⟩ := entry
  by_cases htext : text.isEmpty = true
  · simp [htext]
  · cases hspot : place? label with
    | none => simp [htext, hspot]
    | some found =>
      by_cases hfound : group ++ "." ++ name = found <;> simp [htext, hspot, hfound, eq_comm]

end Variables

end Telemetry
