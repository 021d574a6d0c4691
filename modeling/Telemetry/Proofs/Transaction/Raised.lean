import Telemetry.Proofs.Transaction.Effects

/-!
Effects at the end of a way, seen from where the way starts. An edit there may make the way or not;
up to that it has the effect of the edit at the end, raised to the start. A delete of the end
itself is raised to one that takes it away, while at the end it is emptied only. Objects that are
written to an entry are compared with its keys only where these are known.
-/

namespace Telemetry

namespace Json

def AgreesWith (json : Json) (schema : SchemaNode) (keys : Keys) : Prop :=
  ∀ fields, json = .object fields → ∀ field ∈ fields, localName field.1 ∈ schema.keyNames →
    requireAgreement "" (some keys) (localName field.1) field.2 = .ok ()

variable {schema : SchemaNode} {keys : Keys}

private theorem fieldEffect?_of_agrees {fields : List (String × Json)}
    (h : ∀ field ∈ fields, localName field.1 ∈ schema.keyNames →
      requireAgreement "" (some keys) (localName field.1) field.2 = .ok ()) :
    fieldEffect? fields schema (some keys) = fieldEffect? fields schema none := by
  induction fields with
  | nil => rfl
  | cons field rest ih =>
    obtain ⟨raw, value⟩ := field
    have hrest := ih fun other hother => h other (List.mem_cons_of_mem _ hother)
    have hfirst := h (raw, value) List.mem_cons_self
    unfold fieldEffect?
    simp only
    by_cases hkey : localName raw ∈ schema.keyNames
    · rw [if_pos hkey, if_pos hkey, hfirst hkey, hrest]
      rfl
    · rw [if_neg hkey, if_neg hkey, hrest]

private theorem agrees_of_fieldEffect? {fields : List (String × Json)} {effect : Effect}
    (h : fieldEffect? fields schema (some keys) = some effect) :
    ∀ field ∈ fields, localName field.1 ∈ schema.keyNames →
      requireAgreement "" (some keys) (localName field.1) field.2 = .ok () := by
  induction fields generalizing effect with
  | nil =>
    intro field hfield
    cases hfield
  | cons head rest ih =>
    obtain ⟨raw, value⟩ := head
    unfold fieldEffect? at h
    obtain ⟨first, hfirst, h⟩ := Option.bind_eq_some_iff.mp h
    obtain ⟨others, hothers, -⟩ := Option.map_eq_some_iff.mp h
    intro field hfield hkey
    rcases List.mem_cons.mp hfield with rfl | hfield
    · rw [if_pos hkey] at hfirst
      obtain ⟨_, hagrees, -⟩ := Option.map_eq_some_iff.mp hfirst
      exact toOption_eq_some.mp hagrees
    · exact ih hothers field hfield hkey

/-- Keys that are agreed with need not be known. -/
theorem placeEffect?_of_agrees {json : Json} (h : json.AgreesWith schema keys) :
    json.placeEffect? schema (some keys) = json.placeEffect? schema none := by
  cases json with
  | object fields => exact fieldEffect?_of_agrees (h fields rfl)
  | _ => rfl

theorem agreesWith_of_placeEffect? {json : Json} {effect : Effect}
    (h : json.placeEffect? schema (some keys) = some effect) : json.AgreesWith schema keys := by
  intro fields hfields
  subst hfields
  exact agrees_of_fieldEffect? h

end Json

namespace Effect

/-- An effect that is another one at the end of a way, up to the making of the way. -/
structure Raised (way : Way) (effect below : Effect) : Prop where
  made : effect.andThen (intoAll way keep) = intoAll way below
  here : below [] = none

namespace Raised

variable {way : Way} {effect below : Effect}

theorem intoAll (way : Way) (h : below [] = none) : Raised way (intoAll way below) below := by
  refine ⟨?_, h⟩
  rw [← intoAll_andThen way h, andThen_keep]

theorem keep (way : Way) : Raised way keep keep :=
  ⟨keep_andThen _, rfl⟩

theorem andThen {second secondBelow : Effect} (hfirst : Raised way effect below)
    (hsecond : Raised way second secondBelow) :
    Raised way (effect.andThen second) (below.andThen secondBelow) := by
  refine ⟨?_, andThen_here_eq_none hfirst.here hsecond.here⟩
  calc (effect.andThen second).andThen (.intoAll way .keep)
      _ = effect.andThen (.intoAll way secondBelow) := by rw [andThen_assoc, hsecond.made]
      _ = effect.andThen ((Effect.intoAll way .keep).andThen (.intoAll way secondBelow)) := by
        rw [made_andThen_intoAll]
      _ = (Effect.intoAll way below).andThen (.intoAll way secondBelow) := by
        rw [← andThen_assoc, hfirst.made]
      _ = .intoAll way (below.andThen secondBelow) := (intoAll_andThen way hfirst.here _).symm

theorem inOrder {α : Type} {ops : List α} {f g : α → Effect}
    (h : ∀ op ∈ ops, Raised way (f op) (g op)) :
    Raised way (Effect.inOrder (ops.map f)) (Effect.inOrder (ops.map g)) := by
  induction ops with
  | nil => exact keep way
  | cons op rest ih =>
    refine (h op List.mem_cons_self).andThen (ih ?_)
    intro other hother
    exact h other (List.mem_cons_of_mem op hother)

end Raised

/-- Effects at the end of a way are an effect there. -/
theorem inOrder_map_intoAll (way : Way) {effects : List Effect} (hne : effects ≠ [])
    (h : ∀ effect ∈ effects, effect [] = none) :
    inOrder (effects.map (intoAll way)) = intoAll way (inOrder effects) := by
  induction effects with
  | nil => exact absurd rfl hne
  | cons effect rest ih =>
    cases rest with
    | nil => rfl
    | cons next more =>
      have hrest := ih (List.cons_ne_nil next more)
        fun other hother => h other (List.mem_cons_of_mem effect hother)
      rw [List.map_cons, inOrder_cons, hrest]
      exact (intoAll_andThen way (h effect List.mem_cons_self) _).symm

end Effect

namespace SchemaNode

/-- What a delete does from above, the place being made again if it was deleted itself. -/
theorem raised_clearing {schema place : SchemaNode} {elems : List PathElem}
    (h : Passes schema elems place) (hne : elems ≠ []) (rest : List PathElem) :
    Effect.Raised (schema.wayTo elems) (schema.clearing (elems ++ rest)) (place.erasing rest) := by
  refine ⟨?_, place.erasing_here rest⟩
  rw [h.clearing_append]
  cases rest with
  | nil => exact Effect.cleared_andThen_made (wayTo_ne_nil h hne)
  | cons elem more =>
    have hhere := place.erasing_here (elem :: more)
    rw [erasing_eq_clearing place (List.cons_ne_nil elem more)] at hhere ⊢
    exact Effect.underAll_andThen_made _ hhere

end SchemaNode

namespace Ending

variable {schema place : SchemaNode}

/-- What is done at a place is what is done at it from above, if it does not depend on the keys
there. -/
theorem along?_raised (ending : Ending) {elems : List PathElem}
    (h : SchemaNode.Passes schema elems place) (hne : elems ≠ []) (rest : List PathElem)
    (hplace : rest = [] →
      ending.place place (place.entryKeys elems) = ending.place place none) :
    ending.along? schema none (elems ++ rest) =
      (ending.along? place none rest).map (.intoAll (schema.wayTo elems)) := by
  rw [h.along?_append ending hne]
  cases rest with
  | nil => exact congrArg _ (hplace rfl)
  | cons elem more => rfl

end Ending

end Telemetry
