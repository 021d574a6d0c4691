import Mathlib.Data.List.Forall2
import Telemetry.SortedMap

/-!
When computations that may fail succeed: each part of them does. They fail with the error of one of
their parts.
-/

namespace Telemetry

variable {ε δ α β : Type}

theorem ok_bind (a : α) (f : α → Except ε β) : (.ok a >>= f) = f a :=
  rfl

theorem bind_eq_ok {x : Except ε α} {f : α → Except ε β} {b : β} :
    x >>= f = .ok b ↔ ∃ a, x = .ok a ∧ f a = .ok b := by
  cases x with
  | error e => simp [bind, Except.bind]
  | ok a => simp [bind, Except.bind]

theorem bind_eq_error {x : Except ε α} {f : α → Except ε β} {e : ε} :
    x >>= f = .error e ↔ x = .error e ∨ ∃ a, x = .ok a ∧ f a = .error e := by
  cases x with
  | error e => simp [bind, Except.bind]
  | ok a => simp [bind, Except.bind]

theorem map_eq_ok {x : Except ε α} {f : α → β} {b : β} :
    x.map f = .ok b ↔ ∃ a, x = .ok a ∧ f a = b := by
  cases x with
  | error e => simp [Except.map]
  | ok a => simp [Except.map]

theorem mapError_eq_ok {x : Except ε α} {f : ε → δ} {a : α} :
    x.mapError f = .ok a ↔ x = .ok a := by
  cases x with
  | error e =>
    constructor
    · intro h
      cases h
    · intro h
      cases h
  | ok b =>
    constructor
    · intro h
      cases h
      rfl
    · intro h
      cases h
      rfl

theorem mapError_eq_error {x : Except ε α} {f : ε → δ} {d : δ} :
    x.mapError f = .error d ↔ ∃ e, x = .error e ∧ f e = d := by
  cases x with
  | error e =>
    constructor
    · intro h
      exact ⟨e, rfl, Except.error.inj h⟩
    · rintro ⟨_, ⟨⟩, rfl⟩
      rfl
  | ok a =>
    constructor
    · intro h
      cases h
    · rintro ⟨_, ⟨⟩, -⟩

theorem toOption_eq_some {x : Except ε α} {a : α} : x.toOption = some a ↔ x = .ok a := by
  cases x with
  | error e => simp [Except.toOption]
  | ok a => simp [Except.toOption]

theorem toOption_bind (x : Except ε α) (f : α → Except ε β) :
    (x >>= f).toOption = x.toOption.bind fun a => (f a).toOption := by
  cases x <;> rfl

theorem mapM_eq_ok_cons {f : α → Except ε β} {x : α} {xs : List α} {ys : List β} :
    (x :: xs).mapM f = .ok ys ↔
      ∃ y rest, f x = .ok y ∧ xs.mapM f = .ok rest ∧ ys = y :: rest := by
  rw [List.mapM_cons]
  constructor
  · intro h
    obtain ⟨y, hy, h⟩ := bind_eq_ok.mp h
    obtain ⟨rest, hrest, h⟩ := bind_eq_ok.mp h
    exact ⟨y, rest, hy, hrest, (Except.ok.inj h).symm⟩
  · rintro ⟨y, rest, hy, hrest, rfl⟩
    rw [hy, hrest]
    rfl

theorem mapM_eq_ok_iff_forall₂ {f : α → Except ε β} {xs : List α} {ys : List β} :
    xs.mapM f = .ok ys ↔ List.Forall₂ (fun x y => f x = .ok y) xs ys := by
  induction xs generalizing ys with
  | nil => simp [pure, Except.pure, eq_comm]
  | cons x xs ih =>
    simp only [mapM_eq_ok_cons, List.forall₂_cons_left_iff, ih]

theorem mapM_append_eq_ok {f : α → Except ε β} {xs others : List α} {ys results : List β}
    (h : xs.mapM f = .ok ys) (hothers : others.mapM f = .ok results) :
    (xs ++ others).mapM f = .ok (ys ++ results) := by
  rw [List.mapM_append, h, hothers]
  rfl

/-- A run over what is made of some items gives back the items if each is given back. -/
theorem mapM_map_eq_ok {f : β → Except ε α} {g : α → β} {xs : List α}
    (h : ∀ x ∈ xs, f (g x) = .ok x) : (xs.map g).mapM f = .ok xs := by
  induction xs with
  | nil => rfl
  | cons x xs ih =>
    rw [List.map_cons]
    exact mapM_eq_ok_cons.mpr ⟨x, xs, h x List.mem_cons_self,
      ih fun other hother => h other (List.mem_cons_of_mem x hother), rfl⟩

theorem mapM_map_eq_some {f : β → Option α} {g : α → β} {xs : List α}
    (h : ∀ x ∈ xs, f (g x) = some x) : (xs.map g).mapM f = some xs := by
  induction xs with
  | nil => rfl
  | cons x xs ih =>
    rw [List.map_cons, List.mapM_cons, h x List.mem_cons_self,
      ih fun other hother => h other (List.mem_cons_of_mem x hother)]
    rfl

/-- What a run over a list gives are the results of its items. -/
theorem mem_of_mapM_eq_ok {f : α → Except ε β} {xs : List α} {ys : List β}
    (h : xs.mapM f = .ok ys) {y : β} : y ∈ ys ↔ ∃ x ∈ xs, f x = .ok y := by
  induction xs generalizing ys with
  | nil =>
    cases h
    simp
  | cons x xs ih =>
    obtain ⟨first, rest, hfirst, hrest, rfl⟩ := mapM_eq_ok_cons.mp h
    simp [ih hrest, hfirst, eq_comm]

theorem mapM_eq_some_iff_forall₂ {f : α → Option β} {xs : List α} {ys : List β} :
    xs.mapM f = some ys ↔ List.Forall₂ (fun x y => f x = some y) xs ys := by
  induction xs generalizing ys with
  | nil => simp [eq_comm]
  | cons x xs ih =>
    simp only [List.mapM_cons, Option.bind_eq_bind, Option.bind_eq_some_iff,
      List.forall₂_cons_left_iff, ← ih]
    simp [eq_comm]

section Forall₂

variable {R : α → β → Prop} {xs : List α} {ys : List β}

theorem exists_of_mem_right (h : List.Forall₂ R xs ys) {y : β} (hy : y ∈ ys) :
    ∃ x ∈ xs, R x y := by
  induction h with
  | nil => cases hy
  | cons hxy _ ih =>
    rcases List.mem_cons.mp hy with rfl | hy
    · exact ⟨_, List.mem_cons_self, hxy⟩
    · obtain ⟨x, hx, hrel⟩ := ih hy
      exact ⟨x, List.mem_cons_of_mem _ hx, hrel⟩

theorem exists_of_mem_left (h : List.Forall₂ R xs ys) {x : α} (hx : x ∈ xs) : ∃ y ∈ ys, R x y :=
  exists_of_mem_right h.flip hx

end Forall₂

theorem exists_of_mem_mapM {f : α → Option β} {xs : List α} {ys : List β}
    (h : xs.mapM f = some ys) {y : β} (hy : y ∈ ys) : ∃ x ∈ xs, f x = some y :=
  exists_of_mem_right (mapM_eq_some_iff_forall₂.mp h) hy

theorem exists_of_mapM_eq_some {f : α → Option β} {xs : List α} {ys : List β}
    (h : xs.mapM f = some ys) {x : α} (hx : x ∈ xs) : ∃ y ∈ ys, f x = some y :=
  exists_of_mem_left (mapM_eq_some_iff_forall₂.mp h) hx

theorem mapM_map_of_eq {f : α → α} {g h : α → Option β} {lift : β → β} {xs : List α}
    (hf : ∀ x ∈ xs, g (f x) = (h x).map lift) :
    (xs.map f).mapM g = (xs.mapM h).map (List.map lift) := by
  induction xs with
  | nil => rfl
  | cons x xs ih =>
    rw [List.map_cons, List.mapM_cons, List.mapM_cons, hf x List.mem_cons_self,
      ih fun other hother => hf other (List.mem_cons_of_mem x hother)]
    cases h x with
    | none => rfl
    | some y => cases xs.mapM h <;> rfl

theorem exists_of_mapM_eq_ok {f : α → Except ε β} {xs : List α} {ys : List β}
    (h : xs.mapM f = .ok ys) {x : α} (hx : x ∈ xs) : ∃ y, f x = .ok y := by
  obtain ⟨y, -, hy⟩ := exists_of_mem_left (mapM_eq_ok_iff_forall₂.mp h) hx
  exact ⟨y, hy⟩

/-- A run over a list goes through if it does for each item. -/
theorem exists_mapM_eq_ok {f : α → Except ε β} {xs : List α} :
    (∃ ys, xs.mapM f = .ok ys) ↔ ∀ x ∈ xs, ∃ y, f x = .ok y := by
  constructor
  · rintro ⟨ys, h⟩ x hx
    exact exists_of_mapM_eq_ok h hx
  · intro h
    induction xs with
    | nil => exact ⟨[], rfl⟩
    | cons x xs ih =>
      obtain ⟨y, hy⟩ := h x List.mem_cons_self
      obtain ⟨ys, hys⟩ := ih fun other hother => h other (List.mem_cons_of_mem x hother)
      exact ⟨y :: ys, mapM_eq_ok_cons.mpr ⟨y, ys, hy, hys, rfl⟩⟩

/-- A run over a list fails with the error of the first item that fails. -/
theorem mapM_eq_error {f : α → Except ε β} {xs : List α} {e : ε} :
    xs.mapM f = .error e ↔ ∃ before x after, xs = before ++ x :: after ∧
      (∀ y ∈ before, ∃ b, f y = .ok b) ∧ f x = .error e := by
  induction xs with
  | nil =>
    constructor
    · intro h
      cases h
    · rintro ⟨before, x, after, hsplit, -⟩
      simp at hsplit
  | cons first rest ih =>
    have hrun : (first :: rest).mapM f = .error e ↔
        f first = .error e ∨ ∃ b, f first = .ok b ∧ rest.mapM f = .error e := by
      rw [List.mapM_cons, bind_eq_error]
      simp [bind_eq_error, pure, Except.pure]
    rw [hrun, ih]
    constructor
    · rintro (hfirst | ⟨b, hfirst, before, x, after, rfl, hbefore, hx⟩)
      · exact ⟨[], first, rest, rfl, by simp, hfirst⟩
      · exact ⟨first :: before, x, after, rfl, List.forall_mem_cons.mpr ⟨⟨b, hfirst⟩, hbefore⟩, hx⟩
    · rintro ⟨before, x, after, hsplit, hbefore, hx⟩
      cases before with
      | nil =>
        cases hsplit
        exact Or.inl hx
      | cons head before =>
        cases hsplit
        obtain ⟨⟨b, hfirst⟩, hrest⟩ := List.forall_mem_cons.mp hbefore
        exact Or.inr ⟨b, hfirst, before, x, after, rfl, hrest, hx⟩

/-- Different items have different results where a result tells its item. -/
theorem nodup_of_mapM {f : α → Except ε β} {xs : List α} {ys : List β} (h : xs.mapM f = .ok ys)
    (hnodup : xs.Nodup)
    (hinj : ∀ x ∈ xs, ∀ other ∈ xs, ∀ y, f x = .ok y → f other = .ok y → x = other) :
    ys.Nodup := by
  induction xs generalizing ys with
  | nil =>
    cases h
    exact List.nodup_nil
  | cons x xs ih =>
    obtain ⟨y, rest, hy, hrest, rfl⟩ := mapM_eq_ok_cons.mp h
    obtain ⟨hx, hxs⟩ := List.nodup_cons.mp hnodup
    refine List.nodup_cons.mpr ⟨?_, ih hrest hxs fun a ha b hb =>
      hinj a (List.mem_cons_of_mem x ha) b (List.mem_cons_of_mem x hb)⟩
    intro hmem
    obtain ⟨other, hother, hsame⟩ := (mem_of_mapM_eq_ok hrest).mp hmem
    rw [hinj x List.mem_cons_self other (List.mem_cons_of_mem x hother) y hy hsame] at hx
    exact hx hother

theorem length_of_mapM {f : α → Except ε β} {xs : List α} {ys : List β} (h : xs.mapM f = .ok ys) :
    ys.length = xs.length := by
  induction xs generalizing ys with
  | nil =>
    cases h
    rfl
  | cons x xs ih =>
    obtain ⟨y, rest, -, hrest, rfl⟩ := mapM_eq_ok_cons.mp h
    rw [List.length_cons, List.length_cons, ih hrest]

/-- A computation gives something with one property or fails with an error with another. -/
def Good (E : ε → Prop) (I : α → Prop) : Except ε α → Prop
  | .ok a => I a
  | .error e => E e

namespace Good

variable {E : ε → Prop} {I : α → Prop} {x : Except ε α}

theorem mono {F : ε → Prop} (hx : Good E I x) (hE : ∀ e, E e → F e) : Good F I x := by
  cases x with
  | error e => exact hE e hx
  | ok a => exact hx

/-- An error may be passed on. -/
theorem raise {J : β → Prop} (hx : Good E I x) {e : ε} (he : x = .error e) :
    Good E J (.error e) := by
  subst he
  exact hx

theorem bind {J : β → Prop} {f : α → Except ε β} (hx : Good E I x)
    (hf : ∀ a, x = .ok a → I a → Good E J (f a)) : Good E J (x >>= f) := by
  cases x with
  | error e => exact hx
  | ok a => exact hf a rfl hx

theorem map {J : β → Prop} {f : α → β} (hx : Good E I x) (hf : ∀ a, I a → J (f a)) :
    Good E J (x.map f) := by
  cases x with
  | error e => exact hx
  | ok a => exact hf a hx

theorem mapError {F : δ → Prop} {f : ε → δ} (hx : Good E I x) (hf : ∀ e, E e → F (f e)) :
    Good F I (x.mapError f) := by
  cases x with
  | error e => exact hf e hx
  | ok a => exact hx

theorem foldlM {f : α → β → Except ε α} {items : List β} {start : α} (hstart : I start)
    (hf : ∀ a item, I a → Good E I (f a item)) : Good E I (items.foldlM f start) := by
  induction items generalizing start with
  | nil => exact hstart
  | cons item rest ih =>
    rw [List.foldlM_cons]
    exact (hf start item hstart).bind fun a _ ha => ih ha

end Good

end Telemetry
