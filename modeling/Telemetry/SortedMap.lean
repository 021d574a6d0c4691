/-!
Finite maps as association lists in strictly increasing key order. The list itself is the
type, so that an inductive type may hold maps of itself; `Sorted` is the order stated apart.
Look-up after `insert` and `erase` obeys the usual laws whether or not the list is sorted,
and `insert` and `erase` keep a sorted list sorted.
-/

namespace Telemetry.SortedMap

variable {κ α β : Type} [Ord κ]

/-- Keys strictly increase along the list. -/
def Sorted (m : List (κ × α)) : Prop :=
  m.Pairwise fun a b => compare a.1 b.1 = .lt

def get? (m : List (κ × α)) (k : κ) : Option α :=
  match m with
  | [] => none
  | (j, a) :: rest => if compare k j = .eq then some a else get? rest k

def contains (m : List (κ × α)) (k : κ) : Bool :=
  (get? m k).isSome

def insert (m : List (κ × α)) (k : κ) (a : α) : List (κ × α) :=
  match m with
  | [] => [(k, a)]
  | (j, b) :: rest =>
    match compare k j with
    | .lt => (k, a) :: (j, b) :: rest
    | .eq => (k, a) :: rest
    | .gt => (j, b) :: insert rest k a

def erase (m : List (κ × α)) (k : κ) : List (κ × α) :=
  m.filter fun entry => compare k entry.1 != .eq

/-- The map of the pairs of a list, a later pair overriding an earlier one of the same key. -/
def ofList (entries : List (κ × α)) : List (κ × α) :=
  entries.foldl (fun m entry => insert m entry.1 entry.2) []

def keys (m : List (κ × α)) : List κ :=
  m.map (·.1)

def values (m : List (κ × α)) : List α :=
  m.map (·.2)

theorem sorted_nil : Sorted ([] : List (κ × α)) :=
  List.Pairwise.nil

theorem mem_insert {m : List (κ × α)} {k : κ} {a : α} {e : κ × α}
    (h : e ∈ insert m k a) : e = (k, a) ∨ e ∈ m := by
  induction m with
  | nil => simpa [insert] using h
  | cons entry rest ih =>
    obtain ⟨j, b⟩ := entry
    unfold insert at h
    split at h
    · simpa using h
    · simp only [List.mem_cons] at h ⊢
      exact h.imp_right Or.inr
    · simp only [List.mem_cons] at h ⊢
      rcases h with h | h
      · exact Or.inr (Or.inl h)
      · exact (ih h).imp_right Or.inr

section Lawful

variable [Std.LawfulEqOrd κ]

theorem get?_insert_self (m : List (κ × α)) (k : κ) (a : α) :
    get? (insert m k a) k = some a := by
  induction m with
  | nil => simp [insert, get?]
  | cons entry rest ih =>
    obtain ⟨j, b⟩ := entry
    unfold insert
    split
    · simp [get?]
    · simp [get?]
    · rename_i h
      simp [get?, h, ih]

theorem get?_insert_of_ne (m : List (κ × α)) {k i : κ} (a : α) (hne : i ≠ k) :
    get? (insert m k a) i = get? m i := by
  have hik : compare i k ≠ .eq := fun h => hne (Std.LawfulEqOrd.eq_of_compare h)
  induction m with
  | nil => simp [insert, get?, hik]
  | cons entry rest ih =>
    obtain ⟨j, b⟩ := entry
    unfold insert
    split
    · simp [get?, hik]
    · rename_i h
      have hkj : k = j := Std.LawfulEqOrd.eq_of_compare h
      subst hkj
      simp [get?, hik]
    · simp [get?, ih]

theorem get?_erase_self (m : List (κ × α)) (k : κ) : get? (erase m k) k = none := by
  induction m with
  | nil => simp [erase, get?]
  | cons entry rest ih =>
    obtain ⟨j, b⟩ := entry
    unfold erase at ih ⊢
    rw [List.filter_cons]
    split
    · rename_i h
      have hkj : compare k j ≠ .eq := by simpa using h
      simp [get?, hkj, ih]
    · exact ih

theorem get?_erase_of_ne (m : List (κ × α)) {k i : κ} (hne : i ≠ k) :
    get? (erase m k) i = get? m i := by
  induction m with
  | nil => simp [erase, get?]
  | cons entry rest ih =>
    obtain ⟨j, b⟩ := entry
    unfold erase at ih ⊢
    rw [List.filter_cons]
    split
    · simp [get?, ih]
    · rename_i h
      have hkj : k = j := Std.LawfulEqOrd.eq_of_compare (by simpa using h)
      subst hkj
      have hik : compare i k ≠ .eq := fun h => hne (Std.LawfulEqOrd.eq_of_compare h)
      simp [get?, hik, ih]

theorem Sorted.insert [Std.TransOrd κ] {m : List (κ × α)} (h : Sorted m) (k : κ) (a : α) :
    Sorted (insert m k a) := by
  induction m with
  | nil => simp [SortedMap.insert, Sorted]
  | cons entry rest ih =>
    obtain ⟨j, b⟩ := entry
    have hrest : Sorted rest := (List.pairwise_cons.mp h).2
    have hj : ∀ e ∈ rest, compare j e.1 = .lt := (List.pairwise_cons.mp h).1
    unfold SortedMap.insert
    split
    · rename_i hkj
      refine List.pairwise_cons.mpr ⟨?_, h⟩
      intro e he
      rcases List.mem_cons.mp he with he | he
      · subst he; exact hkj
      · exact Std.TransCmp.lt_trans hkj (hj e he)
    · rename_i hkj
      have hkj' : k = j := Std.LawfulEqOrd.eq_of_compare hkj
      subst hkj'
      exact List.pairwise_cons.mpr ⟨hj, hrest⟩
    · rename_i hkj
      refine List.pairwise_cons.mpr ⟨?_, ih hrest⟩
      intro e he
      rcases mem_insert he with he | he
      · subst he; exact Std.OrientedCmp.lt_of_gt hkj
      · exact hj e he

end Lawful

theorem Sorted.erase {m : List (κ × α)} (h : Sorted m) (k : κ) : Sorted (erase m k) :=
  List.Pairwise.filter _ h

end Telemetry.SortedMap
