import Mathlib.Data.List.Nodup
import Telemetry.Path.Basic
import Telemetry.SortedMap

/-!
Look-up in sorted maps as a view of them. In a sorted map the stored pairs are exactly the
successful look-ups, so membership and look-up may be exchanged; `insert`, `erase` and
`ofList` are described through look-up alone. Key sets are lawfully ordered, so all of this
holds for lists of entries too.
-/

namespace Telemetry

private abbrev comparePair : String × String → String × String → Ordering :=
  compareLex (compareOn fun pair => pair.1) (compareOn fun pair => pair.2)

private theorem eq_of_comparePair {x y : String × String} (h : comparePair x y = .eq) :
    x = y := by
  obtain ⟨hfst, hsnd⟩ := compareLex_eq_eq.mp h
  exact Prod.ext (Std.LawfulEqOrd.eq_of_compare hfst) (Std.LawfulEqOrd.eq_of_compare hsnd)

private instance : Std.LawfulEqCmp comparePair where
  eq_of_compare := eq_of_comparePair

instance : Std.LawfulEqOrd Keys :=
  inferInstanceAs (Std.LawfulEqCmp (List.compareLex comparePair))

instance : Std.TransOrd Keys :=
  inferInstanceAs (Std.TransCmp (List.compareLex comparePair))

namespace SortedMap

variable {κ α β : Type} [Ord κ]

theorem Sorted.tail {e : κ × α} {m : List (κ × α)} (h : Sorted (e :: m)) : Sorted m :=
  (List.pairwise_cons.mp h).2

theorem Sorted.filter {m : List (κ × α)} (h : Sorted m) (p : κ × α → Bool) :
    Sorted (m.filter p) :=
  List.Pairwise.filter p h

theorem Sorted.map_values {m : List (κ × α)} (h : Sorted m) (f : κ → α → β) :
    Sorted (m.map fun entry => (entry.1, f entry.1 entry.2)) :=
  List.pairwise_map.mpr h

@[simp]
theorem get?_ofList_nil (k : κ) : get? (ofList ([] : List (κ × α))) k = none :=
  rfl

section Lawful

variable [Std.LawfulEqOrd κ]

theorem get?_insert [DecidableEq κ] (m : List (κ × α)) (k i : κ) (a : α) :
    get? (insert m k a) i = if i = k then some a else get? m i := by
  by_cases h : i = k
  · subst h
    simp [get?_insert_self]
  · simp [get?_insert_of_ne m a h, h]

theorem get?_erase [DecidableEq κ] (m : List (κ × α)) (k i : κ) :
    get? (erase m k) i = if i = k then none else get? m i := by
  by_cases h : i = k
  · subst h
    simp [get?_erase_self]
  · simp [get?_erase_of_ne m h, h]

theorem mem_of_get?_eq_some {m : List (κ × α)} {k : κ} {a : α} (h : get? m k = some a) :
    (k, a) ∈ m := by
  induction m with
  | nil => simp [get?] at h
  | cons entry rest ih =>
    obtain ⟨j, b⟩ := entry
    unfold get? at h
    split at h
    · rename_i hkj
      have hk : k = j := Std.LawfulEqOrd.eq_of_compare hkj
      simp only [Option.some.injEq] at h
      simp [hk, h]
    · exact List.mem_cons_of_mem _ (ih h)

theorem get?_eq_some_of_mem {m : List (κ × α)} (hm : Sorted m) {k : κ} {a : α}
    (h : (k, a) ∈ m) : get? m k = some a := by
  induction m with
  | nil => simp at h
  | cons entry rest ih =>
    obtain ⟨j, b⟩ := entry
    rcases List.mem_cons.mp h with h | h
    · obtain ⟨rfl, rfl⟩ := Prod.mk.inj h
      simp [get?]
    · have hjk : compare j k = .lt := (List.pairwise_cons.mp hm).1 _ h
      have hkj : compare k j ≠ .eq := by
        intro heq
        rw [Std.LawfulEqOrd.eq_of_compare heq] at hjk
        simp at hjk
      simp [get?, hkj, ih hm.tail h]

theorem mem_iff_get?_eq_some {m : List (κ × α)} (hm : Sorted m) {k : κ} {a : α} :
    (k, a) ∈ m ↔ get? m k = some a :=
  ⟨get?_eq_some_of_mem hm, mem_of_get?_eq_some⟩

/-- A filter that looks at the keys and values keeps or drops the pair of a key. -/
theorem get?_filter {m : List (κ × α)} (hm : Sorted m) (p : κ × α → Bool) (k : κ) :
    get? (m.filter p) k = (get? m k).filter fun a => p (k, a) := by
  cases hget : get? m k with
  | none =>
    cases hfilter : get? (m.filter p) k with
    | none => rfl
    | some a =>
      have hmem := (List.mem_filter.mp (mem_of_get?_eq_some hfilter)).1
      simp [get?_eq_some_of_mem hm hmem] at hget
  | some a =>
    cases hp : p (k, a) with
    | true =>
      have hmem : (k, a) ∈ m.filter p := List.mem_filter.mpr ⟨mem_of_get?_eq_some hget, hp⟩
      rw [get?_eq_some_of_mem (hm.filter p) hmem, Option.filter_some, if_pos hp]
    | false =>
      cases hfilter : get? (m.filter p) k with
      | none => simp [Option.filter_some, hp]
      | some b =>
        have hmem := List.mem_filter.mp (mem_of_get?_eq_some hfilter)
        have hb : b = a := by simpa [hget] using (get?_eq_some_of_mem hm hmem.1).symm
        simp [hb, hp] at hmem

/-- Mapping the values of a map. -/
theorem get?_map (m : List (κ × α)) (f : κ → α → β) (k : κ) :
    get? (m.map fun entry => (entry.1, f entry.1 entry.2)) k = (get? m k).map (f k) := by
  induction m with
  | nil => rfl
  | cons entry rest ih =>
    rw [List.map_cons, get?, get?]
    split
    · rename_i hkey
      rw [Std.LawfulEqOrd.eq_of_compare hkey]
      rfl
    · exact ih

private theorem mem_of_get?_foldl_insert (entries m : List (κ × α)) {k : κ} {a : α}
    (h : get? (entries.foldl (fun m entry => insert m entry.1 entry.2) m) k = some a) :
    (k, a) ∈ entries ∨ get? m k = some a := by
  induction entries generalizing m with
  | nil => exact Or.inr h
  | cons entry rest ih =>
    rcases ih _ h with h | h
    · exact Or.inl (List.mem_cons_of_mem _ h)
    · by_cases hk : k = entry.1
      · subst hk
        rw [get?_insert_self] at h
        simp only [Option.some.injEq] at h
        exact Or.inl (by simp [← h])
      · rw [get?_insert_of_ne _ _ hk] at h
        exact Or.inr h

private theorem get?_foldl_insert_isSome (entries m : List (κ × α)) {k : κ} {a : α}
    (h : (k, a) ∈ entries ∨ (get? m k).isSome) :
    (get? (entries.foldl (fun m entry => insert m entry.1 entry.2) m) k).isSome := by
  induction entries generalizing m with
  | nil => simpa using h
  | cons entry rest ih =>
    apply ih
    by_cases hk : k = entry.1
    · subst hk
      simp [get?_insert_self]
    · rw [get?_insert_of_ne _ _ hk]
      rcases h with h | h
      · rcases List.mem_cons.mp h with h | h
        · exact absurd (congrArg Prod.fst h) hk
        · exact Or.inl h
      · exact Or.inr h

theorem mem_of_get?_ofList {entries : List (κ × α)} {k : κ} {a : α}
    (h : get? (ofList entries) k = some a) : (k, a) ∈ entries := by
  rcases mem_of_get?_foldl_insert entries [] h with h | h
  · exact h
  · simp [get?] at h

/-- Where a key is listed with one value only, that is the value in the map. -/
theorem get?_ofList_eq_some {entries : List (κ × α)} {k : κ} {a : α} (h : (k, a) ∈ entries)
    (hunique : ∀ b, (k, b) ∈ entries → b = a) : get? (ofList entries) k = some a := by
  have hsome := get?_foldl_insert_isSome entries [] (Or.inl h)
  obtain ⟨b, hb⟩ := Option.isSome_iff_exists.mp hsome
  have hmem := mem_of_get?_ofList hb
  rw [hunique b hmem] at hb
  exact hb

theorem mem_ofList {entries : List (κ × α)} (hnodup : (entries.map (·.1)).Nodup) {entry : κ × α}
    (h : entry ∈ entries) : entry ∈ ofList entries := by
  refine mem_of_get?_eq_some (get?_ofList_eq_some h ?_)
  intro b hb
  exact congrArg Prod.snd (List.inj_on_of_nodup_map hnodup hb h rfl)

theorem contains_ofList {entries : List (κ × α)} {k : κ} :
    contains (ofList entries) k = true ↔ k ∈ entries.map (·.1) := by
  constructor
  · intro h
    obtain ⟨a, hget⟩ := Option.isSome_iff_exists.mp h
    exact List.mem_map.mpr ⟨(k, a), mem_of_get?_ofList hget, rfl⟩
  · intro h
    obtain ⟨⟨_, a⟩, hmem, rfl⟩ := List.mem_map.mp h
    exact get?_foldl_insert_isSome entries [] (Or.inl hmem)

private theorem get?_foldl_insert [DecidableEq κ] (entries m : List (κ × α)) (k : κ) :
    get? (entries.foldl (fun m entry => insert m entry.1 entry.2) m) k =
      (get? (ofList entries) k).or (get? m k) := by
  induction entries generalizing m with
  | nil => rfl
  | cons entry entries ih =>
    rw [ofList, List.foldl_cons, List.foldl_cons, ih, ih (insert [] entry.1 entry.2),
      get?_insert, get?_insert]
    cases get? (ofList entries) k with
    | some a => rfl
    | none =>
      by_cases hk : k = entry.1
      · simp [hk]
      · simp [hk, get?]

/-- What comes later in the list goes before what comes first. -/
theorem get?_ofList_cons [DecidableEq κ] (j : κ) (a : α) (entries : List (κ × α)) (k : κ) :
    get? (ofList ((j, a) :: entries)) k =
      (get? (ofList entries) k).or (if k = j then some a else none) := by
  rw [ofList, List.foldl_cons, get?_foldl_insert, get?_insert]
  rfl

/-- Of the entries of a key the last one counts. -/
theorem get?_ofList_eq_lookup [DecidableEq κ] (entries : List (κ × α)) (k : κ) :
    get? (ofList entries) k = entries.reverse.lookup k := by
  induction entries with
  | nil => rfl
  | cons entry rest ih =>
    obtain ⟨j, a⟩ := entry
    rw [get?_ofList_cons, List.reverse_cons, List.lookup_append, ih]
    by_cases hkey : k = j
    · simp [hkey]
    · have hother : (k == j) = false := beq_eq_false_iff_ne.mpr hkey
      simp [List.lookup_cons, hkey, hother]

theorem Sorted.nodup {m : List (κ × α)} (h : Sorted m) : m.Nodup := by
  refine h.imp ?_
  rintro a b hlt rfl
  rw [Std.ReflOrd.compare_self] at hlt
  cases hlt

theorem Sorted.nodup_keys {m : List (κ × α)} (h : Sorted m) : (m.map (·.1)).Nodup := by
  refine List.pairwise_map.mpr (h.imp ?_)
  intro a b hlt hsame
  rw [hsame, Std.ReflOrd.compare_self] at hlt
  cases hlt

/-- A map that has no other keys is no longer. -/
theorem length_le {m n : List (κ × α)} (hm : Sorted m)
    (h : ∀ k a, get? m k = some a → ∃ b, get? n k = some b) : m.length ≤ n.length := by
  have hnodup : (m.map (·.1)).Nodup := hm.nodup_keys
  have hsubset : m.map (·.1) ⊆ n.map (·.1) := by
    intro k hk
    obtain ⟨⟨_, a⟩, hmem, rfl⟩ := List.mem_map.mp hk
    obtain ⟨b, hb⟩ := h _ a (get?_eq_some_of_mem hm hmem)
    exact List.mem_map.mpr ⟨(_, b), mem_of_get?_eq_some hb, rfl⟩
  have hlength := hnodup.length_le_of_subset hsubset
  rwa [List.length_map, List.length_map] at hlength

/-- The first key of a map is no later than any key of it. -/
theorem eq_or_lt_of_get? {k j : κ} {a b : α} {m : List (κ × α)} (h : Sorted ((k, a) :: m))
    (hget : get? ((k, a) :: m) j = some b) : j = k ∨ compare k j = .lt := by
  rcases List.mem_cons.mp (mem_of_get?_eq_some hget) with hhead | hrest
  · exact Or.inl (congrArg Prod.fst hhead)
  · exact Or.inr ((List.pairwise_cons.mp h).1 _ hrest)

theorem get?_cons_of_ne {k i : κ} (h : i ≠ k) (a : α) (m : List (κ × α)) :
    get? ((k, a) :: m) i = get? m i := by
  have hne : compare i k ≠ .eq := fun hsame => h (Std.LawfulEqOrd.eq_of_compare hsame)
  rw [get?, if_neg hne]

theorem get?_tail_self {k : κ} {a : α} {m : List (κ × α)} (h : Sorted ((k, a) :: m)) :
    get? m k = none := by
  cases hget : get? m k with
  | none => rfl
  | some b =>
    have hlt := (List.pairwise_cons.mp h).1 _ (mem_of_get?_eq_some hget)
    rw [Std.ReflOrd.compare_self] at hlt
    cases hlt

section Ordered

variable [Std.TransOrd κ]

/-- Sorted maps whose look-ups are related are related entry by entry. -/
theorem forall₂_of_get? {R : α → β → Prop} {m : List (κ × α)} {n : List (κ × β)} (hm : Sorted m)
    (hn : Sorted n) (h : ∀ k, Option.Rel R (get? m k) (get? n k)) :
    List.Forall₂ (fun x y => x.1 = y.1 ∧ R x.2 y.2) m n := by
  have hfirst : ∀ {γ : Type} (k : κ) (c : γ) (rest : List (κ × γ)),
      get? ((k, c) :: rest) k = some c := by
    intro γ k c rest
    simp [get?]
  induction m generalizing n with
  | nil =>
    cases n with
    | nil => exact .nil
    | cons second n =>
      have hkey := h second.1
      rw [hfirst second.1 second.2 n] at hkey
      cases hkey
  | cons first m ih =>
    obtain ⟨k, a⟩ := first
    cases n with
    | nil =>
      have hkey := h k
      rw [hfirst k a m] at hkey
      cases hkey
    | cons second n =>
      obtain ⟨j, b⟩ := second
      have hk := h k
      have hj := h j
      rw [hfirst k a m] at hk
      rw [hfirst j b n] at hj
      obtain rfl : k = j := by
        cases hfound : get? ((j, b) :: n) k with
        | none =>
          rw [hfound] at hk
          cases hk
        | some b' =>
          cases hother : get? ((k, a) :: m) j with
          | none =>
            rw [hother] at hj
            cases hj
          | some a' =>
            rcases eq_or_lt_of_get? hn hfound with hsame | hlt
            · exact hsame
            · rcases eq_or_lt_of_get? hm hother with hsame | hgt
              · exact hsame.symm
              · rw [Std.OrientedCmp.gt_of_lt hlt] at hgt
                cases hgt
      rw [hfirst k b n] at hk
      cases hk with
      | some hrel =>
        refine .cons ⟨rfl, hrel⟩ (ih hm.tail hn.tail fun i => ?_)
        by_cases hi : i = k
        · rw [hi, get?_tail_self hm, get?_tail_self hn]
          exact .none
        · have hrest := h i
          rwa [get?_cons_of_ne hi, get?_cons_of_ne hi] at hrest

private theorem sorted_foldl_insert (entries : List (κ × α)) {m : List (κ × α)}
    (hm : Sorted m) : Sorted (entries.foldl (fun m entry => insert m entry.1 entry.2) m) := by
  induction entries generalizing m with
  | nil => exact hm
  | cons entry rest ih => exact ih (hm.insert entry.1 entry.2)

theorem sorted_ofList (entries : List (κ × α)) : Sorted (ofList entries) :=
  sorted_foldl_insert entries sorted_nil

theorem mem_of_mem_ofList {entries : List (κ × α)} {entry : κ × α} (h : entry ∈ ofList entries) :
    entry ∈ entries :=
  mem_of_get?_ofList (get?_eq_some_of_mem (sorted_ofList entries) h)

/-- Where no key is listed twice, no entry is lost. -/
theorem length_ofList {entries : List (κ × α)} (h : (entries.map (·.1)).Nodup) :
    (ofList entries).length = entries.length := by
  have hsorted := sorted_ofList entries
  have hkeys : ∀ k, k ∈ (ofList entries).map (·.1) ↔ k ∈ entries.map (·.1) := by
    intro k
    refine Iff.trans ?_ contains_ofList
    rw [contains, Option.isSome_iff_exists]
    constructor
    · intro hk
      obtain ⟨⟨_, a⟩, hmem, rfl⟩ := List.mem_map.mp hk
      exact ⟨a, get?_eq_some_of_mem hsorted hmem⟩
    · rintro ⟨a, hget⟩
      exact List.mem_map.mpr ⟨(k, a), mem_of_get?_eq_some hget, rfl⟩
  have hperm := (List.perm_ext_iff_of_nodup hsorted.nodup_keys h).mpr hkeys
  simpa using hperm.length_eq

/-- Sorted maps with the same look-ups are equal. -/
theorem ext_get? {m n : List (κ × α)} (hm : Sorted m) (hn : Sorted n)
    (h : ∀ k, get? m k = get? n k) : m = n := by
  have hmem : ∀ e, e ∈ m ↔ e ∈ n := by
    intro e
    rw [mem_iff_get?_eq_some (k := e.1) (a := e.2) hm, h, ← mem_iff_get?_eq_some hn]
  have hperm := (List.perm_ext_iff_of_nodup hm.nodup hn.nodup).mpr hmem
  refine hperm.eq_of_pairwise ?_ hm hn
  intro a b _ _ hab hba
  have hgt := Std.OrientedCmp.gt_of_lt hab
  rw [hgt] at hba
  cases hba

theorem erase_ofList_cons [DecidableEq κ] {k : κ} (a : α) {entries : List (κ × α)}
    (h : ∀ entry ∈ entries, entry.1 ≠ k) :
    erase (ofList ((k, a) :: entries)) k = ofList entries := by
  refine ext_get? ((sorted_ofList _).erase k) (sorted_ofList entries) fun i => ?_
  rw [get?_erase, get?_ofList_cons]
  split
  · rename_i hi
    cases hget : get? (ofList entries) i with
    | none => rfl
    | some b => exact absurd hi (h (i, b) (mem_of_get?_ofList hget))
  · rw [Option.or_none]

/-- The map of the pairs of a map is that map. -/
theorem ofList_eq_self {m : List (κ × α)} (h : Sorted m) : ofList m = m := by
  refine ext_get? (sorted_ofList m) h ?_
  intro k
  cases hget : get? m k with
  | some a =>
    refine get?_ofList_eq_some (mem_of_get?_eq_some hget) ?_
    intro b hb
    rw [get?_eq_some_of_mem h hb] at hget
    exact Option.some.inj hget
  | none =>
    cases hlisted : get? (ofList m) k with
    | none => rfl
    | some a =>
      rw [get?_eq_some_of_mem h (mem_of_get?_ofList hlisted)] at hget
      cases hget

end Ordered

end Lawful

end SortedMap

end Telemetry
