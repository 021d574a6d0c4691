import Telemetry.Proofs.Cache.Changes
import Telemetry.Subscription

/-!
The cache as a subscriber sees it. A subscriber drops what a notification deletes, then stores
what it updates with its time. Applied to the view of a cache this gives the view of the cache
after the change, so published changes keep a view up to date.

At each path a notification either decides what is there afterwards or leaves it alone. Hence
taking the same notifications once more changes nothing, even if the view is newer than they are.
-/

namespace Telemetry

/-- Values with the times they were written at, by the elements of full paths. -/
abbrev View := List PathElem → Option (TypedValue × Int64)

namespace View

def empty : View := fun _ => none

def drop (v : View) (paths : List Path) : View := fun elems =>
  if elems ∈ paths.map Path.elems then none else v elems

def store (base : Path) (timestamp : Int64) (v : View) (update : Update) : View :=
  match update.path, update.value with
  | some path, some value => fun elems =>
    if elems = (base.join path).elems then some (value, timestamp) else v elems
  | _, _ => v

def take (v : View) (n : Notification) : View :=
  n.updates.foldl (store n.basePath n.timestamp) (v.drop n.fullDeletes)

def takes (v : View) (ns : List Notification) : View :=
  ns.foldl take v

def receive (v : View) : FeedMessage → View
  | .delta n => v.take n
  | _ => v

def ofMessages (messages : List FeedMessage) : View :=
  messages.foldl receive empty

/-- The part of a view that a subscription covers. -/
def restrict (s : Subscription) (v : View) : View := fun elems =>
  if s.covers (Path.ofElems elems) then v elems else none

theorem takes_append (v : View) (first second : List Notification) :
    v.takes (first ++ second) = (v.takes first).takes second :=
  List.foldl_append

theorem takes_cons (v : View) (n : Notification) (rest : List Notification) :
    v.takes (n :: rest) = (v.take n).takes rest := rfl

theorem drop_nil (v : View) : v.drop [] = v := by
  funext elems
  simp [drop]

theorem drop_map_join {base : Path} (hbase : base.elems = []) (v : View) (paths : List Path) :
    v.drop (paths.map base.join) = v.drop paths := by
  have hpaths : (paths.map base.join).map Path.elems = paths.map Path.elems := by
    rw [List.map_map]
    refine List.map_congr_left ?_
    intro path _
    simp only [Function.comp_apply, Path.join, hbase, List.nil_append]
  funext elems
  simp only [drop, hpaths]

theorem take_of_isEmpty (v : View) {n : Notification} (h : n.isEmpty) : v.take n = v := by
  simp only [Notification.isEmpty, Bool.and_eq_true, List.isEmpty_iff] at h
  simp only [take, h.2, List.foldl_nil, Notification.fullDeletes, h.1, List.map_nil, drop_nil]

/-- Empty notifications may be left out. -/
theorem takes_filter_isEmpty (v : View) (ns : List Notification) :
    v.takes (ns.filter fun n => !n.isEmpty) = v.takes ns := by
  induction ns generalizing v with
  | nil => rfl
  | cons n rest ih =>
    rw [takes_cons, List.filter_cons]
    cases hempty : n.isEmpty with
    | true =>
      rw [take_of_isEmpty v hempty]
      exact ih v
    | false => exact ih (v.take n)

section Again

/-- A change of views either decides what is at a path or leaves it alone. -/
def Decides (change : View → View) (elems : List PathElem) : Prop :=
  ∃ decided : Option (Option (TypedValue × Int64)),
    ∀ v : View, change v elems = decided.getD (v elems)

theorem decides_id (elems : List PathElem) : Decides id elems :=
  ⟨none, fun _ => rfl⟩

theorem Decides.comp {first second : View → View} {elems : List PathElem}
    (hfirst : Decides first elems) (hsecond : Decides second elems) :
    Decides (fun v => second (first v)) elems := by
  obtain ⟨earlier, hearlier⟩ := hfirst
  obtain ⟨later, hlater⟩ := hsecond
  refine ⟨later <|> earlier, ?_⟩
  intro v
  change second (first v) elems = _
  rw [hlater, hearlier]
  cases later <;> rfl

theorem Decides.foldl {α : Type} {step : View → α → View} {elems : List PathElem}
    (hstep : ∀ a, Decides (step · a) elems) (items : List α) :
    Decides (fun v => items.foldl step v) elems := by
  induction items with
  | nil => exact decides_id elems
  | cons item rest ih => exact (hstep item).comp ih

theorem decides_take (n : Notification) (elems : List PathElem) :
    Decides (fun v => v.take n) elems := by
  have hdrop : Decides (fun v => v.drop n.fullDeletes) elems := by
    by_cases h : elems ∈ n.fullDeletes.map Path.elems
    · exact ⟨some none, fun v => if_pos h⟩
    · exact ⟨none, fun v => if_neg h⟩
  have hstore : ∀ update, Decides (fun v => store n.basePath n.timestamp v update) elems := by
    intro update
    unfold store
    cases update.path with
    | none => exact decides_id elems
    | some path =>
      cases update.value with
      | none => exact decides_id elems
      | some value =>
        by_cases h : elems = (n.basePath.join path).elems
        · exact ⟨some (some (value, n.timestamp)), fun v => if_pos h⟩
        · exact ⟨none, fun v => if_neg h⟩
  exact hdrop.comp (Decides.foldl hstore n.updates)

/-- Taking the same notifications once more changes nothing. -/
theorem takes_takes (v : View) (ns : List Notification) : (v.takes ns).takes ns = v.takes ns := by
  funext elems
  obtain ⟨decided, hdecided⟩ := Decides.foldl (fun n => decides_take n elems) ns
  have hall : ∀ w : View, w.takes ns elems = decided.getD (w elems) := hdecided
  rw [hall, hall]
  cases decided <;> rfl

end Again

section Restrict

variable {s : Subscription}

theorem restrict_drop (v : View) (paths : List Path) :
    (v.drop paths).restrict s = (v.restrict s).drop (paths.filter s.covers) := by
  funext elems
  have hmem : s.covers (Path.ofElems elems) = true →
      (elems ∈ (paths.filter s.covers).map Path.elems ↔ elems ∈ paths.map Path.elems) := by
    intro hcovered
    simp only [List.mem_map, List.mem_filter]
    constructor
    · rintro ⟨path, ⟨hpath, -⟩, rfl⟩
      exact ⟨path, hpath, rfl⟩
    · rintro ⟨path, hpath, rfl⟩
      exact ⟨path, ⟨hpath, hcovered⟩, rfl⟩
  cases hcovered : s.covers (Path.ofElems elems) with
  | true => simp only [restrict, drop, hcovered, if_true, hmem hcovered]
  | false => simp [restrict, drop, hcovered]

/-- The updates that a subscription covers are those that its part of the view has to store. -/
theorem restrict_store {base : Path} (hbase : base.elems = []) (timestamp : Int64) (v : View)
    (update : Update) :
    (store base timestamp v update).restrict s =
      if (update.path.map s.covers).getD false then store base timestamp (v.restrict s) update
      else v.restrict s := by
  obtain ⟨path, value, duplicates⟩ := update
  cases path with
  | none => rfl
  | some path =>
    cases value with
    | none => simp [store]
    | some value =>
      have hfull : (base.join path).elems = path.elems := by
        rw [Path.join, hbase, List.nil_append]
      have hsame : s.covers (Path.ofElems path.elems) = s.covers path := rfl
      simp only [store, hfull, Option.map_some, Option.getD_some]
      cases hcovered : s.covers path with
      | true =>
        funext elems
        by_cases helems : elems = path.elems
        · simp [restrict, helems, hsame, hcovered]
        · simp [restrict, helems]
      | false =>
        funext elems
        by_cases helems : elems = path.elems
        · simp [restrict, helems, hsame, hcovered]
        · simp [restrict, helems]

theorem restrict_foldl_store {base : Path} (hbase : base.elems = []) (timestamp : Int64) (v : View)
    (updates : List Update) :
    (updates.foldl (store base timestamp) v).restrict s =
      (updates.filter fun update => (update.path.map s.covers).getD false).foldl
        (store base timestamp) (v.restrict s) := by
  induction updates generalizing v with
  | nil => rfl
  | cons update rest ih =>
    rw [List.foldl_cons, ih, restrict_store hbase, List.filter_cons]
    split <;> rfl

/-- What a subscription filters out of a notification is what its part of the view takes. -/
theorem restrict_take {n : Notification} (hbase : n.basePath.elems = []) (v : View) :
    (v.take n).restrict s = (v.restrict s).takes (s.filter n).toList := by
  have hcovers : ∀ path, s.covers (n.basePath.join path) = s.covers path := by
    intro path
    have hfull : (n.basePath.join path).elems = path.elems := by
      rw [Path.join, hbase, List.nil_append]
    change s.patterns.any (fun pattern => Path.matchElems _ pattern.elems) = _
    rw [hfull]
    rfl
  have hdeletes : n.fullDeletes.filter s.covers =
      (n.deletes.filter s.covers).map n.basePath.join := by
    rw [Notification.fullDeletes, List.filter_map]
    refine congrArg (List.map _) (List.filter_congr ?_)
    intro path _
    exact hcovers path
  rw [take, restrict_foldl_store hbase, restrict_drop, hdeletes]
  unfold Subscription.filter
  cases hempty : (n.updates.filter fun update => (update.path.map s.covers).getD false).isEmpty &&
      (n.deletes.filter s.covers).isEmpty with
  | true =>
    simp only [hempty, if_true]
    simp only [Bool.and_eq_true, List.isEmpty_iff] at hempty
    rw [hempty.1, hempty.2]
    exact drop_nil _
  | false =>
    simp only [hempty, Bool.false_eq_true, if_false]
    rfl

theorem restrict_takes {ns : List Notification} (hbase : ∀ n ∈ ns, n.basePath.elems = [])
    (v : View) : (v.takes ns).restrict s = (v.restrict s).takes (ns.filterMap s.filter) := by
  induction ns generalizing v with
  | nil => rfl
  | cons n rest ih =>
    rw [takes_cons, ih fun other hother => hbase other (List.mem_cons_of_mem _ hother),
      restrict_take (hbase n List.mem_cons_self), ← takes_append]
    cases hfilter : s.filter n with
    | none => simp [hfilter]
    | some part => simp [hfilter]

end Restrict

end View

end Telemetry
