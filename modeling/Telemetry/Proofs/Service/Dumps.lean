import Telemetry.Proofs.Cache.Reference
import Telemetry.Proofs.Service.Subscribed

/-!
Reading the cache by one request or by a subscription that takes what is there and ends. Both make
the same patterns of a base path and relative paths, and answer with the leaves that match any of
them, in the order in which the cache keeps them: each once, however many patterns match it.
-/

namespace Telemetry

namespace CachedLeaf

def answer (target : String) (leaf : CachedLeaf) : Notification :=
  ⟨leaf.timestamp, some { Path.root with target := target }, [Update.of leaf.path leaf.value], [],
    false⟩

end CachedLeaf

namespace CacheTarget

variable {t : CacheTarget} {patterns : List Path}

def matching (t : CacheTarget) (patterns : List Path) : List CachedLeaf :=
  (SortedMap.values t.leaves).filter fun leaf => patterns.any leaf.path.isMatch

theorem query_eq (t : CacheTarget) (patterns : List Path) :
    t.query patterns = (t.matching patterns).map (CachedLeaf.answer t.name) := rfl

theorem mem_matching (h : Indexed t.leaves) {leaf : CachedLeaf} : leaf ∈ t.matching patterns ↔
    (∃ text, SortedMap.get? t.leaves text = some leaf) ∧
      ∃ pattern ∈ patterns, leaf.path.isMatch pattern = true := by
  simp only [matching, SortedMap.values, List.mem_filter, List.mem_map, List.any_eq_true]
  refine and_congr_left fun _ => ?_
  constructor
  · rintro ⟨⟨text, _⟩, hmem, rfl⟩
    exact ⟨text, SortedMap.get?_eq_some_of_mem h.sorted hmem⟩
  · rintro ⟨text, hget⟩
    exact ⟨(text, leaf), SortedMap.mem_of_get?_eq_some hget, rfl⟩

theorem matching_increasing (h : Indexed t.leaves) (patterns : List Path) :
    (t.matching patterns).Pairwise fun leaf next => leaf.path.text < next.path.text := by
  have hkeys : ∀ entry ∈ t.leaves, entry.2.path.text = entry.1 := fun entry hentry =>
    h.path_text entry.1 entry.2 (SortedMap.get?_eq_some_of_mem h.sorted hentry)
  refine List.Pairwise.filter _ (List.pairwise_map.mpr (h.sorted.imp_of_mem ?_))
  intro entry next hentry hnext hlt
  rw [hkeys entry hentry, hkeys next hnext]
  exact compareOfLessAndEq_eq_lt.mp hlt

end CacheTarget

/-- Whether a base path and paths relative to it ask for a path. The base path alone asks for all
that is below it. -/
def Asks (base : Option Path) (paths : List (Option Path)) (path : Path) : Prop :=
  (paths = [] ∧ path.isMatch (base.getD .root) = true) ∨
    ∃ relative ∈ paths, path.isMatch ((base.getD .root).join (relative.getD .root)) = true

theorem asks_iff {base : Option Path} {paths : List (Option Path)} {path : Path} :
    (∃ pattern ∈ patternsBelow (base.getD .root) (paths.map (·.getD .root)),
      path.isMatch pattern = true) ↔ Asks base paths path := by
  cases paths with
  | nil => simp [patternsBelow, Asks, Path.isMatch, Path.bare, Path.ofElems]
  | cons first rest =>
    simp [patternsBelow, Asks, Path.isMatch, Path.bare, Path.ofElems]

theorem Status.requireTarget_eq_ok {requested own : String} :
    requireTarget requested own = .ok () ↔
      requested = "" ∨ requested = wildcard ∨ requested = own := by
  unfold requireTarget
  split
  · rename_i h
    simpa using h
  · rename_i h
    simpa using h

namespace Service

variable {s : Service} {id : String} {first events : Session}

/-- The cache changes by applying notifications only, apart from being marked as complete. -/
theorem target_trace {P : CacheTarget → Prop}
    (happly : ∀ t n after changes, P t → t.apply n = .ok (after, changes) → P after)
    (hsynced : ∀ t, P t → P t.markSynced) (h : P s.target) (id : String) (session : Session) :
    P (s.trace id session).service.target := by
  have hstarts : P (s.trace id []).service.target := h
  refine trace_induction (P := fun t => P t.service.target) hstarts ?_ List.nil_prefix
  rintro t ⟨reading, event⟩ ht
  cases event with
  | service event => exact target_perform happly hsynced _ event ht
  | send other message =>
    simp only [Trace.act, send]
    split <;> exact ht
  | close other =>
    simp only [Trace.act, onFeed]
    split <;> exact ht
  | drop other =>
    simp only [Trace.act, onFeed]
    split <;> exact ht
  | turn other =>
    simp only [Trace.act, turn]
    split <;> exact ht

/-- A feed is served for the first time once. -/
theorem Begins.unique {other : Session} (h : Begins id first events)
    (hother : Begins id other events) : first = other := by
  have hshorter : ∀ {p q : Session}, Begins id p events → Begins id q events → p <+: q →
      p = q := by
    rintro p q hp hq ⟨rest, rfl⟩
    obtain ⟨event, hnext, hserves⟩ := hp.next
    cases rest with
    | nil => exact (List.append_nil p).symm
    | cons later rest =>
      obtain ⟨last, hlast, -⟩ := hq.next
      have hlater : p ++ [later] <+: events :=
        List.IsPrefix.trans ⟨rest ++ [last], by simp⟩ hlast
      have hsame : p ++ [event] = p ++ [later] :=
        (List.prefix_of_prefix_length_le hnext hlater (by simp)).eq_of_length (by simp)
      obtain rfl : event = later := by simpa using hsame
      exact absurd hserves (hq.unserved event (by simp))
  obtain ⟨event, hnext, -⟩ := h.next
  obtain ⟨last, hlast, -⟩ := hother.next
  have hfirst : first <+: events := (List.prefix_append _ _).trans hnext
  have hsecond : other <+: events := (List.prefix_append _ _).trans hlast
  rcases List.prefix_or_prefix_of_prefix hfirst hsecond with hle | hle
  · exact hshorter h hother hle
  · exact (hshorter hother h hle).symm

/-- A once subscription that gets as far as being served receives one dump and a sync. -/
theorem received_once {sub : Subscription}
    (hfound : SortedMap.get? s.feeds id = some (Feed.ofSubscription sub))
    (hmode : sub.mode = .once)
    (hid : ∀ event ∈ events, ∀ message, event.2 ≠ .service (.subscribe id message))
    (hbegins : Begins id first events) :
    (s.trace id events).received = s.openingAt id sub first ++ [.ended] := by
  obtain ⟨feed, h⟩ := followed_trace hfound hid
  have hprotocol := h.stage.protocol h.marked h.waits
  generalize (s.trace id events).received = received at hprotocol
  cases hprotocol with
  | nothing gone =>
    obtain ⟨event, hnext, hserves⟩ := hbegins.next
    exact absurd (gone first event hnext hserves) hbegins.present
  | begun begins sent =>
    obtain rfl := hbegins.unique begins
    cases sent with
    | once => rw [List.append_nil, Standing.messages]
    | poll mode => simp [hmode] at mode
    | stream mode => simp [hmode] at mode

/-- An accepted subscription that takes what is there and ends is opened with its patterns. -/
theorem subscribe_once {base : Option Path} (paths : List (Option Path))
    (h : Status.requireTarget (base.getD .root).target s.target.name = .ok ()) (id : String) :
    let opened := s.subscribe id (some (.ok (.subscribe ⟨base, paths, 1, false⟩)))
    let patterns := patternsBelow (base.getD .root) (paths.map (·.getD .root))
    opened.result = .ok () ∧ opened.service.target = s.target ∧
      SortedMap.get? opened.service.feeds id =
        some (Feed.ofSubscription ⟨.once, patterns, false⟩) := by
  simp [subscribe, Subscription.ofFirst, Subscription.ofList, Mode.ofInt?, h, bind, Except.bind,
    quiet, SortedMap.get?_insert_self]

/-- Whatever happens, the cache stays that of one target, with its leaves in order. -/
theorem cached_trace (h : CacheTarget.Indexed s.target.leaves) (id : String) (session : Session) :
    CacheTarget.Indexed (s.trace id session).service.target.leaves ∧
      (s.trace id session).service.target.name = s.target.name := by
  refine target_trace (P := fun t => CacheTarget.Indexed t.leaves ∧ t.name = s.target.name)
    ?_ (fun t ht => ht) ⟨h, rfl⟩ id session
  rintro t n after changes ⟨hindexed, hname⟩ happly
  exact ⟨CacheTarget.indexed_apply hindexed happly, (CacheTarget.name_of_apply happly).trans hname⟩

/-- An accepted request carries the leaves that match its patterns; it is refused without any. -/
theorem get_of_accepted {base : Option Path} (paths : List Path)
    (h : Status.requireTarget (base.getD .root).target s.target.name = .ok ()) :
    (s.target.matching (patternsBelow (base.getD .root) paths) ≠ [] →
      s.get base paths = .ok ((s.target.matching (patternsBelow (base.getD .root) paths)).map
        (CachedLeaf.answer s.target.name))) ∧
    ((∃ message, s.get base paths = .error ⟨.notFound, message⟩) ↔
      s.target.matching (patternsBelow (base.getD .root) paths) = []) := by
  simp only [get, h, CacheTarget.query_eq, bind, Except.bind]
  cases s.target.matching (patternsBelow (base.getD .root) paths) <;> simp

/-- One request and a subscription that takes what is there and ends are answered alike. At the
moment at which the subscription is served both carry the cached leaves that the paths ask for, one
notification for each, in the order of the texts of their paths and with their own times. The
request is refused exactly if there is nothing to carry. -/
theorem get_eq_once {cache : Cache} (hreachable : cache.Reachable) {name : String}
    (htarget : cache.target name = .ok s.target) {base : Option Path}
    (haccepted : (base.getD .root).target = "" ∨ (base.getD .root).target = wildcard ∨
      (base.getD .root).target = name) (paths : List (Option Path))
    (hid : ∀ event ∈ events, ∀ message, event.2 ≠ .service (.subscribe id message))
    (hbegins : Begins id first events) :
    let opened := s.subscribe id (some (.ok (.subscribe ⟨base, paths, 1, false⟩)))
    let now := (opened.service.trace id first).service
    let read := now.get base (paths.map (·.getD .root))
    let received := (opened.service.trace id events).received
    opened.result = .ok () ∧ ∃ leaves : List CachedLeaf,
      (∀ leaf, leaf ∈ leaves ↔
        (∃ text, SortedMap.get? now.target.leaves text = some leaf) ∧ Asks base paths leaf.path) ∧
      leaves.Pairwise (fun leaf next => leaf.path.text < next.path.text) ∧
      received = (leaves.map (CachedLeaf.answer name)).map .delta ++ [.sync, .ended] ∧
      (leaves ≠ [] → read = .ok (leaves.map (CachedLeaf.answer name))) ∧
      ((∃ message, read = .error ⟨.notFound, message⟩) ↔ received = [.sync, .ended]) := by
  intro opened now read received
  have hname : s.target.name = name := hreachable.consistent.name name _ htarget
  have hrequired := Status.requireTarget_eq_ok.mpr haccepted
  let patterns := patternsBelow (base.getD .root) (paths.map (·.getD .root))
  obtain ⟨hresult, hopened, hfound⟩ := subscribe_once paths (hname ▸ hrequired) id
  have hopenedIndexed : CacheTarget.Indexed opened.service.target.leaves := by
    rw [hopened]
    exact hreachable.consistent.indexed name _ htarget
  obtain ⟨hindexed, hnowOpened⟩ := cached_trace hopenedIndexed id first
  have hnow : now.target.name = name := by
    rw [hnowOpened, hopened, hname]
  have hreceived : received = ((now.target.matching patterns).map (CachedLeaf.answer name)).map
      .delta ++ [.sync, .ended] := by
    have honce : received =
        opened.service.openingAt id ⟨.once, patterns, false⟩ first ++ [.ended] :=
      received_once hfound rfl hid hbegins
    rw [honce, ← hnow]
    simp [openingAt, dumped, Trace.dump, CacheTarget.query_eq, now]
  obtain ⟨hread, hrefused⟩ := get_of_accepted (paths.map (·.getD .root)) (hnow.symm ▸ hrequired)
  refine ⟨hresult, now.target.matching patterns, ?_,
    CacheTarget.matching_increasing hindexed patterns, hreceived, hnow ▸ hread, ?_⟩
  · intro leaf
    rw [CacheTarget.mem_matching hindexed, asks_iff]
  · rw [hrefused, hreceived]
    simp [patterns]

/-- A wildcard, the base path itself and one of the interfaces: three patterns that overlap. What
they ask for is set, and the cache's own leaves are written, before the subscription is served. -/
theorem get_eq_once_interfaces :
    let s := Collector.startedInterfaces.service
    let base : Path := ⟨"openconfig", [.plain "interfaces"], "*"⟩
    let paths : List (Option Path) := [some (.ofElems [⟨"interface", [("name", "*")]⟩]), none,
      some (.ofElems [⟨"interface", [("name", "eth1")]⟩])]
    let first : Session :=
      [(1, .service (.set (Collector.setMtus [("eth1", 9000), ("eth0", 1500)]))),
        (2, .service .statistics)]
    let events : Session := first ++ [(3, .service .serve), (4, .turn "client")]
    let opened := s.subscribe "client" (some (.ok (.subscribe ⟨some base, paths, 1, false⟩)))
    let read := (opened.service.trace "client" first).service.get base (paths.map (·.getD .root))
    let received := (opened.service.trace "client" events).received
    received.length = 6 ∧ ∃ leaves : List CachedLeaf, leaves.length = 4 ∧
      leaves.Pairwise (fun leaf next => leaf.path.text < next.path.text) ∧
      received = (leaves.map (CachedLeaf.answer "target")).map .delta ++ [.sync, .ended] ∧
      read = .ok (leaves.map (CachedLeaf.answer "target")) := by
  intro s base paths first events opened read received
  have hreachable : ((Cache.ofNames ["target"]).perform "target" .connect).1.Reachable :=
    .perform _ _ (.ofNames _)
  have hid : ∀ event ∈ events, ∀ message, event.2 ≠ .service (.subscribe "client" message) := by
    simp [events, first]
  have hbegins : Begins "client" first events := by
    refine ⟨?_, ?_, (3, .service .serve), ⟨[(4, .turn "client")], rfl⟩, trivial⟩
    · simp [first, SessionEvent.Serves]
    · simp [first, Session.Has]
  have hlength : received.length = 6 := by decide +kernel
  obtain ⟨-, leaves, -, hincreasing, hreceived, hread, -⟩ :=
    @get_eq_once s "client" first events _ hreachable "target" rfl (some base) (.inr (.inl rfl))
      paths hid hbegins
  have hcount : leaves.length = 4 := by
    have hsame := congrArg List.length hreceived
    rw [show (opened.service.trace "client" events).received.length = 6 from hlength] at hsame
    simpa using hsame.symm
  have hsome : leaves ≠ [] := by
    rintro rfl
    cases hcount
  exact ⟨hlength, leaves, hcount, hincreasing, hreceived, hread hsome⟩

end Service

end Telemetry
