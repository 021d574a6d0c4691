import Mathlib.Data.List.Induction
import Telemetry.Proofs.Service.Stages
import Telemetry.Proofs.Service.Start

/-!
Every session of a subscriber follows the protocol. A turn takes one change, or answers one client
message, and so keeps the relation of the feed to what was sent; so does the first turn, which sends
the opening. By induction on its events a session keeps it too.
-/

namespace Telemetry.Service

variable {s : Service} {id : String} {sub : Subscription}

section Turn

variable {past first : Session} {event : Int64 × SessionEvent} {feed : Feed}
  {moments : List Session} {taken : List Notification} {body : List FeedMessage}

theorem before_of_concat {p : Session} {other : Int64 × SessionEvent}
    (h : p ++ [other] <+: past ++ [event]) : p <+: past := by
  rcases List.prefix_concat_iff.mp h with hsame | hbefore
  · exact (List.append_inj' hsame rfl).1 ▸ List.prefix_rfl
  · exact (List.prefix_append _ _).trans hbefore

theorem Polled.ends {events : Session} {standing : Standing}
    (h : s.Polled id first events moments .waiting)
    (hstanding : s.PollEnds id events moments.length standing) :
    s.Polled id first events moments standing :=
  ⟨h.ordered, h.served, h.polls, h.asked, h.going, hstanding⟩

theorem Streamed.ends {events : Session} {standing : Standing}
    (h : s.Streamed id events taken .waiting) (hstanding : s.StreamEnds id events taken standing)
    (hstatus : ∀ status, standing = .failed status → status.code = .resourceExhausted) :
    s.Streamed id events taken standing :=
  ⟨h.order, h.stopped, fun p hp hne lag hlags => ⟨(h.overrun p hp hne lag hlags).1, hstatus⟩,
    hstanding⟩

def Turned (s : Service) (id : String) (sub : Subscription) (first events : Session)
    (body : List FeedMessage) (turn : List FeedMessage × Feed) : Prop :=
  (turn.2.Live ∧ s.Runs id sub first events turn.2 (body ++ turn.1)) ∨
    ∃ standing, standing ≠ .waiting ∧ turn.1 = standing.messages ∧ turn.2.ended = true ∧
      s.Body id sub first events body standing

theorem turned_nothing {events : Session} (hlive : feed.Live)
    (hruns : s.Runs id sub first events feed body) :
    Turned s id sub first events body ([], feed) :=
  Or.inl ⟨hlive, (List.append_nil body).symm ▸ hruns⟩

theorem Polled.answered (h : s.Polled id first (past ++ [event]) moments .waiting)
    (hbegins : Begins id first (past ++ [event])) {rest : List (Except Status ClientMessage)}
    (hserves : event.2.Serves id)
    (hunread : (s.trace id (past ++ [event])).asked =
      .replicate moments.length (.ok .poll) ++ .ok .poll :: rest)
    (hgoes : (s.trace id past).service.cancelled = false) :
    s.Polled id first (past ++ [event]) (moments ++ [past]) .waiting := by
  have hbefore : ∀ p ∈ moments, p <+: past := by
    intro p hp
    obtain ⟨-, other, hnext, -⟩ := h.served p hp
    exact before_of_concat hnext
  refine ⟨?_, ?_, ?_, ?_, ?_, trivial⟩
  · refine List.pairwise_append.mpr ⟨h.ordered, List.pairwise_singleton _ _, ?_⟩
    intro p hp q hq
    rw [List.mem_singleton.mp hq]
    exact hbefore p hp
  · intro p hp
    rcases List.mem_append.mp hp with hp | hp
    · exact h.served p hp
    · obtain ⟨other, hnext, -⟩ := hbegins.next
      rw [List.mem_singleton.mp hp]
      exact ⟨before_of_concat hnext, event, List.prefix_rfl, hserves⟩
  · rw [hunread, List.append_cons (.replicate moments.length _), ← List.replicate_succ']
    simp
  · intro i p hp
    rw [List.getElem?_append] at hp
    split at hp
    · exact h.asked i p hp
    · rename_i hi
      obtain ⟨hzero, rfl⟩ : i - moments.length = 0 ∧ past = p := by
        simpa [List.getElem?_singleton] using hp
      rw [← asked_served hserves, hunread]
      simp
      omega
  · intro p hp
    rcases List.mem_append.mp hp with hp | hp
    · exact h.going p hp
    · rw [List.mem_singleton.mp hp]
      exact hgoes

def InTime (s : Service) (id : String) (events : Session) : Prop :=
  ∀ p, p <+: events → p ≠ events → ∀ lag, ¬ s.Overrun id p lag

/-- A feed that has no more pending than it may have never had. -/
theorem Streamed.inTime {standing : Standing}
    (h : s.Streamed id (past ++ [event]) taken standing)
    (hpending : (s.trace id (past ++ [event])).published = taken ++ feed.pending)
    (hroom : ¬ s.capacity < feed.pending.length) : s.InTime id (past ++ [event]) := by
  intro p hp hne lag hlags
  obtain ⟨hcount, -⟩ := h.overrun p hp hne lag hlags
  obtain ⟨-, -, -, -, hlag⟩ := hlags
  have hshorter : (s.trace id p).published.length ≤
      (s.trace id (past ++ [event])).published.length := (published_grows hp).length_le
  rw [hpending, List.length_append] at hshorter
  omega

theorem streamed_took {n : Notification} {rest : List Notification}
    (hpublished : (s.trace id (past ++ [event])).published = taken ++ n :: rest)
    (hroom : s.InTime id (past ++ [event]))
    (hgoes : (s.trace id past).service.cancelled = false) :
    s.Streamed id (past ++ [event]) (taken ++ [n]) .waiting := by
  refine ⟨?_, ?_, ?_, trivial⟩
  · exact ⟨rest, by rw [hpublished, List.append_assoc]; rfl⟩
  · intro p hp hne hcancelled
    have hbefore := (List.prefix_concat_iff.mp hp).resolve_left hne
    rw [cancelled_later hcancelled hbefore] at hgoes
    cases hgoes
  · intro p hp hne lag hlags
    exact absurd hlags (hroom p hp hne lag)

theorem turned_poll (hmode : sub.mode = .poll) (hbegins : Begins id first (past ++ [event]))
    (hserves : event.2.Serves id) (hmarked : Marked id sub (past ++ [event]) feed)
    (hlive : feed.Live) (answers : s.Polled id first (past ++ [event]) moments .waiting)
    (unread : (s.trace id (past ++ [event])).asked =
      .replicate moments.length (.ok .poll) ++ feed.inbox)
    (hgoes : (s.trace id past).service.cancelled = false) :
    Turned s id sub first (past ++ [event])
      (moments.flatMap fun p => s.dumped id sub p ++ [.sync])
      (feed.answerNext ((s.trace id past).dump sub)) := by
  have hpast : past <+: past ++ [event] := List.prefix_append _ _
  have hnext : (s.trace id (past ++ [event])).asked[moments.length]? = feed.inbox.head? := by
    rw [unread, List.getElem?_append_right (by simp), List.head?_eq_getElem?]
    simp
  have hend : ∀ standing, standing ≠ .waiting →
      s.PollEnds id (past ++ [event]) moments.length standing →
      s.Body id sub first (past ++ [event])
        (moments.flatMap fun p => s.dumped id sub p ++ [.sync]) standing :=
    fun standing hover hstanding => .poll hmode (answers.ends hstanding)
      fun _ _ _ hwaiting => absurd hwaiting hover
  unfold Feed.answerNext
  cases hinbox : feed.inbox with
  | nil =>
    rw [hinbox, List.append_nil] at unread
    cases hclosed : feed.closed with
    | true =>
      refine Or.inr ⟨.done, nofun, rfl, rfl, hend _ nofun ⟨_, List.prefix_rfl, ?_⟩⟩
      exact Or.inr (Or.inr ⟨by rw [unread, List.length_replicate], hmarked.closed.mp hclosed⟩)
    | false =>
      exact turned_nothing hlive (.poll hmode answers (by rw [hinbox, List.append_nil, unread]))
  | cons message rest =>
    rw [hinbox] at unread hnext
    match message with
    | .ok .poll =>
      refine Or.inl ⟨⟨hlive.started, hlive.present, hlive.goes⟩, ?_⟩
      have hunread : (s.trace id (past ++ [event])).asked =
          .replicate (moments ++ [past]).length (.ok .poll) ++ rest := by
        rw [unread, List.length_append, List.length_singleton, List.replicate_succ',
          List.append_assoc]
        rfl
      have hbody : s.Runs id sub first (past ++ [event]) { feed with inbox := rest } _ :=
        .poll hmode (answers.answered hbegins hserves unread hgoes) hunread
      rwa [List.flatMap_append, List.flatMap_singleton] at hbody
    | .error status =>
      refine Or.inr ⟨.done, nofun, rfl, rfl, hend _ nofun ⟨_, List.prefix_rfl, ?_⟩⟩
      exact Or.inr (Or.inl ⟨status, hnext⟩)
    | .ok (.subscribe list) =>
      exact Or.inr ⟨.failed Feed.notPoll, nofun, rfl, rfl, hend _ nofun
        ⟨rfl, past, .subscribe list, hpast, hgoes, asked_served hserves ▸ hnext, nofun⟩⟩
    | .ok .empty =>
      exact Or.inr ⟨.failed Feed.notPoll, nofun, rfl, rfl, hend _ nofun
        ⟨rfl, past, .empty, hpast, hgoes, asked_served hserves ▸ hnext, nofun⟩⟩

/-- With nothing pending the client's messages are read. -/
theorem turned_read (hmode : sub.mode = .stream) (hserves : event.2.Serves id) (hlive : feed.Live)
    (changes : s.Streamed id (past ++ [event]) taken .waiting)
    (hall : (s.trace id (past ++ [event])).published = taken) (hpending : feed.pending = [])
    (hroom : s.InTime id (past ++ [event]))
    (listens : Listens (s.trace id (past ++ [event])).asked feed)
    (hgoes : (s.trace id past).service.cancelled = false) :
    Turned s id sub first (past ++ [event]) ((taken.filterMap sub.filter).map .delta)
      feed.readStream := by
  have hpast : past <+: past ++ [event] := List.prefix_append _ _
  have hnothing : (s.trace id (past ++ [event])).published = taken ++ feed.pending := by
    rw [hpending, List.append_nil, hall]
  unfold Feed.readStream
  cases hlistening : feed.listening with
  | false => exact turned_nothing hlive (.stream hmode changes hnothing listens)
  | true =>
    unfold Listens at listens
    rw [hlistening, if_pos rfl] at listens
    cases hinbox : feed.inbox with
    | nil =>
      rw [hinbox] at listens
      refine turned_nothing ⟨hlive.started, hlive.present, hlive.goes⟩
        (.stream hmode changes hnothing ?_)
      unfold Listens
      cases hclosed : feed.closed with
      | true => exact Or.inr ⟨listens, rfl⟩
      | false => exact listens
    | cons message rest =>
      rw [hinbox] at listens
      cases message with
      | error status =>
        refine turned_nothing ⟨hlive.started, hlive.present, hlive.goes⟩
          (.stream hmode changes hnothing ?_)
        exact Or.inl ⟨status, by rw [listens]; rfl⟩
      | ok request =>
        refine Or.inr ⟨.failed Feed.notExpected, nofun, rfl, rfl,
          .stream hmode ⟨changes.order, changes.stopped, ?_, ?_⟩
            fun _ _ _ hwaiting => nomatch hwaiting⟩
        · intro p hp hne lag hlags
          exact absurd hlags (hroom p hp hne lag)
        · exact ⟨past, hpast, hgoes, Or.inr ⟨by rw [← published_served hserves, hall],
            ⟨request, by rw [← asked_served hserves, listens]; rfl⟩, rfl⟩⟩

theorem turned_stream (hmode : sub.mode = .stream) (hserves : event.2.Serves id)
    (hmarked : Marked id sub (past ++ [event]) feed) (hlive : feed.Live)
    (changes : s.Streamed id (past ++ [event]) taken .waiting)
    (pending : (s.trace id (past ++ [event])).published = taken ++ feed.pending)
    (listens : Listens (s.trace id (past ++ [event])).asked feed)
    (hgoes : (s.trace id past).service.cancelled = false) :
    Turned s id sub first (past ++ [event]) ((taken.filterMap sub.filter).map .delta)
      (feed.takeNext s.capacity) := by
  have hpast : past <+: past ++ [event] := List.prefix_append _ _
  unfold Feed.takeNext
  by_cases hlags : s.capacity < feed.pending.length
  · rw [if_pos hlags]
    refine Or.inr ⟨.failed (Feed.fellBehind (feed.pending.length - s.capacity)), nofun, rfl, rfl,
      .stream hmode (changes.ends ?_ ?_) fun _ _ _ hwaiting => nomatch hwaiting⟩
    · refine ⟨past, hpast, hgoes, Or.inl ⟨feed.pending.length - s.capacity, by omega, ?_, rfl⟩⟩
      rw [← published_served hserves, pending, List.length_append]
      omega
    · rintro status ⟨⟩
      rfl
  · rw [if_neg hlags]
    have hroom := changes.inTime pending hlags
    cases hpending : feed.pending with
    | cons n rest =>
      rw [hpending] at pending
      refine Or.inl ⟨⟨hlive.started, hlive.present, hlive.goes⟩, ?_⟩
      have hrest : (s.trace id (past ++ [event])).published = (taken ++ [n]) ++ rest := by
        rw [pending, List.append_assoc]
        rfl
      have hbody : s.Runs id sub first (past ++ [event]) { feed with pending := rest } _ :=
        .stream hmode (streamed_took pending hroom hgoes) hrest listens
      rw [List.filterMap_append, List.map_append] at hbody
      have hsame : feed.subscription.filter n = sub.filter n := by rw [hmarked.subscription]
      cases hfilter : sub.filter n <;> simpa [hsame, hfilter] using hbody
    | nil =>
      rw [hpending, List.append_nil] at pending
      exact turned_read hmode hserves hlive changes pending hpending hroom listens hgoes

/-- A feed that goes on is over once its client has gone, or once the service is cancelled. -/
theorem Runs.ends {standing : Standing} (h : s.Runs id sub first (past ++ [event]) feed body)
    (hreason : (standing = .gone ∧ (past ++ [event]).Has (.drop id)) ∨
      (standing = .done ∧ (s.trace id past).service.cancelled = true)) :
    s.Body id sub first (past ++ [event]) body standing := by
  have hpast : past <+: past ++ [event] := List.prefix_append _ _
  cases h with
  | poll mode answers =>
    rcases hreason with ⟨rfl, hgone⟩ | ⟨rfl, hcancelled⟩
    · exact .poll mode (answers.ends hgone) (by simp)
    · exact .poll mode (answers.ends ⟨past, hpast, Or.inl hcancelled⟩) (by simp)
  | stream mode changes =>
    rcases hreason with ⟨rfl, hgone⟩ | ⟨rfl, hcancelled⟩
    · exact .stream mode (changes.ends hgone (by simp)) (by simp)
    · exact .stream mode (changes.ends ⟨past, hpast, hcancelled⟩ (by simp)) (by simp)

/-- A turn of a feed that has begun and is not over: the client may have gone, or the service may be
cancelled; else the feed goes on in the way of its mode. -/
theorem turned_turn (hbegins : Begins id first (past ++ [event])) (hserves : event.2.Serves id)
    (hmarked : Marked id sub (past ++ [event]) feed) (hstarted : feed.started = true)
    (hended : feed.ended = false) (hruns : s.Runs id sub first (past ++ [event]) feed body) :
    Turned s id sub first (past ++ [event]) body
      (feed.turn (s.trace id past).service.cancelled s.capacity ((s.trace id past).dump sub)) := by
  cases hdropped : feed.dropped with
  | true =>
    have hturn : ∀ cancelled dump, feed.turn cancelled s.capacity dump =
        ([], { feed with started := true, ended := true }) := by
      intro cancelled dump
      simp [Feed.turn, hended, hdropped]
    rw [hturn]
    exact Or.inr ⟨.gone, by simp, rfl, rfl, hruns.ends (Or.inl ⟨rfl, hmarked.dropped.mp hdropped⟩)⟩
  | false =>
    have hlive : feed.Live := ⟨hstarted, hdropped, hended⟩
    rw [hlive.turn, Feed.goOn]
    cases hcancelled : (s.trace id past).service.cancelled with
    | true => exact Or.inr ⟨.done, by simp, rfl, rfl, hruns.ends (Or.inr ⟨rfl, hcancelled⟩)⟩
    | false =>
      cases hruns with
      | poll mode answers unread =>
        simp only [hmarked.subscription, mode]
        exact turned_poll mode hbegins hserves hmarked hlive answers unread hcancelled
      | stream mode changes pending listens =>
        simp only [hmarked.subscription, mode]
        exact turned_stream mode hserves hmarked hlive changes pending listens hcancelled

/-- A turn of a feed that has begun. -/
theorem Stage.turn {out : List FeedMessage} (h : s.Stage id sub (past ++ [event]) feed out)
    (hserves : event.2.Serves id) (hmarked : Marked id sub (past ++ [event]) feed)
    (hbegun : feed.started = true ∨ feed.ended = true) {turn : List FeedMessage × Feed}
    (hturn : feed.turn (s.trace id past).service.cancelled s.capacity ((s.trace id past).dump sub) =
      turn) :
    s.Stage id sub (past ++ [event]) turn.2 (out ++ turn.1) ∧
      (turn.2.started = true ∨ turn.2.ended = true) := by
  have hover : feed.ended = true → turn = ([], feed) := by
    intro hended
    rw [← hturn]
    simp [Feed.turn, hended]
  cases h with
  | unserved waits => simp [waits.started, waits.goes] at hbegun
  | missed ended dropped gone =>
    rw [hover ended]
    exact ⟨.missed ended dropped gone, Or.inr ended⟩
  | finished begins ended settled sent =>
    rw [hover ended, List.append_nil]
    exact ⟨.finished begins ended settled sent, Or.inr ended⟩
  | running begins started goes runs =>
    have hturned := turned_turn begins hserves hmarked started goes runs
    rw [hturn] at hturned
    rcases hturned with ⟨hlive, hruns⟩ | ⟨standing, hover, hmessages, hended, hsent⟩
    · rw [List.append_assoc]
      exact ⟨.running begins hlive.started hlive.goes hruns, Or.inl hlive.started⟩
    · rw [hmessages]
      exact ⟨.finished begins hended hover hsent, Or.inr hended⟩

theorem Marked.kept {events : Session} {after : Feed} (h : Marked id sub events feed)
    (hkept : feed.Kept after) : Marked id sub events after :=
  ⟨hkept.subscription.trans h.subscription, hkept.dropped ▸ h.dropped, hkept.closed ▸ h.closed⟩

theorem Stage.turns {out : List FeedMessage} (h : s.Stage id sub (past ++ [event]) feed out)
    (hserves : event.2.Serves id) (hmarked : Marked id sub (past ++ [event]) feed)
    (hbegun : feed.started = true ∨ feed.ended = true) (n : Nat)
    {turns : List FeedMessage × Feed}
    (hturns : feed.turns (s.trace id past).service.cancelled s.capacity
      ((s.trace id past).dump sub) n = turns) :
    s.Stage id sub (past ++ [event]) turns.2 (out ++ turns.1) ∧
      Marked id sub (past ++ [event]) turns.2 := by
  induction n generalizing feed out turns with
  | zero =>
    subst hturns
    exact ⟨(List.append_nil out).symm ▸ h, hmarked⟩
  | succ n ih =>
    rw [Feed.turns_succ] at hturns
    obtain ⟨hstage, hbegun⟩ := h.turn hserves hmarked hbegun rfl
    subst hturns
    rw [← List.append_assoc]
    exact ih hstage (hmarked.kept Feed.kept_turn) hbegun rfl

theorem Marked.served {reading : Int64} {other : SessionEvent} (h : Marked id sub past feed)
    (hserves : other.Serves id) : Marked id sub (past ++ [(reading, other)]) feed := by
  refine ⟨h.subscription, ?_, ?_⟩
  · rw [Session.has_concat, h.dropped]
    exact ⟨Or.inl, fun hhas => hhas.resolve_right (by rintro rfl; exact hserves)⟩
  · rw [Session.has_concat, h.closed]
    exact ⟨Or.inl, fun hhas => hhas.resolve_right (by rintro rfl; exact hserves)⟩

/-- The opening is the first that a feed sends. -/
theorem Unserved.begin (h : s.Unserved id sub past feed)
    (hfeed : (s.trace id past).feed? id = some feed) (hsub : feed.subscription = sub)
    (hbegins : Begins id past (past ++ [event])) (hserves : event.2.Serves id) :
    s.Stage id sub (past ++ [event]) (feed.begin ((s.trace id past).dump sub)).2
        (feed.begin ((s.trace id past).dump sub)).1 ∧
      ((feed.begin ((s.trace id past).dump sub)).2.started = true ∨
        (feed.begin ((s.trace id past).dump sub)).2.ended = true) := by
  subst hsub
  have hopening : feed.opening ((s.trace id past).dump feed.subscription) =
      s.openingAt id feed.subscription past := rfl
  have hunread := (asked_served hserves).trans h.unread
  unfold Feed.begin
  rw [hopening]
  cases hmode : feed.subscription.mode with
  | once =>
    have hfinished : s.Stage id _ (past ++ [event]) { feed with started := true, ended := true }
        (s.openingAt id feed.subscription past ++ [] ++ Standing.done.messages) :=
      .finished hbegins rfl nofun (.once hmode)
    rw [List.append_nil] at hfinished
    exact ⟨hfinished, Or.inr rfl⟩
  | poll =>
    have hruns : s.Runs id _ past (past ++ [event]) { feed with started := true } [] :=
      .poll hmode ⟨.nil, nofun, rfl, nofun, nofun, trivial⟩ hunread
    exact ⟨List.append_nil (s.openingAt id _ past) ▸ .running hbegins rfl h.goes hruns, Or.inl rfl⟩
  | stream =>
    obtain ⟨hpending, hstreamed⟩ := h.stream hmode
    have hlater := hstreamed.later_of_pending hfeed hpending event
    have hlistens : Listens (s.trace id (past ++ [event])).asked { feed with started := true } := by
      unfold Listens
      rwa [if_pos h.listening]
    have hruns : s.Runs id _ past (past ++ [event]) { feed with started := true } [] :=
      .stream hmode hlater ((published_served hserves).trans hpending) hlistens
    exact ⟨List.append_nil (s.openingAt id _ past) ▸ .running hbegins rfl h.goes hruns, Or.inl rfl⟩

/-- The first turn of a feed, whose client may have gone. -/
theorem Unserved.turn (h : s.Unserved id sub past feed)
    (hfeed : (s.trace id past).feed? id = some feed) (hmarked : Marked id sub past feed)
    (hserves : event.2.Serves id) {turn : List FeedMessage × Feed}
    (hturn : feed.turn (s.trace id past).service.cancelled s.capacity ((s.trace id past).dump sub) =
      turn) :
    s.Stage id sub (past ++ [event]) turn.2 turn.1 ∧
      (turn.2.started = true ∨ turn.2.ended = true) := by
  cases hdropped : feed.dropped with
  | true =>
    have hgone : turn = ([], { feed with started := true, ended := true }) := by
      rw [← hturn]
      simp [Feed.turn, h.goes, hdropped]
    have hhas : past.Has (.drop id) := hmarked.dropped.mp hdropped
    rw [hgone]
    refine ⟨.missed rfl (has_longer hhas (List.prefix_append _ _)) ?_, Or.inr rfl⟩
    intro p other hp hother
    rcases List.prefix_concat_iff.mp hp with hsame | hbefore
    · rw [(List.append_inj' hsame rfl).1]
      exact hhas
    · exact absurd hother (h.unserved other (hbefore.subset (by simp)))
  | false =>
    have hbegin : turn = feed.begin ((s.trace id past).dump sub) := by
      rw [← hturn]
      simp [Feed.turn, h.goes, hdropped, h.started]
    have hbegins : Begins id past (past ++ [event]) := by
      refine ⟨h.unserved, fun hgone => ?_, event, List.prefix_rfl, hserves⟩
      rw [hmarked.dropped.mpr hgone] at hdropped
      cases hdropped
    rw [hbegin]
    exact h.begin hfeed hmarked.subscription hbegins hserves

/-- An event that serves a feed: the first of its turns may be that of the opening. -/
theorem Stage.served {out : List FeedMessage} (h : s.Stage id sub past feed out)
    (hfeed : (s.trace id past).feed? id = some feed) (hmarked : Marked id sub past feed)
    (hserves : event.2.Serves id) (n : Nat) {turns : List FeedMessage × Feed}
    (hturns : feed.turns (s.trace id past).service.cancelled s.capacity
      ((s.trace id past).dump sub) (n + 1) = turns) :
    s.Stage id sub (past ++ [event]) turns.2 (out ++ turns.1) ∧
      Marked id sub (past ++ [event]) turns.2 := by
  have hserved : Marked id sub (past ++ [event]) feed := hmarked.served hserves
  have hall (hbegun : feed.started = true ∨ feed.ended = true) :=
    (h.later hfeed (by rw [published_served hserves, List.append_nil])
      (by rw [asked_served hserves, List.append_nil])
      (heard_nothing feed) hmarked fun _ => hbegun).turns hserves hserved hbegun (n + 1) hturns
  cases h with
  | missed ended => exact hall (Or.inr ended)
  | running begins started => exact hall (Or.inl started)
  | finished begins ended => exact hall (Or.inr ended)
  | unserved waits =>
    obtain ⟨hfirst, hbegun⟩ := waits.turn hfeed hmarked hserves rfl
    rw [Feed.turns_succ] at hturns
    subst hturns
    exact hfirst.turns hserves (hserved.kept Feed.kept_turn) hbegun n rfl

end Turn

section Sessions

variable {events : Session} {feed : Feed} {out : List FeedMessage}

/-- The invariant of a session: where its feed is, and that it waits where it was served. -/
structure Followed (s : Service) (id : String) (sub : Subscription) (events : Session)
    (feed : Feed) : Prop where
  found : (s.trace id events).feed? id = some feed
  marked : Marked id sub events feed
  stage : s.Stage id sub events feed (s.trace id events).received
  waits : ∀ past reading, events = past ++ [(reading, .service .serve)] → feed.ended = false →
    feed.Waits (s.trace id past).service.cancelled

theorem Followed.served {reading : Int64} {event : SessionEvent}
    (h : Followed s id sub events feed) (hserves : event.Serves id) :
    ∃ after, Followed s id sub (events ++ [(reading, event)]) after := by
  have hserved : (reading, event).2.Serves id := hserves
  obtain ⟨n, messages, after, hturns, hreceived, hfound, hwaits⟩ :=
    Trace.turns_of_act h.found reading hserves
  rw [← trace_concat] at hreceived hfound
  rw [capacity_trace, h.marked.subscription] at hturns
  obtain ⟨hstage, hmarked⟩ := h.stage.served h.found h.marked hserved n hturns
  refine ⟨after, hfound, hmarked, hreceived ▸ hstage, ?_⟩
  intro past other hsame hgoes
  obtain ⟨rfl, hlast⟩ := List.append_inj' hsame rfl
  cases hlast
  exact hwaits rfl hgoes

theorem Followed.heard {reading : Int64} {event : SessionEvent}
    (h : Followed s id sub events feed) (hserves : ¬ event.Serves id)
    (hid : ∀ first, event ≠ .service (.subscribe id first)) :
    ∃ after, Followed s id sub (events ++ [(reading, event)]) after := by
  obtain ⟨published, asked, after, hhears, hpublished, hasked, hreceived, hfound⟩ :=
    Trace.hears_of_act h.found reading hserves hid
  rw [← trace_concat] at hpublished hasked hreceived hfound
  refine ⟨after, hfound, h.marked.hears hhears, ?_, ?_⟩
  · rw [hreceived]
    exact h.stage.later h.found hpublished hasked (heard_of_hears hhears) h.marked
      fun hevent => absurd hevent hserves
  · intro past other hsame
    obtain ⟨-, hlast⟩ := List.append_inj' hsame rfl
    cases hlast
    exact absurd trivial hserves

/-- A session keeps track of a feed that has just been opened. -/
theorem followed_trace (hfound : SortedMap.get? s.feeds id = some (Feed.ofSubscription sub))
    (hid : ∀ event ∈ events, ∀ first, event.2 ≠ .service (.subscribe id first)) :
    ∃ feed, Followed s id sub events feed := by
  induction events using List.reverseRecOn with
  | nil =>
    refine ⟨_, hfound, ⟨rfl, ?_, ?_⟩, .unserved ⟨nofun, rfl, rfl, rfl, rfl, fun _ => ⟨rfl, ?_⟩⟩, ?_⟩
    · simp [Session.Has, Feed.ofSubscription]
    · simp [Session.Has, Feed.ofSubscription]
    · refine ⟨List.prefix_rfl, ?_, ?_, trivial⟩
      · intro p hp hne
        exact absurd (List.prefix_nil.mp hp) hne
      · intro p hp hne
        exact absurd (List.prefix_nil.mp hp) hne
    · intro past reading hsame
      simp at hsame
  | append_singleton events event ih =>
    obtain ⟨reading, event⟩ := event
    obtain ⟨feed, h⟩ := ih fun other hother => hid other (List.mem_append_left _ hother)
    by_cases hserves : event.Serves id
    · exact h.served hserves
    · exact h.heard hserves (hid (reading, event) (List.mem_append_right _ List.mem_cons_self))

/-- Where a feed goes on, nothing that it has waits for it to be served once more. -/
theorem Runs.body {first : Session} {body : List FeedMessage}
    (h : s.Runs id sub first events feed body) (hmarked : Marked id sub events feed)
    (hwaits : ∀ past reading, events = past ++ [(reading, .service .serve)] →
      feed.Waits (s.trace id past).service.cancelled) :
    s.Body id sub first events body .waiting := by
  cases h with
  | poll mode answers unread =>
    refine .poll mode answers fun past reading hsame _ => ?_
    have hwait := hwaits past reading hsame
    obtain ⟨hinbox, hclosed⟩ := hwait.poll (hmarked.subscription ▸ mode)
    refine ⟨by rw [unread, hinbox, List.append_nil, List.length_replicate], hwait.goes, ?_, ?_⟩
    · rw [← hmarked.closed, hclosed]
      exact Bool.false_ne_true
    · rw [← hmarked.dropped, hwait.live.present]
      exact Bool.false_ne_true
  | stream mode changes pending listens =>
    refine .stream mode changes fun past reading hsame _ => ?_
    have hwait := hwaits past reading hsame
    obtain ⟨hpending, hinbox⟩ := hwait.stream (hmarked.subscription ▸ mode)
    refine ⟨by rw [pending, hpending, List.append_nil], hwait.goes, ?_, ?_⟩
    · intro message hhead
      unfold Listens at listens
      split at listens
      · rename_i hlistening
        rw [listens, hinbox hlistening] at hhead
        cases hhead
      · rcases listens with ⟨status, herror⟩ | ⟨hnone, -⟩
        · rw [herror] at hhead
          cases hhead
        · rw [hnone] at hhead
          cases hhead
    · rw [← hmarked.dropped, hwait.live.present]
      exact Bool.false_ne_true

theorem Stage.protocol (h : s.Stage id sub events feed out) (hmarked : Marked id sub events feed)
    (hwaits : ∀ past reading, events = past ++ [(reading, .service .serve)] →
      feed.ended = false → feed.Waits (s.trace id past).service.cancelled) :
    s.Protocol id sub events out := by
  cases h with
  | unserved waits =>
    refine .nothing fun p event hp hserves => ?_
    exact absurd hserves (waits.unserved event (hp.subset (by simp)))
  | missed ended dropped gone => exact .nothing gone
  | running begins started goes runs =>
    have hbody := runs.body hmarked fun past reading hsame => hwaits past reading hsame goes
    exact (List.append_nil (s.openingAt id sub _ ++ _)) ▸ .begun begins hbody
  | finished begins ended settled sent => exact .begun begins sent

/-- Whatever happens after a subscription was opened, its client receives what the protocol of its
mode says. -/
theorem responses_follow_protocol {list : SubscriptionList}
    (hsub : Subscription.ofList s.target.name list = .ok sub) (id : String)
    (hid : ∀ event ∈ events, ∀ first, event.2 ≠ .service (.subscribe id first)) :
    let opened := s.subscribe id (some (.ok (.subscribe list)))
    opened.result = .ok () ∧ opened.service.Protocol id sub events
      (opened.service.trace id events).received := by
  intro opened
  have hopened : opened = { s with
      feeds := SortedMap.insert s.feeds id (Feed.ofSubscription sub) }.quiet (.ok ()) := by
    simp only [opened, subscribe, Subscription.ofFirst, hsub]
  have hfound : SortedMap.get? opened.service.feeds id = some (Feed.ofSubscription sub) := by
    rw [hopened]
    exact SortedMap.get?_insert_self _ _ _
  obtain ⟨feed, h⟩ := followed_trace hfound hid
  exact ⟨by rw [hopened]; rfl, h.stage.protocol h.marked h.waits⟩

/-- A client polls before and after a size is set, then sends what is no poll. -/
theorem responses_follow_protocol_interfaces :
    let s := Collector.startedInterfaces.service
    let list : SubscriptionList := ⟨none, [some (.ofElems [.plain "interfaces"])], 2, false⟩
    let opened := s.subscribe "client" (some (.ok (.subscribe list)))
    let events : Session :=
      [(1, .send "client" (.ok .poll)), (2, .turn "client"), (3, .turn "client"),
        (4, .service (.set (Collector.setMtus [("eth0", 1500)]))),
        (5, .send "client" (.ok .poll)), (6, .send "client" (.ok .empty)), (7, .service .serve)]
    let received := (opened.service.trace "client" events).received
    let timestamp : FeedMessage → Option Int64
      | .delta n => some n.timestamp
      | _ => none
    received.map timestamp = [none, none, some 4, some 4, none, none, none] ∧
      ∃ sub, Subscription.ofList s.target.name list = .ok sub ∧ sub.mode = .poll ∧
        opened.service.Protocol "client" sub events received := by
  intro s list opened events received timestamp
  have hid : ∀ event ∈ events, ∀ first, event.2 ≠ .service (.subscribe "client" first) := by
    simp [events]
  exact ⟨by decide +kernel, _, rfl, rfl, (responses_follow_protocol rfl "client" hid).2⟩

end Sessions

end Telemetry.Service
