import Telemetry.Proofs.Service.Feeds

/-!
Serving a feed turn by turn. A turn sends the initial messages, answers a client message of a poll
subscription, takes a change of a stream subscription or reads a client message of one. Serving a
feed until it waits is a number of turns, so other events may as well come between two of these.
-/

namespace Telemetry.Feed

def notPoll : Status :=
  ⟨.invalidArgument, "only poll requests are accepted on a POLL subscription"⟩

def notExpected : Status :=
  ⟨.invalidArgument, "no further requests are accepted on a STREAM subscription"⟩

def fellBehind (missed : Nat) : Status :=
  ⟨.resourceExhausted, s!"subscription fell behind by {missed} notifications"⟩

def begin (dump : List Notification) (f : Feed) : List FeedMessage × Feed :=
  match f.subscription.mode with
  | .once => (f.opening dump ++ [.ended], { f with started := true, ended := true })
  | _ => (f.opening dump, { f with started := true })

def answerNext (dump : List Notification) (f : Feed) : List FeedMessage × Feed :=
  match f.inbox with
  | [] => if f.closed then ([.ended], { f with ended := true }) else ([], f)
  | .ok .poll :: rest => (dump.map .delta ++ [.sync], { f with inbox := rest })
  | .ok _ :: _ => ([.failed notPoll, .ended], { f with ended := true, inbox := [] })
  | .error _ :: _ => ([.ended], { f with ended := true, inbox := [] })

def takeNext (capacity : Nat) (f : Feed) : List FeedMessage × Feed :=
  if capacity < f.pending.length then
    ([.failed (fellBehind (f.pending.length - capacity)), .ended],
      { f with ended := true, pending := [] })
  else
    match f.pending with
    | [] => f.readStream
    | n :: rest => ((f.subscription.filter n).toList.map .delta, { f with pending := rest })

def goOn (cancelled : Bool) (capacity : Nat) (dump : List Notification) (f : Feed) :
    List FeedMessage × Feed :=
  if cancelled then ([.ended], { f with ended := true })
  else
    match f.subscription.mode with
    | .once => ([.ended], { f with ended := true })
    | .poll => f.answerNext dump
    | .stream => f.takeNext capacity

def turn (cancelled : Bool) (capacity : Nat) (dump : List Notification) (f : Feed) :
    List FeedMessage × Feed :=
  if f.ended then ([], f)
  else if f.dropped then ([], { f with started := true, ended := true })
  else if f.started then f.goOn cancelled capacity dump
  else f.begin dump

def turns (cancelled : Bool) (capacity : Nat) (dump : List Notification) (f : Feed) :
    Nat → List FeedMessage × Feed
  | 0 => ([], f)
  | n + 1 =>
    let (messages, f) := f.turn cancelled capacity dump
    let (further, f) := f.turns cancelled capacity dump n
    (messages ++ further, f)

variable {cancelled : Bool} {capacity : Nat} {dump : List Notification} {f : Feed}

theorem turns_succ (n : Nat) : f.turns cancelled capacity dump (n + 1) =
    ((f.turn cancelled capacity dump).1 ++
        ((f.turn cancelled capacity dump).2.turns cancelled capacity dump n).1,
      ((f.turn cancelled capacity dump).2.turns cancelled capacity dump n).2) := rfl

theorem turns_one : f.turns cancelled capacity dump 1 = f.turn cancelled capacity dump := by
  rw [turns_succ]
  simp [turns]

structure Kept (f after : Feed) : Prop where
  subscription : after.subscription = f.subscription
  dropped : after.dropped = f.dropped
  closed : after.closed = f.closed

theorem kept_begin : f.Kept (f.begin dump).2 := by
  unfold begin
  split <;> exact ⟨rfl, rfl, rfl⟩

theorem kept_answerNext : f.Kept (f.answerNext dump).2 := by
  unfold answerNext
  split
  · split <;> exact ⟨rfl, rfl, rfl⟩
  all_goals exact ⟨rfl, rfl, rfl⟩

theorem kept_readStream : f.Kept f.readStream.2 := by
  unfold readStream
  split
  · exact ⟨rfl, rfl, rfl⟩
  · split <;> exact ⟨rfl, rfl, rfl⟩

theorem kept_takeNext : f.Kept (f.takeNext capacity).2 := by
  unfold takeNext
  split
  · exact ⟨rfl, rfl, rfl⟩
  · split
    · exact kept_readStream
    · exact ⟨rfl, rfl, rfl⟩

theorem kept_turn : f.Kept (f.turn cancelled capacity dump).2 := by
  unfold turn goOn
  split
  · exact ⟨rfl, rfl, rfl⟩
  · split
    · exact ⟨rfl, rfl, rfl⟩
    · split
      · split
        · exact ⟨rfl, rfl, rfl⟩
        · split
          · exact ⟨rfl, rfl, rfl⟩
          · exact kept_answerNext
          · exact kept_takeNext
      · exact kept_begin

structure Live (f : Feed) : Prop where
  started : f.started = true
  present : f.dropped = false
  goes : f.ended = false

theorem Live.turn (h : f.Live) :
    f.turn cancelled capacity dump = f.goOn cancelled capacity dump := by
  simp [Feed.turn, h.started, h.present, h.goes]

theorem Live.run (h : f.Live) :
    f.run cancelled capacity dump = f.serve cancelled capacity dump := by
  simp [Feed.run, h.present, h.goes]

/-- Answering all messages is answering them one by one. -/
theorem exists_turns_poll (hmode : f.subscription.mode = .poll) (h : f.Live) :
    ∃ n, f.serve false capacity dump = f.turns false capacity dump (n + 1) := by
  obtain ⟨subscription, started, pending, inbox, closed, listening, dropped, ended⟩ := f
  obtain ⟨rfl, rfl, rfl⟩ := h
  simp only at hmode
  induction inbox with
  | nil =>
    refine ⟨0, ?_⟩
    cases closed <;>
      simp [turns_one, Feed.turn, goOn, serve, hmode, answerPolls, answerNext]
  | cons message rest ih =>
    match message with
    | .ok .poll =>
      obtain ⟨n, hn⟩ := ih
      refine ⟨n + 1, ?_⟩
      rw [turns_succ]
      simp only [Feed.turn, goOn, hmode, answerNext]
      simp only [Bool.false_eq_true, if_false, if_true, ← hn]
      simp [serve, hmode, answerPolls]
    | .ok (.subscribe list) | .ok .empty | .error status =>
      refine ⟨0, ?_⟩
      simp [turns_one, Feed.turn, goOn, serve, hmode, answerPolls, answerNext, notPoll]

/-- Sending all changes is taking them one by one, as long as they are not too many. -/
theorem exists_turns_stream (hmode : f.subscription.mode = .stream) (h : f.Live) :
    ∃ n, f.serve false capacity dump = f.turns false capacity dump (n + 1) := by
  obtain ⟨subscription, started, pending, inbox, closed, listening, dropped, ended⟩ := f
  obtain ⟨rfl, rfl, rfl⟩ := h
  simp only at hmode
  by_cases hroom : capacity < pending.length
  · refine ⟨0, ?_⟩
    have hmissed : 0 < pending.length - capacity := by omega
    simp [turns_one, Feed.turn, goOn, serve, hmode, flush, takeNext, hroom, hmissed, fellBehind]
  · induction pending with
    | nil =>
      refine ⟨0, ?_⟩
      simp [turns_one, Feed.turn, goOn, serve, hmode, flush, takeNext]
    | cons change rest ih =>
      rw [List.length_cons] at hroom
      obtain ⟨n, hn⟩ := ih (by omega)
      refine ⟨n + 1, ?_⟩
      have hmissed : ¬ 0 < rest.length - capacity := by omega
      have hall : ¬ 0 < rest.length + 1 - capacity := by omega
      rw [turns_succ]
      simp only [Feed.turn, goOn, hmode, takeNext, List.length_cons, hroom]
      simp only [Bool.false_eq_true, if_false, if_true, ← hn]
      simp only [serve, hmode, flush, List.length_cons, hmissed, hall, if_false, if_true,
        Bool.false_eq_true, List.nil_append]
      cases hfilter : subscription.filter change <;> simp [hfilter]

theorem exists_turns_live (h : f.Live) :
    ∃ n, f.serve cancelled capacity dump = f.turns cancelled capacity dump (n + 1) := by
  have hover : (f.subscription.mode = .once ∨ cancelled = true) →
      f.serve cancelled capacity dump = f.turns cancelled capacity dump 1 := by
    intro hover
    rw [turns_one, h.turn]
    obtain ⟨subscription, started, pending, inbox, closed, listening, dropped, ended⟩ := f
    obtain ⟨rfl, rfl, rfl⟩ := h
    cases hmode : subscription.mode <;> cases cancelled <;> simp_all [serve, goOn]
  cases cancelled with
  | true => exact ⟨0, hover (Or.inr rfl)⟩
  | false =>
    cases hmode : f.subscription.mode with
    | once => exact ⟨0, hover (Or.inl hmode)⟩
    | poll => exact exists_turns_poll hmode h
    | stream => exact exists_turns_stream hmode h

/-- The initial messages come before all else. -/
theorem serve_eq_begin (hended : f.ended = false) (hstarted : f.started = false) :
    f.serve cancelled capacity dump =
      if f.subscription.mode = .once then f.begin dump
      else ((f.begin dump).1 ++ ((f.begin dump).2.serve cancelled capacity dump).1,
        ((f.begin dump).2.serve cancelled capacity dump).2) := by
  obtain ⟨subscription, started, pending, inbox, closed, listening, dropped, ended⟩ := f
  simp only at hended hstarted
  subst hended hstarted
  cases hmode : subscription.mode with
  | once => simp [serve, begin, hmode]
  | poll => cases cancelled <;> simp [serve, begin, hmode]
  | stream =>
    cases cancelled with
    | true => simp [serve, begin, hmode]
    | false =>
      simp only [serve, begin, hmode]
      cases hflush : flush capacity ⟨subscription, true, pending, inbox, closed, listening, dropped,
        false⟩ with
      | mk messages missed => cases missed <;> simp

theorem live_begin (hpresent : f.dropped = false) (hended : f.ended = false)
    (hmode : f.subscription.mode ≠ .once) : (f.begin dump).2.Live := by
  unfold begin
  split
  · exact absurd ‹_› hmode
  · exact ⟨rfl, hpresent, hended⟩

/-- Serving a feed until it waits is a number of turns. -/
theorem run_eq_turns (cancelled : Bool) (capacity : Nat) (dump : List Notification) (f : Feed) :
    ∃ n, f.run cancelled capacity dump = f.turns cancelled capacity dump (n + 1) := by
  cases hended : f.ended with
  | true => exact ⟨0, by simp [turns_one, run, turn, hended]⟩
  | false =>
    cases hdropped : f.dropped with
    | true => exact ⟨0, by simp [turns_one, run, turn, hended, hdropped]⟩
    | false =>
      have hrun : f.run cancelled capacity dump = f.serve cancelled capacity dump := by
        simp [run, hended, hdropped]
      cases hstarted : f.started with
      | true =>
        rw [hrun]
        exact exists_turns_live ⟨hstarted, hdropped, hended⟩
      | false =>
        have hturn : f.turn cancelled capacity dump = f.begin dump := by
          simp [turn, hended, hdropped, hstarted]
        rw [hrun, serve_eq_begin hended hstarted]
        by_cases hmode : f.subscription.mode = .once
        · exact ⟨0, by rw [if_pos hmode, turns_one, hturn]⟩
        · have hlive : (f.begin dump).2.Live := live_begin hdropped hended hmode
          obtain ⟨n, hn⟩ : ∃ n, (f.begin dump).2.serve cancelled capacity dump =
              (f.begin dump).2.turns cancelled capacity dump (n + 1) := exists_turns_live hlive
          exact ⟨n + 1, by rw [if_neg hmode, turns_succ, hturn, hn]⟩

/-- A feed waits when it has been served: there is nothing left for it to do. -/
structure Waits (cancelled : Bool) (f : Feed) : Prop where
  live : f.Live
  goes : cancelled = false
  poll : f.subscription.mode = .poll → f.inbox = [] ∧ f.closed = false
  stream : f.subscription.mode = .stream →
    f.pending = [] ∧ (f.listening = true → f.inbox = [])

theorem answerPolls_waits {inbox : List (Except Status ClientMessage)} {closed : Bool}
    (h : (answerPolls dump closed inbox).2 = false) : closed = false := by
  induction inbox with
  | nil => cases closed <;> simp_all [answerPolls]
  | cons message rest ih =>
    match message with
    | .ok .poll => exact ih h
    | .ok (.subscribe list) | .ok .empty | .error status => simp [answerPolls] at h

theorem waits_readStream (h : f.Live) (hpending : f.pending = [])
    (hmode : f.subscription.mode = .stream) (hended : f.readStream.2.ended = false) :
    f.readStream.2.Waits false := by
  have hpoll : f.subscription.mode ≠ .poll := by simp [hmode]
  obtain ⟨hstarted, hpresent, hgoes⟩ := h
  unfold readStream at hended ⊢
  cases hlistening : f.listening with
  | false =>
    simp only [Bool.not_false, if_true]
    exact ⟨⟨hstarted, hpresent, hgoes⟩, rfl, fun h => absurd h hpoll,
      fun _ => ⟨hpending, by simp [hlistening]⟩⟩
  | true =>
    simp only [hlistening, Bool.not_true, Bool.false_eq_true, if_false] at hended ⊢
    cases hinbox : f.inbox with
    | nil =>
      exact ⟨⟨hstarted, hpresent, hgoes⟩, rfl, fun h => absurd h hpoll,
        fun _ => ⟨hpending, fun _ => rfl⟩⟩
    | cons message rest =>
      cases message with
      | ok request => simp [hinbox] at hended
      | error status =>
        exact ⟨⟨hstarted, hpresent, hgoes⟩, rfl, fun h => absurd h hpoll,
          fun _ => ⟨hpending, fun _ => rfl⟩⟩

theorem waits_of_run (h : (f.run cancelled capacity dump).2.ended = false) :
    (f.run cancelled capacity dump).2.Waits cancelled := by
  obtain ⟨subscription, started, pending, inbox, closed, listening, dropped, ended⟩ := f
  unfold run at h ⊢
  cases ended with
  | true => simp at h
  | false =>
    cases dropped with
    | true => simp at h
    | false =>
      simp only [Bool.false_eq_true, if_false] at h ⊢
      unfold serve at h ⊢
      cases hmode : subscription.mode with
      | once => simp [hmode] at h
      | poll =>
        cases cancelled with
        | true => simp [hmode] at h
        | false =>
          simp only [hmode, Bool.false_eq_true, if_false] at h ⊢
          exact ⟨⟨rfl, rfl, h⟩, rfl, fun _ => ⟨rfl, answerPolls_waits h⟩, by simp [hmode]⟩
      | stream =>
        cases cancelled with
        | true => simp [hmode] at h
        | false =>
          simp only [hmode, Bool.false_eq_true, if_false] at h ⊢
          cases hflush : flush capacity ⟨subscription, true, pending, inbox, closed, listening,
            false, false⟩ with
          | mk messages missed =>
            rw [hflush] at h
            cases missed with
            | true => simp at h
            | false => exact waits_readStream ⟨rfl, rfl, rfl⟩ rfl hmode h

end Telemetry.Feed
