import Telemetry.Proofs.Cache.Written
import Telemetry.Proofs.Service.Run
import Telemetry.Proofs.Siblings

/-!
Who wrote the cached leaves. A run applies notifications of its transactions, of the source and of
the cache itself; a leaf has the time of the last of them that writes it. Only the source chooses
the times of its notifications, so any leaf that is newer than the clock was last written by it.
-/

namespace Telemetry

/-- Where a notification comes from. -/
inductive Writer where
  | transaction
  | source
  /-- The cache, which writes its own leaves. -/
  | own
deriving DecidableEq

/-- The notifications that a cache has taken, oldest first. -/
abbrev History := List (Writer × Notification)

namespace History

def lastWrite (past : History) (text : String) : Option (Writer × Notification) :=
  (past.filter fun write => write.2.writes text).getLast?

theorem lastWrite_concat (past : History) (write : Writer × Notification) (text : String) :
    lastWrite (past ++ [write]) text =
      if write.2.writes text then some write else lastWrite past text := by
  unfold lastWrite
  rw [List.filter_append]
  by_cases h : write.2.writes text = true
  · simp [h]
  · simp [h]

theorem mem_of_lastWrite {past : History} {text : String} {write : Writer × Notification}
    (h : lastWrite past text = some write) : write ∈ past :=
  (List.mem_filter.mp (List.mem_of_getLast? h)).1

/-- Every cached leaf has the time of its last write, and only the source writes leaves that are
newer than a reading of the clock. -/
structure Dates (past : History) (reading : Int64) (t : CacheTarget) : Prop where
  indexed : CacheTarget.Indexed t.leaves
  written : ∀ text leaf, SortedMap.get? t.leaves text = some leaf →
    ∃ writer n, past.lastWrite text = some (writer, n) ∧ leaf.timestamp = n.timestamp ∧
      (writer ≠ .source → n.timestamp ≤ reading)

variable {past : History} {reading : Int64} {t after : CacheTarget}

theorem dates_of_no_leaves (h : t.leaves = []) : Dates [] reading t := by
  refine ⟨h ▸ CacheTarget.indexed_nil, ?_⟩
  intro text leaf hleaf
  rw [h] at hleaf
  cases hleaf

theorem Dates.apply (h : Dates past reading t) (writer : Writer) {n changes : Notification}
    (happly : t.apply n = .ok (after, changes))
    (hwriter : writer ≠ .source → n.timestamp ≤ reading) :
    Dates (past ++ [(writer, n)]) reading after := by
  refine ⟨CacheTarget.indexed_apply h.indexed happly, ?_⟩
  intro text leaf hleaf
  rw [lastWrite_concat]
  rcases CacheTarget.get?_apply_cases h.indexed happly hleaf with
    ⟨hwrites, htime⟩ | ⟨hspared, hkept⟩
  · exact ⟨writer, n, by simp [hwrites], htime, hwriter⟩
  · simpa [hspared] using h.written text leaf hkept

theorem Dates.markSynced (h : Dates past reading t) : Dates past reading t.markSynced :=
  ⟨h.indexed, h.written⟩

end History

open History (Dates)

def CacheTarget.accepted (t : CacheTarget) : List Response → List Notification
  | [] => []
  | .update n :: rest =>
    match t.apply n with
    | .ok (t, _) => n :: t.accepted rest
    | .error _ => []
  | .sync _ :: rest => t.markSynced.accepted rest
  | _ :: _ => []

theorem CacheTarget.dates_ingest {past : History} {reading : Int64} (t : CacheTarget)
    (responses : List Response) (h : Dates past reading t) :
    Dates (past ++ (t.accepted responses).map (.source, ·)) reading
      (t.ingest responses).2.target := by
  induction responses generalizing t past with
  | nil => simpa [accepted, ingest] using h
  | cons response rest ih =>
    cases response with
    | update n =>
      cases happly : t.apply n with
      | error e =>
        simpa [accepted, ingest, SourceMessage.ofResponse, take, happly] using h
      | ok applied =>
        have happlied := h.apply .source happly fun hne => absurd rfl hne
        simpa [accepted, ingest, SourceMessage.ofResponse, take, happly] using
          ih applied.1 happlied
    | sync complete => exact ih t.markSynced h.markSynced
    | failure code message => simpa [accepted, ingest, SourceMessage.ofResponse, take] using h
    | empty => simpa [accepted, ingest, SourceMessage.ofResponse] using h

namespace Service

def ownWrite (s : Service) (updates : CacheTarget → List Update) : History :=
  let n : Notification := ⟨s.now, none, updates s.target, [], false⟩
  match s.target.apply n with
  | .ok _ => [(.own, n)]
  | .error _ => []

def applied (s : Service) : ServiceEvent → History
  | .set req =>
    match (s.set req).result with
    | .ok outcome => [(.transaction, outcome.notification)]
    | .error _ => []
  | .ingest false responses => (s.target.accepted responses).map (.source, ·)
  | .statistics => s.ownWrite CacheTarget.statistics
  | .size => s.ownWrite CacheTarget.sizeUpdates
  | _ => []

def history (s : Service) : ServiceRun → History
  | [] => []
  | (reading, event) :: rest =>
    let s := s.withClock reading
    s.applied event ++ history (s.perform event).service rest

variable {s : Service} {past : History} {reading : Int64}

theorem dates_writeMeta (h : Dates past reading s.target) (hnow : s.now ≤ reading)
    (updates : CacheTarget → List Update) :
    Dates (past ++ s.ownWrite updates) reading (s.writeMeta updates).service.target := by
  unfold ownWrite writeMeta CacheTarget.writeMeta
  simp only
  cases happly : s.target.apply ⟨s.now, none, updates s.target, [], false⟩ with
  | error e => exact (List.append_nil past).symm ▸ h
  | ok applied => exact h.apply .own happly fun _ => hnow

theorem dates_set (h : Dates past reading s.target) (hnow : s.now ≤ reading) (req : SetRequest) :
    Dates (past ++ s.applied (.set req)) reading (s.set req).service.target := by
  simp only [applied]
  cases ht : s.transactor with
  | none => simpa [set_eq_error_of_no_transactor ht, quiet] using h
  | some t =>
    cases hc : t.transact s.now s.tree s.target req with
    | error e => simpa [set_of_error ht hc, tick] using h
    | ok c =>
      rw [set_of_ok ht hc]
      obtain ⟨_, difference, -, -, -, hextend, happly, -⟩ := Transactor.transact_eq_ok hc
      obtain ⟨_, _, -, -, hextended⟩ := Siblings.extend_eq_ok hextend
      have htime : c.outcome.notification.timestamp = s.now := by
        rw [hextended]
        rfl
      exact h.apply .transaction happly fun _ => htime ▸ hnow

/-- An event that the clock reads no later keeps the dates. -/
theorem dates_perform (h : Dates past reading s.target) (hnow : s.now ≤ reading)
    (event : ServiceEvent) :
    Dates (past ++ s.applied event) reading (s.perform event).service.target := by
  cases event with
  | set req => exact dates_set h hnow req
  | ingest cancelled responses =>
    cases cancelled with
    | true => exact (List.append_nil past).symm ▸ h
    | false => exact s.target.dates_ingest responses h
  | statistics => exact dates_writeMeta h hnow CacheTarget.statistics
  | size => exact dates_writeMeta h hnow CacheTarget.sizeUpdates
  | subscribe id first =>
    simp only [perform, subscribe, applied, List.append_nil]
    cases Subscription.ofFirst s.target.name first <;> exact h
  | serve => exact (List.append_nil past).symm ▸ h
  | cancel => exact (List.append_nil past).symm ▸ h

theorem dates_after (h : Dates past reading s.target) {events : ServiceRun}
    (hclock : ∀ event ∈ events, event.1 ≤ reading) :
    Dates (past ++ s.history events) reading (s.after events).target := by
  induction events generalizing s past with
  | nil => simpa [history, after] using h
  | cons head rest ih =>
    obtain ⟨now, event⟩ := head
    have hperformed := dates_perform (s := s.withClock now) h
      (hclock (now, event) List.mem_cons_self) event
    rw [history, ← List.append_assoc]
    exact ih hperformed fun other hother => hclock other (List.mem_cons_of_mem _ hother)

theorem writer_of_mem_ownWrite {updates : CacheTarget → List Update}
    {write : Writer × Notification} (h : write ∈ s.ownWrite updates) : write.1 = .own := by
  unfold ownWrite at h
  simp only at h
  cases happly : s.target.apply ⟨s.now, none, updates s.target, [], false⟩ with
  | error e =>
    rw [happly] at h
    cases h
  | ok applied =>
    rw [happly] at h
    rw [List.mem_singleton.mp h]

/-- What comes from the source was ingested. -/
theorem isIngest_of_mem_applied {event : ServiceEvent} {n : Notification}
    (h : (.source, n) ∈ s.applied event) :
    ∃ cancelled responses, event = .ingest cancelled responses := by
  cases event with
  | ingest cancelled responses => exact ⟨cancelled, responses, rfl⟩
  | set req =>
    unfold applied at h
    cases hset : (s.set req).result with
    | error e => simp [hset] at h
    | ok outcome => simp [hset] at h
  | statistics => exact nomatch writer_of_mem_ownWrite h
  | size => exact nomatch writer_of_mem_ownWrite h
  | subscribe id first => cases h
  | serve => cases h
  | cancel => cases h

theorem isIngest_of_mem_history {events : ServiceRun} {n : Notification}
    (h : (.source, n) ∈ s.history events) :
    ∃ event ∈ events, ∃ cancelled responses, event.2 = .ingest cancelled responses := by
  induction events generalizing s with
  | nil => cases h
  | cons head rest ih =>
    obtain ⟨now, event⟩ := head
    rcases List.mem_append.mp h with hevent | hrest
    · exact ⟨(now, event), List.mem_cons_self, isIngest_of_mem_applied hevent⟩
    · obtain ⟨other, hother, hingest⟩ := ih hrest
      exact ⟨other, List.mem_cons_of_mem _ hother, hingest⟩

end Service

end Telemetry
