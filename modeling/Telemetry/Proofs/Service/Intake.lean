import Telemetry.Proofs.Service.Run

/-!
Ingestion applies a prefix of what its source sends: the responses before the first bad one, or
before it is cancelled or its channel is closed. The bad one is counted and decides the error, but
it changes nothing, and what comes after it is not looked at. Ingestion is described as the loop
that it is, one look at the channel after the other; taking all responses at once is the loop whose
channel is closed after them.
-/

namespace Telemetry

namespace Tally

def count (tally : Tally) (label : String) : Nat :=
  (SortedMap.get? tally label).getD 0

theorem count_add (tally : Tally) (label other : String) :
    (tally.add label).count other = tally.count other + if other = label then 1 else 0 := by
  unfold count add
  rw [SortedMap.get?_insert]
  by_cases h : other = label
  · rw [if_pos h, if_pos h, h]
    rfl
  · rw [if_neg h, if_neg h]
    rfl

theorem count_foldl_add (tally : Tally) (labels : List String) (label : String) :
    (labels.foldl add tally).count label = tally.count label + labels.count label := by
  induction labels generalizing tally with
  | nil => rfl
  | cons first rest ih =>
    rw [List.foldl_cons, ih, count_add, List.count_cons]
    by_cases h : first = label
    · rw [if_pos h.symm, if_pos (by simpa using h)]
      omega
    · rw [if_neg (Ne.symm h), if_neg (by simpa using h)]
      omega

end Tally

namespace Response

def kind? : Response → Option String
  | update _ => some "delta"
  | sync _ => some "sync"
  | failure _ _ => some "error"
  | empty => none

end Response

namespace CacheTarget

def accept? (t : CacheTarget) : Response → Option CacheTarget
  | .update n => (t.apply n).toOption.map (·.1)
  | .sync _ => some t.markSynced
  | .failure _ _ => none
  | .empty => none

def fault? (t : CacheTarget) : Response → Option IngestError
  | .update n =>
    match t.apply n with
    | .ok _ => none
    | .error cause => some (.apply cause)
  | .sync _ => none
  | .failure _ message => some (.source message)
  | .empty => some .emptyResponse

/-- A response is either good or bad. -/
theorem accept?_or_fault? (t : CacheTarget) (response : Response) :
    (∃ after, t.accept? response = some after) ∧ t.fault? response = none ∨
      t.accept? response = none ∧ ∃ e, t.fault? response = some e := by
  cases response with
  | update n =>
    cases happly : t.apply n with
    | ok applied =>
      refine Or.inl ⟨⟨applied.1, ?_⟩, ?_⟩
      · rw [accept?, happly]
        rfl
      · rw [fault?, happly]
    | error cause =>
      refine Or.inr ⟨?_, .apply cause, ?_⟩
      · rw [accept?, happly]
        rfl
      · rw [fault?, happly]
  | sync complete => exact Or.inl ⟨⟨t.markSynced, rfl⟩, rfl⟩
  | failure code message => exact Or.inr ⟨rfl, .source message, rfl⟩
  | empty => exact Or.inr ⟨rfl, .emptyResponse, rfl⟩

/-- A bad response ends ingestion at once. -/
theorem ingest_of_fault? {t : CacheTarget} {response : Response} {e : IngestError}
    (h : t.fault? response = some e) (rest : List Response) :
    t.ingest (response :: rest) = (.error e, ⟨t, response.kind?.toList, []⟩) := by
  cases response with
  | update n =>
    unfold fault? at h
    cases happly : t.apply n with
    | ok applied => simp [happly] at h
    | error cause =>
      simp only [happly, Option.some.injEq] at h
      simp only [ingest, SourceMessage.ofResponse, take, happly, h]
      rfl
  | sync complete => cases h
  | failure code message =>
    cases h
    rfl
  | empty =>
    cases h
    rfl

/-- After a good response ingestion goes on with what it made of the cache. -/
theorem ingest_of_accept? {t after : CacheTarget} {response : Response}
    (h : t.accept? response = some after) :
    ∃ changes, ∀ rest, t.ingest (response :: rest) = ((after.ingest rest).1,
      ⟨(after.ingest rest).2.target, response.kind?.toList ++ (after.ingest rest).2.kinds,
        changes ++ (after.ingest rest).2.changes⟩) := by
  cases response with
  | update n =>
    obtain ⟨⟨applied, changes⟩, happly, rfl⟩ := Option.map_eq_some_iff.mp h
    refine ⟨[changes], fun rest => ?_⟩
    simp only [ingest, SourceMessage.ofResponse, take, toOption_eq_some.mp happly]
    rfl
  | sync complete =>
    cases h
    exact ⟨[], fun _ => rfl⟩
  | failure code message => cases h
  | empty => cases h

/-- Ingestion takes good responses up to the first bad one. -/
theorem ingest_cases (t : CacheTarget) (responses : List Response) :
    (∃ after, responses.foldlM accept? t = some after ∧ (t.ingest responses).1 = .ok () ∧
      (t.ingest responses).2.target = after ∧
      (t.ingest responses).2.kinds = responses.filterMap Response.kind?) ∨
    ∃ good bad later after e, responses = good ++ bad :: later ∧
      good.foldlM accept? t = some after ∧ after.fault? bad = some e ∧
      (t.ingest responses).1 = .error e ∧ (t.ingest responses).2.target = after ∧
      (t.ingest responses).2.kinds = (good ++ [bad]).filterMap Response.kind? := by
  induction responses generalizing t with
  | nil => exact Or.inl ⟨t, rfl, rfl, rfl, rfl⟩
  | cons response rest ih =>
    rcases t.accept?_or_fault? response with ⟨⟨next, hnext⟩, -⟩ | ⟨-, e, he⟩
    · obtain ⟨changes, hingest⟩ := ingest_of_accept? hnext
      have hkinds : ∀ responses : List Response,
          (response :: responses).filterMap Response.kind? =
            response.kind?.toList ++ responses.filterMap Response.kind? := by
        intro responses
        rw [List.filterMap_cons]
        cases response.kind? <;> rfl
      have hfold : ∀ {responses after}, responses.foldlM accept? next = some after →
          (response :: responses).foldlM accept? t = some after := by
        intro responses after h
        rw [List.foldlM_cons, hnext]
        exact h
      rw [hingest]
      rcases ih next with ⟨after, hafter, hresult, htarget, hrest⟩ |
        ⟨good, bad, later, after, e, rfl, hgood, hbad, hresult, htarget, hrest⟩
      · refine Or.inl ⟨after, hfold hafter, hresult, htarget, ?_⟩
        rw [hkinds, ← hrest]
      · refine Or.inr ⟨response :: good, bad, later, after, e, rfl, hfold hgood, hbad, hresult,
          htarget, ?_⟩
        rw [List.cons_append, hkinds, ← hrest]
    · rw [ingest_of_fault? he rest]
      refine Or.inr ⟨[], response, rest, t, e, rfl, rfl, he, rfl, rfl, ?_⟩
      rw [List.nil_append, List.filterMap_cons]
      cases response.kind? <;> rfl

end CacheTarget

/-- What ingestion finds when it looks at its channel. -/
structure Look where
  cancelled : Bool
  /-- The response that waits; none when the channel is closed. -/
  response : Option Response

namespace Look

def waiting (response : Response) : Look := ⟨false, some response⟩

/-- The response that is taken. Being cancelled comes before a response that waits. -/
def taken? (look : Look) : Option Response :=
  if look.cancelled then none else look.response

def taken : List Look → List Response
  | [] => []
  | look :: rest =>
    match look.taken? with
    | none => []
    | some response => response :: taken rest

def stops (looks : List Look) : Bool :=
  looks.any fun look => look.taken?.isNone

theorem taken_waiting_append (responses : List Response) (rest : List Look) :
    taken (responses.map waiting ++ rest) = responses ++ taken rest := by
  induction responses with
  | nil => rfl
  | cons response responses ih => exact congrArg (List.cons response) ih

end Look

namespace Service

/-- The loop of ingestion: look by look until it is cancelled, the channel is closed or a response
is bad. Without a result it waits for the next look. -/
def intake (s : Service) : List Look → Reply (Option (Except IngestError Unit))
  | [] => s.quiet none
  | look :: rest =>
    match look.taken? with
    | none => s.quiet (some (.ok ()))
    | some response =>
      let reply := s.ingest false [response]
      match reply.result with
      | .error e => ⟨some (.error e), reply.service, reply.published⟩
      | .ok () =>
        let further := reply.service.intake rest
        ⟨further.result, further.service, reply.published ++ further.published⟩

section Ingest

variable {s : Service} {response : Response} {rest : List Response}

theorem ingest_nil (s : Service) : s.ingest false [] = s.quiet (.ok ()) := by
  have hfeeds : s.feeds.map (fun entry => (entry.1, entry.2)) = s.feeds := List.map_id' s.feeds
  simp [ingest, CacheTarget.ingest, publish, quiet]

/-- After a bad response it does not matter what else there is. -/
theorem ingest_cons_of_fault? {e : IngestError} (h : s.target.fault? response = some e)
    (rest : List Response) : s.ingest false (response :: rest) = s.ingest false [response] := by
  simp only [ingest, Bool.false_eq_true, if_false, CacheTarget.ingest_of_fault? h]

theorem result_of_fault? {e : IngestError} (h : s.target.fault? response = some e) :
    (s.ingest false [response]).result = .error e := by
  simp only [ingest, Bool.false_eq_true, if_false, CacheTarget.ingest_of_fault? h]
  rfl

theorem result_of_accept? {after : CacheTarget} (h : s.target.accept? response = some after) :
    (s.ingest false [response]).result = .ok () := by
  obtain ⟨changes, hingest⟩ := CacheTarget.ingest_of_accept? h
  simp only [ingest, Bool.false_eq_true, if_false, hingest]
  rfl

/-- Responses are ingested one after the other. -/
theorem ingest_cons_of_accept? {after : CacheTarget} (h : s.target.accept? response = some after)
    (rest : List Response) :
    s.ingest false (response :: rest) =
      ⟨((s.ingest false [response]).service.ingest false rest).result,
        ((s.ingest false [response]).service.ingest false rest).service,
        (s.ingest false [response]).published ++
          ((s.ingest false [response]).service.ingest false rest).published⟩ := by
  obtain ⟨changes, hingest⟩ := CacheTarget.ingest_of_accept? h
  have hnil : after.ingest [] = (.ok (), ⟨after, [], []⟩) := rfl
  simp only [ingest, Bool.false_eq_true, if_false, hingest, hnil, publish, List.append_nil,
    List.filter_append, List.map_map, List.foldl_append]
  rfl

/-- The loop ingests what it takes. -/
theorem intake_eq_ingest (s : Service) (looks : List Look) :
    s.intake looks =
      ⟨match (s.ingest false (Look.taken looks)).result with
        | .error e => some (.error e)
        | .ok () => if Look.stops looks then some (.ok ()) else none,
        (s.ingest false (Look.taken looks)).service,
        (s.ingest false (Look.taken looks)).published⟩ := by
  induction looks generalizing s with
  | nil =>
    rw [Look.taken, ingest_nil]
    rfl
  | cons look rest ih =>
    rw [intake, Look.taken, Look.stops, List.any_cons, ← Look.stops]
    cases htaken : look.taken? with
    | none =>
      simp only [ingest_nil]
      rfl
    | some response =>
      simp only
      rcases s.target.accept?_or_fault? response with ⟨⟨after, hafter⟩, -⟩ | ⟨-, e, he⟩
      · rw [result_of_accept? hafter, ingest_cons_of_accept? hafter (Look.taken rest), ih]
        simp
      · rw [ingest_cons_of_fault? he (Look.taken rest), result_of_fault? he]

/-- To ingest responses is the loop whose channel is closed after them. -/
theorem ingest_eq_intake (s : Service) (cancelled : Bool) (responses : List Response) :
    s.intake (responses.map (⟨cancelled, some ·⟩) ++ [⟨cancelled, none⟩]) =
      (s.ingest cancelled responses).map some := by
  have hstops : Look.stops (responses.map (⟨cancelled, some ·⟩) ++ [⟨cancelled, none⟩]) = true := by
    cases cancelled <;> simp [Look.stops, Look.taken?]
  rw [intake_eq_ingest, hstops]
  cases cancelled with
  | true =>
    have htaken : Look.taken (responses.map (⟨true, some ·⟩) ++ [⟨true, none⟩]) = [] := by
      cases responses <;> rfl
    rw [htaken, ingest_nil]
    rfl
  | false =>
    have htaken : Look.taken (responses.map (⟨false, some ·⟩) ++ [⟨false, none⟩]) = responses :=
      (Look.taken_waiting_append responses [⟨false, none⟩]).trans (List.append_nil responses)
    rw [htaken, Reply.map]
    cases (s.ingest false responses).result <;> rfl

/-- The cache, the counters and the result after responses are ingested. -/
theorem ingest_spec (s : Service) (responses : List Response) :
    (s.ingest false responses).result = (s.target.ingest responses).1 ∧
      (s.ingest false responses).service.target = (s.target.ingest responses).2.target ∧
      ∀ kind, (s.ingest false responses).service.ingested.count kind =
        s.ingested.count kind + (s.target.ingest responses).2.kinds.count kind :=
  ⟨rfl, rfl, fun kind => Tally.count_foldl_add s.ingested _ kind⟩

/-- What comes after the first bad response does not matter. -/
theorem ingest_append_of_fault? {good : List Response} {bad : Response} {after : CacheTarget}
    {e : IngestError} (hgood : good.foldlM CacheTarget.accept? s.target = some after)
    (hbad : after.fault? bad = some e) (later : List Response) :
    s.ingest false (good ++ bad :: later) = s.ingest false (good ++ [bad]) := by
  induction good generalizing s with
  | nil =>
    cases hgood
    exact ingest_cons_of_fault? hbad later
  | cons response rest ih =>
    obtain ⟨next, hnext, hrest⟩ := Option.bind_eq_some_iff.mp hgood
    obtain ⟨changes, hingest⟩ := CacheTarget.ingest_of_accept? hnext
    have htarget : (s.ingest false [response]).service.target = next := by
      rw [(ingest_spec s [response]).2.1, hingest]
      rfl
    rw [List.cons_append, List.cons_append, ingest_cons_of_accept? hnext (rest ++ bad :: later),
      ingest_cons_of_accept? hnext (rest ++ [bad]), ih (htarget ▸ hrest)]

/-- However ingestion is interrupted, the cache is what the responses before the first bad one make
of it, one after the other, and every response that was taken is counted by its kind. The first bad
response decides the error and is the last one that matters; without one ingestion ends well when
it is cancelled or the channel is closed, and waits until then. To ingest responses at once is to
do so with the channel closed after them. -/
theorem intake_stops_at_first_bad (s : Service) (looks : List Look) :
    ((∃ after, (Look.taken looks).foldlM CacheTarget.accept? s.target = some after ∧
      (s.intake looks).service.target = after ∧
      (s.intake looks).result = (if Look.stops looks then some (.ok ()) else none) ∧
      ∀ kind, (s.intake looks).service.ingested.count kind =
        s.ingested.count kind + ((Look.taken looks).filterMap Response.kind?).count kind) ∨
    ∃ good bad later after e, Look.taken looks = good ++ bad :: later ∧
      good.foldlM CacheTarget.accept? s.target = some after ∧ after.fault? bad = some e ∧
      (s.intake looks).service.target = after ∧
      (s.intake looks).result = some (.error e) ∧
      s.intake looks = s.intake ((good ++ [bad]).map .waiting) ∧
      ∀ kind, (s.intake looks).service.ingested.count kind =
        s.ingested.count kind + ((good ++ [bad]).filterMap Response.kind?).count kind) ∧
    ∀ cancelled responses,
      s.intake (responses.map (⟨cancelled, some ·⟩) ++ [⟨cancelled, none⟩]) =
        (s.ingest cancelled responses).map some := by
  refine ⟨?_, s.ingest_eq_intake⟩
  rw [intake_eq_ingest]
  obtain ⟨hresult, htarget, hcount⟩ := ingest_spec s (Look.taken looks)
  rcases s.target.ingest_cases (Look.taken looks) with ⟨after, hafter, hok, hlast, hkinds⟩ |
    ⟨good, bad, later, after, e, htaken, hgood, hbad, herror, hlast, hkinds⟩
  · refine Or.inl ⟨after, hafter, htarget.trans hlast, ?_, ?_⟩
    · rw [hresult, hok]
    · intro kind
      rw [hcount, hkinds]
  · refine Or.inr ⟨good, bad, later, after, e, htaken, hgood, hbad, htarget.trans hlast, ?_, ?_, ?_⟩
    · rw [hresult, herror]
    · have hsame := ingest_append_of_fault? hgood hbad later
      have hfails : (s.ingest false (good ++ [bad])).result = .error e := by
        rw [← hsame, ← htaken]
        exact hresult.trans herror
      have hwaiting : Look.taken ((good ++ [bad]).map .waiting) = good ++ [bad] := by
        have h := Look.taken_waiting_append (good ++ [bad]) []
        rwa [List.append_nil, Look.taken, List.append_nil] at h
      rw [intake_eq_ingest, hwaiting, htaken, hsame, hfails]
    · intro kind
      rw [hcount, hkinds]

end Ingest

end Service

end Telemetry
