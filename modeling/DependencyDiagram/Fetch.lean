import DependencyDiagram.Job

/-!
# Fetching on mount

`JobDependencyDiagram` and `ExecutionStatsChart` load their data the same way. An effect
calls an async function that sets `loading` and sends the request. On an answer it stores
the data and clears the error; on a failure it sets its error text; in `finally` it clears
`loading`. Nothing cancels a request when the effect runs again, so several requests may be
in flight and their answers arrive in any order. Each event is one step: React batches the
updates made after the `await`.

The state after any sequence of events is read off the sequence. `loading` is set exactly
when the last event is a request, or before any event. The error is set exactly when the
last answer or failure was a failure, so it stays through a new request. The data are those
of the last answer, whichever request it answers.
-/

namespace DependencyDiagram

/-- The events of a fetch: a request sent, an answer with its payload, a failure. -/
inductive FetchEvent (β : Type) where
  | request
  | answer (payload : β)
  | failure
deriving DecidableEq, Repr

namespace FetchEvent

variable {β : Type}

/-- The payload of an answer. -/
def payload? : FetchEvent β → Option β
  | .answer p => some p
  | _ => none

def isRequest : FetchEvent β → Bool
  | .request => true
  | _ => false

def isFailure : FetchEvent β → Bool
  | .failure => true
  | _ => false

end FetchEvent

/-- The state hooks: the fetched data, `loading` and `error`. -/
@[ext]
structure FetchState (α : Type) where
  data : α
  loading : Bool
  error : Option String
deriving DecidableEq, Repr

/-- `useState(empty)`, `useState(true)` and `useState<string | null>(null)`. -/
def FetchState.initial {α : Type} (empty : α) : FetchState α := ⟨empty, true, none⟩

/-- The updates of one event: `setLoading(true)` before the request; the decoded answer,
`setError(null)` and `setLoading(false)` on an answer; `setError(message)` and
`setLoading(false)` on a failure. -/
def fetchStep {α β : Type} (decode : β → α) (message : String) (s : FetchState α) :
    FetchEvent β → FetchState α
  | .request => { s with loading := true }
  | .answer payload => ⟨decode payload, false, none⟩
  | .failure => { s with loading := false, error := some message }

/-- The state after the events, from the initial one. -/
def fetchRun {α β : Type} (decode : β → α) (message : String) (empty : α)
    (events : List (FetchEvent β)) : FetchState α :=
  events.foldl (fetchStep decode message) (.initial empty)

section Spec

variable {α β : Type} (decode : β → α) (message : String) (empty : α)

/-- The payload of the last answer. -/
def lastAnswer (events : List (FetchEvent β)) : Option β :=
  (events.filterMap FetchEvent.payload?).getLast?

/-- Whether the last answer or failure is a failure. -/
def lastOutcomeFailed (events : List (FetchEvent β)) : Bool :=
  (events.filter fun e => !e.isRequest).getLast?.any FetchEvent.isFailure

/-- The state the events should leave, read off them. -/
def expectedState (events : List (FetchEvent β)) : FetchState α where
  data := ((lastAnswer events).map decode).getD empty
  loading := events.getLast?.all FetchEvent.isRequest
  error := if lastOutcomeFailed events then some message else none

@[simp] theorem fetchRun_nil : fetchRun decode message empty [] = .initial empty := rfl

@[simp] theorem fetchRun_append_singleton (events : List (FetchEvent β)) (e : FetchEvent β) :
    fetchRun decode message empty (events ++ [e]) =
      fetchStep decode message (fetchRun decode message empty events) e :=
  List.foldl_append ..

@[simp] theorem lastAnswer_append_singleton (events : List (FetchEvent β)) (e : FetchEvent β) :
    lastAnswer (events ++ [e]) = e.payload?.or (lastAnswer events) := by
  cases e <;> simp [lastAnswer, FetchEvent.payload?]

@[simp] theorem lastOutcomeFailed_append_singleton (events : List (FetchEvent β))
    (e : FetchEvent β) :
    lastOutcomeFailed (events ++ [e]) = if e.isRequest then lastOutcomeFailed events
      else e.isFailure := by
  cases e <;> simp [lastOutcomeFailed, FetchEvent.isRequest, FetchEvent.isFailure]

variable {decode message empty}

theorem fetchRun_data (events : List (FetchEvent β)) :
    (fetchRun decode message empty events).data = ((lastAnswer events).map decode).getD empty := by
  induction events using List.reverseRecOn with
  | nil => rfl
  | append_singleton events e ih => cases e <;> simp [fetchStep, FetchEvent.payload?, ih]

theorem fetchRun_loading (events : List (FetchEvent β)) :
    (fetchRun decode message empty events).loading = events.getLast?.all FetchEvent.isRequest := by
  induction events using List.reverseRecOn with
  | nil => rfl
  | append_singleton events e _ => cases e <;> simp [fetchStep, FetchEvent.isRequest]

theorem fetchRun_error (events : List (FetchEvent β)) :
    (fetchRun decode message empty events).error =
      if lastOutcomeFailed events then some message else none := by
  induction events using List.reverseRecOn with
  | nil => rfl
  | append_singleton events e ih =>
    cases e <;> simp [fetchStep, FetchEvent.isRequest, FetchEvent.isFailure, ih]

/-- The fold the components perform leaves the state read off the events. -/
theorem fetchRun_eq_expected (events : List (FetchEvent β)) :
    fetchRun decode message empty events = expectedState decode message empty events :=
  FetchState.ext (fetchRun_data events) (fetchRun_loading events) (fetchRun_error events)

/-- An answer as the last event leaves its data, with neither `loading` nor an error. -/
theorem fetchRun_of_last_answer {events : List (FetchEvent β)} {p : β}
    (h : events.getLast? = some (.answer p)) :
    fetchRun decode message empty events = ⟨decode p, false, none⟩ := by
  obtain ⟨init, rfl⟩ := List.getLast?_eq_some_iff.mp h
  simp [fetchStep]

/-- With a non-empty error text, the state shows neither the spinner nor the error exactly
when the last event is an answer. -/
theorem fetchRun_settled_iff (hm : message ≠ "") (events : List (FetchEvent β)) :
    (!(fetchRun decode message empty events).loading &&
      (truthy (fetchRun decode message empty events).error).isNone) = true ↔
      ∃ p, events.getLast? = some (.answer p) := by
  rcases h : events.getLast? with _ | e
  · simp [fetchRun_loading, h]
  · obtain ⟨init, rfl⟩ := List.getLast?_eq_some_iff.mp h
    cases e <;> simp [fetchStep, truthy_some_of_ne hm]

end Spec

end DependencyDiagram
