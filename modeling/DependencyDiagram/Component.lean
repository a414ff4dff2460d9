import DependencyDiagram.Drawing
import DependencyDiagram.Fetch

/-!
# The card of `JobDependencyDiagram`

Under its header "Job Dependencies" the card shows a spinner while `loading`, the error text
when `error` is set, and, with neither, either the message "This job has no parent or
dependent jobs." or the svg. The two conditions are checked apart, so a new request after
a failure shows the spinner beside the old error. Without a record the component renders
nothing.

Over any sequence of requests, answers and failures, what the card shows is decided by the
last event. An answer shows the message or the diagram of its jobs, whichever request it
answers. A failure shows the error alone. A request, or no event yet, shows the spinner,
with the error beside it when the last answer or failure was a failure. The legend chips
and the caption under the svg are fixed text and are not modelled.
-/

namespace DependencyDiagram

/-- What the card shows under its header. -/
inductive DiagramPanel where
  | spinner
  | errorText (message : String)
  | noDependencies
  | diagram (canvas : Box) (shapes : List Shape)

/-- `fetchJobs`: `response.data` is the job list, and a failure sets
"Failed to load job dependencies". -/
def fetchJobs : FetchState (List Job) → FetchEvent (List Job) → FetchState (List Job) :=
  fetchStep id "Failed to load job dependencies"

/-- The card for the record on the page: `{loading && …}`, `{error && …}`, then the message
or the svg when `!loading && !error`. -/
def dependencyCard (record : Job) (s : FetchState (List Job)) : List DiagramPanel :=
  let g := diagramGraph (some record) s.data
  let settled := !s.loading && (truthy s.error).isNone
  (if s.loading then [.spinner] else []) ++ ((truthy s.error).map .errorText).toList ++
    (if settled && hasNoDependencies g then [.noDependencies] else []) ++
    if settled && !hasNoDependencies g then [.diagram (diagramCanvas g.nodes) (diagramShapes g)]
    else []

/-- `JobDependencyDiagram`: `return null` without a record. -/
def jobDependencyDiagram (record : Option Job) (s : FetchState (List Job)) :
    Option (List DiagramPanel) :=
  record.map (dependencyCard · s)

theorem jobsMessage_ne : "Failed to load job dependencies" ≠ "" := by decide

theorem foldl_fetchJobs (events : List (FetchEvent (List Job))) :
    events.foldl fetchJobs (.initial []) =
      fetchRun id "Failed to load job dependencies" [] events :=
  rfl

theorem noDependencies_mem_dependencyCard (record : Job) (s : FetchState (List Job)) :
    DiagramPanel.noDependencies ∈ dependencyCard record s ↔
      (!s.loading && (truthy s.error).isNone) = true ∧
        hasNoDependencies (diagramGraph (some record) s.data) = true := by
  simp only [dependencyCard]
  cases s.loading <;> cases truthy s.error <;>
    cases hasNoDependencies (diagramGraph (some record) s.data) <;> simp

/-- "This job has no parent or dependent jobs." shows, after any sequence of requests,
answers and failures, exactly when the last event is an answer whose jobs give the focal job
no link to another job of them. -/
theorem no_dependencies_shown_iff (record : Job) (events : List (FetchEvent (List Job))) :
    DiagramPanel.noDependencies ∈ dependencyCard record (events.foldl fetchJobs (.initial [])) ↔
      ∃ jobs, events.getLast? = some (.answer jobs) ∧
        ∀ x, Link (jobMap jobs) parentNames record.name x ∨
          Link (jobMap jobs) childNames record.name x → x = record.name := by
  rw [foldl_fetchJobs, noDependencies_mem_dependencyCard, fetchRun_settled_iff jobsMessage_ne]
  constructor
  · rintro ⟨⟨jobs, hj⟩, hno⟩
    rw [fetchRun_of_last_answer hj] at hno
    exact ⟨jobs, hj, (no_dependencies_iff_no_links jobs record).mp hno⟩
  · rintro ⟨jobs, hj, hlinks⟩
    refine ⟨⟨jobs, hj⟩, ?_⟩
    rw [fetchRun_of_last_answer hj]
    exact (no_dependencies_iff_no_links jobs record).mpr hlinks

/-- What the card shows after any sequence of requests, answers and failures is decided by
the last event: an answer shows the message or the diagram of its jobs, a failure the error
alone, a request (or no event yet) the spinner, beside the error when the last answer or
failure was a failure. -/
theorem dependency_card_follows_events (record : Job) (events : List (FetchEvent (List Job))) :
    dependencyCard record (events.foldl fetchJobs (.initial [])) =
      match events.getLast? with
      | some (.answer jobs) =>
        if hasNoDependencies (diagramGraph (some record) jobs) then [.noDependencies]
        else [.diagram (diagramCanvas (diagramGraph (some record) jobs).nodes)
          (diagramShapes (diagramGraph (some record) jobs))]
      | some .failure => [.errorText "Failed to load job dependencies"]
      | _ => .spinner :: if lastOutcomeFailed events
          then [.errorText "Failed to load job dependencies"] else [] := by
  rw [foldl_fetchJobs]
  rcases h : events.getLast? with _ | e
  · rw [List.getLast?_eq_none_iff.mp h]
    rfl
  · obtain ⟨init, rfl⟩ := List.getLast?_eq_some_iff.mp h
    cases e with
    | request =>
      simp only [fetchRun_append_singleton, fetchStep, dependencyCard, fetchRun_error,
        lastOutcomeFailed_append_singleton, FetchEvent.isRequest]
      cases lastOutcomeFailed init <;> simp [truthy_some_of_ne jobsMessage_ne]
    | answer jobs =>
      simp only [fetchRun_append_singleton, fetchStep, dependencyCard, id_eq]
      cases hasNoDependencies (diagramGraph (some record) jobs) <;> rfl
    | failure => simp [fetchStep, dependencyCard, truthy_some_of_ne jobsMessage_ne]

end DependencyDiagram
