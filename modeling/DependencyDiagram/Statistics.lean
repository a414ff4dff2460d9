import DependencyDiagram.Fetch

/-!
# `ExecutionStatsChart`

The dashboard's chart fetches `/stats?days=30` on mount, the way the dependency diagram
fetches the jobs (`Fetch`). Each day's `success_count` and `failed_count` become a point
with their sum as `total`, and the subheader interpolates the sums of the counts over the
days. The counts and their sums are JavaScript numbers, IEEE binary64 like Lean's `Float`:
past 2^53 the sums round, so nothing below is stated of them in exact arithmetic.

Unlike the diagram's card, the chart returns early: while `loading` it shows only the
spinner, and the error only once loading is over. During a new request after a failure the
chart shows the spinner alone, where the diagram's card shows the old error beside it.
`toLocaleDateString` depends on the browser's locale, so the date formatter is a parameter;
the subheader is kept as the numbers it interpolates, without JavaScript's number format.
-/

namespace DependencyDiagram

/-- A day of the response: `date`, `success_count` and `failed_count`. -/
structure ExecutionStat where
  date : String
  successCount : Float
  failedCount : Float
deriving Repr

/-- A point of the chart. -/
structure ChartDataPoint where
  date : String
  dateFormatted : String
  success : Float
  failed : Float
  total : Float
deriving Repr

/-- The point of a day, with `total: stat.success_count + stat.failed_count`. -/
def chartPoint (dateFormatter : String → String) (stat : ExecutionStat) : ChartDataPoint :=
  ⟨stat.date, dateFormatter stat.date, stat.successCount, stat.failedCount,
    stat.successCount + stat.failedCount⟩

/-- `fetchStats`: the answer's `stats` become the chart's points, and a failure sets
"Failed to load statistics". -/
def fetchStats (dateFormatter : String → String) :
    FetchState (List ChartDataPoint) → FetchEvent (List ExecutionStat) →
      FetchState (List ChartDataPoint) :=
  fetchStep (List.map (chartPoint dateFormatter)) "Failed to load statistics"

/-- `data.reduce((sum, d) => sum + field(d), 0)`. -/
def sumOf (field : ChartDataPoint → Float) (data : List ChartDataPoint) : Float :=
  data.foldl (fun sum d => sum + field d) 0

/-- `totalSuccess`. -/
def totalSuccess (data : List ChartDataPoint) : Float := sumOf ChartDataPoint.success data

/-- `totalFailed`. -/
def totalFailed (data : List ChartDataPoint) : Float := sumOf ChartDataPoint.failed data

/-- The numbers the subheader `Total: N executions (S successful, F failed)` interpolates. -/
structure StatsSubheader where
  total : Float
  successful : Float
  failed : Float
deriving Repr

/-- `totalSuccess + totalFailed`, `totalSuccess` and `totalFailed`. -/
def statsSubheader (data : List ChartDataPoint) : StatsSubheader :=
  ⟨totalSuccess data + totalFailed data, totalSuccess data, totalFailed data⟩

/-- What the chart's card shows under its title. -/
inductive StatsPanel where
  | spinner
  | errorText (message : String)
  | chart (subheader : StatsSubheader) (data : List ChartDataPoint)
deriving Repr

/-- `ExecutionStatsChart`: `if (loading) return …`, then `if (error) return …`, then the
chart. -/
def executionStatsChart (s : FetchState (List ChartDataPoint)) : StatsPanel :=
  if s.loading then .spinner
  else
    match truthy s.error with
    | some e => .errorText e
    | none => .chart (statsSubheader s.data) s.data

theorem statsMessage_ne : "Failed to load statistics" ≠ "" := by decide

/-- What the chart's card shows after any sequence of requests, answers and failures is
decided by the last event alone: the chart of the last answer's days, the error after a
failure, and otherwise the spinner, without the error of an earlier failure. -/
theorem stats_card_follows_last_event (dateFormatter : String → String)
    (events : List (FetchEvent (List ExecutionStat))) :
    executionStatsChart (events.foldl (fetchStats dateFormatter) (.initial [])) =
      match events.getLast? with
      | some (.answer stats) =>
        .chart (statsSubheader (stats.map (chartPoint dateFormatter)))
          (stats.map (chartPoint dateFormatter))
      | some .failure => .errorText "Failed to load statistics"
      | _ => .spinner := by
  rcases h : events.getLast? with _ | e
  · rw [List.getLast?_eq_none_iff.mp h]
    rfl
  · obtain ⟨init, rfl⟩ := List.getLast?_eq_some_iff.mp h
    cases e <;>
      simp [fetchStats, fetchStep, executionStatsChart, truthy_some_of_ne statsMessage_ne]

end DependencyDiagram
