import Mathlib.Data.List.Sort
import DependencyDiagram.Walk

/-!
# Layout and edges of `buildDependencyGraph`

After the walks, `relatedJobs = new Set([currentJob.name, ...ancestors, ...descendants])`
is grouped by level into `levelGroups`, the levels are sorted, and a second pass over the
sorted levels places each row centred under the widest one. A node is pushed only when
the job's record exists (`if (job)`), while `nodePositions` is set for every related
name. Edges go from a truthy `parent_job` that is itself related, to the job.

Coordinates are `Int`: every value the code computes is an integer, and the one division,
`(maxWidth - levelWidth) / 2`, divides a multiple of `NODE_WIDTH + NODE_SPACING`. The
second loop is kept as the list of its iterations (`placements`); its two effects, the
`nodes.push` and the `nodePositions.set`, read nothing the other writes.
-/

namespace DependencyDiagram

def nodeWidth : Int := 160
def nodeHeight : Int := 60
def levelHeight : Int := 100
def nodeSpacing : Int := 20

structure DependencyNode where
  id : String
  name : String
  displayName : String
  status : String
  x : Int
  y : Int
  level : Int
  isCurrent : Bool
deriving DecidableEq, Repr

structure DependencyEdge where
  «from» : String
  «to» : String
  fromX : Int
  fromY : Int
  toX : Int
  toY : Int
deriving DecidableEq, Repr

structure Graph where
  nodes : List DependencyNode
  edges : List DependencyEdge
deriving DecidableEq, Repr

/-- `new Set(names)`: each name keeps the place of its first insertion. -/
def insertAll (s : List String) : List String → List String
  | [] => s
  | x :: xs => insertAll (if x ∈ s then s else s ++ [x]) xs

/-- `jobLevels.get(jobName) || 0`. -/
def levelOf (jobLevels : String → Option Int) (jobName : String) : Int :=
  (jobLevels jobName).getD 0

/-- `levelGroups.get(level)!.push(jobName)`, the bucket created at the end when missing. -/
def pushToGroup (groups : List (Int × List String)) (level : Int) (jobName : String) :
    List (Int × List String) :=
  if groups.any (·.1 == level) then
    groups.map fun g => (g.1, if g.1 = level then g.2 ++ [jobName] else g.2)
  else groups ++ [(level, [jobName])]

/-- `levelGroups`, as its entries in insertion order. -/
def levelGroups (jobLevels : String → Option Int) (relatedJobs : List String) :
    List (Int × List String) :=
  relatedJobs.foldl (fun groups jobName => pushToGroup groups (levelOf jobLevels jobName) jobName) []

/-- `levelGroups.get(level) || []`. -/
def jobsAtLevel (groups : List (Int × List String)) (level : Int) : List String :=
  (groups.lookup level).getD []

/-- `Array.from(levelGroups.keys()).sort((a, b) => a - b)`. -/
def sortedLevels (groups : List (Int × List String)) : List Int :=
  (groups.map Prod.fst).insertionSort (· ≤ ·)

/-- `sortedLevels[0] || 0`. -/
def minLevel (sorted : List Int) : Int := sorted.head?.getD 0

/-- `jobsAtLevel.length * (NODE_WIDTH + NODE_SPACING) - NODE_SPACING`. -/
def levelWidth (count : Nat) : Int := count * (nodeWidth + nodeSpacing) - nodeSpacing

/-- The first pass over the sorted levels: `maxWidth = Math.max(maxWidth, levelWidth)`. -/
def maxWidth (groups : List (Int × List String)) (sorted : List Int) : Int :=
  sorted.foldl (fun m level => max m (levelWidth (jobsAtLevel groups level).length)) 0

/-- `(maxWidth - levelWidth) / 2`, where the row of `level` starts. -/
def startX (groups : List (Int × List String)) (sorted : List Int) (level : Int) : Int :=
  (maxWidth groups sorted - levelWidth (jobsAtLevel groups level).length) / 2

/-- `(level - minLevel) * LEVEL_HEIGHT + 30`. -/
def rowY (sorted : List Int) (level : Int) : Int := (level - minLevel sorted) * levelHeight + 30

/-- One iteration of the second pass: `jobName` placed at `(x, y)` with its shown level. -/
structure Placement where
  jobName : String
  x : Int
  y : Int
  level : Int

/-- The iterations of the second pass over the sorted levels and of its inner
`jobsAtLevel.forEach((jobName, index) => ...)`, in order. -/
def placements (groups : List (Int × List String)) (sorted : List Int) : List Placement :=
  sorted.flatMap fun level =>
    (jobsAtLevel groups level).enum.map fun (index, jobName) =>
      ⟨jobName, startX groups sorted level + index * (nodeWidth + nodeSpacing),
        rowY sorted level, level - minLevel sorted⟩

/-- The `nodes.push` of an iteration, made only when the job's record exists. -/
def nodeOf (get : String → Option Job) (currentName : String) (p : Placement) :
    Option DependencyNode :=
  (get p.jobName).map fun job =>
    { id := p.jobName, name := p.jobName,
      displayName := (truthy job.displayname).getD p.jobName,
      status := (truthy job.status).getD "untriggered",
      x := p.x, y := p.y, level := p.level, isCurrent := p.jobName == currentName }

/-- `nodePositions` after the second pass, set at each iteration. -/
def nodePositions (ps : List Placement) : String → Option (Int × Int) :=
  mapOfEntries (ps.map fun p => (p.jobName, (p.x, p.y)))

/-- The edge the last loop pushes for `jobName`, if any. -/
def edgeOf (get : String → Option Job) (relatedJobs : List String)
    (pos : String → Option (Int × Int)) (jobName : String) : Option DependencyEdge :=
  match get jobName with
  | none => none
  | some job =>
    match truthy job.parentJob with
    | none => none
    | some p =>
      if p ∈ relatedJobs then
        match pos p, pos jobName with
        | some (fromX, fromY), some (toX, toY) => some ⟨p, jobName, fromX, fromY, toX, toY⟩
        | _, _ => none
      else none

/-- The placements of the related names, grouped by level and rows sorted. -/
def layoutPlacements (jobLevels : String → Option Int) (relatedJobs : List String) :
    List Placement :=
  let groups := levelGroups jobLevels relatedJobs
  placements groups (sortedLevels groups)

/-- Everything `buildDependencyGraph` does after the walks. -/
def layoutGraph (get : String → Option Job) (currentName : String)
    (relatedJobs : List String) (jobLevels : String → Option Int) : Graph :=
  let ps := layoutPlacements jobLevels relatedJobs
  { nodes := ps.filterMap (nodeOf get currentName),
    edges := relatedJobs.filterMap (edgeOf get relatedJobs (nodePositions ps)) }

/-- The two walks: ancestors from `jobLevels = {currentJob.name: 0}`, then descendants on the
levels the first walk left, each with a fresh `processed` set. -/
def runWalks (get : String → Option Job) (fuel : Nat) (currentName : String) :
    Option (List String × List String × (String → Option Int)) := do
  let (ancestors, wa) ← findAncestors get fuel currentName 0
    ⟨[], fun k => if k = currentName then some 0 else none⟩
  let (descendants, wd) ← findDescendants get fuel currentName 0 ⟨[], wa.jobLevels⟩
  pure (ancestors, descendants, wd.jobLevels)

def buildDependencyGraph (currentJob : Job) (allJobs : List Job) : Graph :=
  match runWalks (jobMap allJobs) (allJobs.length + 1) currentJob.name with
  | some (ancestors, descendants, jobLevels) =>
    layoutGraph (jobMap allJobs) currentJob.name
      (insertAll [] (currentJob.name :: (ancestors ++ descendants))) jobLevels
  | none => ⟨[], []⟩

/-- The memoised `{ nodes, edges }` of `JobDependencyDiagram`. -/
def diagramGraph (record : Option Job) (allJobs : List Job) : Graph :=
  match record with
  | some r => if allJobs.length = 0 then ⟨[], []⟩ else buildDependencyGraph r allJobs
  | none => ⟨[], []⟩

/-- `nodes.length <= 1`: once loading ends without error, the component then shows
"This job has no parent or dependent jobs." -/
def hasNoDependencies (g : Graph) : Bool := decide (g.nodes.length ≤ 1)

/-- `DiagramEdge`: the curve runs from the bottom centre of the `from` box to the top
centre of the `to` box. -/
def diagramEdgeEnds (e : DependencyEdge) : (Int × Int) × (Int × Int) :=
  ((e.fromX + nodeWidth / 2, e.fromY + nodeHeight), (e.toX + nodeWidth / 2, e.toY))

end DependencyDiagram
