import Mathlib.Data.List.Nodup
import DependencyDiagram.Paths

/-!
# Jobs and the name index

`Job` keeps the fields of the TypeScript `Job` interface that `buildDependencyGraph`
reads; `id` is not read and is left out. Optional fields are `Option`, and the
JavaScript truthiness of an optional string is `truthy`: `undefined` and `""` are both
falsy, so an empty `parent_job` is no parent to the code.

The name index is `new Map(allJobs.map((j) => [j.name, j]))`, in which a later record
replaces an earlier one of the same name. The walks read it through `get` only, and
follow a `Link` from a job to the names its record lists when a job of that name exists.
-/

namespace DependencyDiagram

structure Job where
  name : String
  displayname : Option String := none
  parentJob : Option String := none
  dependentJobs : Option (List String) := none
  status : Option String := none
deriving DecidableEq, Repr

/-- JavaScript truthiness of an optional string. -/
def truthy (s : Option String) : Option String := s.filter (· != "")

@[simp] theorem truthy_eq_some {s : Option String} {p : String} :
    truthy s = some p ↔ s = some p ∧ p ≠ "" := by
  cases s with
  | none => simp [truthy]
  | some v =>
    by_cases hv : v = ""
    · subst hv
      simpa [truthy, Option.filter] using Eq.symm
    · simp only [truthy, Option.filter, bne_iff_ne, ne_eq, hv, not_false_eq_true,
        if_true, Option.some.injEq]
      exact ⟨fun h => ⟨h, h ▸ hv⟩, And.left⟩

@[simp] theorem truthy_none : truthy none = none := rfl

theorem truthy_some_of_ne {p : String} (hp : p ≠ "") : truthy (some p) = some p :=
  truthy_eq_some.mpr ⟨rfl, hp⟩

/-- The names `findAncestors` follows from a job: `job.parent_job` when truthy. -/
def parentNames (job : Job) : List String := (truthy job.parentJob).toList

/-- The names `findDescendants` follows from a job: `job.dependent_jobs || []`. -/
def childNames (job : Job) : List String := job.dependentJobs.getD []

@[simp] theorem mem_parentNames {job : Job} {p : String} :
    p ∈ parentNames job ↔ job.parentJob = some p ∧ p ≠ "" := by
  simp [parentNames, Option.mem_toList]

/-- The lookup of `new Map(entries)`, or of a map filled by `set` in the order of
`entries`: a later entry for a key replaces an earlier one. -/
def mapOfEntries {β : Type} (entries : List (String × β)) : String → Option β :=
  entries.foldl (fun m e k => if k = e.1 then some e.2 else m k) fun _ => none

section MapOfEntries

variable {β : Type} {entries : List (String × β)} {k : String} {v : β}

theorem mapOfEntries_eq_find (entries : List (String × β)) (k : String) :
    mapOfEntries entries k = (entries.reverse.find? (·.1 == k)).map Prod.snd := by
  suffices ∀ m : String → Option β, entries.foldl (fun m e k => if k = e.1 then some e.2
      else m k) m k = ((entries.reverse.find? (·.1 == k)).map Prod.snd).or (m k) by
    simpa using this fun _ => none
  induction entries with
  | nil => simp
  | cons e es ih =>
    intro m
    rw [List.foldl_cons, ih, List.reverse_cons, List.find?_append]
    by_cases hk : k = e.1
    · cases es.reverse.find? (·.1 == k) <;> simp [hk]
    · have : (e.1 == k) = false := by simpa using Ne.symm hk
      cases es.reverse.find? (·.1 == k) <;> simp [hk, this]

theorem mapOfEntries_eq_some (h : mapOfEntries entries k = some v) : (k, v) ∈ entries := by
  rw [mapOfEntries_eq_find] at h
  obtain ⟨e, he, rfl⟩ := Option.map_eq_some'.mp h
  have hk : e.1 = k := by simpa using List.find?_some he
  rw [← hk]
  exact List.mem_reverse.mp (List.mem_of_find?_eq_some he)

theorem mapOfEntries_isSome : (mapOfEntries entries k).isSome ↔ k ∈ entries.map Prod.fst := by
  simp [mapOfEntries_eq_find, List.find?_isSome]

theorem mapOfEntries_of_mem (hd : (entries.map Prod.fst).Nodup) (h : (k, v) ∈ entries) :
    mapOfEntries entries k = some v := by
  obtain ⟨v', hv'⟩ := Option.isSome_iff_exists.mp
    (mapOfEntries_isSome.mpr (List.mem_map_of_mem Prod.fst h))
  rw [hv', (Prod.mk.inj (List.inj_on_of_nodup_map hd (mapOfEntries_eq_some hv') h rfl)).2]

end MapOfEntries

/-- The lookup of `new Map(allJobs.map((j) => [j.name, j]))`. -/
def jobMap (allJobs : List Job) : String → Option Job :=
  mapOfEntries (allJobs.map fun j => (j.name, j))

theorem jobMap_eq_some {allJobs : List Job} {k : String} {j : Job}
    (h : jobMap allJobs k = some j) : j ∈ allJobs ∧ j.name = k := by
  obtain ⟨j', hj', he⟩ := List.mem_map.mp (mapOfEntries_eq_some h)
  cases he
  exact ⟨hj', rfl⟩

theorem jobMap_isSome {allJobs : List Job} {k : String} :
    (jobMap allJobs k).isSome ↔ k ∈ allJobs.map Job.name := by
  simp [jobMap, mapOfEntries_isSome]

theorem jobMap_of_mem {allJobs : List Job} (hd : (allJobs.map Job.name).Nodup) {j : Job}
    (hj : j ∈ allJobs) : jobMap allJobs j.name = some j :=
  mapOfEntries_of_mem (by simpa [Function.comp_def] using hd)
    (List.mem_map_of_mem (fun j => (j.name, j)) hj)

/-- `a` links to `b`: `b` is among the names `next` reads from the record of `a`, and a
job named `b` exists. -/
def Link (get : String → Option Job) (next : Job → List String) (a b : String) : Prop :=
  ∃ job, get a = some job ∧ b ∈ next job ∧ (get b).isSome

/-- A `parent_job` link through jobs of the collection, whatever its value, the empty
name included. -/
def ParentLink (get : String → Option Job) (a b : String) : Prop :=
  ∃ job, get a = some job ∧ job.parentJob = some b ∧ (get b).isSome

theorem Link.target_isSome {get : String → Option Job} {next : Job → List String}
    {a b : String} (h : Link get next a b) : (get b).isSome := by
  obtain ⟨_, -, -, h⟩ := h
  exact h

theorem Link.source_isSome {get : String → Option Job} {next : Job → List String}
    {a b : String} (h : Link get next a b) : (get a).isSome := by
  obtain ⟨_, h, -⟩ := h
  simp [h]

/-- The parent links the code follows are parent links. -/
theorem Link.parentLink {get : String → Option Job} {a b : String}
    (h : Link get parentNames a b) : ParentLink get a b := by
  obtain ⟨job, hj, hb, hs⟩ := h
  exact ⟨job, hj, (mem_parentNames.mp hb).1, hs⟩

theorem parentLink_oneSuccessor (get : String → Option Job) :
    OneSuccessor (ParentLink get) := by
  rintro a b c ⟨j, hj, hb, -⟩ ⟨j', hj', hc, -⟩
  rw [hj] at hj'
  cases hj'
  exact Option.some.inj (hb.symm.trans hc)

theorem ancestorLink_oneSuccessor (get : String → Option Job) :
    OneSuccessor (Link get parentNames) :=
  fun a b c hb hc => parentLink_oneSuccessor get a b c hb.parentLink hc.parentLink

end DependencyDiagram
