import DependencyDiagram.Expansion
import DependencyDiagram.Rows

/-!
# Related jobs

A job is related to the focal one when it is the focal job, or is reached from it by one
link or more up (a truthy `parent_job` naming a job of the index) or by one link or more
down (a `dependent_jobs` entry naming a job of the index). From a fresh `processed` set a
walk finds every name linked from its start, so `relatedJobs` is exactly the set of
related names, on any links, cyclic or inconsistent ones included.
-/

namespace DependencyDiagram

open Relation

/-- `x` is related to the focal job `f`. -/
def Related (get : String → Option Job) (f x : String) : Prop :=
  x = f ∨ TransGen (Link get parentNames) f x ∨ TransGen (Link get childNames) f x

theorem Related.self (get : String → Option Job) (f : String) : Related get f f := .inl rfl

/-- Every related name but the focal one has a record. -/
theorem Related.isSome {get : String → Option Job} {f x : String} (h : Related get f x)
    (hx : x ≠ f) : (get x).isSome := by
  rcases h with h | h | h
  · exact absurd h hx
  all_goals
    obtain ⟨m, -, hm⟩ := TransGen.tail'_iff.mp h
    exact hm.target_isSome

/-- Without a record for the focal job nothing else is related. -/
theorem Related.eq_of_get_none {get : String → Option Job} {f x : String}
    (hf : get f = none) (h : Related get f x) : x = f := by
  rcases h with h | h | h
  · exact h
  all_goals
    obtain ⟨m, hm, -⟩ := TransGen.head'_iff.mp h
    simpa [hf] using hm.source_isSome

variable {get : String → Option Job} {next : Job → List String} {step : Int}

/-- A walk from a fresh `processed` set finds every name linked from its start. -/
theorem walk_complete {fuel : Nat} {n : String} {l : Int} {jl : String → Option Int}
    {r : List String × Walk} (h : walk get next step fuel n l ⟨[], jl⟩ = some r) {x : String}
    (hx : ReflTransGen (Link get next) n x) : x = n ∨ x ∈ r.1 := by
  have he := walk_expands h
  have hmem : x ∈ r.2.processed := by
    induction hx with
    | refl => exact he.mem
    | tail _ hl ih => exact he.closed _ ih (List.not_mem_nil _) _ hl
  exact he.fresh x hmem (List.not_mem_nil _)

/-- A name linked from a start that is on no cycle is pushed. -/
theorem walk_found_of_transGen {fuel : Nat} {n : String} {l : Int} {jl : String → Option Int}
    {r : List String × Walk} (h : walk get next step fuel n l ⟨[], jl⟩ = some r) {x : String}
    (hx : TransGen (Link get next) n x) (hn : ¬ TransGen (Link get next) n n) : x ∈ r.1 :=
  (walk_complete h hx.to_reflTransGen).resolve_left fun h => hn (by rwa [h] at hx)

theorem walk_found_iff {fuel : Nat} {n : String} {l : Int} {jl : String → Option Int}
    {r : List String × Walk} (h : walk get next step fuel n l ⟨[], jl⟩ = some r) (x : String) :
    x = n ∨ x ∈ r.1 ↔ x = n ∨ TransGen (Link get next) n x := by
  refine ⟨Or.imp_right (walk_found_transGen h), ?_⟩
  rintro (rfl | hx)
  · exact .inl rfl
  · exact walk_complete h hx.to_reflTransGen

/-- The names of `new Set([currentJob.name, ...ancestors, ...descendants])` are the related
ones. -/
theorem mem_relatedJobs {fuel fuel' : Nat} {f : String} {jl jl' : String → Option Int}
    {as ds : List String} {wa wd : Walk}
    (ha : findAncestors get fuel f 0 ⟨[], jl⟩ = some (as, wa))
    (hd : findDescendants get fuel' f 0 ⟨[], jl'⟩ = some (ds, wd)) (x : String) :
    x ∈ insertAll [] (f :: (as ++ ds)) ↔ Related get f x := by
  have hA := walk_found_iff ha x
  have hD := walk_found_iff hd x
  simp only at hA hD
  simp only [mem_insertAll, List.not_mem_nil, false_or, List.mem_cons, List.mem_append, Related]
  constructor
  · rintro (h | h | h)
    · exact .inl h
    · exact (hA.mp (.inr h)).imp id .inl
    · exact (hD.mp (.inr h)).imp id .inr
  · rintro (h | h | h)
    · exact .inl h
    · exact (hA.mpr (.inr h)).imp id .inl
    · exact (hD.mpr (.inr h)).imp id .inr

theorem nodup_relatedJobs (f : String) (as ds : List String) :
    (insertAll [] (f :: (as ++ ds))).Nodup :=
  nodup_insertAll List.nodup_nil

/-- `buildDependencyGraph` through its two walks: the fuel it gives them is never
exhausted. -/
theorem buildDependencyGraph_eq (currentJob : Job) (allJobs : List Job) :
    ∃ ancestors wa descendants wd,
      findAncestors (jobMap allJobs) (allJobs.length + 1) currentJob.name 0
        ⟨[], fun k => if k = currentJob.name then some 0 else none⟩ = some (ancestors, wa) ∧
      findDescendants (jobMap allJobs) (allJobs.length + 1) currentJob.name 0
        ⟨[], wa.jobLevels⟩ = some (descendants, wd) ∧
      buildDependencyGraph currentJob allJobs = layoutGraph (jobMap allJobs) currentJob.name
        (insertAll [] (currentJob.name :: (ancestors ++ descendants))) wd.jobLevels := by
  set keys := (allJobs.map Job.name).toFinset
  have hkeys : ∀ x, (jobMap allJobs x).isSome → x ∈ keys := fun x hx => by
    simpa [keys] using jobMap_isSome.mp hx
  have hcard : ∀ jl, unvisited keys ⟨[], jl⟩ < allJobs.length + 1 := fun _ => by
    simpa [unvisited, keys] using Nat.lt_succ_of_le ((List.toFinset_card_le _).trans
      (List.length_map allJobs Job.name).le)
  obtain ⟨⟨as, wa⟩, ha⟩ := @walk_isSome _ parentNames (-1) keys hkeys _ currentJob.name 0 _
    (hcard _)
  obtain ⟨⟨ds, wd⟩, hd⟩ := @walk_isSome _ childNames 1 keys hkeys _ currentJob.name 0 _
    (hcard wa.jobLevels)
  refine ⟨as, wa, ds, wd, ha, hd, ?_⟩
  simp [buildDependencyGraph, runWalks, findAncestors, findDescendants, ha, hd]

end DependencyDiagram
