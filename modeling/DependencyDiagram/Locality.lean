import DependencyDiagram.Graph

/-!
# What `buildDependencyGraph` reads of the collection

The walks read `jobMap` at the names they expand, and through `jobMap.has` at the names
those records link to. The layout and the edge loop read it at related names only. So two
collections whose indexes give the related jobs the same records, and agree on which of the
names those records reference exist, give the same graph, node for node and edge for edge,
whatever the fuel each is given. Reordering a collection of distinct names changes nothing.
-/

namespace DependencyDiagram

open Relation

variable {get get' : String → Option Job} {next : Job → List String} {step : Int}

/-- `get` and `get'` give `x` the same record and agree on which of its linked names
exist. -/
def AgreeAt (get get' : String → Option Job) (next : Job → List String) (x : String) : Prop :=
  get x = get' x ∧ ∀ job, get x = some job → ∀ c ∈ next job, (get c).isSome = (get' c).isSome

section Walks

variable {visit visit' : String → Int → Walk → Option (List String × Walk)}

/-- A loop whose visits only add to `processed` only adds to it. -/
theorem forEachLink_processed_grow
    (hgrow : ∀ c l w r, visit c l w = some r → ∀ x ∈ w.processed, x ∈ r.2.processed)
    {l : Int} {cs : List String} {acc r : List String × Walk}
    (h : forEachLink get visit l cs acc = some r) {x : String} (hx : x ∈ acc.2.processed) :
    x ∈ r.2.processed :=
  forEachLink_induction get (I := fun _ a => x ∈ a.2.processed) hx (fun _ _ _ _ _ ha => ha)
    (fun _ _ _ _ _ _ _ _ ha hv => hgrow _ _ _ _ hv x ha) h

theorem forEachLink_congr {P : String → Prop}
    (hv : ∀ c l w r, visit c l w = some r → (∀ x ∈ r.2.processed, P x) →
      visit' c l w = some r)
    (hgrow : ∀ c l w r, visit c l w = some r → ∀ x ∈ w.processed, x ∈ r.2.processed)
    {l : Int} {cs : List String} (hc : ∀ c ∈ cs, (get c).isSome = (get' c).isSome)
    {acc r : List String × Walk} (h : forEachLink get visit l cs acc = some r)
    (hP : ∀ x ∈ r.2.processed, P x) : forEachLink get' visit' l cs acc = some r := by
  induction cs generalizing acc with
  | nil => exact h
  | cons c cs ih =>
    obtain ⟨found, w⟩ := acc
    have hcs : ∀ c ∈ cs, (get c).isSome = (get' c).isSome :=
      fun c' hc' => hc c' (List.mem_cons_of_mem c hc')
    cases hs : (get c).isSome with
    | false =>
      rw [forEachLink_cons_of_not hs] at h
      rw [forEachLink_cons_of_not ((hc c (List.mem_cons_self c cs)).symm.trans hs)]
      exact ih hcs h
    | true =>
      rw [forEachLink_cons_of_isSome hs] at h
      rw [forEachLink_cons_of_isSome ((hc c (List.mem_cons_self c cs)).symm.trans hs)]
      obtain ⟨r', hr', h⟩ := Option.bind_eq_some.mp h
      rw [hv _ _ _ _ hr' fun x hx => hP x (forEachLink_processed_grow hgrow h hx),
        Option.some_bind]
      exact ih hcs h

/-- A walk gives the same result on an index that agrees with its own at every name it
processes. -/
theorem walk_congr {fuel : Nat} {n : String} {l : Int} {w : Walk} {r : List String × Walk}
    (h : walk get next step fuel n l w = some r)
    (hA : ∀ x ∈ r.2.processed, AgreeAt get get' next x) :
    walk get' next step fuel n l w = some r := by
  induction fuel generalizing n l w r with
  | zero => cases h
  | succ fuel ih =>
    by_cases hn : n ∈ w.processed
    · rwa [walk_of_mem hn] at h ⊢
    have hn' := hA n (walk_expands h).mem
    cases hg : get n with
    | none =>
      rw [walk_of_get_none hn hg] at h
      rwa [walk_of_get_none hn (hn'.1.symm.trans hg)]
    | some job =>
      rw [walk_of_get_some hn hg] at h
      rw [walk_of_get_some hn (hn'.1.symm.trans hg)]
      exact forEachLink_congr (fun _ _ _ _ hv hP => ih hv hP)
        (fun _ _ _ _ hv _ hx => (walk_expands hv).subset hx) (hn'.2 job hg) h hA

/-- From a fresh `processed` set a walk processes its start and names linked from it. -/
theorem walk_processed_linked {fuel : Nat} {n : String} {l : Int} {jl : String → Option Int}
    {r : List String × Walk} (h : walk get next step fuel n l ⟨[], jl⟩ = some r) {x : String}
    (hx : x ∈ r.2.processed) : x = n ∨ TransGen (Link get next) n x :=
  ((walk_expands h).fresh x hx (List.not_mem_nil x)).imp_right (walk_found_transGen h)

end Walks

/-- A layout reads the index at the related names only. -/
theorem layoutGraph_congr {f : String} {rel : List String} {jl : String → Option Int}
    (h : ∀ x ∈ rel, get x = get' x) : layoutGraph get f rel jl = layoutGraph get' f rel jl := by
  simp only [layoutGraph, Graph.mk.injEq]
  refine ⟨List.filterMap_congr fun p hp => ?_, List.filterMap_congr fun c hc => ?_⟩
  · simp only [nodeOf, h _ (mem_placement_rel hp)]
  · simp only [edgeOf, h c hc]

/-- The names a job's record references. -/
theorem parentNames_subset_refs (job : Job) {c : String} (hc : c ∈ parentNames job) :
    c ∈ job.parentJob.toList ++ job.dependentJobs.getD [] :=
  List.mem_append_left _ (by simp [(mem_parentNames.mp hc).1])

/-- Two collections that give the related jobs the same records, and agree on which names
those records reference exist, give the same graph. -/
theorem graph_reads_only_related_jobs (currentJob : Job) (J1 J2 : List Job)
    (hrec : ∀ x, Related (jobMap J1) currentJob.name x → jobMap J1 x = jobMap J2 x)
    (href : ∀ x, Related (jobMap J1) currentJob.name x → ∀ job, jobMap J1 x = some job →
      ∀ c ∈ job.parentJob.toList ++ job.dependentJobs.getD [],
        (jobMap J1 c).isSome = (jobMap J2 c).isSome) :
    buildDependencyGraph currentJob J1 = buildDependencyGraph currentJob J2 := by
  obtain ⟨as, wa, ds, wd, ha, hd, hg⟩ := buildDependencyGraph_eq currentJob J1
  obtain ⟨as', wa', ds', wd', ha', hd', hg'⟩ := buildDependencyGraph_eq currentJob J2
  have hup : findAncestors (jobMap J2) (J1.length + 1) currentJob.name 0
      ⟨[], fun k => if k = currentJob.name then some 0 else none⟩ = some (as, wa) :=
    walk_congr ha fun x hx =>
      have hr := (walk_processed_linked ha hx).imp_right .inl
      ⟨hrec x hr, fun job hj c hc => href x hr job hj c (parentNames_subset_refs job hc)⟩
  obtain ⟨rfl, rfl⟩ := Prod.mk.inj (walk_unique hup ha')
  have hdown : findDescendants (jobMap J2) (J1.length + 1) currentJob.name 0
      ⟨[], wa.jobLevels⟩ = some (ds, wd) :=
    walk_congr hd fun x hx =>
      have hr := (walk_processed_linked hd hx).imp_right .inr
      ⟨hrec x hr, fun job hj c hc => href x hr job hj c (List.mem_append_right _ hc)⟩
  obtain ⟨rfl, rfl⟩ := Prod.mk.inj (walk_unique hdown hd')
  rw [hg, hg']
  exact layoutGraph_congr fun x hx => hrec x ((mem_relatedJobs ha hd x).mp hx)

/-- A root with one dependent job, and the same jobs listed in another order beside a job
that nothing related references. -/
def pairRoot : Job := { name := "A", dependentJobs := some ["B"] }

def pairJobs : List Job := [pairRoot, { name := "B", parentJob := some "A" }]

def pairJobsExtended : List Job :=
  [{ name := "C", parentJob := some "D" }, { name := "B", parentJob := some "A" }, pairRoot]

theorem pair_graph_unchanged_by_unrelated_job :
    buildDependencyGraph pairRoot pairJobs = buildDependencyGraph pairRoot pairJobsExtended :=
  have hnames : ∀ x, Related (jobMap pairJobs) "A" x → x ∈ pairJobs.map Job.name :=
    fun x hx => jobMap_isSome.mp (related_isSome_of_mem pairJobs pairRoot (by decide) hx)
  graph_reads_only_related_jobs pairRoot pairJobs pairJobsExtended
    (fun x hx => (by decide : ∀ x ∈ pairJobs.map Job.name,
      jobMap pairJobs x = jobMap pairJobsExtended x) x (hnames x hx))
    (fun x hx => (by decide : ∀ x ∈ pairJobs.map Job.name, ∀ job ∈ jobMap pairJobs x,
      ∀ c ∈ job.parentJob.toList ++ job.dependentJobs.getD [],
        (jobMap pairJobs c).isSome = (jobMap pairJobsExtended c).isSome) x (hnames x hx))

/-- With distinct names, the index does not depend on the order of the collection. -/
theorem jobMap_perm {J1 J2 : List Job} (hd : (J1.map Job.name).Nodup) (hp : J1.Perm J2) :
    jobMap J1 = jobMap J2 := by
  have hd' : (J2.map Job.name).Nodup := (hp.map Job.name).nodup_iff.mp hd
  funext x
  cases h : jobMap J1 x with
  | some j =>
    obtain ⟨hj, rfl⟩ := jobMap_eq_some h
    exact (jobMap_of_mem hd' (hp.subset hj)).symm
  | none =>
    have hx : x ∉ J1.map Job.name := fun hx => by simpa [h] using jobMap_isSome.mpr hx
    exact (Option.not_isSome_iff_eq_none.mp
      (mt jobMap_isSome.mp fun hx' => hx ((hp.map Job.name).mem_iff.mpr hx'))).symm

/-- With distinct names, the graph does not depend on the order the API lists the jobs in. -/
theorem buildDependencyGraph_perm (currentJob : Job) {J1 J2 : List Job}
    (hd : (J1.map Job.name).Nodup) (hp : J1.Perm J2) :
    buildDependencyGraph currentJob J1 = buildDependencyGraph currentJob J2 := by
  simp only [buildDependencyGraph, jobMap_perm hd hp, hp.length_eq]

theorem pair_graph_unchanged_by_order :
    (pairJobs.map Job.name).Nodup ∧ pairJobs.Perm pairJobs.reverse ∧
      buildDependencyGraph pairRoot pairJobs = buildDependencyGraph pairRoot pairJobs.reverse :=
  ⟨by decide, (List.reverse_perm _).symm,
    buildDependencyGraph_perm pairRoot (by decide) (List.reverse_perm _).symm⟩

end DependencyDiagram
