import DependencyDiagram.Generations

/-!
# What the diagram tells about the focal job

`JobDependencyDiagram` shows the graph `buildDependencyGraph` returns for the record on the
page, or the message "This job has no parent or dependent jobs." when the graph has at most
one node. The walks read the focal job's links from its record in the fetched list, not
from the record on the page, and follow a link only to a job of that list.

The message shows exactly when no such link leaves the focal job for another job: a
`parent_job` naming a job outside the fetched list, or naming the focal job itself, shows
it too. On a well-formed collection where no job has the empty name, the arrows join every
node to the focal one, ancestors by a path of arrows down to it and descendants by a path
down from it; without the agreement of `dependent_jobs` with `parent_job`, a descendant may be
drawn with no arrow at all.
-/

namespace DependencyDiagram

open Relation

/-- The memoised graph: `buildDependencyGraph`'s when the focal job's name is in the
collection, and otherwise empty (the code's `allJobs.length === 0` check included). -/
theorem diagramGraph_some (record : Job) (allJobs : List Job) :
    diagramGraph (some record) allJobs =
      if record.name ∈ allJobs.map Job.name then buildDependencyGraph record allJobs
      else ⟨[], []⟩ := by
  split_ifs with hf
  · have hlen : allJobs.length ≠ 0 := fun h => by simp [List.length_eq_zero.mp h] at hf
    simp [diagramGraph, hlen]
  · unfold diagramGraph
    split_ifs
    · rfl
    · exact buildDependencyGraph_of_not_mem allJobs record hf

section Links

variable {R : String → String → Prop} {get : String → Option Job} {f : String}

/-- If every step from `f` leads back to `f`, so does every path. -/
theorem transGen_eq_of_steps_eq (h : ∀ x, R f x → x = f) {x : String} (hx : TransGen R f x) :
    x = f := by
  induction hx with
  | single hl => exact h _ hl
  | tail _ hl ih =>
    subst ih
    exact h _ hl

/-- Only the focal job is related exactly when every link from it leads back to it. -/
theorem related_eq_iff_links_eq :
    (∀ x, Related get f x → x = f) ↔
      ∀ x, Link get parentNames f x ∨ Link get childNames f x → x = f := by
  refine ⟨fun h x hx => h x (hx.elim (fun hx => .inr (.inl (.single hx)))
    fun hx => .inr (.inr (.single hx))), fun h x hx => ?_⟩
  rcases hx with rfl | hx | hx
  · rfl
  · exact transGen_eq_of_steps_eq (fun y hy => h y (.inl hy)) hx
  · exact transGen_eq_of_steps_eq (fun y hy => h y (.inr hy)) hx

/-- A chain of `parent_job` links up from `f` is a path of arrows down to `f`. -/
theorem parent_chain_arrows {x : String} (hup : TransGen (Link get parentNames) f x) :
    TransGen (fun p c => Related get f p ∧ Related get f c ∧ Link get parentNames c p) x f := by
  induction hup with
  | single hl => exact .single ⟨.inr (.inl (.single hl)), .self _ _, hl⟩
  | tail hy hl ih => exact .head ⟨.inr (.inl (hy.tail hl)), .inr (.inl hy), hl⟩ ih

/-- When each `dependent_jobs` link is also a `parent_job` link back, a chain of them down from
`f` is a path of arrows from `f`. -/
theorem child_chain_arrows (hdraw : ∀ a b, Link get childNames a b → Link get parentNames b a)
    {x : String} (hdown : TransGen (Link get childNames) f x) :
    TransGen (fun p c => Related get f p ∧ Related get f c ∧ Link get parentNames c p) f x := by
  induction hdown with
  | single hl => exact .single ⟨.self _ _, .inr (.inr (.single hl)), hdraw _ _ hl⟩
  | tail hy hl ih => exact .tail ih ⟨.inr (.inr hy), .inr (.inr (hy.tail hl)), hdraw _ _ hl⟩

end Links

/-- A list without repeats holding `a` is at most one long exactly when it holds only
`a`. -/
theorem length_le_one_iff_eq {l : List String} {a : String} (hl : l.Nodup) (ha : a ∈ l) :
    l.length ≤ 1 ↔ ∀ x ∈ l, x = a := by
  refine ⟨fun h x hx => ?_, fun h => ?_⟩
  · rcases l with _ | ⟨b, _ | ⟨c, t⟩⟩
    · cases hx
    · rw [List.mem_singleton.mp hx, List.mem_singleton.mp ha]
    · simp only [List.length_cons] at h
      omega
  · simpa using (hl.subperm fun x hx => List.mem_singleton.mpr (h x hx)).length_le

section Build

variable (allJobs : List Job) (currentJob : Job)

/-- With the focal job in the collection, the node ids are the related names, each once. -/
theorem buildDependencyGraph_ids_perm (hf : currentJob.name ∈ allJobs.map Job.name) :
    ∃ rel : List String, rel.Nodup ∧
      (∀ x, x ∈ rel ↔ Related (jobMap allJobs) currentJob.name x) ∧
      ((buildDependencyGraph currentJob allJobs).nodes.map DependencyNode.id).Perm rel := by
  obtain ⟨rel, jl, hrel, hmem, hg⟩ := buildDependencyGraph_layout allJobs currentJob
  have hall : ∀ x ∈ rel, (jobMap allJobs x).isSome :=
    fun x hx => related_isSome_of_mem allJobs currentJob hf ((hmem x).mp hx)
  refine ⟨rel, hrel, hmem, ?_⟩
  rw [hg, layoutGraph_node_ids, List.filter_eq_self.mpr fun p hp => hall _ (mem_placement_rel hp)]
  exact layoutPlacements_jobNames_perm hrel

/-- "This job has no parent or dependent jobs." shows exactly when neither the focal job's
non-empty `parent_job` nor any of its `dependent_jobs`, read from its record in the fetched
list, names another job of that list. -/
theorem no_dependencies_iff_no_links (record : Job) :
    hasNoDependencies (diagramGraph (some record) allJobs) = true ↔
      ∀ x, Link (jobMap allJobs) parentNames record.name x ∨
        Link (jobMap allJobs) childNames record.name x → x = record.name := by
  rw [diagramGraph_some]
  split_ifs with hf
  · obtain ⟨rel, hrel, hmem, hperm⟩ := buildDependencyGraph_ids_perm allJobs record hf
    have hlen : (buildDependencyGraph record allJobs).nodes.length = rel.length := by
      rw [← List.length_map _ DependencyNode.id]
      exact hperm.length_eq
    rw [hasNoDependencies, decide_eq_true_iff, hlen,
      length_le_one_iff_eq hrel ((hmem _).mpr (.self _ _)), ← related_eq_iff_links_eq]
    simp only [hmem]
  · -- without a record under the focal name there is no link, and no node
    refine iff_of_true rfl fun x hx => absurd ?_ hf
    obtain ⟨job, hj, -⟩ | ⟨job, hj, -⟩ := hx <;> exact jobMap_isSome.mp (by simp [hj])

/-- On a well-formed collection where no job has the empty name, a `dependent_jobs` link
is drawn as an arrow: the child's `parent_job` names the listing job, which is truthy. -/
theorem WellFormed.upLink_of_down {allJobs : List Job} (hwf : WellFormed allJobs)
    (hempty : "" ∉ allJobs.map Job.name) {a b : String}
    (h : Link (jobMap allJobs) childNames a b) : Link (jobMap allJobs) parentNames b a := by
  obtain ⟨job, hj, hp, ha⟩ := hwf.parentLink_of_down h
  have hne : a ≠ "" := fun h' => hempty (h' ▸ jobMap_isSome.mp ha)
  exact ⟨job, hj, mem_parentNames.mpr ⟨hp, hne⟩, ha⟩

/-- On a well-formed collection where no job has the empty name, the arrows join every
node to the focal one in the direction of execution: every node is the focal job, an
ancestor or a descendant; an ancestor has a path of arrows down to the focal node, and a
descendant a path of arrows down from it. -/
theorem arrows_join_nodes_to_focal (hwf : WellFormed allJobs)
    (hempty : "" ∉ allJobs.map Job.name) (record : Job) :
    ∀ n ∈ (diagramGraph (some record) allJobs).nodes,
      Related (jobMap allJobs) record.name n.id ∧
      (TransGen (Link (jobMap allJobs) parentNames) record.name n.id →
        TransGen (EdgeRel (diagramGraph (some record) allJobs)) n.id record.name) ∧
      (TransGen (Link (jobMap allJobs) childNames) record.name n.id →
        TransGen (EdgeRel (diagramGraph (some record) allJobs)) record.name n.id) := by
  rw [diagramGraph_some]
  split_ifs with hf
  swap
  · exact fun n hn => absurd hn (List.not_mem_nil n)
  obtain ⟨rel, -, hmem, hperm⟩ := buildDependencyGraph_ids_perm allJobs record hf
  rw [edgeRel_eq_parent_links]
  exact fun n hn => ⟨(hmem _).mp (hperm.subset (List.mem_map_of_mem _ hn)), parent_chain_arrows,
    child_chain_arrows fun _ _ => hwf.upLink_of_down hempty⟩

theorem family_arrows_join_nodes :
    WellFormed familyJobs ∧ "" ∉ familyJobs.map Job.name ∧
      ∀ n ∈ (diagramGraph (some familyMid) familyJobs).nodes,
        Related (jobMap familyJobs) "P" n.id ∧
        (TransGen (Link (jobMap familyJobs) parentNames) "P" n.id →
          TransGen (EdgeRel (diagramGraph (some familyMid) familyJobs)) n.id "P") ∧
        (TransGen (Link (jobMap familyJobs) childNames) "P" n.id →
          TransGen (EdgeRel (diagramGraph (some familyMid) familyJobs)) "P" n.id) :=
  ⟨familyJobs_wellFormed, by decide,
    arrows_join_nodes_to_focal familyJobs familyJobs_wellFormed (by decide) familyMid⟩

end Build

end DependencyDiagram
