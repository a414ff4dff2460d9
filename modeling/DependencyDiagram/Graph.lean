import Mathlib.Algebra.Order.Group.Abs
import Mathlib.Algebra.Order.Ring.Int
import DependencyDiagram.Related

/-!
# Nodes and edges of the diagram

Whatever the links, the nodes are the related names that have a record, each once, and
two of them are a box and a gap apart on one row or a level apart between rows. The edges
are the truthy `parent_job` links between related jobs, one into each job at most, drawn
between the positions of the two nodes. Nothing removes a cycle of such links, so the
edges have one exactly when the related jobs' parent links do.

A node is pushed only when the name index has the job, so a focal job missing from the
collection is not drawn at all.
-/

namespace DependencyDiagram

open Relation

/-- `p → c` is an edge of `g`. -/
def EdgeRel (g : Graph) (p c : String) : Prop := ∃ e ∈ g.edges, e.«from» = p ∧ e.«to» = c

section Layout

variable {get : String → Option Job} {f : String} {rel : List String}
variable {jobLevels : String → Option Int}

theorem enum_name_unique {L : List String} {i : Nat} {a b : String} (ha : (i, a) ∈ L.enum)
    (hb : (i, b) ∈ L.enum) : a = b :=
  Option.some.inj ((List.mem_enum_iff_getElem?.mp ha).symm.trans (List.mem_enum_iff_getElem?.mp hb))

/-- Two nodes of one row are a box and a gap apart; nodes of two rows a level apart. -/
theorem layoutGraph_nodes_apart {a b : DependencyNode}
    (ha : a ∈ (layoutGraph get f rel jobLevels).nodes)
    (hb : b ∈ (layoutGraph get f rel jobLevels).nodes) (hab : a.id ≠ b.id) :
    (a.y = b.y ∧ nodeWidth + nodeSpacing ≤ |a.x - b.x|) ∨ levelHeight ≤ |a.y - b.y| := by
  obtain ⟨pa, hpa, hna⟩ := mem_layoutGraph_nodes.mp ha
  obtain ⟨pb, hpb, hnb⟩ := mem_layoutGraph_nodes.mp hb
  obtain ⟨-, ida, xa, ya, -, -⟩ := nodeOf_spec hna
  obtain ⟨-, idb, xb, yb, -, -⟩ := nodeOf_spec hnb
  obtain ⟨ia, hia, hxa, hya, -⟩ := placement_row hpa
  obtain ⟨ib, hib, hxb, hyb, -⟩ := placement_row hpb
  rw [ida, idb] at hab
  rw [xa, xb, ya, yb, hxa, hxb, hya, hyb]
  by_cases hl : levelOf jobLevels pa.jobName = levelOf jobLevels pb.jobName
  · rw [hl] at hia ⊢
    have hne : ia ≠ ib := fun h => hab (enum_name_unique hia (h ▸ hib))
    refine .inl ⟨rfl, ?_⟩
    simp only [nodeWidth, nodeSpacing]
    rw [le_abs]
    omega
  · refine .inr ?_
    simp only [rowY, levelHeight]
    rw [le_abs]
    omega

theorem exists_layout_node (hrel : rel.Nodup) {n : String} (hn : n ∈ rel)
    (hg : (get n).isSome) : ∃ p ∈ layoutPlacements jobLevels rel, p.jobName = n ∧
      ∃ node ∈ (layoutGraph get f rel jobLevels).nodes, nodeOf get f p = some node := by
  obtain ⟨p, hp, rfl⟩ := @exists_placement jobLevels rel hrel _ hn
  obtain ⟨job, hj⟩ := Option.isSome_iff_exists.mp hg
  obtain ⟨node, hnode⟩ : ∃ node, nodeOf get f p = some node := by simp [nodeOf, hj]
  exact ⟨p, hp, rfl, node, mem_layoutGraph_nodes.mpr ⟨p, hp, hnode⟩, hnode⟩

/-- The edges of a layout are the truthy parent links between its names. -/
theorem layoutGraph_edgeRel_iff (hrel : rel.Nodup) {p c : String} :
    EdgeRel (layoutGraph get f rel jobLevels) p c ↔
      c ∈ rel ∧ p ∈ rel ∧ ∃ job, get c = some job ∧ truthy job.parentJob = some p := by
  constructor
  · rintro ⟨e, he, rfl, rfl⟩
    obtain ⟨hc, job, hj, hp, hr, -⟩ := mem_layoutGraph_edges.mp he
    exact ⟨hc, hr, job, hj, hp⟩
  · rintro ⟨hc, hp, job, hj, hpar⟩
    obtain ⟨pp, hpp, rfl⟩ := @exists_placement jobLevels rel hrel _ hp
    obtain ⟨pc, hpc, rfl⟩ := @exists_placement jobLevels rel hrel _ hc
    exact ⟨⟨pp.jobName, pc.jobName, pp.x, pp.y, pc.x, pc.y⟩,
      mem_layoutGraph_edges.mpr ⟨hc, job, hj, hpar, hp, nodePositions_placement hrel hpp,
        nodePositions_placement hrel hpc⟩, rfl, rfl⟩

/-- When every name has a record, an edge joins two nodes, at their positions. -/
theorem layoutGraph_edge_nodes (hrel : rel.Nodup) (hall : ∀ x ∈ rel, (get x).isSome)
    {e : DependencyEdge} (he : e ∈ (layoutGraph get f rel jobLevels).edges) :
    ∃ np ∈ (layoutGraph get f rel jobLevels).nodes,
    ∃ nc ∈ (layoutGraph get f rel jobLevels).nodes,
      np.id = e.«from» ∧ nc.id = e.«to» ∧ e.fromX = np.x ∧ e.fromY = np.y ∧
      e.toX = nc.x ∧ e.toY = nc.y := by
  obtain ⟨hc, -, -, -, hp, hposp, hposc⟩ := mem_layoutGraph_edges.mp he
  obtain ⟨pp, hpp, hpn, np, hnp, hnodep⟩ := @exists_layout_node get f rel jobLevels
    hrel _ hp (hall _ hp)
  obtain ⟨pc, hpc, hcn, nc, hnc, hnodec⟩ := @exists_layout_node get f rel jobLevels
    hrel _ hc (hall _ hc)
  obtain ⟨-, hidp, hxp, hyp, -⟩ := nodeOf_spec hnodep
  obtain ⟨-, hidc, hxc, hyc, -⟩ := nodeOf_spec hnodec
  rw [← hpn, nodePositions_placement hrel hpp] at hposp
  rw [← hcn, nodePositions_placement hrel hpc] at hposc
  simp only [Option.some.injEq, Prod.mk.injEq] at hposp hposc
  exact ⟨np, hnp, nc, hnc, hidp.trans hpn, hidc.trans hcn, by rw [hxp, hposp.1],
    by rw [hyp, hposp.2], by rw [hxc, hposc.1], by rw [hyc, hposc.2]⟩

/-- With every name placed and recorded, the focal one is the only current node. -/
theorem layoutGraph_current (hrel : rel.Nodup) (hall : ∀ x ∈ rel, (get x).isSome)
    (hf : f ∈ rel) :
    ((layoutGraph get f rel jobLevels).nodes.filter DependencyNode.isCurrent).map
      DependencyNode.id = [f] := by
  have hids : (layoutGraph get f rel jobLevels).nodes.map DependencyNode.id =
      (layoutPlacements jobLevels rel).map Placement.jobName := by
    rw [layoutGraph_node_ids, List.filter_eq_self.mpr fun p hp => hall _ (mem_placement_rel hp)]
  have hcur : ∀ n ∈ (layoutGraph get f rel jobLevels).nodes, n.isCurrent = (n.id == f) := by
    intro n hn
    obtain ⟨p, -, hp⟩ := mem_layoutGraph_nodes.mp hn
    obtain ⟨-, hid, -, -, -, hc⟩ := nodeOf_spec hp
    rw [hc, hid]
  have hmem : f ∈ (layoutGraph get f rel jobLevels).nodes.map DependencyNode.id := by
    rw [hids]
    exact (layoutPlacements_jobNames_perm hrel).mem_iff.mpr hf
  rw [List.filter_congr hcur, ← Function.comp_def (· == f) DependencyNode.id,
    ← List.filter_map,
    List.filter_beq, List.count_eq_one_of_mem (layoutGraph_node_ids_nodup hrel) hmem]
  rfl

end Layout

section Build

variable (allJobs : List Job) (currentJob : Job)

/-- `buildDependencyGraph` is the layout of the related names, each once, under the levels
the walks leave. -/
theorem buildDependencyGraph_layout : ∃ rel jobLevels, rel.Nodup ∧
    (∀ x, x ∈ rel ↔ Related (jobMap allJobs) currentJob.name x) ∧
    buildDependencyGraph currentJob allJobs =
      layoutGraph (jobMap allJobs) currentJob.name rel jobLevels := by
  obtain ⟨as, wa, ds, wd, ha, hd, hg⟩ := buildDependencyGraph_eq currentJob allJobs
  exact ⟨_, _, nodup_relatedJobs _ _ _, mem_relatedJobs ha hd, hg⟩

/-- With the focal job in the collection, every related name has a record. -/
theorem related_isSome_of_mem {x : String} (hf : currentJob.name ∈ allJobs.map Job.name)
    (hx : Related (jobMap allJobs) currentJob.name x) : (jobMap allJobs x).isSome := by
  by_cases hxf : x = currentJob.name
  · exact hxf ▸ jobMap_isSome.mpr hf
  · exact hx.isSome hxf

/-- Distinct nodes stand a row apart or, in one row, a node width and spacing apart; their
boxes never overlap. -/
theorem nodes_never_overlap :
    ∀ a ∈ (buildDependencyGraph currentJob allJobs).nodes,
    ∀ b ∈ (buildDependencyGraph currentJob allJobs).nodes, a.id ≠ b.id →
      ((a.y = b.y ∧ nodeWidth + nodeSpacing ≤ |a.x - b.x|) ∨ levelHeight ≤ |a.y - b.y|) ∧
      (nodeWidth ≤ |a.x - b.x| ∨ nodeHeight ≤ |a.y - b.y|) := by
  obtain ⟨rel, jl, -, -, hg⟩ := buildDependencyGraph_layout allJobs currentJob
  rw [hg]
  intro a ha b hb hab
  have h := layoutGraph_nodes_apart ha hb hab
  refine ⟨h, ?_⟩
  simp only [nodeWidth, nodeSpacing, levelHeight, nodeHeight] at h ⊢
  omega

/-- A root listing two children. -/
def branchRoot : Job := { name := "A", dependentJobs := some ["B", "C"] }

def branchJobs : List Job :=
  [branchRoot, { name := "B", parentJob := some "A" }, { name := "C", parentJob := some "A" }]

theorem branch_children_apart :
    ∃ a ∈ (buildDependencyGraph branchRoot branchJobs).nodes,
    ∃ b ∈ (buildDependencyGraph branchRoot branchJobs).nodes, a.id ≠ b.id ∧
      ((a.y = b.y ∧ nodeWidth + nodeSpacing ≤ |a.x - b.x|) ∨ levelHeight ≤ |a.y - b.y|) :=
  ⟨⟨"B", "B", "B", "untriggered", 0, 130, 1, false⟩, by decide,
    ⟨"C", "C", "C", "untriggered", 180, 130, 1, false⟩, by decide, by decide,
    (nodes_never_overlap branchJobs branchRoot _ (by decide) _ (by decide) (by decide)).1⟩

/-- The nodes are the related names, each once; the focal one is the only current node. -/
theorem node_ids_are_related (hf : currentJob.name ∈ allJobs.map Job.name) :
    ((buildDependencyGraph currentJob allJobs).nodes.map DependencyNode.id).Nodup ∧
    (∀ x, x ∈ (buildDependencyGraph currentJob allJobs).nodes.map DependencyNode.id ↔
      Related (jobMap allJobs) currentJob.name x) ∧
    1 ≤ (buildDependencyGraph currentJob allJobs).nodes.length ∧
    (buildDependencyGraph currentJob allJobs).nodes.length ≤ (allJobs.map Job.name).toFinset.card ∧
    ((buildDependencyGraph currentJob allJobs).nodes.filter DependencyNode.isCurrent).map
      DependencyNode.id = [currentJob.name] := by
  obtain ⟨rel, jl, hrel, hmem, hg⟩ := buildDependencyGraph_layout allJobs currentJob
  have hall : ∀ x ∈ rel, (jobMap allJobs x).isSome :=
    fun x hx => related_isSome_of_mem allJobs currentJob hf ((hmem x).mp hx)
  have hids : (buildDependencyGraph currentJob allJobs).nodes.map DependencyNode.id =
      (layoutPlacements jl rel).map Placement.jobName := by
    rw [hg, layoutGraph_node_ids, List.filter_eq_self.mpr fun p hp => hall _ (mem_placement_rel hp)]
  have hnd : ((buildDependencyGraph currentJob allJobs).nodes.map DependencyNode.id).Nodup :=
    hg ▸ layoutGraph_node_ids_nodup hrel
  have hiff : ∀ x, x ∈ (buildDependencyGraph currentJob allJobs).nodes.map DependencyNode.id ↔
      Related (jobMap allJobs) currentJob.name x := fun x => by
    rw [hids, (layoutPlacements_jobNames_perm hrel).mem_iff, hmem]
  have hsub : ((buildDependencyGraph currentJob allJobs).nodes.map DependencyNode.id).toFinset ⊆
      (allJobs.map Job.name).toFinset := fun x hx => by
    simpa using jobMap_isSome.mp (related_isSome_of_mem allJobs currentJob hf
      ((hiff x).mp (List.mem_toFinset.mp hx)))
  refine ⟨hnd, hiff, ?_, ?_, ?_⟩
  · obtain ⟨n, hn, -⟩ := List.mem_map.mp ((hiff _).mpr (Related.self _ currentJob.name))
    exact List.length_pos_of_mem hn
  · simpa [List.toFinset_card_of_nodup hnd] using Finset.card_le_card hsub
  · rw [hg]
    exact layoutGraph_current hrel hall ((hmem _).mpr (Related.self _ _))

/-- A job whose `parent_job` is the empty name, beside a job of that name. -/
def emptyNameJob : Job := { name := "" }

def emptyParentChild : Job := { name := "c", parentJob := some "" }

theorem node_ids_are_related_empty_parent :
    "c" ∈ [emptyNameJob, emptyParentChild].map Job.name ∧
      ((buildDependencyGraph emptyParentChild [emptyNameJob, emptyParentChild]).nodes.filter
        DependencyNode.isCurrent).map DependencyNode.id = ["c"] :=
  ⟨by decide, (node_ids_are_related [emptyNameJob, emptyParentChild] emptyParentChild
    (by decide)).2.2.2.2⟩

theorem empty_parent_job_not_a_node :
    TransGen (ParentLink (jobMap [emptyNameJob, emptyParentChild])) "c" "" ∧
      (buildDependencyGraph emptyParentChild [emptyNameJob, emptyParentChild]).nodes.map
        DependencyNode.id = ["c"] :=
  ⟨.single ⟨emptyParentChild, by decide, rfl, by decide⟩, by decide⟩

/-- Without a record for the focal job there is nothing to draw. -/
theorem buildDependencyGraph_of_not_mem (hf : currentJob.name ∉ allJobs.map Job.name) :
    buildDependencyGraph currentJob allJobs = ⟨[], []⟩ := by
  obtain ⟨rel, jl, -, hmem, hg⟩ := buildDependencyGraph_layout allJobs currentJob
  have hf' : jobMap allJobs currentJob.name = none :=
    Option.not_isSome_iff_eq_none.mp (mt jobMap_isSome.mp hf)
  have hnone : ∀ x ∈ rel, jobMap allJobs x = none := fun x hx => by
    rw [((hmem x).mp hx).eq_of_get_none hf', hf']
  rw [hg]
  simp only [layoutGraph, Graph.mk.injEq]
  refine ⟨List.filterMap_eq_nil_iff.mpr fun p hp => ?_,
    List.filterMap_eq_nil_iff.mpr fun c hc => ?_⟩
  · simp [nodeOf, hnone _ (mem_placement_rel hp)]
  · simp [edgeOf, hnone c hc]

/-- The focal node is drawn exactly when the focal job's name is in the collection; when it is
not, the graph is empty and the diagram reports no dependencies. -/
theorem focal_node_iff_found :
    ((∃ n ∈ (buildDependencyGraph currentJob allJobs).nodes,
        n.id = currentJob.name ∧ n.isCurrent = true) ↔ currentJob.name ∈ allJobs.map Job.name) ∧
    (currentJob.name ∉ allJobs.map Job.name →
      buildDependencyGraph currentJob allJobs = ⟨[], []⟩ ∧
      hasNoDependencies (diagramGraph (some currentJob) allJobs) = true) := by
  refine ⟨⟨fun ⟨n, hn, _⟩ => ?_, fun hf => ?_⟩,
    fun hf => ⟨buildDependencyGraph_of_not_mem allJobs currentJob hf, ?_⟩⟩
  · by_contra hf
    rw [buildDependencyGraph_of_not_mem allJobs currentJob hf] at hn
    simp at hn
  · obtain ⟨rel, jl, hrel, hmem, hg⟩ := buildDependencyGraph_layout allJobs currentJob
    have hall : ∀ x ∈ rel, (jobMap allJobs x).isSome :=
      fun x hx => related_isSome_of_mem allJobs currentJob hf ((hmem x).mp hx)
    have h := @layoutGraph_current _ _ _ jl hrel hall ((hmem _).mpr (Related.self _ _))
    rw [← hg] at h
    obtain ⟨n, hn, hid⟩ := List.mem_map.mp (h ▸ List.mem_singleton_self currentJob.name)
    obtain ⟨hn, hc⟩ := List.mem_filter.mp hn
    exact ⟨n, hn, hid, hc⟩
  · unfold diagramGraph
    split_ifs <;> simp [hasNoDependencies, buildDependencyGraph_of_not_mem allJobs currentJob hf]

theorem missing_focal_not_drawn :
    (buildDependencyGraph { name := "a" } [{ name := "b" }]).nodes = [] ∧
      hasNoDependencies (diagramGraph (some { name := "a" }) [{ name := "b" }]) = true := by
  decide

/-- The edges of the diagram are the truthy parent links between related jobs. -/
theorem edgeRel_iff {p c : String} :
    EdgeRel (buildDependencyGraph currentJob allJobs) p c ↔
      Related (jobMap allJobs) currentJob.name c ∧ Related (jobMap allJobs) currentJob.name p ∧
      ∃ job, jobMap allJobs c = some job ∧ truthy job.parentJob = some p := by
  obtain ⟨rel, jl, hrel, hmem, hg⟩ := buildDependencyGraph_layout allJobs currentJob
  rw [hg, layoutGraph_edgeRel_iff hrel, hmem, hmem]

/-- Every edge joins two drawn nodes, at their positions. -/
theorem buildDependencyGraph_edge_nodes {e : DependencyEdge}
    (he : e ∈ (buildDependencyGraph currentJob allJobs).edges) :
    ∃ np ∈ (buildDependencyGraph currentJob allJobs).nodes,
    ∃ nc ∈ (buildDependencyGraph currentJob allJobs).nodes,
      np.id = e.«from» ∧ nc.id = e.«to» ∧ e.fromX = np.x ∧ e.fromY = np.y ∧
      e.toX = nc.x ∧ e.toY = nc.y := by
  by_cases hf : currentJob.name ∈ allJobs.map Job.name
  · obtain ⟨rel, jl, hrel, hmem, hg⟩ := buildDependencyGraph_layout allJobs currentJob
    rw [hg] at he ⊢
    exact layoutGraph_edge_nodes hrel
      (fun x hx => related_isSome_of_mem allJobs currentJob hf ((hmem x).mp hx)) he
  · rw [buildDependencyGraph_of_not_mem allJobs currentJob hf] at he
    simp at he

/-- Each job has at most one incoming edge, an edge joins two related jobs along the child's
non-empty `parent_job`, and it is drawn from the bottom centre of the parent's node to the
top centre of the child's. -/
theorem edges_are_related_parent_links :
    ((buildDependencyGraph currentJob allJobs).edges.map DependencyEdge.«to»).Nodup ∧
    (∀ p c, EdgeRel (buildDependencyGraph currentJob allJobs) p c ↔
      Related (jobMap allJobs) currentJob.name c ∧ Related (jobMap allJobs) currentJob.name p ∧
      ∃ job, jobMap allJobs c = some job ∧ truthy job.parentJob = some p) ∧
    (∀ e ∈ (buildDependencyGraph currentJob allJobs).edges,
      ∃ np ∈ (buildDependencyGraph currentJob allJobs).nodes,
      ∃ nc ∈ (buildDependencyGraph currentJob allJobs).nodes,
        np.id = e.«from» ∧ nc.id = e.«to» ∧ e.fromX = np.x ∧ e.fromY = np.y ∧
        e.toX = nc.x ∧ e.toY = nc.y ∧
        diagramEdgeEnds e =
          ((np.x + nodeWidth / 2, np.y + nodeHeight), (nc.x + nodeWidth / 2, nc.y))) := by
  obtain ⟨rel, jl, hrel, hmem, hg⟩ := buildDependencyGraph_layout allJobs currentJob
  refine ⟨hg ▸ layoutGraph_edge_targets_nodup hrel, fun p c => edgeRel_iff allJobs currentJob,
    fun e he => ?_⟩
  obtain ⟨np, hnp, nc, hnc, h1, h2, h3, h4, h5, h6⟩ :=
    buildDependencyGraph_edge_nodes allJobs currentJob he
  exact ⟨np, hnp, nc, hnc, h1, h2, h3, h4, h5, h6, by simp [diagramEdgeEnds, h3, h4, h5, h6]⟩

/-- An edge `p → c` is the parent link of the related job `c` to the related job `p`. -/
theorem edgeRel_eq_parent_links :
    EdgeRel (buildDependencyGraph currentJob allJobs) = fun p c =>
      Related (jobMap allJobs) currentJob.name p ∧ Related (jobMap allJobs) currentJob.name c ∧
      Link (jobMap allJobs) parentNames c p := by
  funext p c
  rw [edgeRel_iff, eq_iff_iff]
  constructor
  · rintro ⟨hc, hp, job, hj, hpar⟩
    have hf : (jobMap allJobs currentJob.name).isSome := by
      by_contra hf
      have hnone := Option.not_isSome_iff_eq_none.mp hf
      rw [← hc.eq_of_get_none hnone, hj] at hnone
      exact Option.noConfusion hnone
    have hps : (jobMap allJobs p).isSome := by
      by_cases hpf : p = currentJob.name
      · exact hpf ▸ hf
      · exact hp.isSome hpf
    exact ⟨hp, hc, job, hj, by simp [parentNames, hpar], hps⟩
  · rintro ⟨hp, hc, job, hj, hpar, -⟩
    exact ⟨hc, hp, job, hj, by simpa [parentNames, Option.mem_toList] using hpar⟩

/-- The edges are the truthy `parent_job` links between related jobs, reversed: a related job
that is its own parent gets a self-loop, paths of edges are paths of such links, and without
a `parent_job` cycle the edges have none. -/
theorem edge_cycles_are_parent_cycles :
    (∀ p c, EdgeRel (buildDependencyGraph currentJob allJobs) p c ↔
      Related (jobMap allJobs) currentJob.name p ∧ Related (jobMap allJobs) currentJob.name c ∧
        Link (jobMap allJobs) parentNames c p) ∧
    (∀ a job, Related (jobMap allJobs) currentJob.name a → jobMap allJobs a = some job →
      job.parentJob = some a → a ≠ "" → EdgeRel (buildDependencyGraph currentJob allJobs) a a) ∧
    (∀ a b, TransGen (EdgeRel (buildDependencyGraph currentJob allJobs)) a b ↔
      TransGen (fun p c => Related (jobMap allJobs) currentJob.name p ∧
        Related (jobMap allJobs) currentJob.name c ∧ Link (jobMap allJobs) parentNames c p) a b) ∧
    (Acyclic (ParentLink (jobMap allJobs)) →
      Acyclic (EdgeRel (buildDependencyGraph currentJob allJobs))) := by
  rw [edgeRel_eq_parent_links]
  refine ⟨fun _ _ => Iff.rfl, fun a job ha hj hpar hne => ?_, fun _ _ => Iff.rfl,
    fun h a ha => h a ((ha.mono fun _ _ hl => hl.2.2.parentLink).swap)⟩
  exact ⟨ha, ha, job, hj, mem_parentNames.mpr ⟨hpar, hne⟩, by simp [hj]⟩

/-- A job that is its own parent. -/
def selfParentJob : Job := { name := "A", parentJob := some "A" }

theorem self_parent_edge_loop :
    EdgeRel (buildDependencyGraph selfParentJob [selfParentJob]) "A" "A" :=
  ⟨⟨"A", "A", 0, 30, 0, 30⟩, by decide, rfl, rfl⟩

end Build

end DependencyDiagram
