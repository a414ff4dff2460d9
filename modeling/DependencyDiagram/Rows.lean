import DependencyDiagram.Layout

/-!
# Rows of the layout

The buckets of `levelGroups` are the related names of one level, in `Set` order; the keys
are the levels that occur, each once, so the sorted levels hold every row once. The
placements then hold every related name exactly once, at the position its row and its
index in the row give, and `nodePositions` returns that position.
-/

namespace DependencyDiagram

section InsertAll

variable {s xs ys : List String} {x : String}

theorem insertAll_append (s xs ys : List String) :
    insertAll s (xs ++ ys) = insertAll (insertAll s xs) ys := by
  induction xs generalizing s with
  | nil => rfl
  | cons x xs ih => exact ih _

theorem mem_insertAll : x ∈ insertAll s xs ↔ x ∈ s ∨ x ∈ xs := by
  induction xs generalizing s with
  | nil => simp [insertAll]
  | cons y xs ih =>
    rw [insertAll, ih]
    by_cases hy : y ∈ s
    · simp only [hy, if_true, List.mem_cons]
      constructor
      · rintro (h | h) <;> simp [h]
      · rintro (h | rfl | h) <;> simp [*]
    · simp [hy, or_assoc]

theorem nodup_insertAll (h : s.Nodup) : (insertAll s xs).Nodup := by
  induction xs generalizing s with
  | nil => exact h
  | cons y xs ih =>
    rw [insertAll]
    split_ifs with hy
    · exact ih h
    · exact ih (List.nodup_append.mpr ⟨h, List.nodup_singleton y, by simpa using hy⟩)

end InsertAll

section Groups

variable {groups : List (Int × List String)} {jobLevels : String → Option Int}
variable {rel : List String}

theorem lookup_cons_ite (k l : Int) (v : List String) (gs : List (Int × List String)) :
    ((k, v) :: gs).lookup l = if l = k then some v else gs.lookup l := by
  by_cases h : l = k
  · subst h
    simp [List.lookup_cons]
  · simp [List.lookup_cons, beq_eq_false_iff_ne.mpr h, h]

theorem lookup_map_push (groups : List (Int × List String)) (level l : Int) (x : String) :
    (groups.map fun g => (g.1, if g.1 = level then g.2 ++ [x] else g.2)).lookup l =
      (groups.lookup l).map fun v => if l = level then v ++ [x] else v := by
  induction groups with
  | nil => rfl
  | cons g gs ih =>
    obtain ⟨k, v⟩ := g
    by_cases hk : l = k
    · subst hk
      simp [lookup_cons_ite]
    · simp [lookup_cons_ite, hk, ih]

theorem jobsAtLevel_pushToGroup (groups : List (Int × List String)) (level l : Int)
    (x : String) :
    jobsAtLevel (pushToGroup groups level x) l =
      if l = level then jobsAtLevel groups l ++ [x] else jobsAtLevel groups l := by
  unfold jobsAtLevel pushToGroup
  have hnone : ¬ groups.any (·.1 == level) = true → groups.lookup level = none :=
    fun hany => List.lookup_eq_none_iff.mpr fun p hp =>
      bne_iff_ne.mpr fun hl => hany (List.any_eq_true.mpr ⟨p, hp, by simp [hl]⟩)
  split_ifs with hany hl hl
  · subst hl
    rw [lookup_map_push]
    cases hlook : groups.lookup l with
    | some v => simp
    | none =>
      obtain ⟨p, hp, hpl⟩ := List.any_eq_true.mp hany
      have := List.lookup_eq_none_iff.mp hlook p hp
      simp_all
  · rw [lookup_map_push]
    cases groups.lookup l <;> simp [hl]
  · subst hl
    simp [List.lookup_append, hnone hany, lookup_cons_ite]
  · simp [List.lookup_append, lookup_cons_ite, hl]

theorem keys_pushToGroup (groups : List (Int × List String)) (level : Int) (x : String) :
    (pushToGroup groups level x).map Prod.fst =
      if level ∈ groups.map Prod.fst then groups.map Prod.fst
      else groups.map Prod.fst ++ [level] := by
  unfold pushToGroup
  have hany : groups.any (·.1 == level) = true ↔ level ∈ groups.map Prod.fst := by simp
  by_cases h : level ∈ groups.map Prod.fst
  · rw [if_pos (hany.mpr h), if_pos h, List.map_map]
    rfl
  · rw [if_neg (mt hany.mp h), if_neg h]
    simp

/-- What the grouping loop builds: one bucket per level that occurs, holding the related
names of that level in `Set` order. -/
theorem levelGroups_spec (jobLevels : String → Option Int) (rel : List String) :
    (∀ l, jobsAtLevel (levelGroups jobLevels rel) l = rel.filter (levelOf jobLevels · = l)) ∧
    (∀ l, l ∈ (levelGroups jobLevels rel).map Prod.fst ↔
      ∃ n ∈ rel, levelOf jobLevels n = l) ∧
    ((levelGroups jobLevels rel).map Prod.fst).Nodup := by
  induction rel using List.reverseRecOn with
  | nil => exact ⟨fun _ => rfl, by simp [levelGroups], List.nodup_nil⟩
  | append_singleton rel x ih =>
    obtain ⟨hjobs, hkeys, hnd⟩ := ih
    have hfold : levelGroups jobLevels (rel ++ [x]) =
        pushToGroup (levelGroups jobLevels rel) (levelOf jobLevels x) x := by
      simp [levelGroups, List.foldl_append]
    rw [hfold, keys_pushToGroup]
    refine ⟨fun l => ?_, fun l => ?_, ?_⟩
    · rw [jobsAtLevel_pushToGroup, hjobs, List.filter_append]
      by_cases hl : l = levelOf jobLevels x <;> simp [hl, Ne.symm]
    · have hx : (∃ n ∈ rel ++ [x], levelOf jobLevels n = l) ↔
          (∃ n ∈ rel, levelOf jobLevels n = l) ∨ levelOf jobLevels x = l := by
        simp [or_and_right, exists_or]
      rw [hx, ← hkeys]
      split_ifs with h
      · exact ⟨.inl, fun h' => h'.elim id fun e => e ▸ h⟩
      · simp [eq_comm]
    · split_ifs with h
      · exact hnd
      · exact List.nodup_append.mpr ⟨hnd, List.nodup_singleton _, by simpa using h⟩

theorem mem_sortedLevels {l : Int} : l ∈ sortedLevels groups ↔ l ∈ groups.map Prod.fst :=
  (List.perm_insertionSort _ _).mem_iff

theorem nodup_sortedLevels (h : (groups.map Prod.fst).Nodup) : (sortedLevels groups).Nodup :=
  (List.perm_insertionSort _ _).nodup_iff.mpr h

end Groups

section Placements

variable {groups : List (Int × List String)} {sorted : List Int}
variable {jobLevels : String → Option Int} {rel : List String}

/-- Rows of distinct levels are drawn at distinct heights. -/
theorem rowY_inj {sorted : List Int} {s t : Int} (h : rowY sorted s = rowY sorted t) : s = t := by
  simp only [rowY, levelHeight] at h
  omega

theorem mem_placements {p : Placement} :
    p ∈ placements groups sorted ↔ ∃ level ∈ sorted, ∃ i,
      (i, p.jobName) ∈ (jobsAtLevel groups level).enum ∧
      p.x = startX groups sorted level + i * (nodeWidth + nodeSpacing) ∧
      p.y = rowY sorted level ∧ p.level = level - minLevel sorted := by
  simp only [placements, List.mem_flatMap, List.mem_map]
  constructor
  · rintro ⟨level, hl, ⟨i, n⟩, hin, rfl⟩
    exact ⟨level, hl, i, hin, rfl, rfl, rfl⟩
  · rintro ⟨level, hl, i, hin, hx, hy, hlv⟩
    refine ⟨level, hl, (i, p.jobName), hin, ?_⟩
    cases p
    simp_all

theorem placements_jobNames :
    (placements groups sorted).map Placement.jobName = sorted.flatMap (jobsAtLevel groups) := by
  simp [placements, List.map_flatMap, Function.comp_def]

/-- Each related name is placed exactly once. -/
theorem layoutPlacements_jobNames_perm (hrel : rel.Nodup) :
    ((layoutPlacements jobLevels rel).map Placement.jobName).Perm rel := by
  obtain ⟨hjobs, hkeys, hnd⟩ := levelGroups_spec jobLevels rel
  rw [layoutPlacements, placements_jobNames]
  refine (List.perm_ext_iff_of_nodup (List.nodup_flatMap.mpr ⟨fun l _ => ?_, ?_⟩) hrel).mpr
    fun n => ?_
  · rw [hjobs]
    exact hrel.filter _
  · refine (nodup_sortedLevels hnd).pairwise_of_forall_ne fun a _ b _ hab => ?_
    intro n hna hnb
    simp only [hjobs, List.mem_filter, decide_eq_true_eq] at hna hnb
    exact hab (hna.2.symm.trans hnb.2)
  · simp only [List.mem_flatMap, hjobs, List.mem_filter, decide_eq_true_eq, mem_sortedLevels,
      hkeys]
    exact ⟨fun ⟨_, _, hn, _⟩ => hn, fun hn => ⟨_, ⟨n, hn, rfl⟩, hn, rfl⟩⟩

theorem exists_placement (hrel : rel.Nodup) {n : String} (hn : n ∈ rel) :
    ∃ p ∈ layoutPlacements jobLevels rel, p.jobName = n := by
  simpa using (@layoutPlacements_jobNames_perm jobLevels rel hrel).mem_iff.mpr hn

theorem nodePositions_placement (hrel : rel.Nodup) {p : Placement}
    (hp : p ∈ layoutPlacements jobLevels rel) :
    nodePositions (layoutPlacements jobLevels rel) p.jobName = some (p.x, p.y) :=
  mapOfEntries_of_mem (by simpa [Function.comp_def] using
      (@layoutPlacements_jobNames_perm jobLevels rel hrel).nodup_iff.mpr hrel)
    (List.mem_map_of_mem (fun p => (p.jobName, (p.x, p.y))) hp)

/-- A placed name sits on the row of its level, at its index among the related names of
that level. -/
theorem placement_row {p : Placement} (hp : p ∈ layoutPlacements jobLevels rel) :
    ∃ i, (i, p.jobName) ∈
        (rel.filter (levelOf jobLevels · = levelOf jobLevels p.jobName)).enum ∧
      p.x = startX (levelGroups jobLevels rel) (sortedLevels (levelGroups jobLevels rel))
        (levelOf jobLevels p.jobName) + i * (nodeWidth + nodeSpacing) ∧
      p.y = rowY (sortedLevels (levelGroups jobLevels rel)) (levelOf jobLevels p.jobName) ∧
      p.level =
        levelOf jobLevels p.jobName - minLevel (sortedLevels (levelGroups jobLevels rel)) := by
  obtain ⟨level, -, i, hin, hx, hy, hl⟩ := mem_placements.mp hp
  rw [(levelGroups_spec jobLevels rel).1] at hin
  have hlev : levelOf jobLevels p.jobName = level := by
    simpa using (List.mem_filter.mp (List.snd_mem_of_mem_enum hin)).2
  subst hlev
  exact ⟨i, hin, hx, hy, hl⟩

theorem mem_placement_rel {p : Placement} (hp : p ∈ layoutPlacements jobLevels rel) :
    p.jobName ∈ rel := by
  obtain ⟨i, hin, -⟩ := placement_row hp
  exact (List.mem_filter.mp (List.snd_mem_of_mem_enum hin)).1

end Placements

section Graph

variable {get : String → Option Job} {f : String} {jobLevels : String → Option Int}
variable {rel : List String}

theorem nodeOf_spec {p : Placement} {node : DependencyNode} (h : nodeOf get f p = some node) :
    (get p.jobName).isSome ∧ node.id = p.jobName ∧ node.x = p.x ∧ node.y = p.y ∧
      node.level = p.level ∧ node.isCurrent = (p.jobName == f) := by
  obtain ⟨job, hj, rfl⟩ := Option.map_eq_some'.mp h
  simp [hj]

theorem mem_layoutGraph_nodes {node : DependencyNode} :
    node ∈ (layoutGraph get f rel jobLevels).nodes ↔
      ∃ p ∈ layoutPlacements jobLevels rel, nodeOf get f p = some node :=
  List.mem_filterMap

/-- The nodes are the placed names whose job's record exists, in placement order. -/
theorem layoutGraph_node_ids :
    (layoutGraph get f rel jobLevels).nodes.map DependencyNode.id =
      ((layoutPlacements jobLevels rel).filter fun p => (get p.jobName).isSome).map
        Placement.jobName := by
  simp only [layoutGraph]
  induction layoutPlacements jobLevels rel with
  | nil => rfl
  | cons p ps ih =>
    cases hg : get p.jobName <;> simp [List.filterMap_cons, nodeOf, hg, ih]

theorem layoutGraph_node_ids_nodup (hrel : rel.Nodup) :
    ((layoutGraph get f rel jobLevels).nodes.map DependencyNode.id).Nodup := by
  rw [layoutGraph_node_ids]
  exact ((List.filter_sublist _).map _).nodup
    ((layoutPlacements_jobNames_perm hrel).nodup_iff.mpr hrel)

theorem edgeOf_eq_some {pos : String → Option (Int × Int)} {c : String}
    {e : DependencyEdge} :
    edgeOf get rel pos c = some e ↔ ∃ job, get c = some job ∧
      truthy job.parentJob = some e.«from» ∧ e.«from» ∈ rel ∧ e.«to» = c ∧
      pos e.«from» = some (e.fromX, e.fromY) ∧ pos c = some (e.toX, e.toY) := by
  unfold edgeOf
  split
  · rename_i hg
    simp [hg]
  rename_i job hg
  split
  · rename_i hp
    simp only [hg, hp, Option.some.injEq, exists_eq_left']
    exact ⟨Option.noConfusion, fun h => Option.noConfusion h.1⟩
  rename_i p hp
  split_ifs with hr
  · split
    · rename_i fx fy tx ty hpp hpc
      simp only [hg, hp, Option.some.injEq, exists_eq_left']
      constructor
      · rintro rfl
        exact ⟨rfl, hr, rfl, hpp, hpc⟩
      · rintro ⟨rfl, -, rfl, h1, h2⟩
        rw [h1] at hpp
        rw [h2] at hpc
        cases hpp; cases hpc; rfl
    · rename_i hno
      simp only [hg, hp, Option.some.injEq, exists_eq_left']
      refine ⟨Option.noConfusion, ?_⟩
      rintro ⟨rfl, -, rfl, h1, h2⟩
      exact (hno _ _ _ _ h1 h2).elim
  · simp only [hg, hp, Option.some.injEq, exists_eq_left', false_iff, not_and]
    rintro rfl h
    exact absurd h hr

theorem mem_layoutGraph_edges {e : DependencyEdge} :
    e ∈ (layoutGraph get f rel jobLevels).edges ↔ e.«to» ∈ rel ∧ ∃ job,
      get e.«to» = some job ∧ truthy job.parentJob = some e.«from» ∧ e.«from» ∈ rel ∧
      nodePositions (layoutPlacements jobLevels rel) e.«from» = some (e.fromX, e.fromY) ∧
      nodePositions (layoutPlacements jobLevels rel) e.«to» = some (e.toX, e.toY) := by
  simp only [layoutGraph, List.mem_filterMap, edgeOf_eq_some]
  constructor
  · rintro ⟨c, hc, job, hj, hp, hr, rfl, h1, h2⟩
    exact ⟨hc, job, hj, hp, hr, h1, h2⟩
  · rintro ⟨hc, job, hj, hp, hr, h1, h2⟩
    exact ⟨_, hc, job, hj, hp, hr, rfl, h1, h2⟩

/-- At most one edge into each related name. -/
theorem layoutGraph_edge_targets_nodup (hrel : rel.Nodup) :
    ((layoutGraph get f rel jobLevels).edges.map DependencyEdge.«to»).Nodup := by
  simp only [layoutGraph]
  suffices ∀ l : List String, List.Sublist ((l.filterMap (edgeOf get rel
      (nodePositions (layoutPlacements jobLevels rel)))).map DependencyEdge.«to») l from
    (this rel).nodup hrel
  intro l
  induction l with
  | nil => exact List.Sublist.slnil
  | cons c l ih =>
    rw [List.filterMap_cons]
    cases he : edgeOf get rel (nodePositions (layoutPlacements jobLevels rel)) c with
    | none => exact ih.cons c
    | some e =>
      obtain ⟨-, -, -, -, hto, -⟩ := edgeOf_eq_some.mp he
      simpa [hto] using ih.cons₂ c

end Graph

end DependencyDiagram
