import DependencyDiagram.Graph

/-!
# Rows centred under the widest one

The first pass over the sorted levels keeps the widest row in `maxWidth`; the second starts
each row at `(maxWidth - levelWidth) / 2`. No bucket of `levelGroups` is empty, so
`maxWidth` is the width of some row, every difference `maxWidth - levelWidth` is a multiple
of `2 * 90` and the division is exact: each row is centred under the widest, which starts
at `x = 0`. Levels are shifted by `minLevel`, the head of the sorted levels, so the shown
levels start at `0` and `y` is `30 + LEVEL_HEIGHT * level`.

With the focal job in the collection every related name has a record, so these facts of
the placements hold of the nodes.
-/

namespace DependencyDiagram

/-- What the second pass guarantees of the drawn nodes: `x` starts at `0`, every row is
centred under the widest right edge, and `y` is the row of the shown level, which starts
at `0`. -/
structure CentredRows (nodes : List DependencyNode) : Prop where
  x_nonneg : ∀ n ∈ nodes, 0 ≤ n.x
  x_min : ∃ n ∈ nodes, n.x = 0
  centred : ∃ right : Int, (∀ n ∈ nodes, n.x + nodeWidth ≤ right) ∧
    (∃ n ∈ nodes, n.x + nodeWidth = right) ∧
    ∀ a ∈ nodes, ∃ lft ∈ nodes, ∃ rgt ∈ nodes, lft.y = a.y ∧ rgt.y = a.y ∧
      (∀ b ∈ nodes, b.y = a.y → lft.x ≤ b.x ∧ b.x ≤ rgt.x) ∧
      lft.x + (rgt.x + nodeWidth) = right
  y_eq : ∀ n ∈ nodes, n.y = 30 + levelHeight * n.level
  level_nonneg : ∀ n ∈ nodes, 0 ≤ n.level
  level_zero : ∃ n ∈ nodes, n.level = 0

section Widths

/-- A running maximum stays at least its start and every value it meets, and is one of
them. -/
theorem foldl_max_spec {α : Type} (w : α → Int) (levels : List α) (m : Int) :
    m ≤ levels.foldl (fun m l => max m (w l)) m ∧
      (∀ l ∈ levels, w l ≤ levels.foldl (fun m l => max m (w l)) m) ∧
      (levels.foldl (fun m l => max m (w l)) m = m ∨
        ∃ l ∈ levels, levels.foldl (fun m l => max m (w l)) m = w l) := by
  induction levels generalizing m with
  | nil => simp
  | cons l levels ih =>
    obtain ⟨hm, hw, hcase⟩ := ih (max m (w l))
    simp only [List.foldl_cons, List.mem_cons, forall_eq_or_imp, exists_eq_or_imp]
    refine ⟨(le_max_left _ _).trans hm, ⟨(le_max_right _ _).trans hm, hw⟩, ?_⟩
    rcases hcase with h | h
    · rcases max_choice m (w l) with h' | h' <;> rw [h, h'] <;> simp
    · exact .inr (.inr h)

variable {groups : List (Int × List String)} {sorted : List Int}

theorem levelWidth_le_maxWidth {l : Int} (hl : l ∈ sorted) :
    levelWidth (jobsAtLevel groups l).length ≤ maxWidth groups sorted :=
  (foldl_max_spec (fun l => levelWidth (jobsAtLevel groups l).length) sorted 0).2.1 l hl

/-- With no empty row, `maxWidth` is the width of a row. -/
theorem maxWidth_attained {l : Int} (hl : l ∈ sorted)
    (hpos : ∀ l ∈ sorted, 0 < (jobsAtLevel groups l).length) :
    ∃ l' ∈ sorted, maxWidth groups sorted = levelWidth (jobsAtLevel groups l').length := by
  rcases (foldl_max_spec (fun l => levelWidth (jobsAtLevel groups l).length) sorted 0).2.2
    with h | h
  · have hw := @levelWidth_le_maxWidth groups sorted l hl
    have hk := hpos l hl
    rw [maxWidth, h] at hw
    simp only [levelWidth, nodeWidth, nodeSpacing] at hw
    omega
  · exact h

/-- A row starts at `x ≥ 0`, and twice its start plus its width is `maxWidth`. -/
theorem startX_spec (hpos : ∀ l ∈ sorted, 0 < (jobsAtLevel groups l).length) {l : Int}
    (hl : l ∈ sorted) :
    0 ≤ startX groups sorted l ∧
      2 * startX groups sorted l + levelWidth (jobsAtLevel groups l).length =
        maxWidth groups sorted := by
  obtain ⟨l', -, hM⟩ := maxWidth_attained hl hpos
  have hw := @levelWidth_le_maxWidth groups sorted l hl
  simp only [startX, hM, levelWidth, nodeWidth, nodeSpacing] at hw ⊢
  omega

/-- The widest row starts at `0`. -/
theorem startX_widest (hpos : ∀ l ∈ sorted, 0 < (jobsAtLevel groups l).length) {l : Int}
    (hl : l ∈ sorted)
    (hM : maxWidth groups sorted = levelWidth (jobsAtLevel groups l).length) :
    startX groups sorted l = 0 := by
  have := (startX_spec hpos hl).2
  omega

/-- The boxes of a row, `startX + i * (NODE_WIDTH + NODE_SPACING)` for `i` below its count,
lie within `[0, maxWidth]` in index order, and the first is as far from `0` as the right
edge of the last from `maxWidth`. -/
theorem row_boxes (hpos : ∀ l ∈ sorted, 0 < (jobsAtLevel groups l).length) {l : Int}
    (hl : l ∈ sorted) :
    (∀ i < (jobsAtLevel groups l).length,
      0 ≤ startX groups sorted l + i * (nodeWidth + nodeSpacing) ∧
        startX groups sorted l + i * (nodeWidth + nodeSpacing) + nodeWidth ≤
          maxWidth groups sorted) ∧
    (∀ i j : Nat, i ≤ j → startX groups sorted l + i * (nodeWidth + nodeSpacing) ≤
      startX groups sorted l + j * (nodeWidth + nodeSpacing)) ∧
    startX groups sorted l + (0 : Nat) * (nodeWidth + nodeSpacing) +
      (startX groups sorted l + ((jobsAtLevel groups l).length - 1 : Nat) *
        (nodeWidth + nodeSpacing) + nodeWidth) = maxWidth groups sorted := by
  have := startX_spec hpos hl
  have hk := hpos l hl
  simp only [levelWidth, nodeWidth, nodeSpacing] at this ⊢
  exact ⟨fun i hi => by omega, fun i j hij => by omega, by omega⟩

end Widths

section Levels

variable {s : List Int} {l : Int}

theorem minLevel_le (hs : s.Sorted (· ≤ ·)) (hl : l ∈ s) : minLevel s ≤ l := by
  cases s with
  | nil => cases hl
  | cons a t =>
    rcases List.mem_cons.mp hl with rfl | hl
    · exact le_rfl
    · exact List.rel_of_sorted_cons hs l hl

theorem minLevel_mem (hs : s ≠ []) : minLevel s ∈ s := by
  cases s with
  | nil => exact absurd rfl hs
  | cons a t => exact List.mem_cons_self a t

end Levels

section Rows

variable {groups : List (Int × List String)} {sorted : List Int}

/-- The `(x, y, level)` of the second pass: index `i` of the bucket of a sorted level. -/
theorem mem_placements_row {x y lv : Int} :
    (∃ p ∈ placements groups sorted, p.x = x ∧ p.y = y ∧ p.level = lv) ↔
      ∃ l ∈ sorted, ∃ i < (jobsAtLevel groups l).length,
        x = startX groups sorted l + i * (nodeWidth + nodeSpacing) ∧ y = rowY sorted l ∧
          lv = l - minLevel sorted := by
  constructor
  · rintro ⟨p, hp, rfl, rfl, rfl⟩
    obtain ⟨l, hl, i, hin, hx, hy, hlv⟩ := mem_placements.mp hp
    exact ⟨l, hl, i, List.fst_lt_of_mem_enum hin, hx, hy, hlv⟩
  · rintro ⟨l, hl, i, hi, rfl, rfl, rfl⟩
    have hin : (i, (jobsAtLevel groups l)[i]) ∈ (jobsAtLevel groups l).enum :=
      List.mem_enum_iff_getElem?.mpr (List.getElem?_eq_getElem hi)
    exact ⟨⟨_, _, _, _⟩, mem_placements.mpr ⟨l, hl, i, hin, rfl, rfl, rfl⟩, rfl, rfl, rfl⟩

/-- Nodes whose `(x, y, level)` are the rows of sorted levels, none empty, are centred. -/
theorem centredRows_of_rows {nodes : List DependencyNode} (hsorted : sorted.Sorted (· ≤ ·))
    (hne : sorted ≠ []) (hpos : ∀ l ∈ sorted, 0 < (jobsAtLevel groups l).length)
    (hrows : ∀ x y lv, (∃ n ∈ nodes, n.x = x ∧ n.y = y ∧ n.level = lv) ↔
      ∃ l ∈ sorted, ∃ i < (jobsAtLevel groups l).length,
        x = startX groups sorted l + i * (nodeWidth + nodeSpacing) ∧ y = rowY sorted l ∧
          lv = l - minLevel sorted) :
    CentredRows nodes := by
  have hrow := fun {n} (hn : n ∈ nodes) => (hrows _ _ _).mp ⟨n, hn, rfl, rfl, rfl⟩
  have hnode := fun {l} (hl : l ∈ sorted) {i} (hi : i < (jobsAtLevel groups l).length) =>
    (hrows _ _ _).mpr ⟨l, hl, i, hi, rfl, rfl, rfl⟩
  -- a row runs from its first box, at `startX`, to its last; the two add up to `maxWidth`
  have hends : ∀ l ∈ sorted, ∃ lft ∈ nodes, ∃ rgt ∈ nodes, lft.y = rowY sorted l ∧
      rgt.y = rowY sorted l ∧ lft.x = startX groups sorted l ∧
      (∀ b ∈ nodes, b.y = rowY sorted l → lft.x ≤ b.x ∧ b.x ≤ rgt.x) ∧
      lft.x + (rgt.x + nodeWidth) = maxWidth groups sorted := fun l hl => by
    have hk := hpos l hl
    obtain ⟨lft, hlft, hxl, hyl, -⟩ := hnode hl hk
    obtain ⟨rgt, hrgt, hxr, hyr, -⟩ := hnode hl (Nat.sub_lt hk one_pos)
    obtain ⟨-, hmono, hsum⟩ := row_boxes hpos hl
    refine ⟨lft, hlft, rgt, hrgt, hyl, hyr, by simp [hxl], fun b hb hby => ?_,
      by rw [hxl, hxr]; exact hsum⟩
    obtain ⟨l', -, j, hj, hxb, hyb, -⟩ := hrow hb
    obtain rfl : l' = l := rowY_inj (hyb.symm.trans hby)
    rw [hxl, hxr, hxb]
    exact ⟨hmono _ _ (Nat.zero_le j), hmono _ _ (Nat.le_sub_one_of_lt hj)⟩
  -- the widest row starts at `0` and ends at `maxWidth`
  obtain ⟨lw, hlw, hM⟩ := maxWidth_attained (minLevel_mem hne) hpos
  obtain ⟨l0, hl0, l1, hl1, -, -, hx0, -, hw⟩ := hends lw hlw
  rw [hx0, startX_widest hpos hlw hM, zero_add] at hw
  refine ⟨fun n hn => ?_, ⟨l0, hl0, hx0.trans (startX_widest hpos hlw hM)⟩,
    ⟨maxWidth groups sorted, fun n hn => ?_, ⟨l1, hl1, hw⟩, fun a ha => ?_⟩,
    fun n hn => ?_, fun n hn => ?_, ?_⟩
  · obtain ⟨l, hl, i, hi, hx, -⟩ := hrow hn
    exact hx ▸ ((row_boxes hpos hl).1 i hi).1
  · obtain ⟨l, hl, i, hi, hx, -⟩ := hrow hn
    exact hx ▸ ((row_boxes hpos hl).1 i hi).2
  · obtain ⟨l, hl, i, -, -, hy, -⟩ := hrow ha
    obtain ⟨lft, hlft, rgt, hrgt, hyl, hyr, -, hbetween, hsum⟩ := hends l hl
    exact ⟨lft, hlft, rgt, hrgt, hyl.trans hy.symm, hyr.trans hy.symm,
      fun b hb hby => hbetween b hb (hby.trans hy), hsum⟩
  · obtain ⟨l, -, i, -, -, hy, hlv⟩ := hrow hn
    rw [hy, hlv, rowY]
    ring
  · obtain ⟨l, hl, i, -, -, -, hlv⟩ := hrow hn
    exact hlv ▸ sub_nonneg.mpr (minLevel_le hsorted hl)
  · obtain ⟨n, hn, -, -, hlv⟩ := hnode (minLevel_mem hne) (hpos _ (minLevel_mem hne))
    exact ⟨n, hn, hlv.trans (sub_self _)⟩

end Rows

section Layout

variable {get : String → Option Job} {f : String} {rel : List String}
variable {jobLevels : String → Option Int}

/-- No bucket of `levelGroups` is empty. -/
theorem jobsAtLevel_pos {l : Int} (hl : l ∈ sortedLevels (levelGroups jobLevels rel)) :
    0 < (jobsAtLevel (levelGroups jobLevels rel) l).length := by
  obtain ⟨hjobs, hkeys, -⟩ := levelGroups_spec jobLevels rel
  obtain ⟨n, hn, hnl⟩ := (hkeys l).mp (mem_sortedLevels.mp hl)
  rw [hjobs]
  exact List.length_pos_of_mem (List.mem_filter.mpr ⟨hn, by simpa using hnl⟩)

theorem sortedLevels_ne_nil {x : String} (hx : x ∈ rel) :
    sortedLevels (levelGroups jobLevels rel) ≠ [] :=
  List.ne_nil_of_mem (mem_sortedLevels.mpr
    (((levelGroups_spec jobLevels rel).2.1 _).mpr ⟨x, hx, rfl⟩))

/-- When every name has a record, the nodes are the placements. -/
theorem layoutGraph_nodes_placed (hall : ∀ x ∈ rel, (get x).isSome) {x y lv : Int} :
    (∃ n ∈ (layoutGraph get f rel jobLevels).nodes, n.x = x ∧ n.y = y ∧ n.level = lv) ↔
      ∃ p ∈ layoutPlacements jobLevels rel, p.x = x ∧ p.y = y ∧ p.level = lv := by
  constructor
  · rintro ⟨n, hn, rfl, rfl, rfl⟩
    obtain ⟨p, hp, hnp⟩ := mem_layoutGraph_nodes.mp hn
    obtain ⟨-, -, hx, hy, hl, -⟩ := nodeOf_spec hnp
    exact ⟨p, hp, hx.symm, hy.symm, hl.symm⟩
  · rintro ⟨p, hp, rfl, rfl, rfl⟩
    obtain ⟨job, hj⟩ := Option.isSome_iff_exists.mp (hall _ (mem_placement_rel hp))
    obtain ⟨n, hn⟩ : ∃ n, nodeOf get f p = some n := by simp [nodeOf, hj]
    obtain ⟨-, -, hx, hy, hl, -⟩ := nodeOf_spec hn
    exact ⟨n, mem_layoutGraph_nodes.mpr ⟨p, hp, hn⟩, hx, hy, hl⟩

/-- A layout of a nonempty set of recorded names has its rows centred. -/
theorem layoutGraph_centredRows (hall : ∀ x ∈ rel, (get x).isSome) {x : String}
    (hx : x ∈ rel) :
    CentredRows (layoutGraph get f rel jobLevels).nodes :=
  centredRows_of_rows (List.sorted_insertionSort _ _) (sortedLevels_ne_nil hx)
    (fun _ => jobsAtLevel_pos) fun _ _ _ => (layoutGraph_nodes_placed hall).trans mem_placements_row

end Layout

section Build

variable (allJobs : List Job) (currentJob : Job)

theorem rows_centred_under_widest (hf : currentJob.name ∈ allJobs.map Job.name) :
    CentredRows (buildDependencyGraph currentJob allJobs).nodes := by
  obtain ⟨rel, jl, -, hmem, hg⟩ := buildDependencyGraph_layout allJobs currentJob
  rw [hg]
  exact layoutGraph_centredRows (fun x hx => related_isSome_of_mem allJobs currentJob hf
    ((hmem x).mp hx)) ((hmem _).mpr (.self _ _))

theorem branch_rows_centred :
    branchRoot.name ∈ branchJobs.map Job.name ∧
      CentredRows (buildDependencyGraph branchRoot branchJobs).nodes :=
  ⟨by decide, rows_centred_under_widest branchJobs branchRoot (by decide)⟩

/- The root's row, one node wide, stands centred over the row of its two children. -/
example : (buildDependencyGraph branchRoot branchJobs).nodes.map (fun n => (n.x, n.y, n.level)) =
    [(90, 30, 0), (0, 130, 1), (180, 130, 1)] := by
  decide

end Build

end DependencyDiagram
