import Mathlib.Algebra.Order.Field.Rat
import Mathlib.Tactic.Linarith
import DependencyDiagram.Centring
import DependencyDiagram.Connections

/-!
# What `JobDependencyDiagram` draws

The component draws the memoised graph in an `<svg>` whose size comes from the nodes:
`maxX = Math.max(...nodes.map((n) => n.x + NODE_WIDTH), 300)`, `maxY` likewise from the
bottom of each node's label, and the padding around them. Inside a group shifted by
`svgPadding`, each `DiagramNode` draws its box, a status bar and up to three texts, and each
`DiagramEdge` a cubic Bézier curve from the bottom centre of the parent's box to the top
centre of the child's, both control points at the middle height.

Shapes are kept in the coordinates of the svg; curves are in `ℚ`, as the code's `midY`
may fall between two integers. A text is kept as its anchor point and its UTF-16 code
units, which is what JavaScript's `length` and `substring` count. Styling (colours,
strokes, fonts, shadows) and the arrowhead marker are not modelled; a text's extent
depends on font metrics and is not asserted, only its anchor.
-/

namespace DependencyDiagram

open Relation

/-- `svgPadding`. -/
def svgPadding : Int := 40

/-- `Math.max(...nodes.map((n) => n.x + NODE_WIDTH), 300)`. -/
def maxX (nodes : List DependencyNode) : Int :=
  nodes.foldl (fun m n => max m (n.x + nodeWidth)) 300

/-- `Math.max(...nodes.map((n) => n.y + NODE_HEIGHT + 30), 150)`. -/
def maxY (nodes : List DependencyNode) : Int :=
  nodes.foldl (fun m n => max m (n.y + nodeHeight + 30)) 150

/-- `svgWidth = maxX + svgPadding * 2`. -/
def svgWidth (nodes : List DependencyNode) : Int := maxX nodes + svgPadding * 2

/-- `svgHeight = maxY + svgPadding`. -/
def svgHeight (nodes : List DependencyNode) : Int := maxY nodes + svgPadding

/-- An axis-aligned rectangle: corner, width and height. -/
structure Box where
  x : Int
  y : Int
  width : Int
  height : Int
deriving DecidableEq, Repr

/-- The point `p` lies in the rectangle, its edges included. -/
def Box.Contains (b : Box) (p : ℚ × ℚ) : Prop :=
  (b.x : ℚ) ≤ p.1 ∧ p.1 ≤ b.x + b.width ∧ (b.y : ℚ) ≤ p.2 ∧ p.2 ≤ b.y + b.height

/-- The point at `t` of the cubic Bézier curve with control values `a b c d` on one axis:
what the path command `C` draws. -/
def bezierAt (a b c d t : ℚ) : ℚ :=
  (1 - t) ^ 3 * a + 3 * (1 - t) ^ 2 * t * b + 3 * (1 - t) * t ^ 2 * c + t ^ 3 * d

/-- The path `M p0 C p1, p2, p3`. -/
structure Curve where
  p0 : ℚ × ℚ
  p1 : ℚ × ℚ
  p2 : ℚ × ℚ
  p3 : ℚ × ℚ

/-- The point of the curve at `t ∈ [0, 1]`. -/
def Curve.at (k : Curve) (t : ℚ) : ℚ × ℚ :=
  (bezierAt k.p0.1 k.p1.1 k.p2.1 k.p3.1 t, bezierAt k.p0.2 k.p1.2 k.p2.2 k.p3.2 t)

/-- An element of the svg, in the svg's coordinates. -/
inductive Shape where
  | rect (b : Box)
  | text (x y : Int) (content : List Nat) (title : Option (List Nat))
  | path (k : Curve)

/-- The shape lies in the rectangle `c`: a box all of it, a text its anchor, a path every
point of its curve. -/
def Shape.Inside (c : Box) : Shape → Prop
  | .rect b =>
    c.x ≤ b.x ∧ b.x + b.width ≤ c.x + c.width ∧ c.y ≤ b.y ∧ b.y + b.height ≤ c.y + c.height
  | .text x y _ _ => c.x ≤ x ∧ x ≤ c.x + c.width ∧ c.y ≤ y ∧ y ≤ c.y + c.height
  | .path k => ∀ t : ℚ, 0 ≤ t → t ≤ 1 → c.Contains (k.at t)

/-- The UTF-16 code units of a string. -/
def utf16Units (s : String) : List Nat :=
  s.data.flatMap fun c =>
    if c.val.toNat < 0x10000 then [c.val.toNat]
    else [0xD800 + (c.val.toNat - 0x10000) / 0x400, 0xDC00 + (c.val.toNat - 0x10000) % 0x400]

/-- `displayName.length > 18 ? displayName.substring(0, 15) + '...' : displayName`. -/
def truncatedName (displayName : List Nat) : List Nat :=
  if displayName.length > 18 then displayName.take 15 ++ utf16Units "..." else displayName

/-- The background box of `DiagramNode`, placed by `translate(node.x, node.y)` inside the
group shifted by `svgPadding`. -/
def diagramNodeBox (node : DependencyNode) : Box :=
  ⟨svgPadding + node.x, node.y, nodeWidth, nodeHeight⟩

/-- What `DiagramNode` draws: the box, the status bar, the name (truncated, the full
`displayName || name` as its title), the status (`node.status || 'untriggered'`), and for
the current job the label under the box. -/
def diagramNodeShapes (node : DependencyNode) : List Shape :=
  let x := svgPadding + node.x
  let displayName := utf16Units ((truthy (some node.displayName)).getD node.name)
  [.rect (diagramNodeBox node), .rect ⟨x, node.y, 4, nodeHeight⟩,
    .text (x + nodeWidth / 2) (node.y + nodeHeight / 2 - 8) (truncatedName displayName)
      (some displayName),
    .text (x + nodeWidth / 2) (node.y + nodeHeight / 2 + 12)
      (utf16Units ((truthy (some node.status)).getD "untriggered")) none] ++
  if node.isCurrent then
    [.text (x + nodeWidth / 2) (node.y + nodeHeight + 18) (utf16Units "(current job)") none]
  else []

/-- The job `handleNodeClick` redirects to when the node is clicked: none for the current
job (`onClick && !node.isCurrent && onClick(node.id)`). -/
def nodeClickTarget (node : DependencyNode) : Option String :=
  if node.isCurrent then none else some node.id

/-- What `DiagramEdge` draws: `M startX startY C startX midY, endX midY, endX endY` between
the end points of `diagramEdgeEnds`, shifted by `svgPadding`; `midY` may fall between two
integers. -/
def diagramEdgeCurve (edge : DependencyEdge) : Curve :=
  let ((startX, startY), (endX, endY)) := diagramEdgeEnds edge
  let midY : ℚ := ((startY : ℚ) + endY) / 2
  ⟨((svgPadding + startX : Int), startY), ((svgPadding + startX : Int), midY),
    ((svgPadding + endX : Int), midY), ((svgPadding + endX : Int), endY)⟩

/-- The svg's own rectangle. -/
def diagramCanvas (nodes : List DependencyNode) : Box := ⟨0, 0, svgWidth nodes, svgHeight nodes⟩

/-- Everything the `<svg>` holds: the edges first, behind the nodes. -/
def diagramShapes (g : Graph) : List Shape :=
  g.edges.map (fun e => .path (diagramEdgeCurve e)) ++ g.nodes.flatMap diagramNodeShapes

section Bezier

variable {a b c d lo hi t : ℚ}

theorem bezierAt_sub (x : ℚ) :
    bezierAt a b c d t - x = bezierAt (a - x) (b - x) (c - x) (d - x) t := by
  unfold bezierAt
  ring

theorem sub_bezierAt (x : ℚ) :
    x - bezierAt a b c d t = bezierAt (x - a) (x - b) (x - c) (x - d) t := by
  unfold bezierAt
  ring

/-- The curve read backwards. -/
theorem bezierAt_reverse : bezierAt a b c d t = bezierAt d c b a (1 - t) := by
  unfold bezierAt
  ring

/-- On `[0, 1]` the four weights are non-negative. -/
theorem bezierAt_nonneg (ha : 0 ≤ a) (hb : 0 ≤ b) (hc : 0 ≤ c) (hd : 0 ≤ d) (ht0 : 0 ≤ t)
    (ht1 : t ≤ 1) : 0 ≤ bezierAt a b c d t := by
  have hs : 0 ≤ 1 - t := by linarith
  unfold bezierAt
  have w1 : 0 ≤ 3 * (1 - t) ^ 2 * t := by positivity
  have w2 : 0 ≤ 3 * (1 - t) * t ^ 2 := by positivity
  exact add_nonneg (add_nonneg (add_nonneg (mul_nonneg (pow_nonneg hs 3) ha)
    (mul_nonneg w1 hb)) (mul_nonneg w2 hc)) (mul_nonneg (pow_nonneg ht0 3) hd)

/-- Past `t = 0`, a positive last control value makes the curve positive. -/
theorem bezierAt_pos (ha : 0 ≤ a) (hb : 0 ≤ b) (hc : 0 ≤ c) (hd : 0 < d) (ht0 : 0 < t)
    (ht1 : t ≤ 1) : 0 < bezierAt a b c d t := by
  have h := bezierAt_nonneg ha hb hc (le_refl 0) ht0.le ht1
  have hlast : 0 < t ^ 3 * d := mul_pos (pow_pos ht0 3) hd
  unfold bezierAt at h ⊢
  linarith

/-- A cubic Bézier curve stays within any interval holding its four control values. -/
theorem bezierAt_mem (ha : lo ≤ a ∧ a ≤ hi) (hb : lo ≤ b ∧ b ≤ hi) (hc : lo ≤ c ∧ c ≤ hi)
    (hd : lo ≤ d ∧ d ≤ hi) (ht0 : 0 ≤ t) (ht1 : t ≤ 1) :
    lo ≤ bezierAt a b c d t ∧ bezierAt a b c d t ≤ hi := by
  constructor
  · rw [← sub_nonneg, bezierAt_sub]
    exact bezierAt_nonneg (sub_nonneg.2 ha.1) (sub_nonneg.2 hb.1) (sub_nonneg.2 hc.1)
      (sub_nonneg.2 hd.1) ht0 ht1
  · rw [← sub_nonneg, sub_bezierAt]
    exact bezierAt_nonneg (sub_nonneg.2 ha.2) (sub_nonneg.2 hb.2) (sub_nonneg.2 hc.2)
      (sub_nonneg.2 hd.2) ht0 ht1

/-- Strictly inside, a curve whose middle control values are the midpoint of its ends
lies strictly between them. -/
theorem bezierAt_mid_strict (had : a < d) (ht0 : 0 < t) (ht1 : t < 1) :
    a < bezierAt a ((a + d) / 2) ((a + d) / 2) d t ∧
      bezierAt a ((a + d) / 2) ((a + d) / 2) d t < d := by
  have hm : 0 ≤ (a + d) / 2 - a ∧ 0 ≤ d - (a + d) / 2 := by constructor <;> linarith
  constructor
  · rw [← sub_pos, bezierAt_sub, sub_self]
    exact bezierAt_pos le_rfl hm.1 hm.1 (sub_pos.2 had) ht0 ht1.le
  · rw [← sub_pos, sub_bezierAt, sub_self, bezierAt_reverse]
    exact bezierAt_pos le_rfl hm.2 hm.2 (sub_pos.2 had) (by linarith) (by linarith)

/-- A curve whose middle control values are the midpoint of its ends stays within any
interval holding its ends. -/
theorem bezierAt_mid_mem (ha : lo ≤ a ∧ a ≤ hi) (hd : lo ≤ d ∧ d ≤ hi) (ht0 : 0 ≤ t)
    (ht1 : t ≤ 1) :
    lo ≤ bezierAt a ((a + d) / 2) ((a + d) / 2) d t ∧
      bezierAt a ((a + d) / 2) ((a + d) / 2) d t ≤ hi :=
  have hm : lo ≤ (a + d) / 2 ∧ (a + d) / 2 ≤ hi :=
    ⟨by linarith [ha.1, hd.1], by linarith [ha.2, hd.2]⟩
  bezierAt_mem ha hm hm hd ht0 ht1

end Bezier

section Canvas

variable {nodes : List DependencyNode} {n : DependencyNode}

theorem le_maxX (hn : n ∈ nodes) : n.x + nodeWidth ≤ maxX nodes :=
  (foldl_max_spec (fun n : DependencyNode => n.x + nodeWidth) nodes 300).2.1 n hn

theorem le_maxY (hn : n ∈ nodes) : n.y + nodeHeight + 30 ≤ maxY nodes :=
  (foldl_max_spec (fun n : DependencyNode => n.y + nodeHeight + 30) nodes 150).2.1 n hn

/-- A node at `x, y ≥ 0` draws inside the canvas: its box, its bar and the anchors of its
texts, the label under the box included. -/
theorem diagramNodeShapes_inside (hn : n ∈ nodes) (hx : 0 ≤ n.x) (hy : 0 ≤ n.y) :
    ∀ s ∈ diagramNodeShapes n, s.Inside (diagramCanvas nodes) := by
  have hX := le_maxX hn
  have hY := le_maxY hn
  simp only [nodeWidth, nodeHeight] at hX hY
  intro s hs
  simp only [diagramNodeShapes, List.mem_append, List.mem_cons, List.mem_singleton,
    List.not_mem_nil, or_false, List.mem_ite_nil_right] at hs
  rcases hs with (rfl | rfl | rfl | rfl) | ⟨-, rfl⟩
  all_goals
    simp only [Shape.Inside, diagramCanvas, diagramNodeBox, svgWidth, svgHeight, svgPadding,
      nodeWidth, nodeHeight]
    omega

/-- A node's horizontal centre and the bottom of its box, where arrows start and end, lie
within the canvas. -/
theorem node_anchors_within (hn : n ∈ nodes) (hx : 0 ≤ n.x) (hy : 0 ≤ n.y) :
    0 ≤ svgPadding + (n.x + nodeWidth / 2) ∧ svgPadding + (n.x + nodeWidth / 2) ≤ svgWidth nodes ∧
      0 ≤ n.y + nodeHeight ∧ n.y + nodeHeight ≤ svgHeight nodes := by
  have hX := le_maxX hn
  have hY := le_maxY hn
  simp only [svgWidth, svgHeight, svgPadding, nodeWidth, nodeHeight] at hX hY ⊢
  omega

/-- An edge between two nodes at `x, y ≥ 0`, ending at their positions, draws inside the
canvas. -/
theorem diagramEdgeCurve_inside {e : DependencyEdge} {np nc : DependencyNode}
    (hnp : np ∈ nodes) (hnc : nc ∈ nodes) (hxp : 0 ≤ np.x) (hyp : 0 ≤ np.y) (hxc : 0 ≤ nc.x)
    (hyc : 0 ≤ nc.y) (hfx : e.fromX = np.x) (hfy : e.fromY = np.y) (htx : e.toX = nc.x)
    (hty : e.toY = nc.y) :
    (Shape.path (diagramEdgeCurve e)).Inside (diagramCanvas nodes) := by
  obtain ⟨hp0, hp1, hp2, hp3⟩ := node_anchors_within hnp hxp hyp
  obtain ⟨hc0, hc1, -, hc3⟩ := node_anchors_within hnc hxc hyc
  have hcast : ∀ {v w : Int}, 0 ≤ v → v ≤ w → (0 : ℚ) ≤ v ∧ (v : ℚ) ≤ w :=
    fun h0 h1 => ⟨by exact_mod_cast h0, by exact_mod_cast h1⟩
  intro t ht0 ht1
  simp only [Box.Contains, Curve.at, diagramEdgeCurve, diagramEdgeEnds, diagramCanvas, hfx, hfy,
    htx, hty, Int.cast_zero, zero_add]
  have hx := bezierAt_mem (hcast hp0 hp1) (hcast hp0 hp1) (hcast hc0 hc1) (hcast hc0 hc1) ht0 ht1
  have hy := bezierAt_mid_mem (hcast hp2 hp3)
    (hcast hyc (by simp only [nodeHeight] at hc3; omega)) ht0 ht1
  exact ⟨hx.1, hx.2, hy.1, hy.2⟩

end Canvas

section Build

/-- The nodes of the diagram sit at `x, y ≥ 0`, and each edge runs between two of them. -/
theorem diagramGraph_placed (record : Job) (allJobs : List Job) :
    (∀ n ∈ (diagramGraph (some record) allJobs).nodes, 0 ≤ n.x ∧ 0 ≤ n.y) ∧
    ∀ e ∈ (diagramGraph (some record) allJobs).edges,
      ∃ np ∈ (diagramGraph (some record) allJobs).nodes,
      ∃ nc ∈ (diagramGraph (some record) allJobs).nodes,
        e.fromX = np.x ∧ e.fromY = np.y ∧ e.toX = nc.x ∧ e.toY = nc.y := by
  rw [diagramGraph_some]
  split_ifs with hf
  swap
  · exact ⟨fun _ h => absurd h (List.not_mem_nil _), fun _ h => absurd h (List.not_mem_nil _)⟩
  obtain ⟨rel, jl, hrel, hmem, hg⟩ := buildDependencyGraph_layout allJobs record
  have hall : ∀ x ∈ rel, (jobMap allJobs x).isSome :=
    fun x hx => related_isSome_of_mem allJobs record hf ((hmem x).mp hx)
  have hc := @layoutGraph_centredRows (jobMap allJobs) record.name rel jl hall _
    ((hmem _).mpr (.self _ _))
  refine ⟨fun n hn => ?_, fun e he => ?_⟩
  · rw [hg] at hn
    refine ⟨hc.x_nonneg n hn, ?_⟩
    have hy := hc.y_eq n hn
    have hl := hc.level_nonneg n hn
    simp only [levelHeight] at hy
    omega
  · obtain ⟨np, hnp, nc, hnc, -, -, h⟩ := buildDependencyGraph_edge_nodes allJobs record he
    exact ⟨np, hnp, nc, hnc, h⟩

/-- Everything the diagram draws lies inside its svg: every box and bar, the anchor of
every text, and every point of every arrow. -/
theorem drawing_inside_canvas (record : Job) (allJobs : List Job) :
    ∀ s ∈ diagramShapes (diagramGraph (some record) allJobs),
      s.Inside (diagramCanvas (diagramGraph (some record) allJobs).nodes) := by
  obtain ⟨hnodes, hedges⟩ := diagramGraph_placed record allJobs
  intro s hs
  rcases List.mem_append.mp hs with hs | hs
  · obtain ⟨e, he, rfl⟩ := List.mem_map.mp hs
    obtain ⟨np, hnp, nc, hnc, h1, h2, h3, h4⟩ := hedges e he
    exact diagramEdgeCurve_inside hnp hnc (hnodes np hnp).1 (hnodes np hnp).2
      (hnodes nc hnc).1 (hnodes nc hnc).2 h1 h2 h3 h4
  · obtain ⟨n, hn, hs⟩ := List.mem_flatMap.mp hs
    exact diagramNodeShapes_inside hn (hnodes n hn).1 (hnodes n hn).2 s hs

theorem pair_arrow_inside_canvas :
    (⟨"A", "B", 0, 30, 0, 130⟩ : DependencyEdge) ∈ (diagramGraph (some pairRoot) pairJobs).edges ∧
      (Shape.path (diagramEdgeCurve ⟨"A", "B", 0, 30, 0, 130⟩)).Inside
        (diagramCanvas (diagramGraph (some pairRoot) pairJobs).nodes) :=
  have he : (⟨"A", "B", 0, 30, 0, 130⟩ : DependencyEdge) ∈
      (diagramGraph (some pairRoot) pairJobs).edges := by decide
  ⟨he, drawing_inside_canvas pairRoot pairJobs _
    (List.mem_append_left _ (List.mem_map_of_mem (fun e => Shape.path (diagramEdgeCurve e)) he))⟩

/-- On a well-formed collection no arrow passes through a node box: strictly between its
ends an arrow runs in the band between its parent's row and its child's, below every box of
the one and above every box of the other. -/
theorem arrows_clear_of_boxes {allJobs : List Job} (hwf : WellFormed allJobs) (record : Job) :
    ∀ e ∈ (diagramGraph (some record) allJobs).edges,
    ∀ n ∈ (diagramGraph (some record) allJobs).nodes,
    ∀ t : ℚ, 0 < t → t < 1 → ¬ (diagramNodeBox n).Contains ((diagramEdgeCurve e).at t) := by
  rw [diagramGraph_some]
  split_ifs
  swap
  · exact fun e he => absurd he (List.not_mem_nil e)
  obtain ⟨rel, jl, hrel, -, hlev, hg⟩ := hwf.buildDependencyGraph_generations record
  intro e he n hn t ht0 ht1 hin
  obtain ⟨-, -, -, -, s, -, -, -, -, hfy, hty, -⟩ := hwf.edge_rows hrel hlev hg he
  have hny := (layoutGraph_node_y (hg ▸ hn)).2
  -- rows are a level apart: the box of `n` is in or above the parent's row, or in or below
  -- the child's, which is one row down
  have hrows : (n.y + nodeHeight ≤ e.fromY + nodeHeight ∨ e.toY ≤ n.y) ∧
      e.fromY + nodeHeight < e.toY := by
    rw [hny, hfy, hty]
    simp only [rowY, levelHeight, nodeHeight]
    omega
  have hy := bezierAt_mid_strict (a := ((e.fromY + nodeHeight : Int) : ℚ)) (d := e.toY)
    (by exact_mod_cast hrows.2) ht0 ht1
  simp only [Box.Contains, Curve.at, diagramEdgeCurve, diagramEdgeEnds, diagramNodeBox] at hin
  rcases hrows.1 with hrow | hrow
  · linarith [hin.2.2.2, hy.1,
      (by exact_mod_cast hrow : (n.y : ℚ) + nodeHeight ≤ ((e.fromY + nodeHeight : Int) : ℚ))]
  · linarith [hin.2.2.1, hy.2, (by exact_mod_cast hrow : (e.toY : ℚ) ≤ n.y)]

theorem family_arrows_clear_of_boxes :
    WellFormed familyJobs ∧
      ∀ e ∈ (diagramGraph (some familyRoot) familyJobs).edges,
      ∀ n ∈ (diagramGraph (some familyRoot) familyJobs).nodes,
      ∀ t : ℚ, 0 < t → t < 1 → ¬ (diagramNodeBox n).Contains ((diagramEdgeCurve e).at t) :=
  ⟨familyJobs_wellFormed, arrows_clear_of_boxes familyJobs_wellFormed familyRoot⟩

end Build

end DependencyDiagram
