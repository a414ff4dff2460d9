import DependencyDiagram.Locality

/-!
# Generations on well-formed collections

On a collection with distinct names, whose `dependent_jobs` entries agree with the
`parent_job` of the jobs they name, and whose `parent_job` links have no cycle, the links
form a forest: a `dependent_jobs` link is a `parent_job` link reversed, every job has one
parent, and every path from the focal job has one length. The overwrites of
`jobLevels.set` in both walks then never change a level: a job `i` links up the focal job's
chain of non-empty `parent_job` values ends at level `-i`, a job `d` links down at `d`.
The rows of the layout are these levels, so each generation has its own row, no row
between two drawn ones is empty, and every edge goes one row down.

The chain is the one the code follows: an empty `parent_job` is no parent to it, even when
a job of that name exists. Without the cycle condition the overwrites do change levels: when
two jobs are each other's parent, the focal job is re-levelled by its own ancestor.
-/

namespace DependencyDiagram

open Relation

/-- The collections of the layering property: distinct names, every `dependent_jobs` entry
naming a job of the collection names a job whose `parent_job` is the listing job, and no
job reaches itself by `parent_job` links through jobs of the collection. -/
structure WellFormed (allJobs : List Job) : Prop where
  distinct : (allJobs.map Job.name).Nodup
  consistent : ∀ j ∈ allJobs, ∀ c ∈ childNames j, ∀ k ∈ allJobs, k.name = c →
    k.parentJob = some j.name
  acyclic : Acyclic (ParentLink (jobMap allJobs))

/-- A rank that drops along every `parent_job` rules out a cycle. -/
theorem acyclic_of_rank {allJobs : List Job} (rank : String → Nat)
    (h : ∀ j ∈ allJobs, ∀ p ∈ j.parentJob, rank p < rank j.name) :
    Acyclic (ParentLink (jobMap allJobs)) := by
  have hstep : ∀ a b, ParentLink (jobMap allJobs) a b → rank b < rank a := by
    rintro a b ⟨job, hj, hp, -⟩
    obtain ⟨hmem, rfl⟩ := jobMap_eq_some hj
    exact h job hmem b hp
  intro a ha
  suffices ∀ b, TransGen (ParentLink (jobMap allJobs)) a b → rank b < rank a from
    lt_irrefl _ (this a ha)
  intro b hab
  induction hab with
  | single hl => exact hstep _ _ hl
  | tail _ hl ih => exact (hstep _ _ hl).trans ih

section Forest

variable {allJobs : List Job}

/-- A `dependent_jobs` link is a `parent_job` link reversed. -/
theorem WellFormed.parentLink_of_down (hwf : WellFormed allJobs) {a b : String}
    (h : Link (jobMap allJobs) childNames a b) : ParentLink (jobMap allJobs) b a := by
  obtain ⟨j, hj, hb, hs⟩ := h
  obtain ⟨k, hk⟩ := Option.isSome_iff_exists.mp hs
  obtain ⟨hjm, rfl⟩ := jobMap_eq_some hj
  obtain ⟨hkm, rfl⟩ := jobMap_eq_some hk
  exact ⟨k, hk, hwf.consistent j hjm k.name hb k hkm rfl, by simp [hj]⟩

theorem WellFormed.transGen_parentLink_of_down (hwf : WellFormed allJobs) {a b : String}
    (h : TransGen (Link (jobMap allJobs) childNames) a b) :
    TransGen (ParentLink (jobMap allJobs)) b a := by
  induction h with
  | single hl => exact .single (hwf.parentLink_of_down hl)
  | tail _ hl ih => exact .head (hwf.parentLink_of_down hl) ih

theorem WellFormed.down_onePredecessor (hwf : WellFormed allJobs) :
    OnePredecessor (Link (jobMap allJobs) childNames) := fun a b c ha hb =>
  parentLink_oneSuccessor _ c a b (hwf.parentLink_of_down ha) (hwf.parentLink_of_down hb)

theorem WellFormed.down_acyclic (hwf : WellFormed allJobs) :
    Acyclic (Link (jobMap allJobs) childNames) := fun a h =>
  hwf.acyclic a (hwf.transGen_parentLink_of_down h)

theorem WellFormed.up_acyclic (hwf : WellFormed allJobs) :
    Acyclic (Link (jobMap allJobs) parentNames) := fun a h =>
  hwf.acyclic a (TransGen.mono (fun _ _ => Link.parentLink) h)

/-- No job is both above and below the focal job. -/
theorem WellFormed.not_up_and_down (hwf : WellFormed allJobs) {f x : String}
    (hu : TransGen (Link (jobMap allJobs) parentNames) f x)
    (hd : TransGen (Link (jobMap allJobs) childNames) f x) : False :=
  hwf.acyclic f ((TransGen.mono (fun _ _ => Link.parentLink) hu).trans
    (hwf.transGen_parentLink_of_down hd))

theorem WellFormed.down_length_unique (hwf : WellFormed allJobs) {i j : Nat} {a b : String}
    (hi : Steps (Link (jobMap allJobs) childNames) i a b)
    (hj : Steps (Link (jobMap allJobs) childNames) j a b) : i = j :=
  Steps.length_unique hwf.down_onePredecessor hwf.down_acyclic hi hj

theorem WellFormed.up_length_unique (hwf : WellFormed allJobs) {i j : Nat} {a b : String}
    (hi : Steps (Link (jobMap allJobs) parentNames) i a b)
    (hj : Steps (Link (jobMap allJobs) parentNames) j a b) : i = j :=
  Steps.length_unique (R := Function.swap (Link (jobMap allJobs) parentNames))
    (fun x y z hx hy => ancestorLink_oneSuccessor _ z x y hx hy)
    (fun x h => hwf.up_acyclic x (transGen_swap.mp h)) hi.swap hj.swap

end Forest

/-- `x` is `t` generations from `f`: `-t` links up the chain of non-empty `parent_job`
values, or `t` links down `dependent_jobs`. -/
def Generation (get : String → Option Job) (f x : String) (t : Int) : Prop :=
  (∃ i : Nat, Steps (Link get parentNames) i f x ∧ t = -i) ∨
    ∃ d : Nat, Steps (Link get childNames) d f x ∧ t = d

section Generation

variable {get : String → Option Job} {f x : String} {t : Int}

theorem Generation.self (get : String → Option Job) (f : String) : Generation get f f 0 :=
  .inl ⟨0, .refl f, rfl⟩

theorem Generation.related (h : Generation get f x t) : Related get f x := by
  rcases h with ⟨i, hi, -⟩ | ⟨d, hd, -⟩
  · exact (reflTransGen_iff_eq_or_transGen.mp hi.reflTransGen).imp_right .inl
  · exact (reflTransGen_iff_eq_or_transGen.mp hd.reflTransGen).imp_right .inr

theorem generation_of_related (h : Related get f x) : ∃ t, Generation get f x t := by
  rcases h with rfl | h | h
  · exact ⟨0, .self get _⟩
  · obtain ⟨i, -, hi⟩ := Steps.of_transGen h
    exact ⟨-i, .inl ⟨i, hi, rfl⟩⟩
  · obtain ⟨d, -, hd⟩ := Steps.of_transGen h
    exact ⟨d, .inr ⟨d, hd, rfl⟩⟩

/-- A generation at or above the focal job is reached up its chain. -/
theorem Generation.up_of_nonpos (h : Generation get f x t) (ht : t ≤ 0) :
    ∃ i : Nat, t = -i ∧ Steps (Link get parentNames) i f x := by
  rcases h with ⟨i, hi, rfl⟩ | ⟨d, hd, rfl⟩
  · exact ⟨i, rfl, hi⟩
  · obtain rfl : d = 0 := by omega
    obtain rfl := Steps.zero_iff.mp hd
    exact ⟨0, rfl, .refl f⟩

/-- A generation below the focal job is reached down `dependent_jobs`. -/
theorem Generation.down_of_pos (h : Generation get f x t) (ht : 0 < t) :
    ∃ d : Nat, t = d ∧ Steps (Link get childNames) d f x := by
  rcases h with ⟨i, -, rfl⟩ | ⟨d, hd, rfl⟩
  · omega
  · exact ⟨d, rfl, hd⟩

/-- Between two generations every generation is reached. -/
theorem Generation.between {a b : String} {s u : Int} (ha : Generation get f a s)
    (hb : Generation get f b u) (hs : s ≤ t) (hu : t ≤ u) : ∃ x, Generation get f x t := by
  rcases le_or_lt t 0 with ht | ht
  · obtain ⟨i, rfl, hi⟩ := ha.up_of_nonpos (hs.trans ht)
    obtain ⟨x, hx, -⟩ := hi.split_at (show t.natAbs ≤ i by omega)
    exact ⟨x, .inl ⟨_, hx, by omega⟩⟩
  · obtain ⟨d, rfl, hd⟩ := hb.down_of_pos (ht.trans_le hu)
    obtain ⟨x, hx, -⟩ := hd.split_at (show t.toNat ≤ d by omega)
    exact ⟨x, .inr ⟨_, hx, by omega⟩⟩

/-- On a well-formed collection the parent of a job of generation `t` is of generation
`t - 1`. -/
theorem WellFormed.generation_parent {allJobs : List Job} (hwf : WellFormed allJobs)
    {c p : String} (hc : Generation (jobMap allJobs) f c t)
    (hl : Link (jobMap allJobs) parentNames c p) : Generation (jobMap allJobs) f p (t - 1) := by
  rcases hc with ⟨i, hi, rfl⟩ | ⟨d, hd, rfl⟩
  · exact .inl ⟨i + 1, .tail hi hl, by omega⟩
  cases d with
  | zero =>
    obtain rfl := Steps.zero_iff.mp hd
    exact .inl ⟨1, .tail (.refl _) hl, by omega⟩
  | succ d =>
    obtain ⟨m, hm, hmc⟩ := Steps.succ_iff.mp hd
    obtain rfl := parentLink_oneSuccessor _ c m p (hwf.parentLink_of_down hmc) hl.parentLink
    exact .inr ⟨d, hm, by omega⟩

/-- On a well-formed collection a job is of one generation only. -/
theorem WellFormed.generation_unique {allJobs : List Job} (hwf : WellFormed allJobs) {s : Int}
    (hs : Generation (jobMap allJobs) f x s) (ht : Generation (jobMap allJobs) f x t) :
    s = t := by
  have hud : ∀ i d : Nat, Steps (Link (jobMap allJobs) parentNames) i f x →
      Steps (Link (jobMap allJobs) childNames) d f x → i = 0 ∧ d = 0 := by
    intro i d hi hd
    rcases Nat.eq_zero_or_pos i with rfl | hi0 <;> rcases Nat.eq_zero_or_pos d with rfl | hd0
    · exact ⟨rfl, rfl⟩
    · obtain rfl := Steps.zero_iff.mp hi
      exact (hwf.down_acyclic _ (hd.transGen hd0)).elim
    · obtain rfl := Steps.zero_iff.mp hd
      exact (hwf.up_acyclic _ (hi.transGen hi0)).elim
    · exact (hwf.not_up_and_down (hi.transGen hi0) (hd.transGen hd0)).elim
  rcases hs with ⟨i, hi, rfl⟩ | ⟨d, hd, rfl⟩ <;>
    rcases ht with ⟨i', hi', rfl⟩ | ⟨d', hd', rfl⟩
  · rw [hwf.up_length_unique hi hi']
  · obtain ⟨rfl, rfl⟩ := hud i d' hi hd'
    rfl
  · obtain ⟨rfl, rfl⟩ := hud i' d hi' hd
    rfl
  · rw [hwf.down_length_unique hd hd']

/-- On a well-formed collection a related job whose parent is of generation `t` is of
generation `t + 1`. -/
theorem WellFormed.generation_child {allJobs : List Job} (hwf : WellFormed allJobs)
    {c p : String} (hc : Related (jobMap allJobs) f c) (hl : Link (jobMap allJobs) parentNames c p)
    (hp : Generation (jobMap allJobs) f p t) : Generation (jobMap allJobs) f c (t + 1) := by
  obtain ⟨u, hu⟩ := generation_of_related hc
  obtain rfl : t = u - 1 := hwf.generation_unique hp (hwf.generation_parent hu hl)
  rwa [sub_add_cancel]

end Generation

section Levels

variable {get : String → Option Job} {allJobs : List Job} {f : String} {fuel fuel' : Nat}
variable {as ds : List String} {wa wd : Walk}

/-- The levels the two walks leave, on any links: the focal job keeps level 0 unless a walk
pushes it, a job the descendant walk pushes ends `k` links down, and a job only the ancestor
walk pushes ends `k` links up. -/
theorem walks_final_levels
    (ha : findAncestors get fuel f 0 ⟨[], fun k => if k = f then some 0 else none⟩ =
      some (as, wa))
    (hd : findDescendants get fuel' f 0 ⟨[], wa.jobLevels⟩ = some (ds, wd)) :
    (f ∉ as → f ∉ ds → levelOf wd.jobLevels f = 0) ∧
    (∀ x ∈ ds, ∃ k : Nat, 0 < k ∧ levelOf wd.jobLevels x = k ∧
      Steps (Link get childNames) k f x) ∧
    ∀ x ∈ as, x ∉ ds → ∃ k : Nat, 0 < k ∧ levelOf wd.jobLevels x = -k ∧
      Steps (Link get parentNames) k f x := by
  obtain ⟨hwa, hka⟩ := walk_writesLevels ha
  obtain ⟨hwd, hkd⟩ := walk_writesLevels hd
  dsimp only at hwa hka hwd hkd
  refine ⟨fun hfa hfd => by simp [levelOf, hkd f hfd, hka f hfa], fun x hx => ?_,
    fun x hxa hxd => ?_⟩
  · obtain ⟨k, hk, hkx, hp⟩ := hwd x hx
    exact ⟨k, hk, by simp [levelOf, hkx], hp⟩
  · obtain ⟨k, hk, hkx, hp⟩ := hwa x hxa
    exact ⟨k, hk, by simp [levelOf, hkd x hxd, hkx], hp⟩

/-- On a well-formed collection the overwrites of `jobLevels.set` never change a level:
every related job ends at its generation. -/
theorem WellFormed.level_eq (hwf : WellFormed allJobs)
    (ha : findAncestors (jobMap allJobs) fuel f 0
      ⟨[], fun k => if k = f then some 0 else none⟩ = some (as, wa))
    (hd : findDescendants (jobMap allJobs) fuel' f 0 ⟨[], wa.jobLevels⟩ = some (ds, wd))
    {x : String} {t : Int} (hx : Generation (jobMap allJobs) f x t) :
    levelOf wd.jobLevels x = t := by
  obtain ⟨hf0, hdown, hup⟩ := walks_final_levels ha hd
  have hf := hf0 (fun h => hwf.up_acyclic f (walk_found_transGen ha h))
    (fun h => hwf.down_acyclic f (walk_found_transGen hd h))
  rcases hx with ⟨i, hi, rfl⟩ | ⟨d, hd', rfl⟩
  · rcases Nat.eq_zero_or_pos i with rfl | hi0
    · rw [← Steps.zero_iff.mp hi, hf]; rfl
    have hu := hi.transGen hi0
    obtain ⟨k, -, hk, hp⟩ := hup x (walk_found_of_transGen ha hu (hwf.up_acyclic f))
      fun h => hwf.not_up_and_down hu (walk_found_transGen hd h)
    rw [hk, hwf.up_length_unique hp hi]
  · rcases Nat.eq_zero_or_pos d with rfl | hd0
    · rw [← Steps.zero_iff.mp hd', hf]; rfl
    obtain ⟨k, -, hk, hp⟩ := hdown x (walk_found_of_transGen hd (hd'.transGen hd0)
      (hwf.down_acyclic f))
    rw [hk, hwf.down_length_unique hp hd']

end Levels

section Rows

variable {get : String → Option Job} {f : String} {rel : List String}
variable {jobLevels : String → Option Int}

/-- A node sits on the row of its name's level. -/
theorem layoutGraph_node_y {n : DependencyNode}
    (hn : n ∈ (layoutGraph get f rel jobLevels).nodes) :
    n.id ∈ rel ∧
      n.y = rowY (sortedLevels (levelGroups jobLevels rel)) (levelOf jobLevels n.id) := by
  obtain ⟨p, hp, hnp⟩ := mem_layoutGraph_nodes.mp hn
  obtain ⟨-, hid, -, hy, -⟩ := nodeOf_spec hnp
  rw [hid, hy]
  obtain ⟨-, -, -, hpy, -⟩ := placement_row hp
  exact ⟨mem_placement_rel hp, hpy⟩

/-- A position of `nodePositions` is the position of the name's placement. -/
theorem nodePositions_eq (hrel : rel.Nodup) {x : String} (hx : x ∈ rel) {px py : Int}
    (h : nodePositions (layoutPlacements jobLevels rel) x = some (px, py)) :
    ∃ p ∈ layoutPlacements jobLevels rel, p.jobName = x ∧ p.x = px ∧ p.y = py := by
  obtain ⟨p, hp, rfl⟩ := @exists_placement jobLevels rel hrel _ hx
  rw [nodePositions_placement hrel hp] at h
  simp only [Option.some.injEq, Prod.mk.injEq] at h
  exact ⟨p, hp, rfl, h⟩

/-- An edge runs between the placements of its two names. -/
theorem layoutGraph_edge_placements (hrel : rel.Nodup) {e : DependencyEdge}
    (he : e ∈ (layoutGraph get f rel jobLevels).edges) :
    ∃ pf ∈ layoutPlacements jobLevels rel, ∃ pt ∈ layoutPlacements jobLevels rel,
      pf.jobName = e.«from» ∧ pt.jobName = e.«to» ∧ pf.x = e.fromX ∧ pf.y = e.fromY ∧
      pt.x = e.toX ∧ pt.y = e.toY := by
  obtain ⟨hc, -, -, -, hr, hposf, hpost⟩ := mem_layoutGraph_edges.mp he
  obtain ⟨pf, hpf, hnf, hxf, hyf⟩ := nodePositions_eq hrel hr hposf
  obtain ⟨pt, hpt, hnt, hxt, hyt⟩ := nodePositions_eq hrel hc hpost
  exact ⟨pf, hpf, pt, hpt, hnf, hnt, hxf, hyf, hxt, hyt⟩

end Rows

section Build

variable (allJobs : List Job) (currentJob : Job)

/-- On a well-formed collection `buildDependencyGraph` lays out the related names, each
once, at their generations. -/
theorem WellFormed.buildDependencyGraph_generations {allJobs : List Job}
    (hwf : WellFormed allJobs) (currentJob : Job) :
    ∃ rel jobLevels, rel.Nodup ∧
      (∀ x, x ∈ rel ↔ Related (jobMap allJobs) currentJob.name x) ∧
      (∀ x t, Generation (jobMap allJobs) currentJob.name x t → levelOf jobLevels x = t) ∧
      buildDependencyGraph currentJob allJobs =
        layoutGraph (jobMap allJobs) currentJob.name rel jobLevels := by
  obtain ⟨as, wa, ds, wd, ha, hd, hg⟩ := buildDependencyGraph_eq currentJob allJobs
  exact ⟨_, _, nodup_relatedJobs _ _ _, mem_relatedJobs ha hd,
    fun _ _ => hwf.level_eq ha hd, hg⟩

/-- An edge of a well-formed diagram runs from the placement of a job of some generation `t`
on row `t` to that of its child, of generation `t + 1`, on row `t + 1`. -/
theorem WellFormed.edge_rows {allJobs : List Job} (hwf : WellFormed allJobs)
    {currentJob : Job} {rel : List String} {jl : String → Option Int} (hrel : rel.Nodup)
    (hlev : ∀ x t, Generation (jobMap allJobs) currentJob.name x t → levelOf jl x = t)
    (hg : buildDependencyGraph currentJob allJobs =
      layoutGraph (jobMap allJobs) currentJob.name rel jl)
    {e : DependencyEdge} (he : e ∈ (buildDependencyGraph currentJob allJobs).edges) :
    ∃ pf ∈ layoutPlacements jl rel, ∃ pt ∈ layoutPlacements jl rel, ∃ t,
      pf.jobName = e.«from» ∧ pt.jobName = e.«to» ∧ pf.x = e.fromX ∧ pt.x = e.toX ∧
      e.fromY = rowY (sortedLevels (levelGroups jl rel)) t ∧
      e.toY = rowY (sortedLevels (levelGroups jl rel)) (t + 1) ∧
      Generation (jobMap allJobs) currentJob.name e.«from» t ∧
      Generation (jobMap allJobs) currentJob.name e.«to» (t + 1) ∧
      Link (jobMap allJobs) parentNames e.«to» e.«from» := by
  have hl : EdgeRel (buildDependencyGraph currentJob allJobs) e.«from» e.«to» := ⟨e, he, rfl, rfl⟩
  rw [edgeRel_eq_parent_links] at hl
  obtain ⟨t, ht⟩ := generation_of_related hl.1
  have hu := hwf.generation_child hl.2.1 hl.2.2 ht
  rw [hg] at he
  obtain ⟨pf, hpf, pt, hpt, hnf, hnt, hxf, hyf, hxt, hyt⟩ := layoutGraph_edge_placements hrel he
  obtain ⟨-, -, -, hrowf, -⟩ := placement_row hpf
  obtain ⟨-, -, -, hrowt, -⟩ := placement_row hpt
  exact ⟨pf, hpf, pt, hpt, t, hnf, hnt, hxf, hxt, by rw [← hyf, hrowf, hnf, hlev _ _ ht],
    by rw [← hyt, hrowt, hnt, hlev _ _ hu], ht, hu, hl.2.2⟩

/-- The rows of a well-formed diagram are the generations: every job of generation `t` is
drawn on row `t`, every node is some generation's, and every edge goes from a row to the
next. -/
theorem WellFormed.rows_are_generations {allJobs : List Job} (hwf : WellFormed allJobs)
    (currentJob : Job) (hf : currentJob.name ∈ allJobs.map Job.name) :
    ∃ sorted : List Int,
      (∀ x t, Generation (jobMap allJobs) currentJob.name x t →
        ∃ n ∈ (buildDependencyGraph currentJob allJobs).nodes,
          n.id = x ∧ n.y = rowY sorted t) ∧
      (∀ n ∈ (buildDependencyGraph currentJob allJobs).nodes,
        ∃ t, Generation (jobMap allJobs) currentJob.name n.id t ∧ n.y = rowY sorted t) ∧
      ∀ e ∈ (buildDependencyGraph currentJob allJobs).edges,
        ∃ t, e.fromY = rowY sorted t ∧ e.toY = rowY sorted (t + 1) := by
  obtain ⟨rel, jl, hrel, hmem, hlev, hg⟩ := hwf.buildDependencyGraph_generations currentJob
  rw [hg]
  have hall : ∀ x ∈ rel, (jobMap allJobs x).isSome :=
    fun x hx => related_isSome_of_mem allJobs currentJob hf ((hmem x).mp hx)
  refine ⟨sortedLevels (levelGroups jl rel), fun x t h => ?_, fun n hn => ?_, fun e he => ?_⟩
  · have hx := (hmem x).mpr h.related
    obtain ⟨p, -, rfl, n, hn, hnp⟩ := @exists_layout_node _ currentJob.name _ jl hrel _ hx
      (hall x hx)
    have hid : n.id = p.jobName := (nodeOf_spec hnp).2.1
    exact ⟨n, hn, hid, by rw [(layoutGraph_node_y hn).2, hid, hlev _ _ h]⟩
  · obtain ⟨hr, hy⟩ := layoutGraph_node_y hn
    obtain ⟨t, ht⟩ := generation_of_related ((hmem _).mp hr)
    exact ⟨t, ht, by rw [hy, hlev _ _ ht]⟩
  · obtain ⟨-, -, -, -, t, -, -, -, -, hyf, hyt, -⟩ := hwf.edge_rows hrel hlev hg (hg ▸ he)
    exact ⟨t, hyf, hyt⟩

/-- On a well-formed collection holding the focal job, each generation up its chain and down
its `dependent_jobs` is drawn one row per generation, no row between two drawn ones is
empty, and every edge goes one row down. -/
theorem generations_drawn_on_rows (hwf : WellFormed allJobs)
    (hf : currentJob.name ∈ allJobs.map Job.name) :
    ∃ yf : Int,
      (∀ (i : Nat) (x : String), Steps (Link (jobMap allJobs) parentNames) i currentJob.name x →
        ∃ n ∈ (buildDependencyGraph currentJob allJobs).nodes,
          n.id = x ∧ n.y + levelHeight * i = yf) ∧
      (∀ (d : Nat) (x : String), Steps (Link (jobMap allJobs) childNames) d currentJob.name x →
        ∃ n ∈ (buildDependencyGraph currentJob allJobs).nodes,
          n.id = x ∧ n.y = yf + levelHeight * d) ∧
      (∀ a ∈ (buildDependencyGraph currentJob allJobs).nodes,
        ∀ b ∈ (buildDependencyGraph currentJob allJobs).nodes, ∀ k : Nat,
          a.y + levelHeight * k ≤ b.y →
          ∃ c ∈ (buildDependencyGraph currentJob allJobs).nodes, c.y = a.y + levelHeight * k) ∧
      ∀ e ∈ (buildDependencyGraph currentJob allJobs).edges, e.toY = e.fromY + levelHeight := by
  obtain ⟨sorted, hnode, hgen, hedge⟩ := hwf.rows_are_generations currentJob hf
  have hrow : ∀ s t, rowY sorted t = rowY sorted s + levelHeight * (t - s) := fun s t => by
    simp only [rowY]
    ring
  refine ⟨rowY sorted 0, fun i x hx => ?_, fun d x hx => ?_, fun a ha b hb k hk => ?_,
    fun e he => ?_⟩
  · obtain ⟨n, hn, hid, hy⟩ := hnode x _ (.inl ⟨i, hx, rfl⟩)
    exact ⟨n, hn, hid, by rw [hy, hrow 0]; ring⟩
  · obtain ⟨n, hn, hid, hy⟩ := hnode x _ (.inr ⟨d, hx, rfl⟩)
    exact ⟨n, hn, hid, by rw [hy, hrow 0]; ring⟩
  · obtain ⟨s, hs, hsa⟩ := hgen a ha
    obtain ⟨u, hu, hub⟩ := hgen b hb
    have hsu : s + k ≤ u := by
      rw [hsa, hub, hrow s u] at hk
      simp only [levelHeight] at hk
      omega
    obtain ⟨x, hx⟩ := hs.between hu (by omega) hsu
    obtain ⟨c, hc, -, hcy⟩ := hnode x _ hx
    exact ⟨c, hc, by rw [hcy, hsa, hrow s]; ring⟩
  · obtain ⟨t, hf, ht⟩ := hedge e he
    rw [hf, ht, hrow t]
    ring

/-- A root with two dependent jobs, one of them with one dependent job, the other with
two. -/
def familyRoot : Job := { name := "R", dependentJobs := some ["P", "Q"] }

def familyMid : Job := { name := "P", parentJob := some "R", dependentJobs := some ["X"] }

def familyJobs : List Job :=
  [familyRoot, familyMid, { name := "Q", parentJob := some "R", dependentJobs := some ["Y", "Z"] },
    { name := "X", parentJob := some "P" }, { name := "Y", parentJob := some "Q" },
    { name := "Z", parentJob := some "Q" }]

theorem familyJobs_wellFormed : WellFormed familyJobs :=
  ⟨by decide, by decide,
    acyclic_of_rank (fun s => if s = "R" then 0 else if s = "P" ∨ s = "Q" then 1 else 2)
      (by decide)⟩

theorem family_edges_one_row_down :
    WellFormed familyJobs ∧ familyMid.name ∈ familyJobs.map Job.name ∧
      ∀ e ∈ (buildDependencyGraph familyMid familyJobs).edges, e.toY = e.fromY + levelHeight :=
  ⟨familyJobs_wellFormed, by decide,
    (generations_drawn_on_rows familyJobs familyMid familyJobs_wellFormed (by decide)).elim
      fun _ h => h.2.2.2⟩

/-- A `parent_job` of the empty name is no parent to the code, so on a well-formed
collection the job it names is not drawn above the focal job. -/
theorem empty_parent_chain_undrawn :
    WellFormed [emptyNameJob, emptyParentChild] ∧
      Steps (ParentLink (jobMap [emptyNameJob, emptyParentChild])) 1 "c" "" ∧
      ∀ n ∈ (buildDependencyGraph emptyParentChild [emptyNameJob, emptyParentChild]).nodes,
        n.id ≠ "" :=
  ⟨⟨by decide, by decide, acyclic_of_rank (fun s => if s = "c" then 1 else 0) (by decide)⟩,
    .tail (.refl _) ⟨emptyParentChild, by decide, rfl, by decide⟩, by decide⟩

/-- On a well-formed collection the ancestors are drawn one per row: a row at or above the
focal job's holds one node. -/
theorem ancestor_rows_hold_one_node (hwf : WellFormed allJobs)
    (hf : currentJob.name ∈ allJobs.map Job.name) :
    ∀ nf ∈ (buildDependencyGraph currentJob allJobs).nodes, nf.id = currentJob.name →
    ∀ a ∈ (buildDependencyGraph currentJob allJobs).nodes,
    ∀ b ∈ (buildDependencyGraph currentJob allJobs).nodes, a.y = b.y → a.y ≤ nf.y → a = b := by
  obtain ⟨sorted, -, hgen, -⟩ := hwf.rows_are_generations currentJob hf
  obtain ⟨rel, jl, hrel, -, hg⟩ := buildDependencyGraph_layout allJobs currentJob
  have hnd : ((buildDependencyGraph currentJob allJobs).nodes.map DependencyNode.id).Nodup :=
    hg ▸ layoutGraph_node_ids_nodup hrel
  intro nf hnf hid a ha b hb hab hle
  obtain ⟨s, hs, hsy⟩ := hgen nf hnf
  rw [hid] at hs
  obtain rfl : s = 0 := hwf.generation_unique hs (.self _ _)
  obtain ⟨sa, hsa, hya⟩ := hgen a ha
  obtain ⟨sb, hsb, hyb⟩ := hgen b hb
  obtain rfl : sa = sb := rowY_inj (hya.symm.trans (hab.trans hyb))
  have h0 : sa ≤ 0 := by
    rw [hya, hsy] at hle
    simp only [rowY, levelHeight] at hle
    omega
  obtain ⟨i, rfl, hi⟩ := hsa.up_of_nonpos h0
  obtain ⟨i', hii, hi'⟩ := hsb.up_of_nonpos h0
  obtain rfl : i = i' := by omega
  exact List.inj_on_of_nodup_map hnd ha hb
    (Steps.target_unique (ancestorLink_oneSuccessor _) hi hi')

def familyLeaf : Job := { name := "X", parentJob := some "P" }

theorem family_ancestors_in_one_column :
    WellFormed familyJobs ∧
      ∀ a ∈ (buildDependencyGraph familyLeaf familyJobs).nodes,
      ∀ b ∈ (buildDependencyGraph familyLeaf familyJobs).nodes, a.y = b.y → a.y ≤ 230 → a = b :=
  ⟨familyJobs_wellFormed, ancestor_rows_hold_one_node familyJobs familyLeaf familyJobs_wellFormed
    (by decide) ⟨"X", "X", "X", "untriggered", 0, 230, 2, true⟩ (by decide) rfl⟩

/-- Whatever the links, when the focal job is on no cycle of either kind the rows agree with
the direction of discovery: a job reached down `dependent_jobs` is drawn below the focal
job, one reached up `parent_job` and not down is drawn above it. -/
theorem discovery_direction_kept (hup : ¬ TransGen (Link (jobMap allJobs) parentNames)
      currentJob.name currentJob.name)
    (hdown : ¬ TransGen (Link (jobMap allJobs) childNames) currentJob.name currentJob.name) :
    ∀ nf ∈ (buildDependencyGraph currentJob allJobs).nodes, nf.id = currentJob.name →
    ∀ n ∈ (buildDependencyGraph currentJob allJobs).nodes,
      (TransGen (Link (jobMap allJobs) childNames) currentJob.name n.id → nf.y < n.y) ∧
      (TransGen (Link (jobMap allJobs) parentNames) currentJob.name n.id →
        ¬ TransGen (Link (jobMap allJobs) childNames) currentJob.name n.id → n.y < nf.y) := by
  obtain ⟨as, wa, ds, wd, ha, hd, hg⟩ := buildDependencyGraph_eq currentJob allJobs
  obtain ⟨hf0, hdown', hup'⟩ := walks_final_levels ha hd
  have hlf := hf0 (fun h => hup (walk_found_transGen ha h))
    (fun h => hdown (walk_found_transGen hd h))
  have hbelow : ∀ x, TransGen (Link (jobMap allJobs) childNames) currentJob.name x →
      0 < levelOf wd.jobLevels x := fun x hx => by
    obtain ⟨k, hk, hkx, -⟩ := hdown' x (walk_found_of_transGen hd hx hdown)
    omega
  have habove : ∀ x, TransGen (Link (jobMap allJobs) parentNames) currentJob.name x →
      ¬ TransGen (Link (jobMap allJobs) childNames) currentJob.name x →
      levelOf wd.jobLevels x < 0 := fun x hx hnx => by
    obtain ⟨k, hk, hkx, -⟩ := hup' x (walk_found_of_transGen ha hx hup)
      fun h => hnx (walk_found_transGen hd h)
    omega
  rw [hg]
  intro nf hnf hid n hn
  have hyf := (layoutGraph_node_y hnf).2
  have hy := (layoutGraph_node_y hn).2
  rw [hid, hlf] at hyf
  rw [hyf, hy]
  simp only [rowY, levelHeight]
  exact ⟨fun h => by have := hbelow _ h; omega, fun h h' => by have := habove _ h h'; omega⟩

theorem family_mid_between_rows :
    ¬ TransGen (Link (jobMap familyJobs) parentNames) "P" "P" ∧
      ¬ TransGen (Link (jobMap familyJobs) childNames) "P" "P" ∧
      ∃ nf ∈ (buildDependencyGraph familyMid familyJobs).nodes,
      ∃ n ∈ (buildDependencyGraph familyMid familyJobs).nodes,
        nf.id = "P" ∧ n.id = "X" ∧ nf.y < n.y :=
  ⟨familyJobs_wellFormed.up_acyclic _, familyJobs_wellFormed.down_acyclic _,
    ⟨"P", "P", "P", "untriggered", 0, 130, 1, true⟩, by decide,
    ⟨"X", "X", "X", "untriggered", 0, 230, 2, false⟩, by decide, rfl, rfl,
    (discovery_direction_kept familyJobs familyMid (familyJobs_wellFormed.up_acyclic _)
      (familyJobs_wellFormed.down_acyclic _) _ (by decide) rfl _ (by decide)).1
      (.single ⟨familyMid, by decide, by decide, by decide⟩)⟩

/-- Two jobs, each the other's parent, the first one focal. -/
def cycleFocal : Job := { name := "A", parentJob := some "B" }

def cycleJobs : List Job := [cycleFocal, { name := "B", parentJob := some "A" }]

/-- The ancestor walk re-levels the focal job to `-2` through its own parent, so that parent
is drawn one row below the focal job instead of one row above. -/
theorem parent_cycle_relevels_focal :
    (buildDependencyGraph cycleFocal cycleJobs).nodes.map (fun n => (n.id, n.y, n.level)) =
      [("A", 30, 0), ("B", 130, 1)] := by
  decide

end Build

end DependencyDiagram
