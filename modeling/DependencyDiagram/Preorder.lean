import DependencyDiagram.Generations

/-!
# Depth-first order of the descendants

`findDescendants` expands names depth first: when its call on a job returns, every job
below that job not met before has been expanded, right after it. On a well-formed
collection nothing below a job is met before it, so in the expansion order the jobs below
each descendant are one stretch right after it. `relatedJobs` lists the descendants in
that order: the `Set` keeps the first insertion of each name, whatever repeats the
`dependent_jobs` lists hold.

Rows are filled in the order of `relatedJobs` and centring shifts a whole row, so within a
row the nodes stand in depth-first order. Two parents side by side in a row have the jobs
below them side by side too: edges between two rows never cross.
-/

namespace DependencyDiagram

open Relation

/-- In the order `E`, the names linked from each name by one link or more come right after
it. -/
def Blocks (R : String → String → Prop) (E : List String) : Prop :=
  ∀ m ∈ E, ∃ X I Y, E = X ++ m :: I ++ Y ∧ ∀ x, x ∈ I ↔ TransGen R m x

/-- What a call on `n` leaves: `processed` grows from `P` to `P'` by `n` and then the names
of `E`, in expansion order; in `E` the names below each one follow it; and `found`, once
repeats are dropped, lists `E` in that order. -/
structure Subtree (R : String → String → Prop) (n : String) (P P' found E : List String) :
    Prop where
  log : P' = E.reverse ++ n :: P
  blocks : Blocks R E
  dedup : ∀ S : List String, (∀ x ∈ E, x ∉ S) → insertAll S found = S ++ E

section Subtree

variable {R : String → String → Prop} {n c : String} {P P' P'' found more Es Ec : List String}

theorem Subtree.start (n : String) (P : List String) : Subtree R n P (n :: P) [] [] :=
  ⟨by simp, by simp [Blocks], by simp [insertAll]⟩

/-- Pushing a name expanded before leaves the order as it is. -/
theorem Subtree.push_old (h : Subtree R n P P' found Es) (hc : c ∈ Es) :
    Subtree R n P P' (found ++ [c]) Es :=
  ⟨h.log, h.blocks, fun S hS => by rw [insertAll_append, h.dedup S hS]; simp [insertAll, hc]⟩

/-- Pushing a new name and expanding it appends it and the names below it. -/
theorem Subtree.push_new (h : Subtree R n P P' found Es) (hc : Subtree R c P' P'' more Ec)
    (hcE : c ∉ Es) (hEc : ∀ x ∈ Ec, x ∉ Es ∧ x ≠ c)
    (hmem : ∀ x, x ∈ Ec ↔ TransGen R c x) :
    Subtree R n P P'' (found ++ c :: more) (Es ++ c :: Ec) where
  log := by rw [hc.log, h.log]; simp
  blocks m hm := by
    rcases List.mem_append.mp hm with hm | hm
    · obtain ⟨X, I, Y, hE, hI⟩ := h.blocks m hm
      exact ⟨X, I, Y ++ c :: Ec, by simp [hE], hI⟩
    rcases List.mem_cons.mp hm with rfl | hm
    · exact ⟨Es, Ec, [], by simp, hmem⟩
    · obtain ⟨X, I, Y, hE, hI⟩ := hc.blocks m hm
      exact ⟨Es ++ c :: X, I, Y, by simp [hE], hI⟩
  dedup S hS := by
    have hcS : c ∉ S := hS c (by simp)
    rw [insertAll_append, h.dedup S fun x hx => hS x (by simp [hx]), insertAll,
      if_neg (by simp [hcS, hcE]), hc.dedup]
    · simp
    · intro x hx
      simp only [List.mem_append, List.mem_singleton, not_or]
      exact ⟨⟨hS x (by simp [hx]), (hEc x hx).1⟩, (hEc x hx).2⟩

end Subtree

/-- `x` is at or below a name of `cs` linked from `n`: the names below `n` that its loop has
reached once it has gone through `cs`. -/
def Below (R : String → String → Prop) (n : String) (cs : List String) (x : String) : Prop :=
  ∃ c ∈ cs, R n c ∧ ReflTransGen R c x

section Below

variable {R : String → String → Prop} {n c x : String} {cs Es : List String}

@[simp] theorem below_nil : ¬ Below R n [] x := fun ⟨_, h, _⟩ => List.not_mem_nil _ h

theorem below_append_singleton :
    Below R n (cs ++ [c]) x ↔ Below R n cs x ∨ (R n c ∧ ReflTransGen R c x) := by
  simp only [Below, List.mem_append, List.mem_singleton, or_and_right, exists_or, exists_eq_left]

/-- In a forest, the names below a child `c` of `n` not reached yet lie below no other child
of `n`, and are not `n`. -/
theorem below_disjoint (hp : OnePredecessor R) (hc : Acyclic R) (hnc : R n c)
    (hmem : ∀ x, x ∈ Es ↔ Below R n cs x) (hcE : c ∉ Es) (hx : TransGen R c x) :
    x ∉ Es ∧ x ≠ n := by
  refine ⟨fun hxE => ?_, fun h => hc n (TransGen.head hnc (h ▸ hx))⟩
  obtain ⟨c', hc', hnc', hc'x⟩ := (hmem x).mp hxE
  rcases reflTransGen_nested hp hc'x hx.to_reflTransGen with h1 | h1
  · exact hcE ((hmem c).mpr ⟨c', hc', hnc', h1⟩)
  rcases reflTransGen_iff_eq_or_transGen.mp h1 with rfl | h1
  · exact hcE ((hmem c').mpr ⟨c', hc', hnc', .refl⟩)
  · exact hc n (TransGen.head' hnc (reflTransGen_of_transGen_pred hp hnc' h1))

end Below

section Walk

variable {get : String → Option Job} {next : Job → List String} {step : Int}

/-- On links with one predecessor per name and no cycle, a call on a name that is new, as
is everything below it, expands exactly the names below it, depth first. -/
theorem walk_preorder (hp : OnePredecessor (Link get next)) (hc : Acyclic (Link get next))
    {fuel : Nat} {n : String} {l : Int} {w : Walk} {r : List String × Walk}
    (h : walk get next step fuel n l w = some r) (hn : n ∉ w.processed)
    (hfresh : ∀ y, TransGen (Link get next) n y → y ∉ w.processed) :
    ∃ E, Subtree (Link get next) n w.processed r.2.processed r.1 E ∧
      ∀ x, x ∈ E ↔ TransGen (Link get next) n x := by
  refine walk_induction get next step
    (Q := fun n _ w r => n ∉ w.processed →
      (∀ y, TransGen (Link get next) n y → y ∉ w.processed) →
      ∃ E, Subtree (Link get next) n w.processed r.2.processed r.1 E ∧
        ∀ x, x ∈ E ↔ TransGen (Link get next) n x)
    (I := fun n _ w done a => n ∉ w.processed →
      (∀ y, TransGen (Link get next) n y → y ∉ w.processed) →
      ∃ E, Subtree (Link get next) n w.processed a.2.processed a.1 E ∧
        ∀ x, x ∈ E ↔ Below (Link get next) n done x)
    ?_ ?_ ?_ ?_ ?_ ?_ h hn hfresh
  · intro n _ w hn hn'
    exact absurd hn hn'
  · intro n _ w _ hg _ _
    refine ⟨[], Subtree.start n w.processed, fun x => ⟨fun h => absurd h (List.not_mem_nil x),
      fun hx => ?_⟩⟩
    obtain ⟨m, hm, -⟩ := TransGen.head'_iff.mp hx
    simpa [hg] using hm.source_isSome
  · intro n _ w _ _ _ _ _
    exact ⟨[], Subtree.start n w.processed, by simp⟩
  · -- a name without a record is skipped
    intro n _ w _ done c a _ _ _ hs hI hn hfresh
    obtain ⟨E, hE, hmem⟩ := hI hn hfresh
    refine ⟨E, hE, fun x => (hmem x).trans (below_append_singleton.trans ?_).symm⟩
    exact or_iff_left fun h => by simp [h.1.target_isSome] at hs
  · -- a pushed name is expanded unless it was expanded before
    intro n _ w job done c found wa more w' _ _ hg hcn hs hI hv hQ hn hfresh
    obtain ⟨Es, hE, hmem⟩ := hI hn hfresh
    dsimp only at hE
    have hnc : Link get next n c := ⟨job, hg, hcn, hs⟩
    have hwa : ∀ x, x ∈ wa.processed ↔ x ∈ Es ∨ x = n ∨ x ∈ w.processed := fun x => by
      simp [hE.log]
    by_cases hcw : c ∈ wa.processed
    · obtain ⟨rfl, rfl⟩ := Prod.mk.inj (walk_eq_of_mem (w := wa.setLevel c _) hcw hv)
      have hcE : c ∈ Es := ((hwa c).mp hcw).resolve_right fun h => h.elim
        (fun h => hc n (.single (h ▸ hnc))) (hfresh c (.single hnc))
      obtain ⟨c', hc', hnc', hc'c⟩ := (hmem c).mp hcE
      refine ⟨Es, hE.push_old hcE, fun x => (hmem x).trans ?_⟩
      rw [below_append_singleton, and_iff_right hnc]
      exact ⟨.inl, fun h => h.elim id fun h => ⟨c', hc', hnc', hc'c.trans h⟩⟩
    · have hcE : c ∉ Es := fun h => hcw ((hwa c).mpr (.inl h))
      have hdisj := fun {x} => below_disjoint hp hc hnc hmem hcE (x := x)
      obtain ⟨Ec, hEc, hmemc⟩ := hQ hcw fun y hy hyw => by
        rcases (hwa y).mp hyw with h | h | h
        · exact (hdisj hy).1 h
        · exact (hdisj hy).2 h
        · exact hfresh y (TransGen.head hnc hy) h
      refine ⟨Es ++ c :: Ec, hE.push_new hEc hcE (fun x hx => ?_) hmemc, fun x => ?_⟩
      · have hcx := (hmemc x).mp hx
        exact ⟨(hdisj hcx).1, fun h => hc c (h ▸ hcx)⟩
      · rw [below_append_singleton, List.mem_append, hmem, List.mem_cons, hmemc,
          reflTransGen_iff_eq_or_transGen]
        simp [hnc]
  · -- the loop ends after every name of `next job`
    intro n _ w job r _ hg hI hn hfresh
    obtain ⟨E, hE, hmem⟩ := hI hn hfresh
    refine ⟨E, hE, fun x => (hmem x).trans ?_⟩
    rw [TransGen.head'_iff]
    constructor
    · rintro ⟨c, -, hnc, hcx⟩
      exact ⟨c, hnc, hcx⟩
    · rintro ⟨c, hnc, hcx⟩
      obtain ⟨job', hj', hc', -⟩ := id hnc
      rw [hg] at hj'
      cases hj'
      exact ⟨c, hc', hnc, hcx⟩

end Walk

section Order

variable {E X L Y : List String}

/-- In a list without repeats, the names of a stretch `L` are those at its indices. -/
theorem mem_block_iff (hE : E.Nodup) (h : E = X ++ L ++ Y) {z : String} :
    z ∈ L ↔ X.length ≤ E.indexOf z ∧ E.indexOf z < X.length + L.length := by
  subst h
  rw [List.append_assoc] at hE ⊢
  by_cases hzX : z ∈ X
  · have hzL : z ∉ L := fun hzL =>
      List.disjoint_of_nodup_append hE hzX (List.mem_append_left Y hzL)
    have := List.indexOf_lt_length.mpr hzX
    rw [List.indexOf_append_of_mem hzX]
    simp only [hzL, false_iff, not_and, not_lt]
    omega
  rw [List.indexOf_append_of_not_mem hzX]
  by_cases hzL : z ∈ L
  · rw [List.indexOf_append_of_mem hzL]
    simp [hzL, List.indexOf_lt_length.mpr hzL]
  · rw [List.indexOf_append_of_not_mem hzL]
    simp [hzL]

/-- Of two names neither below the other, the one first in a depth-first order has all the
names below it before all the names below the other. -/
theorem indexOf_lt_of_blocks {X1 I1 Y1 X2 I2 Y2 : List String} {m1 m2 x1 x2 : String}
    (hE : E.Nodup) (h1 : E = X1 ++ m1 :: I1 ++ Y1) (h2 : E = X2 ++ m2 :: I2 ++ Y2)
    (hlt : E.indexOf m1 < E.indexOf m2) (hm : m2 ∉ I1) (hx1 : x1 ∈ I1) (hx2 : x2 ∈ I2) :
    E.indexOf x1 < E.indexOf x2 := by
  have a1 := (mem_block_iff hE (show E = X1 ++ [m1] ++ (I1 ++ Y1) by simp [h1])).mp
    (List.mem_singleton_self m1)
  have b1 := (mem_block_iff hE (show E = X1 ++ [m1] ++ I1 ++ Y1 by simp [h1])).mp hx1
  have a2 := (mem_block_iff hE (show E = X2 ++ [m2] ++ (I2 ++ Y2) by simp [h2])).mp
    (List.mem_singleton_self m2)
  have b2 := (mem_block_iff hE (show E = X2 ++ [m2] ++ I2 ++ Y2 by simp [h2])).mp hx2
  have hm2 : m2 ∉ m1 :: I1 := fun h => by
    rcases List.mem_cons.mp h with h | h
    · rw [h] at hlt
      exact lt_irrefl _ hlt
    · exact hm h
  have c1 := mt (mem_block_iff hE h1 (z := m2)).mpr hm2
  simp only [List.length_append, List.length_singleton, List.length_cons, List.length_nil]
    at a1 b1 a2 b2 c1
  omega

/-- Filtering keeps the order of the names it keeps. -/
theorem indexOf_filter_lt_iff {p : String → Bool} {a b : String} (ha : p a) (hb : p b)
    (M : List String) :
    (M.filter p).indexOf a < (M.filter p).indexOf b ↔ M.indexOf a < M.indexOf b := by
  induction M with
  | nil => simp
  | cons z M ih =>
    by_cases hz : p z
    · rw [List.filter_cons_of_pos hz]
      by_cases hza : z = a
      · subst hza
        by_cases hzb : z = b
        · subst hzb; simp
        · simp [List.indexOf_cons_ne _ hzb]
      · rw [List.indexOf_cons_ne _ hza, List.indexOf_cons_ne _ hza]
        by_cases hzb : z = b
        · subst hzb; simp
        · rw [List.indexOf_cons_ne _ hzb, List.indexOf_cons_ne _ hzb, Nat.succ_lt_succ_iff,
            Nat.succ_lt_succ_iff, ih]
    · have hne : ∀ c, p c → z ≠ c := fun c hc h => hz (h ▸ hc)
      rw [List.filter_cons_of_neg hz, List.indexOf_cons_ne _ (hne a ha),
        List.indexOf_cons_ne _ (hne b hb), Nat.succ_lt_succ_iff, ih]

theorem indexOf_of_mem_enum {M : List String} (hM : M.Nodup) {i : Nat} {a : String}
    (h : (i, a) ∈ M.enum) : M.indexOf a = i := by
  have h' : M[i]? = some a := List.mem_enum_iff_getElem?.mp h
  obtain ⟨hi, h⟩ := List.getElem?_eq_some_iff.mp h'
  rw [← h]
  exact List.indexOf_getElem hM i hi

/-- Within a row, placements stand in the order of the related names. -/
theorem placement_x_lt_iff {jobLevels : String → Option Int} {rel : List String}
    (hrel : rel.Nodup) {pa pb : Placement} (hpa : pa ∈ layoutPlacements jobLevels rel)
    (hpb : pb ∈ layoutPlacements jobLevels rel)
    (hl : levelOf jobLevels pa.jobName = levelOf jobLevels pb.jobName) :
    pa.x < pb.x ↔ rel.indexOf pa.jobName < rel.indexOf pb.jobName := by
  obtain ⟨ia, hia, hxa, -⟩ := placement_row hpa
  obtain ⟨ib, hib, hxb, -⟩ := placement_row hpb
  rw [hl] at hia hxa
  have hnd := hrel.filter fun x => decide (levelOf jobLevels x = levelOf jobLevels pb.jobName)
  rw [hxa, hxb, ← indexOf_filter_lt_iff
    (p := fun x => decide (levelOf jobLevels x = levelOf jobLevels pb.jobName))
    (by simpa using hl) (by simp) rel,
    indexOf_of_mem_enum hnd hia, indexOf_of_mem_enum hnd hib]
  simp only [nodeWidth, nodeSpacing]
  omega

end Order

section Build

variable {allJobs : List Job} {f : String}

/-- On a well-formed collection `relatedJobs` lists the focal job and its ancestors, then
the descendants in depth-first order. -/
theorem WellFormed.buildDependencyGraph_preorder (hwf : WellFormed allJobs)
    (currentJob : Job) :
    ∃ rel jobLevels E, rel.Nodup ∧
      (∀ x, x ∈ rel ↔ Related (jobMap allJobs) currentJob.name x) ∧
      (∀ x t, Generation (jobMap allJobs) currentJob.name x t → levelOf jobLevels x = t) ∧
      buildDependencyGraph currentJob allJobs =
        layoutGraph (jobMap allJobs) currentJob.name rel jobLevels ∧
      E.Nodup ∧ Blocks (Link (jobMap allJobs) childNames) E ∧
      (∀ x, x ∈ E ↔ TransGen (Link (jobMap allJobs) childNames) currentJob.name x) ∧
      ∀ x ∈ E, ∀ y ∈ E, rel.indexOf x < rel.indexOf y ↔ E.indexOf x < E.indexOf y := by
  obtain ⟨as, wa, ds, wd, ha, hd, hg⟩ := buildDependencyGraph_eq currentJob allJobs
  obtain ⟨E, hE, hmemE⟩ := walk_preorder hwf.down_onePredecessor hwf.down_acyclic hd
    (List.not_mem_nil _) fun _ _ => List.not_mem_nil _
  have hA : ∀ x ∈ E, x ∉ insertAll [currentJob.name] as := fun x hx hxA => by
    have hfx := (hmemE x).mp hx
    rcases mem_insertAll.mp hxA with hxf | hxa
    · rw [List.mem_singleton.mp hxf] at hfx
      exact hwf.down_acyclic _ hfx
    · exact hwf.not_up_and_down (walk_found_transGen ha hxa) hfx
  have hrelE : insertAll [] (currentJob.name :: (as ++ ds)) =
      insertAll [currentJob.name] as ++ E := by
    rw [insertAll, if_neg (List.not_mem_nil _), List.nil_append, insertAll_append,
      hE.dedup _ hA]
  have hrel := nodup_relatedJobs currentJob.name as ds
  refine ⟨_, _, E, hrel, mem_relatedJobs ha hd, fun _ _ => hwf.level_eq ha hd, hg,
    (hrelE ▸ hrel).of_append_right, hE.blocks, hmemE, fun x hx y hy => ?_⟩
  rw [hrelE, List.indexOf_append_of_not_mem (hA x hx), List.indexOf_append_of_not_mem (hA y hy)]
  omega

/-- Below the focal job, a job whose parent is of generation `t` is its parent's dependent
job, `t + 1` links down. -/
theorem WellFormed.down_of_parent (hwf : WellFormed allJobs) {p c : String} {t : Int}
    (ht : 0 < t) (hp : Generation (jobMap allJobs) f p t)
    (hc : Generation (jobMap allJobs) f c (t + 1)) (hl : Link (jobMap allJobs) parentNames c p) :
    Link (jobMap allJobs) childNames p c ∧
      ∃ d : Nat, t = d ∧ Steps (Link (jobMap allJobs) childNames) d f p := by
  obtain ⟨d, rfl, hd⟩ := hp.down_of_pos ht
  obtain ⟨d', hdd, hd'⟩ := hc.down_of_pos (by omega)
  obtain rfl : d' = d + 1 := by omega
  obtain ⟨m, -, hmc⟩ := Steps.succ_iff.mp hd'
  rw [parentLink_oneSuccessor _ c m p (hwf.parentLink_of_down hmc) hl.parentLink] at hmc
  exact ⟨hmc, d, rfl, hd⟩

/-- Of two jobs of one generation below the focal job, the one first in depth-first order
has its dependent jobs first. -/
theorem WellFormed.children_in_parent_order (hwf : WellFormed allJobs) {E : List String}
    (hE : E.Nodup) (hblocks : Blocks (Link (jobMap allJobs) childNames) E)
    (hmemE : ∀ x, x ∈ E ↔ TransGen (Link (jobMap allJobs) childNames) f x)
    {p1 p2 c1 c2 : String} {d : Nat} (hd : 0 < d)
    (hd1 : Steps (Link (jobMap allJobs) childNames) d f p1)
    (hd2 : Steps (Link (jobMap allJobs) childNames) d f p2)
    (hc1 : Link (jobMap allJobs) childNames p1 c1) (hc2 : Link (jobMap allJobs) childNames p2 c2)
    (hlt : E.indexOf p1 < E.indexOf p2) : E.indexOf c1 < E.indexOf c2 := by
  obtain ⟨X1, I1, Y1, hE1, hI1⟩ := hblocks p1 ((hmemE p1).mpr (hd1.transGen hd))
  obtain ⟨X2, I2, Y2, hE2, hI2⟩ := hblocks p2 ((hmemE p2).mpr (hd2.transGen hd))
  refine indexOf_lt_of_blocks hE hE1 hE2 hlt (fun h => ?_) ((hI1 _).mpr (.single hc1))
    ((hI2 _).mpr (.single hc2))
  obtain ⟨k, hk, hs⟩ := Steps.of_transGen ((hI1 _).mp h)
  have := hwf.down_length_unique (hd1.trans hs) hd2
  omega

/-- On a well-formed collection each row lists the descendants it holds in depth-first
preorder: of two drawn nodes of one row, both below the focal job, the one further left comes
first in the order in which the descendant walk finds them, where each job's descendants
follow it as one block. -/
theorem WellFormed.rows_in_preorder (hwf : WellFormed allJobs) (currentJob : Job) :
    ∃ E : List String, E.Nodup ∧ Blocks (Link (jobMap allJobs) childNames) E ∧
      (∀ x, x ∈ E ↔ TransGen (Link (jobMap allJobs) childNames) currentJob.name x) ∧
      ∀ a ∈ (buildDependencyGraph currentJob allJobs).nodes,
      ∀ b ∈ (buildDependencyGraph currentJob allJobs).nodes,
        a.id ∈ E → b.id ∈ E → a.y = b.y → (a.x < b.x ↔ E.indexOf a.id < E.indexOf b.id) := by
  obtain ⟨rel, jl, E, hrel, -, -, hg, hE, hblocks, hmemE, hidx⟩ :=
    hwf.buildDependencyGraph_preorder currentJob
  refine ⟨E, hE, hblocks, hmemE, fun a ha b hb haE hbE hab => ?_⟩
  rw [hg] at ha hb
  obtain ⟨pa, hpa, hna⟩ := mem_layoutGraph_nodes.mp ha
  obtain ⟨pb, hpb, hnb⟩ := mem_layoutGraph_nodes.mp hb
  obtain ⟨-, hida, hxa, hya, -⟩ := nodeOf_spec hna
  obtain ⟨-, hidb, hxb, hyb, -⟩ := nodeOf_spec hnb
  obtain ⟨-, -, -, hrowa, -⟩ := placement_row hpa
  obtain ⟨-, -, -, hrowb, -⟩ := placement_row hpb
  -- one row is one level, and within a level x follows the order of `relatedJobs`
  rw [hxa, hxb, placement_x_lt_iff hrel hpa hpb
    (rowY_inj (hrowa.symm.trans (hya.symm.trans (hab.trans (hyb.trans hrowb))))), ← hida, ← hidb]
  exact hidx _ haE _ hbE

variable (allJobs : List Job) (currentJob : Job)

/-- On a well-formed collection, of two edges leaving one row the one that starts further
left also ends further left. -/
theorem sibling_edges_never_cross (hwf : WellFormed allJobs) :
    ∀ e1 ∈ (buildDependencyGraph currentJob allJobs).edges,
    ∀ e2 ∈ (buildDependencyGraph currentJob allJobs).edges,
      e1.fromY = e2.fromY → e1.fromX < e2.fromX → e1.toX < e2.toX := by
  obtain ⟨E, hE, hblocks, hmemE, horder⟩ := hwf.rows_in_preorder currentJob
  obtain ⟨rel, jl, hrel, -, hlev, hg⟩ := hwf.buildDependencyGraph_generations currentJob
  intro e1 he1 e2 he2 hy hx
  obtain ⟨-, -, -, -, t, -, -, -, -, hy1, hy1', ht1, hu1, hl1⟩ := hwf.edge_rows hrel hlev hg he1
  obtain ⟨-, -, -, -, t2, -, -, -, -, hy2, hy2', ht2, hu2, hl2⟩ := hwf.edge_rows hrel hlev hg he2
  obtain rfl : t = t2 := rowY_inj (hy1.symm.trans (hy.trans hy2))
  obtain ⟨np1, hnp1, nc1, hnc1, hp1, hc1, hx1, hpy1, hx1', hcy1⟩ :=
    buildDependencyGraph_edge_nodes allJobs currentJob he1
  obtain ⟨np2, hnp2, nc2, hnc2, hp2, hc2, hx2, hpy2, hx2', hcy2⟩ :=
    buildDependencyGraph_edge_nodes allJobs currentJob he2
  rcases le_or_lt t 0 with ht | ht
  · -- at or above the focal job a row holds one job
    obtain ⟨i, rfl, hi1⟩ := ht1.up_of_nonpos ht
    obtain ⟨i', hii, hi2⟩ := ht2.up_of_nonpos ht
    obtain rfl : i = i' := by omega
    have hnd : ((buildDependencyGraph currentJob allJobs).nodes.map DependencyNode.id).Nodup :=
      hg ▸ layoutGraph_node_ids_nodup hrel
    obtain rfl : np1 = np2 := List.inj_on_of_nodup_map hnd hnp1 hnp2
      (by rw [hp1, hp2]; exact Steps.target_unique (ancestorLink_oneSuccessor _) hi1 hi2)
    exact absurd (hx1 ▸ hx2 ▸ hx) (lt_irrefl _)
  · -- below it, rows follow the depth-first order
    obtain ⟨hpc1, d, rfl, hd1⟩ := hwf.down_of_parent ht ht1 hu1 hl1
    obtain ⟨hpc2, d', hdd, hd2⟩ := hwf.down_of_parent ht ht2 hu2 hl2
    obtain rfl : d = d' := by omega
    have hd0 : 0 < d := by omega
    rw [hx1', hx2', horder nc1 hnc1 nc2 hnc2
      (hc1 ▸ (hmemE _).mpr ((hd1.tail hpc1).transGen d.succ_pos))
      (hc2 ▸ (hmemE _).mpr ((hd2.tail hpc2).transGen d.succ_pos))
      (by rw [← hcy1, ← hcy2, hy1', hy2']), hc1, hc2]
    refine hwf.children_in_parent_order hE hblocks hmemE hd0 hd1 hd2 hpc1 hpc2 ?_
    rw [← hp1, ← hp2, ← horder np1 hnp1 np2 hnp2 (hp1 ▸ (hmemE _).mpr (hd1.transGen hd0))
      (hp2 ▸ (hmemE _).mpr (hd2.transGen hd0)) (by rw [← hpy1, ← hpy2, hy]), ← hx1, ← hx2]
    exact hx

theorem family_subtrees_side_by_side :
    WellFormed familyJobs ∧
      ∃ e1 ∈ (buildDependencyGraph familyRoot familyJobs).edges,
      ∃ e2 ∈ (buildDependencyGraph familyRoot familyJobs).edges,
        e1.fromY = e2.fromY ∧ e1.fromX < e2.fromX ∧ e1.toX < e2.toX :=
  ⟨familyJobs_wellFormed, ⟨"P", "X", 90, 130, 0, 230⟩, by decide,
    ⟨"Q", "Y", 270, 130, 180, 230⟩, by decide, rfl, by decide,
    sibling_edges_never_cross familyJobs familyRoot familyJobs_wellFormed _ (by decide) _
      (by decide) rfl (by decide)⟩

end Build

end DependencyDiagram
