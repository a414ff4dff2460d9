import Mathlib.Data.Finset.Card
import Mathlib.Tactic.Ring
import DependencyDiagram.Walk

/-!
# What a walk expands, the levels it writes, and why it stops

A call of `walk` on `n` puts the names it expands in front of `processed`: `n` unless it
was processed already, and otherwise only names it pushes. Every name it expands has all
its linked names processed when the call returns, and `processed` never holds a name
twice. The levels it writes go to pushed names only, each `level + step * k` for a path of
`k` links from `n`, whatever the links look like.

Each expansion removes one name of the index from the names not yet processed, so fuel
one more than the number of names of the collection is never exhausted, and more fuel
gives the same result.
-/

namespace DependencyDiagram

open Relation

variable {get : String → Option Job} {next : Job → List String} {step : Int}

/-- What one call of `walk` on `n` does to `processed`, from `P` to `P'`. -/
structure Expands (R : String → String → Prop) (n : String) (P P' found : List String) :
    Prop where
  grow : ∃ B, P' = B ++ P
  mem : n ∈ P'
  fresh : ∀ x ∈ P', x ∉ P → x = n ∨ x ∈ found
  found_mem : ∀ x ∈ found, x ∈ P'
  closed : ∀ x ∈ P', x ∉ P → ∀ c, R x c → c ∈ P'
  nodup : P.Nodup → P'.Nodup

theorem Expands.subset {R : String → String → Prop} {n : String} {P P' found : List String}
    (h : Expands R n P P' found) {x : String} (hx : x ∈ P) : x ∈ P' := by
  obtain ⟨B, rfl⟩ := h.grow
  exact List.mem_append_right B hx

theorem walk_expands {fuel : Nat} {n : String} {l : Int} {w : Walk}
    {r : List String × Walk} (h : walk get next step fuel n l w = some r) :
    Expands (Link get next) n w.processed r.2.processed r.1 := by
  refine walk_induction get next step
    (Q := fun n _ w r => Expands (Link get next) n w.processed r.2.processed r.1)
    (I := fun n _ w done a =>
      (∃ B, a.2.processed = B ++ n :: w.processed) ∧
      (∀ x ∈ a.2.processed, x ∉ n :: w.processed → x ∈ a.1) ∧
      (∀ x ∈ a.1, x ∈ a.2.processed) ∧
      (∀ x ∈ a.2.processed, x ∉ n :: w.processed → ∀ c, Link get next x c →
        c ∈ a.2.processed) ∧
      (∀ c ∈ done, (get c).isSome → c ∈ a.2.processed) ∧
      (w.processed.Nodup → a.2.processed.Nodup)) ?_ ?_ ?_ ?_ ?_ ?_ h
  · intro n _ w hn
    exact ⟨⟨[], rfl⟩, hn, fun x hx hx' => absurd hx hx', by simp,
      fun x hx hx' => absurd hx hx', id⟩
  · intro n _ w hn hg
    refine ⟨⟨[n], rfl⟩, List.mem_cons_self n _, fun x hx hx' => ?_, by simp, ?_, ?_⟩
    · exact .inl (by simpa [hx'] using hx)
    · intro x hx hx' c ⟨job, hj, _⟩
      obtain rfl : x = n := by simpa [hx'] using hx
      simp [hg] at hj
    · exact fun hd => List.nodup_cons.mpr ⟨hn, hd⟩
  · intro n _ w _ hn _
    exact ⟨⟨[], rfl⟩, fun x hx hx' => absurd hx hx', by simp, fun x hx hx' => absurd hx hx',
      by simp, fun hd => List.nodup_cons.mpr ⟨hn, hd⟩⟩
  · intro n _ w _ done c a _ _ _ hs ⟨hB, hf, hm, hc, hd, hn⟩
    refine ⟨hB, hf, hm, hc, fun c' hc' hs' => ?_, hn⟩
    rcases List.mem_append.mp hc' with hc' | hc'
    · exact hd c' hc' hs'
    · obtain rfl : c' = c := List.mem_singleton.mp hc'
      simp [hs] at hs'
  · intro n _ w _ done c found wa more w' _ _ _ _ _ ⟨⟨B, hB⟩, hf, hm, hc, hd, hn⟩ _ hq
    simp only [Walk.setLevel_processed] at hq
    have hsub : ∀ {x}, x ∈ wa.processed → x ∈ w'.processed := hq.subset
    obtain ⟨B', hB'⟩ := hq.grow
    refine ⟨⟨B' ++ B, by rw [hB', hB, List.append_assoc]⟩, fun x hx hx' => ?_, fun x hx => ?_,
      fun x hx hx' c' hl => ?_, fun c' hc' hs' => ?_, fun hnd => hq.nodup (hn hnd)⟩
    · by_cases hxa : x ∈ wa.processed
      · exact List.mem_append_left _ (hf x hxa hx')
      · rcases hq.fresh x hx hxa with rfl | hx
        · simp
        · simp [hx]
    · simp only [List.mem_append, List.mem_cons] at hx
      rcases hx with hx | rfl | hx
      · exact hsub (hm x hx)
      · exact hq.mem
      · exact hq.found_mem x hx
    · by_cases hxa : x ∈ wa.processed
      · exact hsub (hc x hxa hx' c' hl)
      · exact hq.closed x hx hxa c' hl
    · rcases List.mem_append.mp hc' with hc' | hc'
      · exact hsub (hd c' hc' hs')
      · obtain rfl : c' = c := List.mem_singleton.mp hc'
        exact hq.mem
  · intro n _ w job ⟨found, wa⟩ hn hg ⟨⟨B, hB⟩, hf, hm, hc, hd, hnd⟩
    simp only at hB
    refine ⟨⟨B ++ [n], by simpa using hB⟩, by simp [hB], fun x hx hx' => ?_, hm,
      fun x hx hx' c hl => ?_, fun h => hnd h⟩
    · by_cases hxn : x = n
      · exact .inl hxn
      · exact .inr (hf x hx (by simp [hxn, hx']))
    · by_cases hxn : x = n
      · subst hxn
        obtain ⟨job', hj, hcn, hs⟩ := hl
        rw [hg] at hj
        cases hj
        exact hd c hcn hs
      · exact hc x hx (by simp [hxn, hx']) c hl

/-- The levels a call writes: each pushed name ends at `level + step * k` for a path of
`k` links from `n`; every other name keeps its level. -/
def WritesLevels (R : String → String → Prop) (step : Int) (n : String) (l : Int)
    (before after : String → Option Int) (found : List String) : Prop :=
  (∀ x ∈ found, ∃ k : Nat, 0 < k ∧ after x = some (l + step * k) ∧ Steps R k n x) ∧
  ∀ y ∉ found, after y = before y

theorem walk_writesLevels {fuel : Nat} {n : String} {l : Int} {w : Walk}
    {r : List String × Walk} (h : walk get next step fuel n l w = some r) :
    WritesLevels (Link get next) step n l w.jobLevels r.2.jobLevels r.1 := by
  refine walk_induction get next step
    (Q := fun n l w r => WritesLevels (Link get next) step n l w.jobLevels r.2.jobLevels r.1)
    (I := fun n l w _ a => WritesLevels (Link get next) step n l w.jobLevels a.2.jobLevels a.1)
    ?_ ?_ ?_ ?_ ?_ ?_ h
  · exact fun _ _ _ _ => ⟨by simp, fun _ _ => rfl⟩
  · exact fun _ _ _ _ _ => ⟨by simp, fun _ _ => rfl⟩
  · exact fun _ _ _ _ _ _ => ⟨by simp, fun _ _ => rfl⟩
  · exact fun _ _ _ _ _ _ _ _ _ _ _ ha => ha
  · intro n l w job done c found wa more w' _ _ hg hc hs ⟨hw, hk⟩ _ ⟨hw', hk'⟩
    have hlink : Link get next n c := ⟨job, hg, hc, hs⟩
    refine ⟨fun x hx => ?_, fun y hy => ?_⟩
    · by_cases hxm : x ∈ more
      · obtain ⟨k, -, hx, hp⟩ := hw' x hxm
        exact ⟨k + 1, by omega, by rw [hx]; push_cast; ring_nf, hp.head hlink⟩
      rw [hk' x hxm, Walk.setLevel_jobLevels]
      by_cases hxc : x = c
      · subst hxc
        exact ⟨1, by omega, by simp, .tail (.refl n) hlink⟩
      · simp only [hxc, if_false]
        exact hw x (by simpa [hxc, hxm] using hx)
    · simp only [List.mem_append, List.mem_cons, not_or] at hy
      rw [hk' y hy.2.2, Walk.setLevel_jobLevels, if_neg hy.2.1, hk y hy.1]
  · exact fun _ _ _ _ _ _ _ ha => ha

/-- Every pushed name is linked from `n` by one link or more. -/
theorem walk_found_transGen {fuel : Nat} {n : String} {l : Int} {w : Walk}
    {r : List String × Walk} (h : walk get next step fuel n l w = some r) {x : String}
    (hx : x ∈ r.1) : TransGen (Link get next) n x := by
  obtain ⟨k, hk, -, hp⟩ := (walk_writesLevels h).1 x hx
  exact hp.transGen hk

theorem walk_found_isSome {fuel : Nat} {n : String} {l : Int} {w : Walk}
    {r : List String × Walk} (h : walk get next step fuel n l w = some r) {x : String}
    (hx : x ∈ r.1) : (get x).isSome := by
  obtain ⟨m, -, hm⟩ := TransGen.tail'_iff.mp (walk_found_transGen h hx)
  exact hm.target_isSome

section Termination

/-- The names of `keys` a walk has not processed yet. -/
def unvisited (keys : Finset String) (w : Walk) : Nat := (keys \ w.processed.toFinset).card

theorem unvisited_le_of_grow (keys : Finset String) {w w' : Walk} {B : List String}
    (h : w'.processed = B ++ w.processed) : unvisited keys w' ≤ unvisited keys w :=
  Finset.card_le_card (Finset.sdiff_subset_sdiff le_rfl (by simp [h]))

theorem unvisited_addProcessed_lt {keys : Finset String} {w : Walk} {n : String}
    (hn : n ∈ keys) (hw : n ∉ w.processed) :
    unvisited keys (w.addProcessed n) < unvisited keys w := by
  apply Finset.card_lt_card
  rw [Finset.ssubset_iff_of_subset (Finset.sdiff_subset_sdiff le_rfl (by simp))]
  exact ⟨n, by simp [hn, hw], by simp⟩

/-- Fuel above the number of unprocessed names of the index is never exhausted. -/
theorem walk_isSome (keys : Finset String) (hkeys : ∀ x, (get x).isSome → x ∈ keys)
    {fuel : Nat} {n : String} {l : Int} {w : Walk} (h : unvisited keys w < fuel) :
    ∃ r, walk get next step fuel n l w = some r := by
  induction fuel generalizing n l w with
  | zero => omega
  | succ fuel ih =>
    by_cases hn : n ∈ w.processed
    · exact ⟨_, walk_of_mem hn⟩
    cases hg : get n with
    | none => exact ⟨_, walk_of_get_none hn hg⟩
    | some job =>
      rw [walk_of_get_some hn hg]
      have hlt := unvisited_addProcessed_lt (hkeys n (by simp [hg])) hn
      suffices ∀ cs (acc : List String × Walk), unvisited keys acc.2 < fuel →
          ∃ r, forEachLink get (walk get next step fuel) (l + step) cs acc = some r from
        this _ _ (by simp only; omega)
      intro cs
      induction cs with
      | nil => exact fun acc _ => ⟨acc, rfl⟩
      | cons c cs ihc =>
        rintro ⟨found, wa⟩ hacc
        cases hs : (get c).isSome with
        | false => rw [forEachLink_cons_of_not hs]; exact ihc _ hacc
        | true =>
          rw [forEachLink_cons_of_isSome hs]
          obtain ⟨⟨more, w'⟩, hv⟩ :=
            ih (n := c) (l := l + step) (w := wa.setLevel c (l + step))
            (by simpa [unvisited] using hacc)
          obtain ⟨B, hB⟩ := (walk_expands hv).grow
          obtain ⟨r, hr⟩ := ihc (found ++ c :: more, w')
            (lt_of_le_of_lt (unvisited_le_of_grow keys (w := wa) (by simpa using hB)) hacc)
          exact ⟨r, by simpa [hv] using hr⟩

theorem forEachLink_mono {visit visit' : String → Int → Walk → Option (List String × Walk)}
    (hv : ∀ c l w r, visit c l w = some r → visit' c l w = some r) {l : Int}
    {cs : List String} {acc r : List String × Walk}
    (h : forEachLink get visit l cs acc = some r) : forEachLink get visit' l cs acc = some r := by
  induction cs generalizing acc with
  | nil => exact h
  | cons c cs ih =>
    obtain ⟨found, w⟩ := acc
    cases hs : (get c).isSome with
    | false => rw [forEachLink_cons_of_not hs] at h ⊢; exact ih h
    | true =>
      rw [forEachLink_cons_of_isSome hs] at h ⊢
      obtain ⟨r', hr', h⟩ := Option.bind_eq_some.mp h
      rw [hv _ _ _ _ hr', Option.some_bind]
      exact ih h

/-- More fuel gives the same result. -/
theorem walk_fuel_mono {fuel fuel' : Nat} (hle : fuel ≤ fuel') {n : String} {l : Int}
    {w : Walk} {r : List String × Walk} (h : walk get next step fuel n l w = some r) :
    walk get next step fuel' n l w = some r := by
  induction fuel generalizing fuel' n l w r with
  | zero => cases h
  | succ fuel ih =>
    obtain ⟨fuel', rfl⟩ : ∃ f, fuel' = f + 1 := ⟨fuel' - 1, by omega⟩
    by_cases hn : n ∈ w.processed
    · rwa [walk_of_mem hn] at h ⊢
    cases hg : get n with
    | none => rwa [walk_of_get_none hn hg] at h ⊢
    | some job =>
      rw [walk_of_get_some hn hg] at h ⊢
      exact forEachLink_mono (fun _ _ _ _ hv => ih (by omega) hv) h

/-- Two runs of a walk that both finish, on any fuel, agree. -/
theorem walk_unique {fuel fuel' : Nat} {n : String} {l : Int} {w : Walk}
    {r r' : List String × Walk} (h : walk get next step fuel n l w = some r)
    (h' : walk get next step fuel' n l w = some r') : r = r' := by
  rcases le_total fuel fuel' with hle | hle
  · exact Option.some.inj ((walk_fuel_mono hle h).symm.trans h')
  · exact Option.some.inj (h.symm.trans (walk_fuel_mono hle h'))

theorem walk_expands_each_name_once (allJobs : List Job) (next : Job → List String)
    (step : Int) (n : String) (jobLevels : String → Option Int) :
    ∃ r, (∀ fuel, (allJobs.map Job.name).toFinset.card + 1 ≤ fuel →
        walk (jobMap allJobs) next step fuel n 0 ⟨[], jobLevels⟩ = some r) ∧
      r.2.processed.Nodup ∧
      r.2.processed.length ≤ (allJobs.map Job.name).toFinset.card + 1 := by
  set keys := (allJobs.map Job.name).toFinset
  have hkeys : ∀ x, (jobMap allJobs x).isSome → x ∈ keys := fun x hx => by
    simpa [keys] using jobMap_isSome.mp hx
  obtain ⟨r, hr⟩ := @walk_isSome _ next step keys hkeys (keys.card + 1) n 0 ⟨[], jobLevels⟩
    (by simp [unvisited])
  have he := walk_expands hr
  have hsub : r.2.processed.toFinset ⊆ insert n keys := fun x hx => by
    rcases he.fresh x (List.mem_toFinset.mp hx) (by simp) with rfl | hx
    · exact Finset.mem_insert_self x keys
    · exact Finset.mem_insert_of_mem (hkeys x (walk_found_isSome hr hx))
  have hnd := he.nodup List.nodup_nil
  refine ⟨r, fun fuel hf => walk_fuel_mono hf hr, hnd, ?_⟩
  rw [← List.toFinset_card_of_nodup hnd]
  exact (Finset.card_le_card hsub).trans (Finset.card_insert_le n keys)

/-- Both walks of `buildDependencyGraph` stop, from any levels, with the same result for all
fuel above the number of distinct names, and expand each name at most once. -/
theorem walks_expand_each_name_once (allJobs : List Job) (focal : String)
    (jobLevels : String → Option Int) :
    (∃ r, (∀ fuel, (allJobs.map Job.name).toFinset.card + 1 ≤ fuel →
        findAncestors (jobMap allJobs) fuel focal 0 ⟨[], jobLevels⟩ = some r) ∧
      r.2.processed.Nodup ∧ r.2.processed.length ≤ (allJobs.map Job.name).toFinset.card + 1) ∧
    (∃ r, (∀ fuel, (allJobs.map Job.name).toFinset.card + 1 ≤ fuel →
        findDescendants (jobMap allJobs) fuel focal 0 ⟨[], jobLevels⟩ = some r) ∧
      r.2.processed.Nodup ∧ r.2.processed.length ≤ (allJobs.map Job.name).toFinset.card + 1) :=
  ⟨walk_expands_each_name_once allJobs parentNames (-1) focal jobLevels,
    walk_expands_each_name_once allJobs childNames 1 focal jobLevels⟩

end Termination

end DependencyDiagram
