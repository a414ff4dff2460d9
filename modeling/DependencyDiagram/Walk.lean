import DependencyDiagram.Job

/-!
# The two walks of `buildDependencyGraph`

`findAncestors` and `findDescendants` are the same closure but for the names they follow
from a job (`parentNames` or `childNames`) and the sign of the level change along a link.
Both are `walk`: a name gets past the guard once, is added to the walk's own `processed`
set, and each linked name whose job exists is pushed, given `level + step` in the shared
`jobLevels`, and walked from. `jobLevels.set` is not guarded: a name met again is
re-levelled.

`processed` is kept as the list of expanded names, most recent first, so its length counts
the expansions. The recursion runs on explicit fuel; `none` is running out of it, which
`walk_isSome` rules out for the fuel `buildDependencyGraph` gives.
-/

namespace DependencyDiagram

/-- The state the closures share: the walk's own `processed` set and `jobLevels`. -/
structure Walk where
  processed : List String
  jobLevels : String → Option Int

/-- `jobLevels.set(jobName, level)`. -/
def Walk.setLevel (w : Walk) (jobName : String) (level : Int) : Walk :=
  { w with jobLevels := fun k => if k = jobName then some level else w.jobLevels k }

/-- `processed.add(jobName)`, made only after the guard found `jobName` missing. -/
def Walk.addProcessed (w : Walk) (jobName : String) : Walk :=
  { w with processed := jobName :: w.processed }

@[simp] theorem Walk.setLevel_processed (w : Walk) (n : String) (l : Int) :
    (w.setLevel n l).processed = w.processed := rfl

@[simp] theorem Walk.setLevel_jobLevels (w : Walk) (n k : String) (l : Int) :
    (w.setLevel n l).jobLevels k = if k = n then some l else w.jobLevels k := rfl

@[simp] theorem Walk.addProcessed_processed (w : Walk) (n : String) :
    (w.addProcessed n).processed = n :: w.processed := rfl

@[simp] theorem Walk.addProcessed_jobLevels (w : Walk) (n : String) :
    (w.addProcessed n).jobLevels = w.jobLevels := rfl

/-- `links.forEach`: push each linked name whose job exists, set its level and walk from it.
`level` is the level of the linked names. -/
def forEachLink (get : String → Option Job)
    (visit : String → Int → Walk → Option (List String × Walk)) (level : Int) :
    List String → List String × Walk → Option (List String × Walk)
  | [], acc => some acc
  | c :: cs, (found, w) =>
    if (get c).isSome then
      match visit c level (w.setLevel c level) with
      | some (more, w') => forEachLink get visit level cs (found ++ c :: more, w')
      | none => none
    else forEachLink get visit level cs (found, w)

def walk (get : String → Option Job) (next : Job → List String) (step : Int) :
    Nat → String → Int → Walk → Option (List String × Walk)
  | 0, _, _, _ => none
  | fuel + 1, jobName, level, w =>
    if jobName ∈ w.processed then some ([], w)
    else
      match get jobName with
      | none => some ([], w.addProcessed jobName)
      | some job =>
        forEachLink get (walk get next step fuel) (level + step) (next job)
          ([], w.addProcessed jobName)

/-- `findAncestors(jobName, level)` of `buildDependencyGraph`. -/
def findAncestors (get : String → Option Job) :
    Nat → String → Int → Walk → Option (List String × Walk) :=
  walk get parentNames (-1)

/-- `findDescendants(jobName, level)` of `buildDependencyGraph`. -/
def findDescendants (get : String → Option Job) :
    Nat → String → Int → Walk → Option (List String × Walk) :=
  walk get childNames 1

section Unfold

variable {get : String → Option Job} {next : Job → List String} {step : Int}
variable {visit : String → Int → Walk → Option (List String × Walk)}

@[simp] theorem walk_zero (n : String) (l : Int) (w : Walk) :
    walk get next step 0 n l w = none := rfl

theorem walk_of_mem {fuel : Nat} {n : String} {l : Int} {w : Walk} (h : n ∈ w.processed) :
    walk get next step (fuel + 1) n l w = some ([], w) := by
  simp [walk, h]

theorem walk_eq_of_mem {fuel : Nat} {n : String} {l : Int} {w : Walk}
    {r : List String × Walk} (hn : n ∈ w.processed)
    (h : walk get next step fuel n l w = some r) :
    r = ([], w) := by
  cases fuel with
  | zero => cases h
  | succ fuel => rw [walk_of_mem hn] at h; exact (Option.some.inj h).symm

theorem walk_of_get_none {fuel : Nat} {n : String} {l : Int} {w : Walk}
    (h : n ∉ w.processed) (hg : get n = none) :
    walk get next step (fuel + 1) n l w = some ([], w.addProcessed n) := by
  simp [walk, h, hg]

theorem walk_of_get_some {fuel : Nat} {n : String} {l : Int} {w : Walk} {job : Job}
    (h : n ∉ w.processed) (hg : get n = some job) :
    walk get next step (fuel + 1) n l w =
      forEachLink get (walk get next step fuel) (l + step) (next job) ([], w.addProcessed n) := by
  simp [walk, h, hg]

@[simp] theorem forEachLink_nil (l : Int) (acc : List String × Walk) :
    forEachLink get visit l [] acc = some acc := rfl

theorem forEachLink_cons_of_isSome {l : Int} {c : String} {cs found : List String} {w : Walk}
    (hc : (get c).isSome) :
    forEachLink get visit l (c :: cs) (found, w) =
      (visit c l (w.setLevel c l)).bind fun r =>
        forEachLink get visit l cs (found ++ c :: r.1, r.2) := by
  simp only [forEachLink, hc, if_true]
  cases visit c l (w.setLevel c l) <;> rfl

theorem forEachLink_cons_of_not {l : Int} {c : String} {cs found : List String} {w : Walk}
    (hc : (get c).isSome = false) :
    forEachLink get visit l (c :: cs) (found, w) = forEachLink get visit l cs (found, w) := by
  simp [forEachLink, hc]

end Unfold

section Induction

variable (get : String → Option Job) (next : Job → List String) (step : Int)

/-- Induction over one loop of `forEachLink`, with the names already handled. -/
theorem forEachLink_induction {visit : String → Int → Walk → Option (List String × Walk)}
    {l : Int} {cs : List String} {I : List String → List String × Walk → Prop}
    {acc r : List String × Walk} (h0 : I [] acc)
    (hskip : ∀ done c a, c ∈ cs → (get c).isSome = false → I done a → I (done ++ [c]) a)
    (hvisit : ∀ done c found w more w', c ∈ cs → (get c).isSome → I done (found, w) →
      visit c l (w.setLevel c l) = some (more, w') → I (done ++ [c]) (found ++ c :: more, w'))
    (h : forEachLink get visit l cs acc = some r) : I cs r := by
  suffices ∀ rest done a, done ++ rest = cs → I done a →
      forEachLink get visit l rest a = some r → I cs r from this cs [] acc rfl h0 h
  intro rest
  induction rest with
  | nil => intro done a hd ha h; cases h; simpa [← hd] using ha
  | cons c rest ih =>
    rintro done ⟨found, w⟩ rfl ha h
    have hc : c ∈ done ++ c :: rest := by simp
    cases hs : (get c).isSome with
    | false =>
      rw [forEachLink_cons_of_not hs] at h
      exact ih (done ++ [c]) _ (by simp) (hskip done c _ hc hs ha) h
    | true =>
      rw [forEachLink_cons_of_isSome hs] at h
      obtain ⟨⟨more, w'⟩, hv, h⟩ := Option.bind_eq_some.mp h
      exact ih (done ++ [c]) _ (by simp) (hvisit done c found w more w' hc hs ha hv) h

/-- Induction over a run of `walk`: `Q` is what a call establishes, `I` the invariant of
its loop over the linked names. -/
theorem walk_induction {Q : String → Int → Walk → List String × Walk → Prop}
    {I : String → Int → Walk → List String → List String × Walk → Prop}
    (hmem : ∀ n l w, n ∈ w.processed → Q n l w ([], w))
    (hnone : ∀ n l w, n ∉ w.processed → get n = none → Q n l w ([], w.addProcessed n))
    (hstart : ∀ n l w job, n ∉ w.processed → get n = some job →
      I n l w [] ([], w.addProcessed n))
    (hskip : ∀ n l w job done c a, n ∉ w.processed → get n = some job → c ∈ next job →
      (get c).isSome = false → I n l w done a → I n l w (done ++ [c]) a)
    (hvisit : ∀ n l w job done c found wa more w' fuel, n ∉ w.processed →
      get n = some job → c ∈ next job → (get c).isSome → I n l w done (found, wa) →
      walk get next step fuel c (l + step) (wa.setLevel c (l + step)) = some (more, w') →
      Q c (l + step) (wa.setLevel c (l + step)) (more, w') →
      I n l w (done ++ [c]) (found ++ c :: more, w'))
    (hend : ∀ n l w job r, n ∉ w.processed → get n = some job → I n l w (next job) r →
      Q n l w r)
    {fuel : Nat} {n : String} {l : Int} {w : Walk} {r : List String × Walk}
    (h : walk get next step fuel n l w = some r) : Q n l w r := by
  induction fuel generalizing n l w r with
  | zero => cases h
  | succ fuel ih =>
    by_cases hn : n ∈ w.processed
    · rw [walk_of_mem hn] at h
      cases h
      exact hmem n l w hn
    cases hg : get n with
    | none =>
      rw [walk_of_get_none hn hg] at h
      cases h
      exact hnone n l w hn hg
    | some job =>
      rw [walk_of_get_some hn hg] at h
      refine hend n l w job r hn hg (forEachLink_induction get (I := I n l w)
        (hstart n l w job hn hg) (fun done c a hc hs ha => hskip n l w job done c a hn hg hc hs ha)
        (fun done c found wa more w' hc hs ha hv => ?_) h)
      exact hvisit n l w job done c found wa more w' fuel hn hg hc hs ha hv (ih hv)

end Induction

end DependencyDiagram
