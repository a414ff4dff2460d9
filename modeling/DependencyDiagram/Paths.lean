import Mathlib.Logic.Relation

/-!
# Counted paths

`Steps R k a b` says that `b` is reached from `a` by exactly `k` steps of `R`. The walks
of the dependency diagram record a level as a number of links followed, so the length of
a path matters and `Relation.TransGen` alone does not say enough.

When every element has at most one `R`-predecessor and `R` has no cycle, the links form
a forest: two paths between the same elements have the same length, and two paths into
the same element are nested.
-/

namespace DependencyDiagram

open Relation

universe u
variable {α : Type u} {R : α → α → Prop}

inductive Steps (R : α → α → Prop) : Nat → α → α → Prop
  | refl (a : α) : Steps R 0 a a
  | tail {k : Nat} {a b c : α} : Steps R k a b → R b c → Steps R (k + 1) a c

/-- Every element has at most one `R`-predecessor. -/
def OnePredecessor (R : α → α → Prop) : Prop := ∀ a b c, R a c → R b c → a = b

/-- Every element has at most one `R`-successor. -/
def OneSuccessor (R : α → α → Prop) : Prop := ∀ a b c, R a b → R a c → b = c

def Acyclic (R : α → α → Prop) : Prop := ∀ a, ¬ TransGen R a a

namespace Steps

theorem head {k : Nat} {a b c : α} (hab : R a b) (h : Steps R k b c) :
    Steps R (k + 1) a c := by
  induction h with
  | refl => exact .tail (.refl a) hab
  | tail _ hbc ih => exact .tail (ih hab) hbc

theorem trans {i j : Nat} {a b c : α} (hab : Steps R i a b) (hbc : Steps R j b c) :
    Steps R (i + j) a c := by
  induction hbc with
  | refl => exact hab
  | tail _ he ih => exact .tail (ih hab) he

theorem zero_iff {a b : α} : Steps R 0 a b ↔ a = b :=
  ⟨fun h => by cases h; rfl, fun h => h ▸ .refl a⟩

theorem succ_iff {k : Nat} {a c : α} :
    Steps R (k + 1) a c ↔ ∃ b, Steps R k a b ∧ R b c :=
  ⟨fun h => by cases h with | tail h he => exact ⟨_, h, he⟩,
    fun ⟨_, h, he⟩ => .tail h he⟩

theorem transGen {k : Nat} {a b : α} (h : Steps R k a b) (hk : 0 < k) : TransGen R a b := by
  induction h with
  | refl => omega
  | @tail k _ _ _ h he ih =>
    rcases Nat.eq_zero_or_pos k with rfl | hk
    · exact .single (zero_iff.mp h ▸ he)
    · exact .tail (ih hk) he

theorem of_transGen {a b : α} (h : TransGen R a b) : ∃ k, 0 < k ∧ Steps R k a b := by
  induction h with
  | single he => exact ⟨1, by omega, .tail (.refl _) he⟩
  | tail _ he ih =>
    obtain ⟨k, -, hk⟩ := ih
    exact ⟨k + 1, by omega, .tail hk he⟩

theorem reflTransGen {k : Nat} {a b : α} (h : Steps R k a b) : ReflTransGen R a b := by
  induction h with
  | refl => exact .refl
  | tail _ he ih => exact .tail ih he

theorem swap {k : Nat} {a b : α} (h : Steps R k a b) : Steps (Function.swap R) k b a := by
  induction h with
  | refl => exact .refl _
  | tail _ he ih => exact .head he ih

/-- A path of length `k` passes through an element at every smaller distance. -/
theorem split_at {k j : Nat} {a c : α} (h : Steps R k a c) (hj : j ≤ k) :
    ∃ b, Steps R j a b ∧ Steps R (k - j) b c := by
  induction h generalizing j with
  | refl b =>
    obtain rfl : j = 0 := by omega
    exact ⟨b, .refl b, .refl b⟩
  | @tail k _ b c h he ih =>
    rcases Nat.lt_or_ge k j with hkj | hkj
    · obtain rfl : j = k + 1 := by omega
      exact ⟨c, .tail h he, by simpa using Steps.refl c⟩
    · obtain ⟨m, hm, hmb⟩ := ih hkj
      exact ⟨m, hm, by rw [show k + 1 - j = k - j + 1 by omega]; exact .tail hmb he⟩

/-- With one successor per element, the element at a given distance is unique. -/
theorem target_unique (hs : OneSuccessor R) {k : Nat} {a b c : α}
    (hb : Steps R k a b) (hc : Steps R k a c) : b = c := by
  induction hb generalizing c with
  | refl => exact zero_iff.mp hc
  | tail _ he ih =>
    obtain ⟨m, hm, hmc⟩ := succ_iff.mp hc
    exact hs _ _ _ he (ih hm ▸ hmc)

/-- In a forest two paths between the same elements have the same length. -/
theorem length_unique (hp : OnePredecessor R) (hc : Acyclic R) {i j : Nat} {a b : α}
    (hi : Steps R i a b) (hj : Steps R j a b) : i = j := by
  induction hi generalizing j with
  | refl =>
    rcases Nat.eq_zero_or_pos j with rfl | hj0
    · rfl
    · exact absurd (hj.transGen hj0) (hc _)
  | @tail i _ m b hi he ih =>
    cases hj with
    | refl => exact absurd ((Steps.tail hi he).transGen (Nat.succ_pos i)) (hc _)
    | tail hj he' => rw [ih (hp _ _ _ he he' ▸ hj)]

end Steps

/-- With one predecessor per element, two paths into the same element are nested. -/
theorem reflTransGen_nested (hp : OnePredecessor R) {a b x : α}
    (ha : ReflTransGen R a x) (hb : ReflTransGen R b x) :
    ReflTransGen R a b ∨ ReflTransGen R b a := by
  induction ha generalizing b with
  | refl => exact .inr hb
  | @tail m x ham hmx ih =>
    rcases hb.cases_tail with rfl | ⟨m', hbm, hmx'⟩
    · exact .inl (ham.tail hmx)
    · exact ih (hp _ _ _ hmx' hmx ▸ hbm)

/-- The last link into `c` comes from its only predecessor `n`. -/
theorem reflTransGen_of_transGen_pred (hp : OnePredecessor R) {a n c : α}
    (hnc : R n c) (hac : TransGen R a c) : ReflTransGen R a n := by
  obtain ⟨m, ham, hmc⟩ := TransGen.tail'_iff.mp hac
  exact hp _ _ _ hmc hnc ▸ ham

end DependencyDiagram
