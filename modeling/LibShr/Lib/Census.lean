import Mathlib.Algebra.BigOperators.Group.Finset.Basic
import Mathlib.Algebra.BigOperators.Ring.Finset
import Mathlib.Algebra.Order.BigOperators.Group.Finset

/-!
# Counting threads

Any number of threads, each at one place. `Census w pos n` says that all but finitely many threads
are at places of weight 0 and that the weights sum up to `n`, so that `n` counts the threads at certain
places when `w` is 0 or 1.
-/

/-- The weights of all threads sum up to `n`. -/
def Census {T P : Type*} (w : P → ℕ) (pos : T → P) (n : ℕ) : Prop :=
  ∃ S : Finset T, (∀ t, t ∉ S → w (pos t) = 0) ∧ ∑ t ∈ S, w (pos t) = n

namespace Census

variable {T P : Type*} {w w' : P → ℕ} {pos : T → P} {n m : ℕ} {t : T} {p : P}

/-- All threads are at a place of weight 0. -/
theorem zero (h : ∀ t, w (pos t) = 0) : Census w pos 0 := ⟨∅, fun t _ => h t, rfl⟩

/-- The set that is summed over may be made larger. -/
theorem sum_of_subset {S S' : Finset T} (hS : ∀ t, t ∉ S → w (pos t) = 0) (hsub : S ⊆ S') :
    ∑ t ∈ S', w (pos t) = ∑ t ∈ S, w (pos t) :=
  (Finset.sum_subset hsub fun t _ ht => hS t ht).symm

/-- Smaller weights can be summed up too. -/
theorem exists_of_le (h : Census w' pos m) (hle : ∀ p, w p ≤ w' p) : ∃ n, Census w pos n := by
  obtain ⟨S, hS, -⟩ := h
  refine ⟨_, S, fun t ht => ?_, rfl⟩
  have := hle (pos t)
  rw [hS t ht] at this
  omega

variable [DecidableEq T]

/-- Two sums over the same threads. -/
theorem common (h : Census w pos n) (h' : Census w' pos m) (t : T) :
    ∃ S : Finset T, t ∈ S ∧ (∀ u, u ∉ S → w (pos u) = 0) ∧ ∑ u ∈ S, w (pos u) = n ∧ ∑ u ∈ S, w' (pos u) = m := by
  obtain ⟨S, hS, rfl⟩ := h
  obtain ⟨S', hS', rfl⟩ := h'
  have hsub : S ⊆ insert t (S ∪ S') := fun u hu => by simp [hu]
  have hsub' : S' ⊆ insert t (S ∪ S') := fun u hu => by simp [hu]
  exact ⟨insert t (S ∪ S'), by simp, fun u hu => hS u fun h => hu (hsub h), sum_of_subset hS hsub,
    sum_of_subset hS' hsub'⟩

theorem unique (h : Census w pos n) (h' : Census w pos m) : n = m := by
  obtain ⟨S, hS, rfl⟩ := h
  obtain ⟨S', hS', rfl⟩ := h'
  rw [← sum_of_subset hS Finset.subset_union_left, ← sum_of_subset hS' Finset.subset_union_right]

theorem update (h : Census w pos n) (t : T) (p : P) (hm : m + w (pos t) = n + w p) :
    Census w (Function.update pos t p) m := by
  obtain ⟨S, ht, hS, hn, -⟩ := h.common h t
  refine ⟨S, fun u hu => ?_, ?_⟩
  · rw [Function.update_of_ne (by rintro rfl; exact hu ht)]
    exact hS u hu
  · have hrest : ∑ u ∈ S.erase t, w (Function.update pos t p u) = ∑ u ∈ S.erase t, w (pos u) :=
      Finset.sum_congr rfl fun u hu => by rw [Function.update_of_ne (Finset.ne_of_mem_erase hu)]
    rw [← Finset.add_sum_erase _ _ ht] at hn ⊢
    rw [hrest, Function.update_self]
    omega

/-- A thread is counted. -/
theorem le_of_place (h : Census w pos n) (t : T) : w (pos t) ≤ n := by
  obtain ⟨S, ht, -, hn, -⟩ := h.common h t
  rw [← hn]
  exact Finset.single_le_sum (f := fun u => w (pos u)) (fun _ _ => Nat.zero_le _) ht

theorem mono (h : Census w pos n) (h' : Census w' pos m) (hle : ∀ p, w p ≤ w' p) : n ≤ m := by
  obtain ⟨S, hS, rfl⟩ := h
  obtain ⟨S', hS', rfl⟩ := h'
  calc ∑ t ∈ S, w (pos t) = ∑ t ∈ S ∪ S', w (pos t) := (sum_of_subset hS Finset.subset_union_left).symm
    _ ≤ ∑ t ∈ S ∪ S', w' (pos t) := Finset.sum_le_sum fun t _ => hle _
    _ = ∑ t ∈ S', w' (pos t) := sum_of_subset hS' Finset.subset_union_right

/-- Weights that exceed others by a multiple of third ones give a sum that does so too. -/
theorem exists_le_add {v : P → ℕ} (h : Census w pos n) (h' : Census w' pos m) (k : ℕ) (hle : ∀ p, v p ≤ w p + k * w' p) :
    ∃ l, Census v pos l ∧ l ≤ n + k * m := by
  obtain ⟨S, hS, rfl⟩ := h
  obtain ⟨S', hS', rfl⟩ := h'
  refine ⟨_, ⟨S ∪ S', fun t ht => ?_, rfl⟩, ?_⟩
  · rw [Finset.notMem_union] at ht
    have := hle (pos t)
    rw [hS t ht.1, hS' t ht.2] at this
    omega
  · calc ∑ t ∈ S ∪ S', v (pos t) ≤ ∑ t ∈ S ∪ S', (w (pos t) + k * w' (pos t)) := Finset.sum_le_sum fun t _ => hle _
      _ = ∑ t ∈ S ∪ S', w (pos t) + k * ∑ t ∈ S ∪ S', w' (pos t) := by rw [Finset.sum_add_distrib, Finset.mul_sum]
      _ = ∑ t ∈ S, w (pos t) + k * ∑ t ∈ S', w' (pos t) := by
        rw [sum_of_subset hS Finset.subset_union_left, sum_of_subset hS' Finset.subset_union_right]

/-- A thread that only the larger weights count makes the difference. -/
theorem mono_lt (h : Census w pos n) (h' : Census w' pos m) (hle : ∀ p, w p ≤ w' p) (hlt : w (pos t) < w' (pos t)) :
    n < m := by
  obtain ⟨S, ht, -, rfl, rfl⟩ := h.common h' t
  exact Finset.sum_lt_sum (fun u _ => hle _) ⟨t, ht, hlt⟩

end Census
