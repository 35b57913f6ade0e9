import Mathlib.Data.List.Basic
import Mathlib.Data.Int.Order.Basic
import Mathlib.Algebra.Order.Ring.Nat

/-!
# Numerals and lines

The value of a numeral, which a machine integer wraps digit by digit to the same residue, and the lines of
a text, cut at the separator.
-/

namespace Text

/-- The value of a numeral with the digits `s`, after digits of the value `v`. -/
def numeral {α : Type} (b : ℕ) (val : α → ℕ) (v : ℕ) (s : List α) : ℕ := s.foldl (fun v d => v * b + val d) v

section
variable {α : Type} {b v : ℕ} {val : α → ℕ} {s : List α} {d : α}

@[simp] theorem numeral_nil : numeral b val v [] = v := rfl

@[simp] theorem numeral_cons : numeral b val v (d :: s) = numeral b val (v * b + val d) s := rfl

theorem numeral_le (hb : 0 < b) : v ≤ numeral b val v s := by
  induction s generalizing v with
  | nil => exact Nat.le_refl v
  | cons d s ih =>
    calc v ≤ v * b + val d := Nat.le_trans (Nat.le_mul_of_pos_right v hb) (Nat.le_add_right _ _)
      _ ≤ numeral b val v (d :: s) := ih

/-- The first digits alone give no more. -/
theorem numeral_take_le (hb : 0 < b) (n : ℕ) : numeral b val v (s.take n) ≤ numeral b val v s := by
  induction s generalizing v n with
  | nil => rw [List.take_nil]
  | cons d s ih =>
    cases n with
    | zero =>
      rw [List.take_zero]
      exact numeral_le hb
    | succ n =>
      rw [List.take_succ_cons, numeral_cons, numeral_cons]
      exact ih n

/-- A machine integer takes a digit. -/
theorem bmod_digit (m : ℕ) (c : ℤ) : Int.bmod (Int.bmod (Int.bmod v m * b) m + c) m = Int.bmod (v * b + c) m := by
  rw [Int.bmod_mul_bmod, Int.bmod_add_bmod]

end

/-! ## Lines -/

section
variable {α : Type} {l : List (List α)} {t : List α}

/-- The last line counts up to the first empty one if and only if there is an empty line. -/
theorem takeWhile_dropLast_eq (hl : l ≠ []) (p : List α → Bool) : l.dropLast.takeWhile p = l.takeWhile p ↔ ∃ t ∈ l, p t = false := by
  induction l with
  | nil => exact absurd rfl hl
  | cons t l ih =>
    cases l with
    | nil => by_cases hp : p t = true <;> simp [hp]
    | cons u l =>
      rw [List.dropLast_cons_cons, List.takeWhile_cons, List.takeWhile_cons]
      by_cases hp : p t = true
      · simp only [hp, if_true, List.cons_inj_right, ih (List.cons_ne_nil _ _), List.mem_cons, exists_eq_or_imp, Bool.true_eq_false, false_or]
      · simp [hp]

variable [BEq α] [LawfulBEq α] {sep : α} {s : List α}

/-- Lines that end with the separator. -/
def terminated (sep : α) (s : List α) : List (List α) := (s.splitOn sep).dropLast

theorem terminated_cons (h : sep ∉ t) : terminated sep (t ++ sep :: s) = t :: terminated sep s := by
  rw [terminated, List.splitOn_append_cons_self_of_not_mem h, List.dropLast_cons_of_ne_nil (List.splitOn_ne_nil _ _), terminated]

theorem terminated_nil (h : sep ∉ s) : terminated sep s = [] := by
  rw [terminated, List.splitOn_eq_singleton h, List.dropLast_singleton]

end

end Text
