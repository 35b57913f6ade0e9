import Mathlib.Data.List.Nodup
import Mathlib.Data.List.Perm.Subperm
import Mathlib.Data.Nat.Log
import Mathlib.Data.Nat.Bitwise
import Mathlib.Data.Int.Bitwise

/-!
# Bit counting on 64-bit words

The compiler built-ins that count bits, on natural numbers below `2 ^ 64`, and how they compute
the power of two a number is rounded up to.
-/

namespace Bits

/-- Number of set bits. -/
def popcount (n : ℕ) : ℕ := (List.range 64).countP fun i => n.testBit i

/-- Number of leading zeros of a non-zero word. -/
def clz (n : ℕ) : ℕ := 63 - Nat.log2 n

/-- Number of trailing zeros of a non-zero word. -/
def ctz (n : ℕ) : ℕ := ((List.range 64).find? fun i => n.testBit i).getD 64

theorem testBit_lt {n i : ℕ} (hn : n < 2 ^ 64) (hi : n.testBit i = true) : i < 64 := by
  by_contra h
  have := Nat.testBit_lt_two_pow (lt_of_lt_of_le hn (Nat.pow_le_pow_right (by omega) (by omega : 64 ≤ i)))
  simp [this] at hi

theorem ctz_two_pow {k : ℕ} (hk : k < 64) : ctz (2 ^ k) = k := by
  have hfind : (List.range 64).find? (fun i => (2 ^ k).testBit i) = some k := by
    rw [List.find?_range_eq_some]
    refine ⟨by simp, by simpa using hk, fun j hj => by simp [Nat.testBit_two_pow]; omega⟩
  simp [ctz, hfind]

theorem popcount_two_pow {k : ℕ} (hk : k < 64) : popcount (2 ^ k) = 1 := by
  have hcongr : popcount (2 ^ k) = (List.range 64).count k := by
    unfold popcount List.count
    exact List.countP_congr fun i _ => by
      rw [Nat.testBit_two_pow, decide_eq_true_eq, beq_iff_eq]
      exact eq_comm
  rw [hcongr]
  exact List.count_eq_one_of_mem List.nodup_range (by simpa using hk)

/-- Two different set bits are counted twice. -/
theorem two_le_popcount {n i j : ℕ} (hi : i < 64) (hj : j < 64) (hij : i ≠ j)
    (hbi : n.testBit i = true) (hbj : n.testBit j = true) : 2 ≤ popcount n := by
  rw [popcount, List.countP_eq_length_filter]
  have hsub : [i, j].Subperm ((List.range 64).filter fun i => n.testBit i) :=
    List.subperm_of_subset (List.nodup_cons.2 ⟨by simpa using hij, by simp⟩) fun x hx => by
      simp only [List.mem_cons, List.not_mem_nil, or_false] at hx
      rcases hx with rfl | rfl <;> simp [*]
  exact hsub.length_le

theorem popcount_le_one_iff {n : ℕ} (h0 : n ≠ 0) (hn : n < 2 ^ 64) :
    popcount n ≤ 1 ↔ ∃ k < 64, n = 2 ^ k := by
  constructor
  · intro hp
    obtain ⟨k, hk, -⟩ := Nat.exists_most_significant_bit h0
    have hk64 := testBit_lt hn hk
    refine ⟨k, hk64, Nat.eq_of_testBit_eq fun j => ?_⟩
    rw [Nat.testBit_two_pow]
    by_cases hj : k = j
    · subst hj; simpa using hk
    · simp only [hj, decide_false]
      by_contra hne
      have hbj : n.testBit j = true := by simpa using hne
      have := two_le_popcount hk64 (testBit_lt hn hbj) hj hk hbj
      omega
  · rintro ⟨k, hk, rfl⟩; exact (popcount_two_pow hk).le

/-- `LONG_BIT - clz n` is the number of significant bits. -/
theorem sub_clz {n : ℕ} (h0 : n ≠ 0) (hn : n < 2 ^ 64) : 64 - clz n = Nat.log2 n + 1 := by
  have := (Nat.log2_lt h0).2 hn
  unfold clz; omega

theorem clz_le (n : ℕ) : clz n ≤ 64 := by
  unfold clz
  omega

/-- The least power of two that is at least `n`, by its exponent. -/
def ceilLog2 (n : ℕ) : ℕ := if popcount n > 1 then 64 - clz n else Nat.log2 n

/-- **Rounding up.** `2 ^ ceilLog2 n` is the least power of two that is at least `n`. -/
theorem ceilLog2_spec {n : ℕ} (h0 : n ≠ 0) (hn : n < 2 ^ 64) :
    n ≤ 2 ^ ceilLog2 n ∧ ∀ j, n ≤ 2 ^ j → ceilLog2 n ≤ j := by
  unfold ceilLog2
  split
  · rename_i hp
    rw [sub_clz h0 hn]
    refine ⟨(Nat.lt_log2_self (n := n)).le, fun j hj => ?_⟩
    have hle : 2 ^ n.log2 ≤ n := Nat.log2_self_le h0
    have hne : n ≠ 2 ^ n.log2 := fun e => by
      have := (popcount_le_one_iff h0 hn).2 ⟨_, (Nat.log2_lt h0).2 hn, e⟩; omega
    by_contra hlt
    have : 2 ^ j ≤ 2 ^ n.log2 := Nat.pow_le_pow_right (by omega) (by omega)
    omega
  · rename_i hp
    obtain ⟨k, hk, rfl⟩ := (popcount_le_one_iff h0 hn).1 (by omega)
    rw [Nat.log2_two_pow]
    exact ⟨le_rfl, fun j hj => (Nat.pow_le_pow_iff_right (by omega)).1 hj⟩

/-! ## Flag words -/

/-- An integer is determined by its bits. -/
theorem eq_of_testBit {m n : ℤ} (h : ∀ k, m.testBit k = n.testBit k) : m = n := by
  -- beyond both, a number `≥ 0` has zeros and one `< 0` has ones
  have hlt : ∀ a b : ℕ, ∃ k, a.testBit k = false ∧ b.testBit k = false := fun a b =>
    ⟨a + b, Nat.testBit_lt_two_pow (lt_of_le_of_lt (Nat.le_add_right a b) Nat.lt_two_pow_self),
      Nat.testBit_lt_two_pow (lt_of_le_of_lt (Nat.le_add_left b a) Nat.lt_two_pow_self)⟩
  match m, n with
  | .ofNat a, .ofNat b => exact congrArg Int.ofNat (Nat.eq_of_testBit_eq h)
  | .negSucc a, .negSucc b =>
    exact congrArg Int.negSucc (Nat.eq_of_testBit_eq fun k => by simpa [Int.testBit] using h k)
  | .ofNat a, .negSucc b =>
    obtain ⟨k, ha, hb⟩ := hlt a b
    simpa [Int.testBit, ha, hb] using h k
  | .negSucc a, .ofNat b =>
    obtain ⟨k, ha, hb⟩ := hlt a b
    simpa [Int.testBit, ha, hb] using h k

theorem testBit_of_land_eq_zero {g h : ℤ} (hgh : Int.land g h = 0) (k : ℕ) : (g.testBit k && h.testBit k) = false := by
  rw [← Int.testBit_land, hgh]
  simp [Int.testBit]

/-- Clearing flags does not change others. -/
theorem land_clear {f g h : ℤ} (hgh : Int.land g h = 0) : Int.land (Int.land f (Int.lnot g)) h = Int.land f h := by
  refine eq_of_testBit fun k => ?_
  have := testBit_of_land_eq_zero hgh k
  rw [Int.testBit_land, Int.testBit_land, Int.testBit_land, Int.testBit_lnot]
  cases hg : g.testBit k <;> cases hh : h.testBit k <;> simp_all

/-- Setting flags does not change others. -/
theorem land_set {f g h : ℤ} (hgh : Int.land g h = 0) : Int.land (Int.lor f g) h = Int.land f h := by
  refine eq_of_testBit fun k => ?_
  have := testBit_of_land_eq_zero hgh k
  rw [Int.testBit_land, Int.testBit_land, Int.testBit_lor]
  cases hg : g.testBit k <;> cases hh : h.testBit k <;> simp_all

/-- Flags among those that were set are set. -/
theorem land_set_sub {g h : ℤ} (hgh : Int.land g h = h) (f : ℤ) : Int.land (Int.lor f g) h = h := by
  refine eq_of_testBit fun k => ?_
  have hk := congrArg (·.testBit k) hgh
  simp only [Int.testBit_land] at hk
  rw [Int.testBit_land, Int.testBit_lor]
  cases hg : g.testBit k <;> cases hh : h.testBit k <;> simp_all

/-- Flags among those that were cleared are not set. -/
theorem land_clear_sub {g h : ℤ} (hgh : Int.land g h = h) (f : ℤ) : Int.land (Int.land f (Int.lnot g)) h = 0 := by
  refine eq_of_testBit fun k => ?_
  have hk := congrArg (·.testBit k) hgh
  simp only [Int.testBit_land] at hk
  rw [Int.testBit_land, Int.testBit_land, Int.testBit_lnot]
  cases hg : g.testBit k <;> cases hh : h.testBit k <;> simp_all [Int.testBit]

/-- Clearing flags sets none. -/
theorem land_clear_eq_zero {f h : ℤ} (hf : Int.land f h = 0) (g : ℤ) : Int.land (Int.land f (Int.lnot g)) h = 0 := by
  refine eq_of_testBit fun k => ?_
  have hk := testBit_of_land_eq_zero hf k
  rw [Int.testBit_land, Int.testBit_land, Int.testBit_lnot]
  cases hf : f.testBit k <;> cases hh : h.testBit k <;> simp_all [Int.testBit]

/-- Where all of some flags are set, each is. -/
theorem land_of_land_eq {f g h : ℤ} (hgh : Int.land g h = h) (hf : Int.land f g = g) : Int.land f h = h := by
  refine eq_of_testBit fun k => ?_
  have hk := congrArg (·.testBit k) hgh
  have hk' := congrArg (·.testBit k) hf
  simp only [Int.testBit_land] at hk hk'
  rw [Int.testBit_land]
  cases hg : g.testBit k <;> cases hh : h.testBit k <;> simp_all

/-- Where none of some flags is set, each is not. -/
theorem land_of_land_eq_zero {f g h : ℤ} (hgh : Int.land g h = h) (hf : Int.land f g = 0) : Int.land f h = 0 := by
  refine eq_of_testBit fun k => ?_
  have hk := congrArg (·.testBit k) hgh
  have hk' := testBit_of_land_eq_zero hf k
  simp only [Int.testBit_land] at hk
  rw [Int.testBit_land]
  cases hg : g.testBit k <;> cases hh : h.testBit k <;> simp_all [Int.testBit]

theorem land_self (f : ℤ) : Int.land f f = f := by
  refine eq_of_testBit fun k => ?_
  rw [Int.testBit_land, Bool.and_self]

/-- A flag that was set is set. -/
theorem land_set_self (f g : ℤ) : Int.land (Int.lor f g) g = g := land_set_sub (land_self g) f

/-- A flag that was cleared is not set. -/
theorem land_clear_self (f g : ℤ) : Int.land (Int.land f (Int.lnot g)) g = 0 := land_clear_sub (land_self g) f

end Bits
