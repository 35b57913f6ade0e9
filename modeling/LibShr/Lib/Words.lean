import Mathlib.Data.List.Basic
import Mathlib.Algebra.Order.Ring.Int
import Mathlib.Tactic.Ring
import Mathlib.Tactic.Positivity

/-!
# Bytes and 64-bit words

A word is the integer a `long` holds; its bytes are the eight little-endian bytes of its
two's complement form.
-/

namespace Words

/-- The eight bytes of a word, least significant first. -/
def toBytes (x : ℤ) : List UInt8 :=
  (List.range 8).map fun i => UInt8.ofNat (x / 256 ^ i % 256).toNat

/-- Little-endian value of a byte string. -/
def natOf : List UInt8 → ℕ
  | [] => 0
  | b :: bs => b.toNat + 256 * natOf bs

/-- The signed 64-bit value of eight bytes. -/
def ofBytes (bs : List UInt8) : ℤ :=
  if natOf bs < 2 ^ 63 then natOf bs else (natOf bs : ℤ) - 2 ^ 64

/-- The word left behind when the low-order bytes of `old` are overwritten by `bs`. -/
def patch (old : ℤ) (bs : List UInt8) : ℤ := ofBytes (bs ++ (toBytes old).drop bs.length)

/-- Cut a byte string into words; the last piece may be shorter than eight bytes. -/
def chunks : List UInt8 → List (List UInt8)
  | [] => []
  | b0 :: b1 :: b2 :: b3 :: b4 :: b5 :: b6 :: b7 :: bs =>
    [b0, b1, b2, b3, b4, b5, b6, b7] :: chunks bs
  | bs => [bs]

@[simp] theorem length_toBytes (x : ℤ) : (toBytes x).length = 8 := by simp [toBytes]

/-- Byte `i` of the value is the `i`-th byte of the string. -/
theorem natOf_digit (bs : List UInt8) (i : ℕ) (hi : i < bs.length) :
    natOf bs / 256 ^ i % 256 = bs[i].toNat := by
  induction bs generalizing i with
  | nil => simp at hi
  | cons b bs ih =>
    have hb := b.toNat_lt
    cases i with
    | zero => simp only [natOf, pow_zero, Nat.div_one, List.getElem_cons_zero]; omega
    | succ i =>
      have hdiv : (b.toNat + 256 * natOf bs) / 256 = natOf bs := by omega
      rw [natOf, pow_succ, mul_comm (256 ^ i), ← Nat.div_div_eq_div_mul, hdiv]
      simpa using ih i (by simpa using hi)

/-- Reducing a signed word modulo `2 ^ 64` does not change its bytes. -/
theorem ofBytes_digit (bs : List UInt8) (i : ℕ) (hi : i < 8) :
    ofBytes bs / 256 ^ i % 256 = ((natOf bs / 256 ^ i % 256 : ℕ) : ℤ) := by
  unfold ofBytes
  split
  · push_cast; rfl
  · have h256 : (0 : ℤ) < 256 ^ i := by positivity
    have hsplit : (2 : ℤ) ^ 64 = 256 ^ i * (256 * 256 ^ (7 - i)) := by
      rw [← pow_succ', ← pow_add, show i + (7 - i + 1) = 8 by omega]; norm_num
    rw [sub_eq_add_neg, hsplit, ← mul_neg, Int.add_mul_ediv_left _ _ h256.ne', ← mul_neg,
      Int.add_mul_emod_self_left]
    push_cast; rfl

/-- **Bytes of a word.** Eight bytes survive being stored in a word. -/
theorem toBytes_ofBytes {bs : List UInt8} (h : bs.length = 8) : toBytes (ofBytes bs) = bs := by
  apply List.ext_getElem (by simp [h])
  intro i hi hi'
  have h8 : i < 8 := by simpa using hi
  simp only [toBytes, List.getElem_map, List.getElem_range, ofBytes_digit bs i h8, Int.toNat_natCast,
    natOf_digit bs i hi']
  exact UInt8.ofNat_toNat

theorem toBytes_patch {bs : List UInt8} (old : ℤ) (h : bs.length ≤ 8) :
    toBytes (patch old bs) = bs ++ (toBytes old).drop bs.length :=
  toBytes_ofBytes (by simp; omega)

/-- The bytes of a word spell it modulo `2 ^ 64`. -/
theorem natOf_toBytes (x : ℤ) : (natOf (toBytes x) : ℤ) = x % 2 ^ 64 := by
  have hb : ∀ i : ℕ, ((UInt8.ofNat (x / 256 ^ i % 256).toNat).toNat : ℤ) = x / 256 ^ i % 256 := by
    intro i
    have := Int.emod_nonneg (x / 256 ^ i) (show (256 : ℤ) ≠ 0 by decide)
    have := Int.emod_lt_of_pos (x / 256 ^ i) (show (0 : ℤ) < 256 by decide)
    rw [UInt8.toNat_ofNat', Nat.mod_eq_of_lt (by omega), Int.toNat_of_nonneg (by omega)]
  have hl : List.range 8 = [0, 1, 2, 3, 4, 5, 6, 7] := rfl
  simp only [toBytes, hl, List.map_cons, List.map_nil, natOf, Nat.cast_add, Nat.cast_mul, hb]
  push_cast
  omega

/-- **A word of its bytes.** A signed 64-bit number survives being read byte by byte. -/
theorem ofBytes_toBytes {x : ℤ} (h : -2 ^ 63 ≤ x) (h' : x < 2 ^ 63) : ofBytes (toBytes x) = x := by
  have hn := natOf_toBytes x
  unfold ofBytes
  split <;> omega

/-- How a byte string is cut: nothing, a full word and the rest, or a last short piece. -/
theorem chunks_cases (bs : List UInt8) :
    (bs = [] ∧ chunks bs = []) ∨ (8 ≤ bs.length ∧ chunks bs = bs.take 8 :: chunks (bs.drop 8)) ∨
      (0 < bs.length ∧ bs.length < 8 ∧ chunks bs = [bs]) := by
  match bs with
  | [] => exact .inl ⟨rfl, rfl⟩
  | [_] | [_, _] | [_, _, _] | [_, _, _, _] | [_, _, _, _, _] | [_, _, _, _, _, _] | [_, _, _, _, _, _, _] =>
    exact .inr (.inr ⟨by simp, by simp, rfl⟩)
  | _ :: _ :: _ :: _ :: _ :: _ :: _ :: _ :: _ => exact .inr (.inl ⟨by simp, rfl⟩)

theorem length_chunks (bs : List UInt8) : (chunks bs).length = (bs.length + 7) / 8 := by
  induction hn : bs.length using Nat.strongRecOn generalizing bs with
  | _ n ih =>
    subst hn
    rcases chunks_cases bs with ⟨rfl, hc⟩ | ⟨h, hc⟩ | ⟨h, h', hc⟩
    · rfl
    · rw [hc, List.length_cons, ih (bs.drop 8).length (by rw [List.length_drop]; omega) _ rfl, List.length_drop]
      omega
    · rw [hc, List.length_singleton]
      omega

end Words
