import LibShr.Seq.Rules

/-!
# Copying bytes in and out of the array
-/

namespace LibShr

open Prog

/-- The memory after storing the chunks `cs` one word each from slot `s` on. -/
def stored (m : ℤ → ℤ) : ℤ → List (List UInt8) → ℤ → ℤ
  | _, [] => m
  | s, c :: cs => stored (setSlot m s (Words.patch (m s) c)) (s + 1) cs

/-- The bytes of the `n` words from slot `s` on. -/
def bytesAt (m : ℤ → ℤ) (s : ℤ) : ℕ → List UInt8
  | 0 => []
  | n + 1 => Words.toBytes (m s) ++ bytesAt m (s + 1) n

section
variable {tot : Prop} {a : ℤ}

theorem stored_ne : ∀ {m : ℤ → ℤ} {s : ℤ} {cs : List (List UInt8)} {x : ℤ}, x < s ∨ s + cs.length ≤ x →
    stored m s cs x = m x
  | _, _, [], _, _ => rfl
  | m, s, c :: cs, x, h => by
    simp only [List.length_cons, Nat.cast_add, Nat.cast_one] at h
    rw [stored, stored_ne (by omega), setSlot_ne _ _ (by omega)]

theorem wp_storeChunks {Q : Unit → World → Prop} : ∀ {cs : List (List UInt8)} {s : ℤ} {w : World}, 0 ≤ s →
    s + cs.length ≤ a → (Wp tot (storeChunks a s cs) Q w ↔ Q () (w.setMem (stored w.mem s cs)))
  | [], _, _, _, _ => wp_pure
  | c :: cs, s, w, h₀, h₁ => by
    simp only [List.length_cons, Nat.cast_add, Nat.cast_one] at h₁
    simp (disch := omega) only [storeChunks, wp_bind, wp_storeBytes, wp_storeChunks, World.setMem_setMem, stored]

/-- `memcpy` into the array. -/
theorem wp_memcpyTo {Q : Unit → World → Prop} {src : List UInt8} {n : ℕ} {s : ℤ} {w : World} (h₀ : 0 ≤ s)
    (hn : n ≤ src.length) (h₁ : s + ((n + 7) / 8 : ℕ) ≤ a) :
    Wp tot (memcpyTo a s src n) Q w ↔ Q () (w.setMem (stored w.mem s (Words.chunks (src.take n)))) := by
  have hlen : ¬(n : ℤ) > src.length := by omega
  have hc : (Words.chunks (src.take n)).length = (n + 7) / 8 := by
    rw [Words.length_chunks, List.length_take, min_eq_left hn]
  simp only [memcpyTo, hlen, if_false, Int.toNat_natCast]
  exact wp_storeChunks h₀ (by omega)

/-- `memcpy` out of the array. -/
theorem wp_memcpyFrom {Q : List UInt8 → World → Prop} {w : World} : ∀ {n : ℕ} {s : ℤ}, 0 ≤ s → s + n ≤ a →
    (Wp tot (memcpyFrom a s n) Q w ↔ Q (bytesAt w.mem s n) w)
  | 0, _, _, _ => wp_pure
  | n + 1, s, h₀, h₁ => by
    simp only [Nat.cast_add, Nat.cast_one] at h₁
    simp (disch := omega) only [memcpyFrom, wp_bind, wp_load, wp_memcpyFrom, wp_pure, bytesAt]

theorem bytesAt_congr : ∀ {m m' : ℤ → ℤ} {n : ℕ} {s : ℤ}, (∀ x, s ≤ x ∧ x < s + n → m' x = m x) →
    bytesAt m' s n = bytesAt m s n
  | _, _, 0, _, _ => rfl
  | m, m', n + 1, s, h => by
    rw [bytesAt, bytesAt, h s (by omega), bytesAt_congr fun x hx => h x (by push_cast; omega)]

@[simp] theorem length_bytesAt (m : ℤ → ℤ) (s : ℤ) (n : ℕ) : (bytesAt m s n).length = n * 8 := by
  induction n generalizing s with
  | zero => rfl
  | succ n ih => simp [bytesAt, ih]; omega

theorem bytesAt_add (m : ℤ → ℤ) (s : ℤ) (n k : ℕ) : bytesAt m s (n + k) = bytesAt m s n ++ bytesAt m (s + n) k := by
  induction n generalizing s with
  | zero => simp [bytesAt]
  | succ n ih =>
    rw [Nat.add_right_comm, bytesAt, ih, bytesAt, List.append_assoc]
    push_cast
    ring_nf

/-- What was stored is read back. -/
theorem take_bytesAt_stored (m : ℤ → ℤ) (s : ℤ) (bs : List UInt8) {n : ℕ} (hn : (bs.length + 7) / 8 ≤ n) :
    (bytesAt (stored m s (Words.chunks bs)) s n).take bs.length = bs := by
  induction hl : bs.length using Nat.strongRecOn generalizing bs m s n with
  | _ k ih =>
    subst hl
    rcases Words.chunks_cases bs with ⟨rfl, hc⟩ | ⟨h, hc⟩ | ⟨h, h', hc⟩
    · rfl
    · -- a full word, then the rest one slot further on
      obtain ⟨n, rfl⟩ := Nat.exists_eq_add_of_le' (show 1 ≤ n by omega)
      have hlen : (bs.take 8).length = 8 := by rw [List.length_take, min_eq_left h]
      have hbs : bs.length - 8 = (bs.drop 8).length := by rw [List.length_drop]
      rw [hc, stored, bytesAt, stored_ne (by omega), setSlot_same, Words.toBytes_patch _ (by omega), hlen,
        List.drop_of_length_le (by simp), List.append_nil, List.take_append, hlen, hbs,
        ih _ (by omega) _ _ (bs.drop 8) (by omega) rfl, List.take_of_length_le (by omega), List.take_append_drop]
    · obtain ⟨n, rfl⟩ := Nat.exists_eq_add_of_le' (show 1 ≤ n by omega)
      rw [hc, stored, stored, bytesAt, setSlot_same, Words.toBytes_patch _ (by omega), List.append_assoc,
        List.take_left']
      rfl

end

end LibShr
