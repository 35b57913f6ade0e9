import LibShr.Seq.Payload

/-!
# What a copy writes

The slots `copy_vector` may change: those of the block it allocates, and the words of the header in
which the allocation keeps its accounts.
-/

namespace LibShr

open Prog

/-- A slot of the header in which an allocation keeps its accounts: the sizes, `DATA_ALLOC`, `BUFFER`,
`ID_CNTR` and the stacks of free blocks. -/
def Account (a : ℤ) : Prop :=
  a = SIZE ∨ a = EXPAND_SIZE ∨ a = DATA_ALLOC ∨ a = BUFFER ∨ a = ID_CNTR ∨ (MEM_BKT_START ≤ a ∧ a < MEM_BKT_START + 2 * MEM_SLOTS)

/-- From `m` to `m'` nothing is written but accounts and the slots of the data block `b`. -/
def WritesInside (m m' : ℤ → ℤ) (b : ℤ) : Prop :=
  ∀ a, ¬Account a → ¬(b ≤ a ∧ a < b + m' b) → m' a = m a

section
variable {tot : Prop} {w : World} {H : Heap}

/-- `alloc_data_slots` writes the block it returns. -/
theorem allocDataSlots_writes (hI : Inv True w H) {n : ℕ} (h₄ : 4 ≤ n) (hn : n ≤ 2 ^ 30) :
    Wp tot (allocDataSlots n) (fun v w' => 164 ≤ v.slot ∧ (n : ℤ) ≤ w'.mem v.slot ∧ v.slot + n < v.extent ∧
      WritesInside w.mem w'.mem v.slot) w := by
  have hceil := Bits.ceilLog2_spec (n := n) (by omega) (by omega)
  obtain ⟨k, hk⟩ : ∃ k, Bits.ceilLog2 n = k + 2 := by
    refine ⟨Bits.ceilLog2 n - 2, ?_⟩
    by_contra h
    have : 2 ^ Bits.ceilLog2 n ≤ 2 ^ 1 := Nat.pow_le_pow_right (by decide) (by omega)
    omega
  have hk₆₄ : k + 2 < 64 := by
    have := hceil.2 30 hn
    omega
  have hpow : (n : ℤ) ≤ 2 ^ (k + 2) := by exact_mod_cast hk ▸ hceil.1
  have hpos := Heap.Wf.two_pow_mod k
  have hga := hI.wf.alloc_ge
  have ha₆ : w.mem 6 = H.alloc := hI.rep.alloc
  rw [allocDataSlots, Wp, wp_bind]
  refine wp_roundSlots h₄ (by omega) ?_ fun _ => hn
  rw [hk, wp_bind]
  refine wp_reallocDataSlots (fun _ => trivial) hI.geo hk₆₄ (fun j hf => ?_) ?_ ?_ ?_
  · obtain ⟨l, hl, htop, -⟩ := hI.fit_top (hI.fit_eq k ▸ hf)
    exact htop
  · intro hf
    simp only [ne_eq, not_true_eq_false, if_false]
    refine wp_allocNewData hI.geo (by omega) (by omega) ?_ ?_
    · intro m e hg hlt
      rw [ha₆] at hlt ⊢
      have hhead : carved m H.alloc (2 ^ (k + 2)) H.alloc = 2 ^ (k + 2) := setSlot_same _ _ _
      refine ⟨hga, ?_, ?_, ?_⟩
      · exact hpow.trans_eq hhead.symm
      · show H.alloc + (n : ℤ) < e.cur
        omega
      · intro a hacc hout
        simp only [Account, SIZE, EXPAND_SIZE, DATA_ALLOC, BUFFER, ID_CNTR] at hacc
        change ¬(H.alloc ≤ a ∧ a < H.alloc + carved m H.alloc (2 ^ (k + 2)) H.alloc) at hout
        rw [hhead] at hout
        show carved m H.alloc (2 ^ (k + 2)) a = w.mem a
        simp (disch := omega) only [carved, setSlot_ne]
        exact hg.same a (by omega) (by omega)
    · intro m e st x ht
      exact absurd trivial ht
  · intro j e hf hg hlt
    rw [hI.fit_eq] at hf
    obtain ⟨l, hl, htop, h₁₆₄⟩ := hI.fit_top hf
    obtain ⟨hj, -, hkj, -⟩ := firstFit_some hf
    have hne : top w.mem j ≠ 0 := by omega
    have hkj' : (2 : ℤ) ^ (k + 2) ≤ 2 ^ (j + 2) := pow_le_pow_right₀ (by norm_num) (by omega)
    have hlen : (((2 : ℤ) ^ (k + 2) - 1).toNat : ℤ) = 2 ^ (k + 2) - 1 := Int.toNat_of_nonneg (by omega)
    have hhead : zeroed (taken w.mem j) (top w.mem j + 1) ((2 : ℤ) ^ (k + 2) - 1).toNat (top w.mem j) = 2 ^ (j + 2) := by
      rw [zeroed_ne (by omega)]
      exact setSlot_same _ _ _
    simp only [ne_eq, hne, not_false_eq_true, if_true, wp_pure]
    refine ⟨h₁₆₄, ?_, ?_, ?_⟩
    · exact (hpow.trans hkj').trans_eq hhead.symm
    · show top w.mem j + (n : ℤ) < e.cur
      omega
    · intro a hacc hout
      simp only [Account, SIZE, EXPAND_SIZE, DATA_ALLOC, BUFFER, ID_CNTR, MEM_BKT_START, MEM_SLOTS] at hacc
      change ¬(top w.mem j ≤ a ∧
        a < top w.mem j + zeroed (taken w.mem j) (top w.mem j + 1) ((2 : ℤ) ^ (k + 2) - 1).toNat (top w.mem j)) at hout
      rw [hhead] at hout
      show zeroed (taken w.mem j) (top w.mem j + 1) ((2 : ℤ) ^ (k + 2) - 1).toNat a = w.mem a
      rw [zeroed_ne (by omega)]
      simp (disch := omega) only [taken, setSlot_ne]
  · intro j e st x _ _ _ hc
    exact absurd (hI.geo.canMap trivial _) hc

/-- **`copy_vector`** writes the block it returns. -/
theorem copyVector_writes (hI : Inv True w H) {vs : List SqVec} (h₂ : 2 ≤ vs.length) (hlen : ∀ v ∈ vs, 0 ≤ v.len)
    (hvalid : ∀ v ∈ vs, v.invalid = false) (hread : ∀ v ∈ vs, v.Readable) (hsmall : 7 + vectorSlots vs ≤ 2 ^ 30) :
    Wp tot (copyVector (some vs)) (fun r w' => WritesInside w.mem w'.mem r) w := by
  have hge := vectorSlots_ge hlen
  obtain ⟨n, hn⟩ : ∃ n : ℕ, 7 + vectorSlots vs = n := ⟨(7 + vectorSlots vs).toNat, by omega⟩
  have h₂' : ¬vs.length < 2 := by omega
  have hcur := hI.geo.cur_pos
  have hclock : Inv True { w with clock := rest w.clock } H := hI.of_eq rfl rfl
  simp only [copyVector, h₂', if_false, Wp, wp_bind, wp_clock, wp_current, calcVectorSlots_eq hlen (by omega), hn]
  refine wp_updateBufferSize (by omega) (fun _ => ⟨by omega, by simp only [SIZEOF_VEC]; omega⟩) fun m _ _ _ hm => ?_
  have hI₁ : Inv True ((World.setMem { w with clock := rest w.clock } m)) (H.adopt m 0 164) :=
    hclock.settings fun a ha => hm a (by rintro rfl; exact ha (by decide))
  refine wp_mono ?_ (allocDataSlots_writes hI₁ (by omega) (by omega))
  rintro v w₂ ⟨h₁₆₄, hsz, hlt, hin⟩
  have h₁₆₄' : v.slot ≥ HDR_END := h₁₆₄
  simp only [if_pos h₁₆₄', wp_bind]
  refine wp_storeDataHeader (by omega) (by omega) fun m₁ _ _ hm₁ => ?_
  refine wp_copyElems (by simp only [DATA_HDR]; omega) (by simp only [DATA_HDR]; omega)
    (fun v hv => (by decide : (0 : ℤ) ≤ 2).trans (vectorElemSlots_ge (hlen v hv))) (fun _ => hread) fun r m₂ _ hm₂ hr _ => ?_
  simp only [hr.2 hvalid, Bool.not_true, Bool.false_eq_true, if_false]
  refine wp_pure.2 fun a hacc hout => ?_
  simp only [DATA_HDR, World.mem_setMem] at hm₂ hout ⊢
  have hhead : m₂ v.slot = w₂.mem v.slot := by rw [hm₂ _ (by omega), hm₁ _ (by omega) (by omega)]
  rw [hhead] at hout
  have hacc' : a ≠ 8 ∧ a ≠ 10 := by
    simp only [Account, BUFFER, ID_CNTR] at hacc
    omega
  rw [hm₂ a (by omega), hm₁ a hacc'.2 (by omega), hin a hacc hout]
  exact hm a hacc'.1

end

end LibShr
