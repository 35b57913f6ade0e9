import LibShr.Seq.Lists

/-!
# The allocators, alone

`alloc_idx_slots` takes a node off the free list or carves one; `alloc_data_slots` takes the top
block of the first non-empty free stack among three classes or carves one; `free_data_slots` files a
block by the size in its header.
-/

namespace LibShr

open Prog

section
variable {tot env : Prop} {w : World} {Q : View → World → Prop}

/-- The memory after carving `slots` slots at `a`, the first one holding the size. -/
def carved (m : ℤ → ℤ) (a slots : ℤ) : ℤ → ℤ := setSlot (setSlot m 6 (a + slots)) a slots

/-- `alloc_new_data` where the slots are mapped already. -/
theorem wp_allocNewData_in (hg : Geo env w.mem w.ext) {slots : ℤ} (hs : 0 < slots) (ha₀ : 110 ≤ w.mem 6)
    (hlt : w.mem 6 + slots < w.ext.cur) :
    Wp tot (allocNewData slots) Q w ↔ Q ⟨.ok, w.mem 6, w.ext.cur⟩ (w.setMem (carved w.mem (w.mem 6) slots)) := by
  have hcur := hg.cur_pos
  have hcs := hg.cur_le
  simp (disch := omega) only [allocNewData, wp_bind, wp_current, DATA_ALLOC, wp_load, wp_insureFit_in, ne_eq,
    not_true_eq_false, if_false]
  rw [wp_iterate]
  simp (disch := omega) only [ne_eq, not_true_eq_false, if_false, wp_bind, SIZE, wp_load, wp_ite, wp_cas, if_true,
    wp_store, wp_pure, Sum.elim_inr, World.setMem_setMem]
  rw [if_pos (by omega), carved]

/-- **`alloc_new_data`** carves at `DATA_ALLOC`, once the slots are mapped. -/
theorem wp_allocNewData (hg : Geo env w.mem w.ext) {slots : ℤ} (hs : 0 < slots) (ha₀ : 110 ≤ w.mem 6)
    (hok : ∀ m e, Grown env w.mem w.ext m e → w.mem 6 + slots < e.cur →
      Q ⟨.ok, w.mem 6, e.cur⟩ ((w.setMem (carved m (w.mem 6) slots)).setExt e))
    (hfail : ∀ m e st x, ¬env → Grown env w.mem w.ext m e → Q ⟨st, 0, x⟩ ((w.setMem m).setExt e)) :
    Wp tot (allocNewData slots) Q w := by
  have hcur := hg.cur_pos
  simp (disch := omega) only [allocNewData, wp_bind, wp_current, DATA_ALLOC, wp_load]
  refine wp_insureFit_of hg ha₀ hs ?_ ?_
  · intro m e hg' hlt
    have hcl := hg'.cur_le
    have hcs := hg'.geo.cur_le
    have hm₆ : m 6 = w.mem 6 := hg'.same 6 (by omega) (by omega)
    simp only [ne_eq, not_true_eq_false, if_false]
    rw [wp_iterate]
    simp (disch := omega) only [not_true_eq_false, ne_eq, if_false, wp_bind, SIZE, wp_load, wp_ite, wp_cas, hm₆,
      if_true, wp_store, wp_pure, Sum.elim_inr, World.setMem_setMem]
    rw [if_pos (by omega)]
    exact hok m e hg' hlt
  · intro m e st x ht hg' hst _
    simp only [ne_eq, hst, not_false_eq_true, if_true, wp_pure]
    exact hfail m e st x ht hg'

end

/-! ## Nodes -/

/-- What a node allocation does to the heap: node `n` is held now. -/
structure TookNode (H H' : Heap) (n : ℤ) : Prop where
  item : H'.queue .item = H.queue .item
  event : H'.queue .event = H.queue .event
  lifo : H'.lifo = H.lifo
  bucket : H'.bucket = H.bucket
  nodes : H'.nodes = n ::ₘ H.nodes
  blocks : H'.blocks = H.blocks
  carved : H.carved <+: H'.carved
  kept : H.Kept H'

/-- A node taken off the free list is in nobody's list any more where the slots behind it could not be
mapped. That takes a front node at the very end of the mapping. -/
def MayLoseNode (w : World) (H H₁ : Heap) : Prop :=
  H₁ = H ∨ ∃ d x l, H.queue .free = d :: x :: l ∧ d < w.ext.cur ∧ ¬CanMap w.mem w.ext (d + 4) ∧
    H₁ = H.unlink .free d x l

section
variable {tot env : Prop} {w : World} {H : Heap}

theorem unlink_free_took {d x : ℤ} {l : List ℤ} {m : ℤ → ℤ} (hw : H.Wf) (hl : H.queue .free = d :: x :: l) :
    TookNode H ((H.unlink .free d x l).adopt m d (d + 4)) d where
  item := Function.update_of_ne (show QId.item ≠ .free by decide) (x :: l) H.queue
  event := Function.update_of_ne (show QId.event ≠ .free by decide) (x :: l) H.queue
  lifo := rfl
  bucket := rfl
  nodes := rfl
  blocks := zero_add _
  carved := List.prefix_refl _
  kept := fun a ha => Heap.word_adopt_ne _ (by have := hw.own_ne_free ha (n := d) (by simp [hl]); omega)

theorem carveNode_took {m : ℤ → ℤ} (hw : H.Wf) :
    TookNode H ((H.adopt m H.alloc (H.alloc + 4)).carveNode) H.alloc where
  item := rfl
  event := rfl
  lifo := rfl
  bucket := rfl
  nodes := rfl
  blocks := rfl
  carved := List.prefix_append _ _
  kept := fun a ha => Heap.word_adopt_ne _ (by have := hw.priv_lt_alloc (Heap.Wf.own_priv ha); omega)

/-- What a node allocation used of the extents: `insure_in_range` of the slot behind the first free
node, unless the node was carved at the end because none was free or that slot is not mapped. -/
def NodeExtents (w w' : World) (H : Heap) (v : View) : Prop :=
  w'.ext = w.ext.see (w.mem 2) (w.mem FREE_HEAD + 4) ∧ w'.mem 2 = w.mem 2 ∨
    v.slot = H.alloc ∧ (2 ≤ (H.queue .free).length → w.ext.cur ≤ w.mem FREE_HEAD + 4)

/-- `realloc_pooled_mem` of a node: nothing was free, or the front node is taken and cleared. -/
theorem reallocPooledMem_spec (hI : Inv env w H) (ht : tot → CanMap w.mem w.ext (w.mem FREE_HEAD)) :
    Wp tot (reallocPooledMem IDX_SIZE FREE_HEAD FREE_HD_CNT FREE_TAIL) (fun v w' => ∃ H', Step env w w' H' ∧ Quiet w w' H' 0 ∧
      H'.alloc = H.alloc ∧
      (2 ≤ (H.queue .free).length → CanMap w.mem w.ext (w.mem FREE_HEAD)) ∧
      ((v.slot = 0 ∧ MayLoseNode w H H' ∧ (2 ≤ (H.queue .free).length → w.ext.cur ≤ w.mem FREE_HEAD + 4)) ∨
        (TookNode H H' v.slot ∧ 164 ≤ v.slot ∧ v.slot + 4 < v.extent ∧ v.extent = w'.ext.cur ∧
          w'.ext = w.ext.see (w.mem 2) (w.mem FREE_HEAD + 4) ∧ w'.mem 2 = w.mem 2))) w := by
  have hcur := hI.geo.cur_pos
  have hq := hI.rep.queue .free
  have hnd := hI.wf.queue_nodup .free
  simp (disch := omega) only [reallocPooledMem, FREE_HEAD, FREE_HD_CNT, FREE_TAIL, wp_bind, wp_current, wp_load] at ht ⊢
  rw [wp_iterate]
  simp (disch := omega) only [wp_bind, wp_load, ne_eq, ite_not]
  match hl : H.queue .free with
  | [] => exact absurd hl hq.ne_nil
  | [d] =>
    have he : w.mem 4 = w.mem 12 := (hq.head_eq_tail hnd).2 ⟨d, hl⟩
    simp only [he, if_true, wp_pure, Sum.elim_inr]
    exact ⟨H, .refl hI, .refl, rfl, by simp, .inl ⟨trivial, .inl rfl, by simp⟩⟩
  | d :: x :: l =>
    have hne : w.mem 4 ≠ w.mem 12 := fun he => by
      obtain ⟨y, hy⟩ := (hq.head_eq_tail hnd).1 he
      rw [hl] at hy
      simp at hy
    have hd : w.mem 4 = d := by
      have := hq.head
      rwa [hl] at this
    have hdb := hI.wf.node_bounds (Heap.Wf.queue_mem (i := .free) (x := d) (by simp [hl]))
    have hroom := hI.room
    rw [if_neg hne, wp_bind, hd]
    rw [hd] at ht
    refine wp_mono ?_ (removeFront_spec hI .free hl ht)
    rintro r w₁ ⟨hr, hs₁, hlt, hq₁⟩
    have hdp : d > 0 := by omega
    rw [hr]
    simp only [hdp, if_true, wp_bind]
    have hI₁ := hs₁.inv
    have hnodes : (H.unlink .free d x l).nodes = d ::ₘ H.nodes := rfl
    have hidx : ((IDX_SIZE : ℕ) : ℤ) = 4 := rfl
    have hsz₁ := hs₁.size
    refine wp_insureFit_near hI₁.geo (by omega) (by decide) (by omega) ?_ ?_
    · -- its slots are mapped and cleared
      intro e he hg hlt
      have hs₂ := hs₁.toStep.trans (Step.grown hI₁ hg)
      have hI₂ := hs₂.inv
      have hd₀ : d ≠ 0 := by omega
      simp (disch := omega) only [IDX_SIZE, hd₀, if_false, wp_bind, wp_memset0, wp_pure, Sum.elim_inr]
      have hI₃ := hI₂.writeNode (n := d) (a := d) (b := d + 4) (m := zeroed w₁.mem d 4) (by simp [hnodes])
        (le_refl _) (le_refl _) fun c hc => zeroed_ne (by omega)
      have hz₂ : zeroed w₁.mem d 4 2 = w₁.mem 2 := zeroed_ne (by omega)
      have hq₂ : Quiet w₁ ((w₁.setMem (zeroed w₁.mem d 4)).setExt e)
          ((H.unlink .free d x l).adopt (zeroed w₁.mem d 4) d (d + 4)) 0 := by
        refine .of_nodes hI₃.wf ((zeroed_ne (by omega)).trans (add_zero _).symm) (fun a ha hn => ?_) rfl rfl
        have hdn : d ∈ ((H.unlink .free d x l).adopt (zeroed w₁.mem d 4) d (d + 4)).nodes := Multiset.mem_cons_self d H.nodes
        have := hn d (Heap.Wf.held_mem hdn)
        exact zeroed_ne (by omega)
      refine ⟨_, hs₂.trans ⟨hI₃, le_refl _, hz₂.ge, fun _ _ => rfl, rfl⟩, hq₁.trans hq₂ (fun _ ha => ha) rfl, rfl, fun _ => hs₁.can,
        .inr ⟨unlink_free_took hI.wf hl, hdb.1, hlt, trivial, ?_, hz₂.trans hsz₁⟩⟩
      rw [he, hs₁.ext, hsz₁]
      exact Mapping.see_see hI.geo (by decide)
    · intro st x' hc hle
      simp only [if_true, wp_pure, Sum.elim_inr]
      refine ⟨_, hs₁.toStep.trans (Step.refuse hI₁), ⟨hq₁.ids, hq₁.loose, hq₁.sem, hq₁.clock⟩, rfl, fun _ => hs₁.can, .inl ⟨trivial, .inr ⟨d, x, l, hl, ?_⟩, ?_⟩⟩
      on_goal 2 => exact fun _ => not_lt.1 fun h => hc (by rw [hs₁.ext, Mapping.see_of (.inl (by omega))]; exact .inl h)
      have hlt' : d < w.ext.cur := by
        by_contra h
        refine hc (.inr (.inl ?_))
        rw [hs₁.ext, hsz₁]
        exact Mapping.see_cur h
      have hext : w₁.ext = w.ext := hs₁.ext.trans (if_pos (.inl hlt'))
      exact ⟨hlt', fun h => hc (by rw [hext]; exact h.congr hsz₁), rfl⟩

/-- **`alloc_idx_slots`**: a node is held, or a call to the system failed. -/
theorem allocIdxSlots_spec (hI : Inv env w H) (ht : tot → CanMap w.mem w.ext (w.mem FREE_HEAD)) :
    Wp tot allocIdxSlots (fun v w' => ∃ H₁ H', MayLoseNode w H H₁ ∧ Step env w w' H' ∧ Quiet w w' H' 0 ∧
      H.alloc ≤ H'.alloc ∧
      (2 ≤ (H.queue .free).length → CanMap w.mem w.ext (w.mem FREE_HEAD)) ∧
      ((TookNode H₁ H' v.slot ∧ 164 ≤ v.slot ∧ v.slot + 4 < v.extent ∧ v.extent = w'.ext.cur ∧
          NodeExtents w w' H v) ∨
        (¬env ∧ v.slot = 0 ∧ H' = H₁ ∧ (2 ≤ (H.queue .free).length → w.ext.cur ≤ w.mem FREE_HEAD + 4)))) w := by
  rw [allocIdxSlots, Wp, wp_bind]
  refine wp_mono ?_ (reallocPooledMem_spec hI ht)
  rintro v w₁ ⟨H₁, hs₁, hq₁, hal, hcan, ⟨hv, hlose, hfar⟩ | ⟨htook, hv, hrange, hext, hmap⟩⟩
  · simp only [ne_eq, hv, not_true_eq_false, if_false]
    have hI₁ := hs₁.inv
    have hn := hI₁.wf.alloc_ge
    have ha : w₁.mem 6 = H₁.alloc := hI₁.rep.alloc
    refine wp_allocNewData hI₁.geo (by decide) (by omega) ?_ ?_
    · intro m e hg hlt
      rw [ha] at hlt ⊢
      have hI₂ := hI₁.grown hg
      have hroom := hg.geo.cur_le
      have hsame : ∀ a, a ≠ 6 → a < 164 → carved m H₁.alloc 4 a = m a := by
        intro a h h'
        simp (disch := omega) only [carved, setSlot_ne]
      have hcarve := Heap.carve_node (v := carved m H₁.alloc 4) hI₂.rep hI₂.wf
        (by simp (disch := omega) only [carved, setSlot_ne, setSlot_same])
        (fun a ha => by simp (disch := omega) only [carved, setSlot_ne])
      have hsz : carved m H₁.alloc 4 2 = m 2 := hsame 2 (by decide) (by decide)
      refine ⟨H₁, _, hlose, hs₁.trans ⟨⟨hg.geo.congr hsz ?_, hcarve.1, hcarve.2, ?_, fun ht x hx => ?_⟩,
          hg.cur_le, hg.size_le.trans_eq hsz.symm, fun _ _ => rfl, rfl⟩, hq₁.trans (.of_nodes hcarve.1 ?_ ?_ rfl rfl) ?_ (zero_add 0),
        by rw [← hal]; exact le_add_of_nonneg_right (by decide), hcan,
        .inl ⟨carveNode_took hI₁.wf, hn, hlt, rfl, .inr ⟨?_, hfar⟩⟩⟩
      · exact hsame 3 (by decide) (by decide)
      · exact (lt_of_lt_of_le hlt hroom).trans_eq hsz.symm
      · rcases List.mem_append.1 hx with hx | hx
        · exact hI₁.small ht x hx
        · rw [List.mem_singleton.1 hx]
          show (4 : ℤ) ≤ 2 ^ 30
          decide
      · exact (hsame 10 (by decide) (by decide)).trans ((hg.same 10 (by decide) (by decide)).trans (add_zero _).symm)
      · intro a ha hx
        have hnew := hx H₁.alloc (Heap.Wf.held_mem (Multiset.mem_cons_self H₁.alloc H₁.nodes))
        have hca : carved m H₁.alloc 4 a = m a := by simp (disch := omega) only [carved, setSlot_ne]
        exact hca.trans (hg.same a (by omega) (by omega))
      · rintro a (ha | ha)
        · exact .inl ((le_add_of_nonneg_right (by decide)).trans ha)
        · exact .inr ha
      · rcases hlose with rfl | ⟨d, x, l, -, -, -, rfl⟩
        · rfl
        · rfl
    · intro m e st x ht hg
      exact ⟨H₁, H₁, hlose, hs₁.trans (Step.grown hI₁ hg), hq₁.trans
        (.of_nodes hI₁.wf ((hg.same 10 (by decide) (by decide)).trans (add_zero _).symm)
          (fun a ha _ => hg.same a (by omega) (by omega)) rfl rfl) (fun _ ha => ha) rfl, hal.ge, hcan,
        .inr ⟨ht, rfl, rfl, hfar⟩⟩
  · have hv₀ : v.slot ≠ 0 := by omega
    simp only [ne_eq, hv₀, not_false_eq_true, if_true, wp_pure]
    exact ⟨H, H₁, .inl rfl, hs₁, hq₁, hal.ge, hcan, .inl ⟨htook, hv, hrange, hext, .inl hmap⟩⟩

end

/-! ## Data blocks -/

/-- The class stack from which a request of class `k` is served: the first non-empty one of the `n`
classes from `k` on. -/
def firstFit (empty : ℕ → Prop) [DecidablePred empty] (k n : ℕ) : Option ℕ :=
  (List.range' k n).find? fun j => j < 48 ∧ ¬empty j

theorem firstFit_some {empty : ℕ → Prop} [DecidablePred empty] {k n j : ℕ} (h : firstFit empty k n = some j) :
    j < 48 ∧ ¬empty j ∧ k ≤ j ∧ j < k + n := by
  have hj := List.find?_some h
  have hm := List.mem_range'_1.1 (List.mem_of_find?_eq_some h)
  simp only [decide_eq_true_eq] at hj
  exact ⟨hj.1, hj.2, hm⟩

theorem firstFit_congr {p q : ℕ → Prop} [DecidablePred p] [DecidablePred q] (h : ∀ j < 48, p j ↔ q j) (k n : ℕ) :
    firstFit p k n = firstFit q k n := by
  have he : (fun j => decide (j < 48 ∧ ¬p j)) = fun j => decide (j < 48 ∧ ¬q j) := by
    funext j
    rw [decide_eq_decide]
    exact and_congr_right fun hj => not_congr (h j hj)
  rw [firstFit, firstFit, he]

def top (m : ℤ → ℤ) (k : ℕ) : ℤ := m (14 + 2 * k)

/-- The memory after freeing block `b` of class `k`. -/
def freed (m : ℤ → ℤ) (k : ℕ) (b : ℤ) : ℤ → ℤ :=
  setSlot (setSlot (setSlot (setSlot m (b + 1) (m (14 + 2 * k + 1))) b (m (14 + 2 * k))) (14 + 2 * k) b)
    (14 + 2 * k + 1) (m (14 + 2 * k + 1) + 1)

/-- The memory after taking the top block of stack `k` and restoring its header. -/
def taken (m : ℤ → ℤ) (k : ℕ) : ℤ → ℤ :=
  setSlot (setSlot (setSlot m (14 + 2 * k) (m (top m k))) (14 + 2 * k + 1) (m (14 + 2 * k + 1) + 1)) (top m k)
    (2 ^ (k + 2))

section
variable {tot env : Prop} {w : World}

theorem unsigned_two_pow {k : ℕ} (hk : k < 64) : unsigned (2 ^ k) = 2 ^ k := by
  have h : (2 : ℤ) ^ k < 2 ^ 64 := pow_lt_pow_right₀ (by norm_num) hk
  rw [unsigned, Int.emod_eq_of_lt (by positivity) h]
  have : (2 : ℤ) ^ k = ((2 ^ k : ℕ) : ℤ) := by push_cast; rfl
  rw [this, Int.toNat_natCast]

theorem wp_ctzl {k : ℕ} (hk : k < 64) {Q : ℤ → World → Prop} : Wp tot (ctzl (2 ^ k)) Q w ↔ Q k w := by
  have h : (2 : ℕ) ^ k ≠ 0 := by positivity
  simp only [ctzl, unsigned_two_pow hk, h, if_false, wp_pure, Bits.ctz_two_pow hk]

theorem wp_shl1 {k : ℕ} {Q : ℤ → World → Prop} (hQ : k < 31 → Q (2 ^ k) w) (ht : tot → k < 31) :
    Wp tot (shl1 k) Q w := by
  by_cases hk : k < 31
  · have h : ¬((k : ℤ) < 0 ∨ 31 ≤ (k : ℤ)) := by omega
    simp only [shl1, h, if_false, wp_pure, Int.toNat_natCast]
    exact hQ hk
  · have h : (k : ℤ) < 0 ∨ 31 ≤ (k : ℤ) := by omega
    simp only [shl1, h, if_true, wp_bind]
    exact wp_undefined.2 fun htot => hk (ht htot)

/-- **`free_data_slots`** files a block by the class in its header. -/
theorem wp_freeDataSlots {b : ℤ} {k : ℕ} (hcur : 512 ≤ w.ext.cur) (hk : k < 48) (hb : 110 ≤ b)
    (hbc : b + 1 < w.ext.cur) (hm : w.mem b = 2 ^ (k + 2)) {Q : Status → World → Prop} :
    Wp tot (freeDataSlots b) Q w ↔ Q .ok (w.setMem (freed w.mem k b)) := by
  have hidx : (((k + 2 : ℕ) : ℤ) - 2) * 2 = 2 * k := by push_cast; ring
  simp (disch := omega) only [freeDataSlots, wp_bind, wp_current, wp_load, hm, wp_ctzl]
  rw [wp_iterate]
  simp (disch := omega) only [hidx, wp_bind, MEM_BKT_START, wp_load, wp_store, wp_dwcas, World.setMem_setMem,
    setSlot_ne, setSlot_same, and_self, if_true, wp_pure, Sum.elim_inr, freed]

/-- **`find_first_fit`** looks at three classes. -/
theorem wp_findFirstFit (hcur : 512 ≤ w.ext.cur) {k : ℕ} (hk : k + 2 < 64) {Q : ℤ → World → Prop} :
    Wp tot (findFirstFit (2 ^ (k + 2))) Q w ↔
      Q ((firstFit (fun j => top w.mem j = 0) k 3).elim 0 fun j => 14 + 2 * j) w := by
  have hcount : ¬(2 : ℤ) ^ (k + 2) < 4 := not_lt.2 (Heap.Wf.two_pow_mod k).1
  have hidx : ((k + 2 : ℕ) : ℤ) - 2 = k := by push_cast; ring
  simp (disch := omega) only [findFirstFit, hcount, if_false, wp_bind, wp_ctzl, hidx]
  -- induction on the retries left
  have hloop : ∀ body : ℤ × ℤ → M ((ℤ × ℤ) ⊕ ℤ),
      (∀ retries index, body (retries, index) =
        if retries ≠ 0 ∧ index < MEM_SLOTS then do
          let a ← load (← current) (MEM_BKT_START + 2 * index)
          if a ≠ 0 then pure (.inr (MEM_BKT_START + 2 * index)) else pure (.inl (retries - 1, index + 1))
        else pure (.inr 0)) →
      ∀ n k : ℕ, Wp tot (iterate body ((n : ℤ), (k : ℤ))) Q w ↔
        Q ((firstFit (fun j => top w.mem j = 0) k n).elim 0 fun j => 14 + 2 * j) w := by
    intro body hbody n
    induction n with
    | zero =>
      intro k
      rw [Wp, wp_iterate, hbody]
      simp [wp_pure, firstFit]
    | succ n ih =>
      intro k
      rw [Wp, wp_iterate, hbody]
      by_cases hk : k < 48
      · have hc : ((n + 1 : ℕ) : ℤ) ≠ 0 ∧ (k : ℤ) < MEM_SLOTS := ⟨by omega, by simp only [MEM_SLOTS]; omega⟩
        rw [if_pos hc]
        simp (disch := omega) only [wp_bind, wp_current, MEM_BKT_START, wp_load]
        by_cases hb : w.mem (14 + 2 * k) = 0
        · have hf : firstFit (fun j => top w.mem j = 0) k (n + 1) = firstFit (fun j => top w.mem j = 0) (k + 1) n := by
            simp [firstFit, List.range'_succ, top, hb]
          have hn : ((n + 1 : ℕ) : ℤ) - 1 = n := by push_cast; ring
          simp only [hb, ne_eq, not_true_eq_false, if_false, wp_pure, Sum.elim_inl, hn, hf]
          exact ih (k + 1)
        · have hf : firstFit (fun j => top w.mem j = 0) k (n + 1) = some k := by
            simp [firstFit, List.range'_succ, hk, top, hb]
          simp only [ne_eq, hb, not_false_eq_true, if_true, wp_pure, Sum.elim_inr, hf, Option.elim]
      · have hc : ¬(((n + 1 : ℕ) : ℤ) ≠ 0 ∧ (k : ℤ) < MEM_SLOTS) := by simp only [MEM_SLOTS]; omega
        have hf : firstFit (fun j => top w.mem j = 0) k (n + 1) = none := by
          simp only [firstFit, List.find?_eq_none, decide_eq_true_eq, not_and]
          intro j hj h
          have := (List.mem_range'_1.1 hj).1
          omega
        rw [if_neg hc, hf]
        simp only [wp_pure, Sum.elim_inr, Option.elim]
  exact hloop _ (fun _ _ => rfl) 3 k

/-- What is asked of the stack a request is served from: its top block is part of the object, and where
nothing fails its class fits an `int`. -/
def TopOk (env : Prop) (m : ℤ → ℤ) (j : ℕ) : Prop :=
  110 ≤ top m j ∧ top m j + 2 ^ (j + 2) < m 2 ∧ (env → j + 2 < 31)

/-- **`lookup_freed_data`** takes the top block of the stack first fit finds. -/
theorem wp_lookupFreedData (hte : tot → env) (hg : Geo env w.mem w.ext) {k : ℕ} (hk : k + 2 < 64)
    (htop : ∀ j, firstFit (fun j => top w.mem j = 0) k 3 = some j → TopOk env w.mem j) {Q : ℤ → World → Prop}
    (hnone : firstFit (fun j => top w.mem j = 0) k 3 = none → Q 0 w)
    (hsome : ∀ j e, firstFit (fun j => top w.mem j = 0) k 3 = some j → e = w.ext.see (w.mem 2) (top w.mem j) →
      Grown env w.mem w.ext w.mem e → top w.mem j < e.cur → Q (top w.mem j) ((w.setMem (taken w.mem j)).setExt e)) :
    Wp tot (lookupFreedData (2 ^ (k + 2))) Q w := by
  have hcur := hg.cur_pos
  rw [lookupFreedData, Wp, wp_bind]
  refine (wp_findFirstFit hcur hk).2 ?_
  cases hf : firstFit (fun j => top w.mem j = 0) k 3 with
  | none =>
    simp only [Option.elim, if_true, wp_pure]
    exact hnone hf
  | some j =>
    obtain ⟨hb₀, hbz, hsmall⟩ := htop j hf
    have hj := (firstFit_some hf).1
    have hpos := (Heap.Wf.two_pow_mod j).1
    have hslot : (14 + 2 * (j : ℤ)) ≠ 0 := by omega
    have hb : w.mem (14 + 2 * j) = top w.mem j := rfl
    have hne : top w.mem j ≠ 0 := by omega
    simp (disch := omega) only [Option.elim, hslot, if_false, wp_bind, wp_current]
    rw [wp_iterate]
    simp (disch := omega) only [wp_bind, wp_loadDWORD, hb, hne, if_false]
    refine wp_insureInRange_of hg (by omega) (by omega) ?_ ?_
    · intro e _ he hg' hlt
      have hcl : w.ext.cur ≤ e.cur := hg'.cur_le
      have hidx : (14 + 2 * (j : ℤ) - 14) / 2 + 2 = ((j + 2 : ℕ) : ℤ) := by push_cast; omega
      simp (disch := omega) only [wp_bind, wp_load, wp_dwcas, hb, and_self, if_true, MEM_BKT_START]
      rw [hidx]
      refine wp_shl1 (fun _ => ?_) fun ht => hsmall (hte ht)
      simp (disch := omega) only [wp_store, World.setMem_setMem, wp_pure, Sum.elim_inr]
      exact hsome j e hf he hg' hlt
    · intro st hc hst hle
      exact wp_load_of (fun _ h => absurd h (not_lt.2 hle)) fun h => absurd (hg.canMap (hte h) _) hc

/-- **`realloc_data_slots`** clears the block it takes behind its header. -/
theorem wp_reallocDataSlots (hte : tot → env) (hg : Geo env w.mem w.ext) {k : ℕ} (hk : k + 2 < 64)
    (htop : ∀ j, firstFit (fun j => top w.mem j = 0) k 3 = some j → TopOk env w.mem j) {Q : View → World → Prop}
    (hnone : firstFit (fun j => top w.mem j = 0) k 3 = none → Q ⟨.ok, 0, w.ext.cur⟩ w)
    (hsome : ∀ j e, firstFit (fun j => top w.mem j = 0) k 3 = some j → Grown env w.mem w.ext w.mem e →
      top w.mem j + 2 ^ (k + 2) < e.cur →
      Q ⟨.ok, top w.mem j, e.cur⟩
        ((w.setMem (zeroed (taken w.mem j) (top w.mem j + 1) ((2 : ℤ) ^ (k + 2) - 1).toNat)).setExt e))
    (hfail : ∀ j e st x, firstFit (fun j => top w.mem j = 0) k 3 = some j → Grown env w.mem w.ext w.mem e →
      top w.mem j < w.ext.cur → ¬CanMap w.mem w.ext (top w.mem j + 2 ^ (k + 2)) →
      Q ⟨st, 0, x⟩ ((w.setMem (taken w.mem j)).setExt e)) :
    Wp tot (reallocDataSlots (2 ^ (k + 2))) Q w := by
  have hpos := Heap.Wf.two_pow_mod k
  simp only [reallocDataSlots, wp_bind, wp_current]
  refine wp_lookupFreedData hte hg hk htop ?_ ?_
  · intro hf
    simp only [gt_iff_lt, lt_self_iff_false, if_false, wp_pure]
    exact hnone hf
  · intro j e hf he hg' hlt
    obtain ⟨hb₀, hbz, -⟩ := htop j hf
    obtain ⟨hj, -, hkj, -⟩ := firstFit_some hf
    have hkj' : (2 : ℤ) ^ (k + 2) ≤ 2 ^ (j + 2) := pow_le_pow_right₀ (by norm_num) (by omega)
    have hb₁ : top w.mem j > 0 := by omega
    have hb₂ : top w.mem j ≠ 0 := by omega
    have h₂ : taken w.mem j 2 = w.mem 2 := by simp (disch := omega) only [taken, setSlot_ne]
    have h₃ : taken w.mem j 3 = w.mem 3 := by simp (disch := omega) only [taken, setSlot_ne]
    have hg₁ : Geo env (taken w.mem j) e := hg'.geo.congr h₂ h₃
    simp only [hb₁, if_true, wp_bind]
    refine wp_insureFit_near (w := (w.setMem (taken w.mem j)).setExt e) hg₁ hb₀ (by omega)
      (lt_of_lt_of_eq (by omega) h₂.symm) ?_ ?_
    · intro e' _ hg₂ hlt'
      have hn : (((2 : ℤ) ^ (k + 2) - 1).toNat : ℤ) = 2 ^ (k + 2) - 1 := Int.toNat_of_nonneg (by omega)
      simp (disch := omega) only [ne_eq, hb₂, not_false_eq_true, if_true, wp_bind, wp_memset0, wp_pure]
      exact hsome j e' hf (hg'.trans ⟨hg₂.geo.congr h₂.symm h₃.symm, hg₂.cur_le, le_refl _, fun _ _ _ => rfl⟩) hlt'
    · intro st x hc hle
      simp only [ne_eq, not_true_eq_false, if_false, wp_pure]
      have hlt' : top w.mem j < w.ext.cur := by
        by_contra h
        refine hc (.inr (.inl ?_))
        simp only [World.ext_setExt, World.mem_setExt, World.mem_setMem, he, h₂]
        exact Mapping.see_cur h
      have hext : e = w.ext := he.trans (Mapping.see_of (.inl hlt'))
      exact hfail j _ st x hf (hg'.trans (.refuse hg'.geo)) hlt' fun h => hc (by
        simp only [World.ext_setExt, World.mem_setExt, World.mem_setMem, hext]
        exact h.congr h₂)

theorem wp_roundSlots {n : ℕ} (h₄ : 4 ≤ n) (hn : n < 2 ^ 63) {Q : ℤ → World → Prop}
    (hQ : Q (2 ^ Bits.ceilLog2 n) w) (ht : tot → n ≤ 2 ^ 30) : Wp tot (roundSlots n) Q w := by
  have hu : unsigned n = n := by
    rw [unsigned, Int.emod_eq_of_lt (by omega) (by omega), Int.toNat_natCast]
  rw [roundSlots, hu]
  by_cases hp : Bits.popcount n > 1
  · have hc : Bits.ceilLog2 n = 64 - Bits.clz n := if_pos hp
    have hle := Bits.clz_le n
    have hsub : (64 : ℤ) - (Bits.clz n : ℤ) = ((64 - Bits.clz n : ℕ) : ℤ) := by omega
    rw [if_pos hp, hsub]
    refine wp_shl1 (fun _ => ?_) fun htot => ?_
    · rwa [← hc]
    · rw [← hc]
      have := (Bits.ceilLog2_spec (by omega) (by omega)).2 30 (ht htot)
      omega
  · rw [if_neg hp, Wp, wp_pure]
    obtain ⟨k, hk, rfl⟩ := (Bits.popcount_le_one_iff (by omega) (by omega)).1 (not_lt.1 hp)
    have hc : Bits.ceilLog2 (2 ^ k) = k := (if_neg hp).trans (Nat.log2_two_pow)
    rw [hc] at hQ
    exact_mod_cast hQ

end

/-! ## Data blocks of the heap -/

/-- The free stack from which the heap serves a request of class `k`. -/
def Heap.fit (H : Heap) (k : ℕ) : Option ℕ := firstFit (fun j => H.bucket j = []) k 3

/-- What a data allocation does to the heap: block `b` of class `j` is held now. -/
structure TookBlock (H H' : Heap) (b : ℤ) (j : ℕ) : Prop where
  queue : H'.queue = H.queue
  lifo : H'.lifo = H.lifo
  nodes : H'.nodes = H.nodes
  blocks : H'.blocks = b ::ₘ H.blocks
  header : H'.word b = 2 ^ (j + 2)
  kept : H.Kept H'

/-- The block came off free stack `j`. -/
def Popped (H H' : Heap) (k : ℕ) (b : ℤ) (j : ℕ) : Prop :=
  ∃ l, H.fit k = some j ∧ H.bucket j = b :: l ∧ H'.bucket = Function.update H.bucket j l ∧
    H'.carved = H.carved ∧ H'.alloc = H.alloc

/-- The block was carved out at the end. -/
def Carved (H H' : Heap) (k : ℕ) (b : ℤ) : Prop :=
  b = H.alloc ∧ H'.bucket = H.bucket ∧ H'.carved = H.carved ++ [⟨b, 2 ^ (k + 2), false⟩] ∧
    H'.alloc = H.alloc + 2 ^ (k + 2)

/-- The content of a reused block: cleared as far as it was asked for, behind that what was left in it. -/
def Cleared (m : ℤ → ℤ) (H' : Heap) (b : ℤ) (k j : ℕ) : Prop :=
  (∀ a, b < a → a < b + 2 ^ (k + 2) → H'.word a = 0) ∧
    ∀ a, b + 2 ^ (k + 2) ≤ a → a < b + 2 ^ (j + 2) → H'.word a = m a

/-- A block popped from a free stack is in nobody's list any more where the slots behind the request
could not be mapped. -/
def MayLoseBlock (w : World) (H H₁ : Heap) (k : ℕ) : Prop :=
  H₁ = H ∨ ∃ b j, Popped H H₁ k b j ∧ TookBlock H H₁ b j ∧ b < w.ext.cur ∧ ¬CanMap w.mem w.ext (b + 2 ^ (k + 2))

section
variable {tot env : Prop} {w : World} {H : Heap}

/-- A free stack is empty exactly if its top word is 0. -/
theorem Inv.bucket_empty (hI : Inv env w H) {k : ℕ} (hk : k < 48) : top w.mem k = 0 ↔ H.bucket k = [] :=
  (hI.rep.bucket k hk).top_eq_zero fun x hx => by
    have := hI.wf.bucket_bounds hk hx
    omega

theorem Inv.fit_eq (hI : Inv env w H) (k : ℕ) : firstFit (fun j => top w.mem j = 0) k 3 = H.fit k :=
  firstFit_congr (fun _ hj => hI.bucket_empty hj) k 3

theorem Inv.fit_top (hI : Inv env w H) {k j : ℕ} (hf : H.fit k = some j) :
    ∃ l, H.bucket j = top w.mem j :: l ∧ TopOk env w.mem j ∧ 164 ≤ top w.mem j := by
  obtain ⟨hj, hne, -, -⟩ := firstFit_some hf
  obtain ⟨b, l, hl⟩ := List.exists_cons_of_ne_nil hne
  have hst := hI.rep.bucket j hj
  rw [hl] at hst
  have hb : top w.mem j = b := hst.1
  have hbm : b ∈ H.bucket j := by simp [hl]
  have hbb := hI.wf.bucket_bounds hj hbm
  have hroom := hI.room
  have hpos := (Heap.Wf.two_pow_mod j).1
  refine ⟨l, by rw [hb, hl], ⟨by omega, by omega, fun ht => ?_⟩, by omega⟩
  have h30 : (2 : ℤ) ^ (j + 2) ≤ 2 ^ 30 := hI.small ht _ (hI.wf.bucket j hj b hbm)
  have := (pow_le_pow_iff_right₀ (by norm_num : (1 : ℤ) < 2)).1 h30
  omega

theorem own_ne_bucket (hw : H.Wf) {a b : ℤ} (ha : H.Own a) {j : ℕ} (hj : j < 48) (hb : b ∈ H.bucket j) :
    ¬(b ≤ a ∧ a < b + 2 ^ (j + 2)) := by
  have := hw.priv_ne_bucket (Heap.Wf.own_priv ha) hj hb
  omega

theorem Inv.take (hI : Inv env w H) {k j : ℕ} (hf : H.fit k = some j) :
    ∃ H', Inv env (w.setMem (taken w.mem j)) H' ∧ Popped H H' k (top w.mem j) j ∧ TookBlock H H' (top w.mem j) j ∧
      (∀ a, top w.mem j < a → a < top w.mem j + 2 ^ (j + 2) → H'.word a = w.mem a) ∧
      Quiet w (w.setMem (taken w.mem j)) H' 0 := by
  obtain ⟨l, hl, ⟨h₁₁₀, hz, -⟩, h₁₆₄⟩ := hI.fit_top hf
  have hj := (firstFit_some hf).1
  have hbm : top w.mem j ∈ H.bucket j := by rw [hl]; simp
  have hpos := Heap.Wf.two_pow_mod j
  have hhead : taken w.mem j (top w.mem j) = 2 ^ (j + 2) := setSlot_same _ _ _
  have hre := Heap.reuse_block (v := taken w.mem j) hI.rep hI.wf hj hl
    (by simp (disch := omega) only [taken, setSlot_ne, setSlot_same]) hhead
    (fun a ha => by simp (disch := omega) only [taken, setSlot_ne])
  refine ⟨_, hI.setMem ?_ ?_ hre.1 hre.2 rfl rfl, ⟨l, hf, hl, rfl, rfl, rfl⟩, ⟨rfl, rfl, rfl, rfl, ?_, ?_⟩, fun a h h' => ?_,
    ?_, fun a ha => ?_, rfl, rfl⟩
  · simp (disch := omega) only [taken, setSlot_ne]
  · simp (disch := omega) only [taken, setSlot_ne]
  · exact (Heap.word_adopt_of _ (by omega)).trans hhead
  · exact fun a ha => Heap.word_adopt_ne _ (own_ne_bucket hI.wf ha hj hbm)
  · refine (Heap.word_adopt_of _ (by omega)).trans ?_
    simp (disch := omega) only [taken, setSlot_ne]
  · simp (disch := omega) only [taken, setSlot_ne, add_zero]
  · -- the header of the block is its owner's now
    obtain ⟨ha₁₆₄, -, hpriv⟩ := hre.1.loose_ne ha
    have hne : a ≠ top w.mem j := by
      rintro rfl
      refine hpriv (.inr (.inl ⟨top w.mem j, by simp [Heap.live, Heap.reuse], le_refl _, ?_⟩))
      have hw : ((H.adopt (taken w.mem j) (top w.mem j) (top w.mem j + 2 ^ (j + 2))).reuse j (top w.mem j) l).word
          (top w.mem j) = 2 ^ (j + 2) := (Heap.word_adopt_of _ (by omega)).trans hhead
      omega
    simp (disch := omega) only [taken, setSlot_ne]

theorem carveData_took {m : ℤ → ℤ} {k : ℕ} (hw : H.Wf) (hm : m H.alloc = 2 ^ (k + 2)) :
    TookBlock H ((H.adopt m H.alloc (H.alloc + 2 ^ (k + 2))).carveData (2 ^ (k + 2))) H.alloc k where
  queue := rfl
  lifo := rfl
  nodes := rfl
  blocks := rfl
  header := (Heap.word_adopt_of _ ⟨le_refl _, by have := (Heap.Wf.two_pow_mod k).1; omega⟩).trans hm
  kept := fun a ha => Heap.word_adopt_ne _ (by have := hw.priv_lt_alloc (Heap.Wf.own_priv ha); omega)

theorem Inv.carve (hI : Inv env w H) {k : ℕ} (hk : k < 48) (hroom : H.alloc + 2 ^ (k + 2) < w.mem 2)
    (hsmall : env → k + 2 ≤ 30) :
    ∃ H', Inv env (w.setMem (LibShr.carved w.mem H.alloc (2 ^ (k + 2)))) H' ∧ Carved H H' k H.alloc ∧
      TookBlock H H' H.alloc k ∧ (∀ a, H.alloc < a → a < H.alloc + 2 ^ (k + 2) → H'.word a = w.mem a) ∧
      Quiet w (w.setMem (LibShr.carved w.mem H.alloc (2 ^ (k + 2)))) H' 0 := by
  have hpos := Heap.Wf.two_pow_mod k
  have ha := hI.wf.alloc_ge
  have hhead : carved w.mem H.alloc (2 ^ (k + 2)) H.alloc = 2 ^ (k + 2) := setSlot_same _ _ _
  have hcarve := Heap.carve_data (v := carved w.mem H.alloc (2 ^ (k + 2))) hI.rep hI.wf hk
    (by simp (disch := omega) only [carved, setSlot_ne, setSlot_same]) hhead
    (fun a ha => by simp (disch := omega) only [carved, setSlot_ne])
  refine ⟨_, ⟨hI.geo.congr ?_ ?_, hcarve.1, hcarve.2, ?_, fun ht x hx => ?_⟩, ⟨rfl, rfl, rfl, rfl⟩,
    carveData_took hI.wf hhead, fun a h h' => ?_, ?_, fun a hl => ?_, rfl, rfl⟩
  · simp (disch := omega) only [carved, setSlot_ne]
  · simp (disch := omega) only [carved, setSlot_ne]
  · simp (disch := omega) only [carved, setSlot_ne]
    exact hroom
  · rcases List.mem_append.1 hx with hx | hx
    · exact hI.small ht x hx
    · rw [List.mem_singleton.1 hx]
      exact pow_le_pow_right₀ (by norm_num) (hsmall ht)
  · refine (Heap.word_adopt_of _ (by omega)).trans ?_
    simp (disch := omega) only [carved, setSlot_ne]
  · simp (disch := omega) only [carved, setSlot_ne, add_zero]
  · have h₁₆₄ := (hcarve.1.loose_ne hl).1
    have hne : a ≠ H.alloc := by
      rintro rfl
      rcases hl with hl | ⟨j, hj, b, hb, hl⟩
      · have : H.alloc + 2 ^ (k + 2) ≤ H.alloc := hl
        omega
      · have := hI.wf.bucket_bounds hj hb
        omega
    simp (disch := omega) only [carved, setSlot_ne]

theorem Inv.clear (hI : Inv env w H) {H₀ : Heap} {b : ℤ} {j k : ℕ} (htook : TookBlock H₀ H b j) (hkj : k ≤ j)
    (hown : ∀ a, H₀.Own a → ¬(b ≤ a ∧ a < b + 2 ^ (j + 2))) :
    ∃ H', Inv env (w.setMem (zeroed w.mem (b + 1) ((2 : ℤ) ^ (k + 2) - 1).toNat)) H' ∧ TookBlock H₀ H' b j ∧
      H'.bucket = H.bucket ∧ H'.carved = H.carved ∧ H'.alloc = H.alloc ∧ Cleared H.word H' b k j ∧
      Quiet w (w.setMem (zeroed w.mem (b + 1) ((2 : ℤ) ^ (k + 2) - 1).toNat)) H' 0 := by
  have hpos := Heap.Wf.two_pow_mod k
  have hkj' : (2 : ℤ) ^ (k + 2) ≤ 2 ^ (j + 2) := pow_le_pow_right₀ (by norm_num) (by omega)
  have hn : (((2 : ℤ) ^ (k + 2) - 1).toNat : ℤ) = 2 ^ (k + 2) - 1 := Int.toNat_of_nonneg (by omega)
  have hbl : b ∈ H.live := by simp [Heap.live, htook.blocks]
  have hb₁₆₄ := (hI.wf.live_bounds hbl).1
  refine ⟨_, hI.writeBlock (c := b) (a := b + 1) (b := b + 2 ^ (k + 2)) (by simp [htook.blocks]) (by omega)
    (by rw [htook.header]; omega) fun c hc => zeroed_ne (by omega), ?_, rfl, rfl, rfl, ⟨fun a h h' => ?_, fun a h h' => ?_⟩,
    (zeroed_ne (by omega)).trans (add_zero _).symm, fun a ha => zeroed_ne ?_, rfl, rfl⟩
  · exact ⟨htook.queue, htook.lifo, htook.nodes, htook.blocks,
      (Heap.word_adopt_ne _ (by omega)).trans htook.header,
      fun a ha => (Heap.word_adopt_ne _ (by have := hown a ha; omega)).trans (htook.kept a ha)⟩
  · exact (Heap.word_adopt_of _ (by omega)).trans (zeroed_of (by omega))
  · exact Heap.word_adopt_ne _ (by omega)
  · -- a loose slot is not in the block
    have hout : ¬(b ≤ a ∧ a < b + H.word b) := fun h => (hI.wf.loose_ne (a := a) ha).2.2 (.inr (.inl ⟨b, hbl, h⟩))
    rw [htook.header] at hout
    omega

/-- **`free_data_slots`** of a held block. -/
theorem freeDataSlots_spec (hI : Inv env w H) {b : ℤ} {B : Multiset ℤ} (hB : H.blocks = b ::ₘ B)
    (hb : b < w.ext.cur) : Wp tot (freeDataSlots b) (fun st w' => st = .ok ∧
      ∃ k < 48, H.word b = 2 ^ (k + 2) ∧ Step env w w' (H.release k b B) ∧ Quiet w w' (H.release k b B) 0) w := by
  have hbl : b ∈ H.live := by simp [Heap.live, hB]
  have hbb := hI.wf.live_bounds hbl
  obtain ⟨k, hk, hs⟩ := hI.wf.data_size _ (hI.wf.header b hbl) rfl
  simp only at hs
  have hm : w.mem b = 2 ^ (k + 2) :=
    (hI.rep.priv b (.inr (.inl ⟨b, hbl, le_refl _, by omega⟩))).trans hs
  have hcm := hI.geo.cur_mod
  have hsz : freed w.mem k b 2 = w.mem 2 := by simp (disch := omega) only [freed, setSlot_ne]
  have hw' := hI.wf.release hk hB hs
  have hbk : b ∈ (H.release k b B).bucket k := by simp [Heap.release]
  refine (wp_freeDataSlots hI.geo.cur_pos hk (by omega) (by omega) hm).2
    ⟨rfl, k, hk, hs, ⟨?_, le_refl _, hsz.ge, fun _ _ => rfl, rfl⟩, ?_, fun a ha => ?_, rfl, rfl⟩
  · refine hI.setMem hsz ?_ hw' ?_ rfl rfl
    · simp (disch := omega) only [freed, setSlot_ne]
    · refine hI.rep.release hI.wf hk hB hs ?_ ?_ fun a ha => ?_
      all_goals simp (disch := omega) only [freed, setSlot_ne, setSlot_same]
  · simp (disch := omega) only [freed, setSlot_ne, add_zero]
  · -- only the first two slots of the block are written
    have h₁₆₄ := (hw'.loose_ne ha).1
    have hne : a ≠ b ∧ a ≠ b + 1 := by
      have hbb' := hw'.bucket_bounds hk hbk
      rcases ha with ha | ⟨j, hj, c, hc, ha⟩
      · omega
      · by_cases hbc : b = c
        · omega
        · have := hw'.data_sep (hw'.bucket k hk b hbk) (hw'.bucket j hj c hc) hbc
          have := (Heap.Wf.two_pow_mod k).1
          omega
    simp (disch := omega) only [freed, setSlot_ne]

/-- **`alloc_data_slots`**: a block of the class the request rounds to, or of one of the next two, is
held; or a call to the system failed. -/
theorem allocDataSlots_spec (hte : tot → env) (hI : Inv env w H) {n k : ℕ} (h₄ : 4 ≤ n) (hn : n < 2 ^ 63)
    (hk : Bits.ceilLog2 n = k + 2) (hsmall : env → n ≤ 2 ^ 30) :
    Wp tot (allocDataSlots n) (fun v w' => ∃ H₁ H', MayLoseBlock w H H₁ k ∧ Step env w w' H' ∧ Quiet w w' H' 0 ∧
      ((∃ j, k ≤ j ∧ TookBlock H₁ H' v.slot j ∧ (Popped H₁ H' k v.slot j ∧ Cleared w.mem H' v.slot k j ∨
          j = k ∧ Carved H₁ H' k v.slot ∧ (env → H.fit k = none) ∧
            ∀ a, v.slot < a → a < v.slot + 2 ^ (k + 2) → H'.word a = w.mem a) ∧
          164 ≤ v.slot ∧ v.slot + 2 ^ (k + 2) < v.extent ∧ v.extent = w'.ext.cur) ∨
        (¬env ∧ v.slot = 0 ∧ H' = H₁))) w := by
  have hpos := Heap.Wf.two_pow_mod k
  have hceil := Bits.ceilLog2_spec (n := n) (by omega) (by omega)
  have hk₆₄ : k + 2 < 64 := by
    have := hceil.2 63 hn.le
    omega
  -- carving, when no free stack gave a block
  have hnew : ∀ {w₁ : World} {H₁ : Heap}, MayLoseBlock w H H₁ k → (env → H.fit k = none) → Step env w w₁ H₁ →
      Quiet w w₁ H₁ 0 →
      Wp tot (allocNewData (2 ^ (k + 2))) (fun v w' => ∃ H₁ H', MayLoseBlock w H H₁ k ∧ Step env w w' H' ∧ Quiet w w' H' 0 ∧
        ((∃ j, k ≤ j ∧ TookBlock H₁ H' v.slot j ∧ (Popped H₁ H' k v.slot j ∧ Cleared w.mem H' v.slot k j ∨
            j = k ∧ Carved H₁ H' k v.slot ∧ (env → H.fit k = none) ∧
              ∀ a, v.slot < a → a < v.slot + 2 ^ (k + 2) → H'.word a = w.mem a) ∧
            164 ≤ v.slot ∧ v.slot + 2 ^ (k + 2) < v.extent ∧ v.extent = w'.ext.cur) ∨
          (¬env ∧ v.slot = 0 ∧ H' = H₁))) w₁ := by
    intro w₁ H₁ hlose hfit hs₁ hq₁
    have hI₁ := hs₁.inv
    have ha := hI₁.wf.alloc_ge
    have ha₆ : w₁.mem 6 = H₁.alloc := hI₁.rep.alloc
    refine wp_allocNewData hI₁.geo (by omega) (by omega) ?_ ?_
    · intro m e hg hlt
      rw [ha₆] at hlt ⊢
      have hroom := hg.geo.cur_le
      have hk₄₈ : k < 48 := by
        rcases hg.geo.cur_lim with ht | hlim
        · have := hceil.2 30 (hsmall ht)
          omega
        · have h : (2 : ℤ) ^ (k + 2) < 2 ^ 44 := by omega
          have := (pow_lt_pow_iff_right₀ (by norm_num : (1 : ℤ) < 2)).1 h
          omega
      obtain ⟨H', hI', hcarved, htook, hwords, hq'⟩ := (hI₁.grown hg).carve hk₄₈ (lt_of_lt_of_le hlt hroom)
        fun ht => by rw [← hk]; exact hceil.2 30 (hsmall ht)
      have hqg : Quiet w₁ ((w₁.setMem m).setExt e) H₁ 0 := .of_nodes hI₁.wf
        ((hg.same 10 (by decide) (by decide)).trans (add_zero _).symm) (fun a ha _ => hg.same a (by omega) (by omega)) rfl rfl
      have hle : ∀ a, H'.Loose a → H₁.Loose a := by
        rintro a (ha' | ha')
        · exact .inl (by rw [hcarved.2.2.2] at ha'; omega)
        · exact .inr (by rwa [hcarved.2.1] at ha')
      have hsz : carved m H₁.alloc (2 ^ (k + 2)) 2 = m 2 := by simp (disch := omega) only [carved, setSlot_ne]
      refine ⟨H₁, H', hlose, hs₁.trans ⟨hI', hg.cur_le, hg.size_le.trans_eq hsz.symm, fun _ _ => rfl, rfl⟩,
        (hq₁.trans hqg (fun _ h => h) rfl).trans ⟨hq'.ids, hq'.loose, rfl, rfl⟩ hle rfl,
        .inl ⟨k, le_refl _, htook, .inr ⟨rfl, hcarved, hfit, fun a h h' => ?_⟩, ha, hlt, rfl⟩⟩
      have h₁ : H₁.alloc < a := h
      exact (hwords a h h').trans ((hg.same a (by omega) (by omega)).trans (hq₁.loose a (.inl h₁.le)))
    · intro m e st x ht hg
      exact ⟨H₁, H₁, hlose, hs₁.trans (Step.grown hI₁ hg), hq₁.trans (.of_nodes hI₁.wf
        ((hg.same 10 (by decide) (by decide)).trans (add_zero _).symm) (fun a ha _ => hg.same a (by omega) (by omega)) rfl rfl)
        (fun _ h => h) rfl, .inr ⟨ht, rfl, rfl⟩⟩
  rw [allocDataSlots, Wp, wp_bind]
  refine wp_roundSlots h₄ hn ?_ fun ht => hsmall (hte ht)
  rw [hk, wp_bind]
  refine wp_reallocDataSlots hte hI.geo hk₆₄ (fun j hf => ?_) ?_ ?_ ?_
  · obtain ⟨l, hl, htop, -⟩ := hI.fit_top (hI.fit_eq k ▸ hf)
    exact htop
  · intro hf
    rw [hI.fit_eq] at hf
    simp only [ne_eq, not_true_eq_false, if_false]
    exact hnew (.inl rfl) (fun _ => hf) (.refl hI) .refl
  · intro j e hf hg hlt
    rw [hI.fit_eq] at hf
    obtain ⟨l, hl, htop, h₁₆₄⟩ := hI.fit_top hf
    obtain ⟨hj, -, hkj, -⟩ := firstFit_some hf
    obtain ⟨H₁, hI₁, hpop, htook, hwords, hq₁⟩ := (hI.grown hg).take hf
    obtain ⟨H', hI', htook', hb, hc, ha, hclear, hq'⟩ := hI₁.clear htook hkj
      fun a ha => own_ne_bucket hI.wf ha hj (by rw [hl]; simp)
    have hne : top w.mem j ≠ 0 := by omega
    have hsz : zeroed (taken w.mem j) (top w.mem j + 1) ((2 : ℤ) ^ (k + 2) - 1).toNat 2 = w.mem 2 := by
      rw [zeroed_ne (by omega)]
      simp (disch := omega) only [taken, setSlot_ne]
    simp only [ne_eq, hne, not_false_eq_true, if_true, wp_pure]
    obtain ⟨l', hf', hl', hb', hc', ha'⟩ := hpop
    have hle : ∀ a, H'.Loose a → H₁.Loose a := fun a h => by simpa only [Heap.Loose, hb, ha] using h
    have hq : Quiet w (w.setMem (taken w.mem j)) H₁ 0 := ⟨hq₁.ids, hq₁.loose, rfl, rfl⟩
    have hleft : ∀ a, top w.mem j < a → a < top w.mem j + 2 ^ (j + 2) → H₁.word a = w.mem a := hwords
    have hkept : ∀ a, top w.mem j + 2 ^ (k + 2) ≤ a → a < top w.mem j + 2 ^ (j + 2) → H'.word a = w.mem a :=
      fun a h h' => (hclear.2 a h h').trans (hleft a (by omega) h')
    exact ⟨H, H', .inl rfl, ⟨hI', hg.cur_le, hsz.ge, fun _ _ => rfl, rfl⟩,
      hq.trans ⟨hq'.ids, hq'.loose, rfl, rfl⟩ hle rfl,
      .inl ⟨j, hkj, htook', .inl ⟨⟨l', hf', hl', hb.trans hb', hc.trans hc', ha.trans ha'⟩, hclear.1, hkept⟩,
        h₁₆₄, hlt, trivial⟩⟩
  · intro j e st x hf hg hlt hc
    rw [hI.fit_eq] at hf
    obtain ⟨l, hl, htop, h₁₆₄⟩ := hI.fit_top hf
    obtain ⟨H₁, hI₁, hpop, htook, -, hq₁⟩ := (hI.grown hg).take hf
    have hsz : taken w.mem j 2 = w.mem 2 := by
      have := (firstFit_some hf).1
      simp (disch := omega) only [taken, setSlot_ne]
    simp only [ne_eq, not_true_eq_false, if_false]
    exact hnew (.inr ⟨top w.mem j, j, hpop, htook, hlt, hc⟩) (fun h => absurd (hI.geo.canMap h _) hc)
      ⟨hI₁, hg.cur_le, hsz.ge, fun _ _ => rfl, rfl⟩ ⟨hq₁.ids, hq₁.loose, rfl, rfl⟩

end

end LibShr
