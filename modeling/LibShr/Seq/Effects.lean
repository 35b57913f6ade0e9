import LibShr.Seq.Alloc

/-!
# Effects on the heap, as far as items are concerned

Most functions of the queue move one item and do a number of things besides: they note times and the
largest buffer, raise events, let go of old extents. `Gave` and `Aside` say that the items are left
alone, whatever else happens.
-/

namespace LibShr

open Prog

/-- The settings the queue's behaviour towards items depends on: `COUNT`, the time limits, `LEVEL`,
`MAX_DEPTH`. `FLAGS` is treated apart. -/
def steady : List ℤ := [7, 118, 119, 140, 141, 144, 145]

namespace Heap

variable (H : Heap)

/-- The slots items depend on: the steady settings, the blocks in use and the upper words of item nodes
and held nodes. -/
def Core (a : ℤ) : Prop :=
  a ∈ steady ∨ (∃ b ∈ H.live, b ≤ a ∧ a < b + H.word b) ∨
    ∃ n, (n ∈ H.queue .item ∨ n ∈ H.lifo ∨ n ∈ H.nodes) ∧ (a = n + 2 ∨ a = n + 3)

/-- The two mode bits, `FLAG_DISCARD_EXPIRED` and `FLAG_LIFO_ON_LEVEL`. -/
def modes : ℤ × ℤ := (Int.land (H.word FLAGS) FLAG_DISCARD_EXPIRED, Int.land (H.word FLAGS) FLAG_LIFO_ON_LEVEL)

/-- The data blocks of the queued items, in the order of the list. -/
def fifo : List ℤ := (H.queue .item).tail.map H.value

/-- The data blocks of the stacked items, top first. -/
def stack : List ℤ := H.lifo.map H.value

end Heap

/-- `H'` is `H` with the nodes `ns` and the blocks `bs` held besides, and nothing of the items changed. -/
structure Gave (H H' : Heap) (ns bs : Multiset ℤ) : Prop where
  item : H'.queue .item = H.queue .item
  lifo : H'.lifo = H.lifo
  nodes : H'.nodes = ns + H.nodes
  blocks : H'.blocks = bs + H.blocks
  modes : H'.modes = H.modes
  word : ∀ a, H.Core a → H'.word a = H.word a

/-- The first free node `d` cannot be mapped whole, so it will be dropped. -/
def DropsNode (w : World) (H : Heap) (d : ℤ) : Prop :=
  ∃ x l, H.queue .free = d :: x :: l ∧ d < w.ext.cur ∧ ¬CanMap w.mem w.ext (d + 4)

namespace Heap

variable {H H' H'' : Heap} {a b : ℤ} {k : ℕ} {m : ℤ → ℤ}

theorem steady_settings (ha : a ∈ steady) : a ∈ settings := by
  have : ∀ a ∈ steady, a ∈ settings := by decide
  exact this a ha

theorem core_own (ha : H.Core a) : H.Own a := by
  rcases ha with ha | ha | ⟨n, hn, ha⟩
  · exact .inl (steady_settings ha)
  · exact .inr (.inl ha)
  · exact .inr (.inr ⟨n, hn.elim .inl fun h => h.elim (fun h => .inr (.inr (.inl h))) fun h => .inr (.inr (.inr h)), ha⟩)

theorem mem_live_block (hb : b ∈ H.blocks) : b ∈ H.live := by
  simp [live, hb]

theorem mem_live_fifo (hb : b ∈ H.fifo) : b ∈ H.live := by
  obtain ⟨n, hn, rfl⟩ := List.mem_map.1 hb
  simp only [live, Multiset.mem_add, Multiset.mem_coe, List.mem_map]
  exact .inl (.inl ⟨n, hn, rfl⟩)

theorem mem_live_stack (hb : b ∈ H.stack) : b ∈ H.live := by
  obtain ⟨n, hn, rfl⟩ := List.mem_map.1 hb
  simp only [live, Multiset.mem_add, Multiset.mem_coe, List.mem_map]
  exact .inl (.inr ⟨n, hn, rfl⟩)

theorem live_eq : H.live = (H.fifo : Multiset ℤ) + H.stack + H.blocks := rfl

end Heap

namespace Gave

variable {H H' H'' : Heap} {ns bs ns' bs' : Multiset ℤ} {a b : ℤ}

theorem refl : Gave H H 0 0 := ⟨rfl, rfl, (zero_add _).symm, (zero_add _).symm, rfl, fun _ _ => rfl⟩

theorem fifo (hg : Gave H H' ns bs) : H'.fifo = H.fifo := by
  rw [Heap.fifo, Heap.fifo, hg.item]
  refine List.map_congr_left fun n hn => hg.word _ (.inr (.inr ⟨n, .inl (List.mem_of_mem_tail hn), .inr rfl⟩))

theorem stack (hg : Gave H H' ns bs) : H'.stack = H.stack := by
  rw [Heap.stack, Heap.stack, hg.lifo]
  exact List.map_congr_left fun n hn => hg.word _ (.inr (.inr ⟨n, .inr (.inl hn), .inr rfl⟩))

theorem live (hg : Gave H H' ns bs) : H'.live = bs + H.live := by
  rw [Heap.live_eq, Heap.live_eq, hg.fifo, hg.stack, hg.blocks]
  abel

/-- What items depend on still does. -/
theorem core (hg : Gave H H' ns bs) (hw : H.Wf) (ha : H.Core a) : H'.Core a := by
  rcases ha with ha | ⟨b, hb, ha⟩ | ⟨n, hn, ha⟩
  · exact .inl ha
  · have hbb := hw.live_bounds hb
    have he : H'.word b = H.word b := hg.word b (.inr (.inl ⟨b, hb, le_refl _, by omega⟩))
    exact .inr (.inl ⟨b, by rw [hg.live]; exact Multiset.mem_add.2 (.inr hb), he ▸ ha⟩)
  · refine .inr (.inr ⟨n, hn.imp (fun h => hg.item ▸ h) fun h => h.imp (fun h => hg.lifo ▸ h) fun h => ?_, ha⟩)
    rw [hg.nodes]
    exact Multiset.mem_add.2 (.inr h)

theorem trans (hg : Gave H H' ns bs) (hg' : Gave H' H'' ns' bs') (hw : H.Wf) :
    Gave H H'' (ns' + ns) (bs' + bs) where
  item := hg'.item.trans hg.item
  lifo := hg'.lifo.trans hg.lifo
  nodes := by rw [hg'.nodes, hg.nodes, add_assoc]
  blocks := by rw [hg'.blocks, hg.blocks, add_assoc]
  modes := hg'.modes.trans hg.modes
  word := fun a ha => (hg'.word a (hg.core hw ha)).trans (hg.word a ha)

/-- Nothing that items depended on lies in a node that is held only now. -/
theorem core_ne_node (hg : Gave H H' ns bs) (hw : H.Wf) (hw' : H'.Wf) {n : ℤ} (hn : n ∈ ns) (ha : H.Core a) :
    a < n ∨ n + 4 ≤ a := by
  have hnn : n ∈ H'.nodes := by rw [hg.nodes]; exact Multiset.mem_add.2 (.inl hn)
  have hna := Heap.Wf.held_mem hnn
  have hnb := hw'.node_bounds hna
  rcases ha with ha | ⟨b, hb, ha⟩ | ⟨n', hn', ha⟩
  · have := Heap.Wf.settings_lt (Heap.steady_settings ha)
    omega
  · have hbb := hw.live_bounds hb
    have he : H'.word b = H.word b := hg.word b (.inr (.inl ⟨b, hb, le_refl _, by omega⟩))
    have hb' : b ∈ H'.live := by rw [hg.live]; exact Multiset.mem_add.2 (.inr hb)
    have := hw'.node_data_sep hna (hw'.header b hb')
    omega
  · have hne : n' ≠ n ∧ n' ∈ H'.allNodes := by
      rcases hn' with h | h | h
      · rw [← hg.item] at h
        exact ⟨hw'.queue_held_ne h hnn, Heap.Wf.queue_mem h⟩
      · rw [← hg.lifo] at h
        exact ⟨hw'.lifo_held_ne h hnn, Heap.Wf.lifo_mem h⟩
      · have hd := hw'.places.2.2.1
        rw [hg.nodes, Multiset.nodup_add] at hd
        refine ⟨fun he => Multiset.disjoint_left.1 hd.2.2 hn (he ▸ h), Heap.Wf.held_mem ?_⟩
        rw [hg.nodes]
        exact Multiset.mem_add.2 (.inr h)
    have := hw'.node_sep hna hne.2 (Ne.symm hne.1)
    omega

end Gave

theorem TookBlock.gave {H H' : Heap} {b : ℤ} {j : ℕ} (ht : TookBlock H H' b j) : Gave H H' 0 {b} where
  item := by rw [ht.queue]
  lifo := ht.lifo
  nodes := ht.nodes.trans (zero_add _).symm
  blocks := ht.blocks.trans (Multiset.singleton_add _ _).symm
  modes := by
    have h : H'.word FLAGS = H.word FLAGS := ht.kept _ (.inl (by decide))
    rw [Heap.modes, Heap.modes, h]
  word := fun a ha => ht.kept a (Heap.core_own ha)

theorem TookNode.gave {H H' : Heap} {b : ℤ} (ht : TookNode H H' b) : Gave H H' {b} 0 where
  item := ht.item
  lifo := ht.lifo
  nodes := ht.nodes.trans (Multiset.singleton_add _ _).symm
  blocks := ht.blocks.trans (zero_add _).symm
  modes := by
    have h : H'.word FLAGS = H.word FLAGS := ht.kept _ (.inl (by decide))
    rw [Heap.modes, Heap.modes, h]
  word := fun a ha => ht.kept a (Heap.core_own ha)

namespace Heap

variable {H H' H'' : Heap} {a b : ℤ} {k : ℕ} {m : ℤ → ℤ}

theorem gave_unlink_free {d x : ℤ} {l : List ℤ} : Gave H (H.unlink .free d x l) {d} 0 where
  item := Function.update_of_ne (show QId.item ≠ .free by decide) (x :: l) H.queue
  lifo := rfl
  nodes := (Multiset.singleton_add _ _).symm
  blocks := rfl
  modes := rfl
  word := fun _ _ => rfl

/-- Writing to settings that items do not depend on. -/
theorem gave_settings (hw : H.Wf) (hs : ∀ a ∈ steady, m a = H.word a)
    (hf : Int.land (m 9) 2 = Int.land (H.word 9) 2 ∧ Int.land (m 9) 4 = Int.land (H.word 9) 4) :
    Gave H (H.adopt m 0 164) 0 0 where
  item := rfl
  lifo := rfl
  nodes := (zero_add _).symm
  blocks := (zero_add _).symm
  modes := Prod.ext hf.1 hf.2
  word := fun a ha => by
    rcases ha with ha | ⟨b, hb, ha⟩ | ⟨n, hn, ha⟩
    · have := Wf.settings_lt (steady_settings ha)
      by_cases h : 0 ≤ a ∧ a < 164
      · rw [word_adopt_of _ h, hs a ha]
      · rw [word_adopt_ne _ h]
    · have := hw.live_bounds hb
      exact word_adopt_ne _ (by omega)
    · have hna : n ∈ H.allNodes := hn.elim Wf.queue_mem fun h => h.elim Wf.lifo_mem Wf.held_mem
      have := hw.node_bounds hna
      exact word_adopt_ne _ (by omega)

end Heap

/-! ## The allocators again -/

section
variable {tot env : Prop} {w : World} {H : Heap} {m : ℤ → ℤ}

/-- Writing to header settings. -/
theorem Inv.settings (hI : Inv env w H) (hsame : ∀ a, a ∉ LibShr.settings → m a = w.mem a) :
    Inv env (w.setMem m) (H.adopt m 0 164) := by
  refine hI.setMem (hsame 2 (by decide)) (hsame 3 (by decide)) (hI.wf.write ⟨?_, ?_⟩) (hI.rep.settings hI.wf hsame)
    rfl rfl
  · intro n hn
    have := hI.wf.node_bounds (hn.elim (fun h => Heap.Wf.queue_mem (List.mem_of_mem_tail h)) Heap.Wf.lifo_mem)
    exact Heap.word_adopt_ne _ (by omega)
  · intro b hb
    have := hI.wf.live_bounds hb
    exact Heap.word_adopt_ne _ (by omega)

/-- `alloc_idx_slots`, as far as items are concerned. -/
theorem allocIdxSlots_gave (hI : Inv env w H) (ht : tot → CanMap w.mem w.ext (w.mem FREE_HEAD)) :
    Wp tot allocIdxSlots (fun v w' => ∃ H' lost, Step env w w' H' ∧
      (2 ≤ (H.queue .free).length → CanMap w.mem w.ext (w.mem FREE_HEAD)) ∧
      (lost = 0 ∨ ∃ d, lost = {d} ∧ DropsNode w H d) ∧
      ((Gave H H' ({v.slot} + lost) 0 ∧ H'.queue .event = H.queue .event ∧ 164 ≤ v.slot ∧ v.slot + 4 < v.extent ∧
          v.extent = w'.ext.cur ∧ NodeExtents w w' H v) ∨
        (¬env ∧ v.slot = 0 ∧ Gave H H' lost 0 ∧
          (2 ≤ (H.queue .free).length → w.ext.cur ≤ w.mem FREE_HEAD + 4)))) w := by
  refine wp_mono ?_ (allocIdxSlots_spec hI ht)
  rintro v w' ⟨H₁, H', hlose, hs, -, -, hcan, hres⟩
  have hlost : ∃ lost, Gave H H₁ lost 0 ∧ (lost = 0 ∨ ∃ d, lost = {d} ∧ DropsNode w H d) ∧
      H₁.queue .event = H.queue .event := by
    rcases hlose with rfl | ⟨d, x, l, hl, hlt, hc, rfl⟩
    · exact ⟨0, .refl, .inl rfl, rfl⟩
    · exact ⟨{d}, Heap.gave_unlink_free, .inr ⟨d, rfl, x, l, hl, hlt, hc⟩,
        Function.update_of_ne (show QId.event ≠ .free by decide) (x :: l) H.queue⟩
  obtain ⟨lost, hg, hl, hev⟩ := hlost
  refine ⟨H', lost, hs, hcan, hl, ?_⟩
  rcases hres with ⟨htook, h₁₆₄, hlt, he, hext⟩ | ⟨ht, hv, rfl, hfar⟩
  · exact .inl ⟨hg.trans htook.gave hI.wf, htook.event.trans hev, h₁₆₄, hlt, he, hext⟩
  · exact .inr ⟨ht, hv, hg, hfar⟩

end

end LibShr
