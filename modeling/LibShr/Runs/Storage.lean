import LibShr.Runs.History
import LibShr.Spec.Blocks

/-!
# Where the storage is

Nodes and data blocks are carved out of the object one after another and never given back to it; they go
from list to list instead. Between two calls each of them is in one place. A vector that is refused for
one of its elements is left out: its block is lost.
-/

namespace LibShr

open Prog

/-- The starts of the nodes (`true`) or of the data blocks (`false`) of `l`. -/
def startsOf (l : List Blk) (node : Bool) : Multiset ℤ := ((l.filter (·.node = node)).map (·.start) : List ℤ)

/-- The blocks `carved` lie one behind the other between the header and `DATA_ALLOC`. Each node is in one of
the three lists or on the stack, and each data block belongs to one item or is on one free stack. -/
structure Inventory (m : ℤ → ℤ) (carved : List Blk) : Prop where
  tiles : Tiles HDR_END carved (m DATA_ALLOC)
  disjoint : carved.Pairwise fun x y => x.start + x.size ≤ y.start
  nodup : (carved.map (·.start)).Nodup
  node_size : ∀ x ∈ carved, x.node = true → x.size = 4
  data_size : ∀ x ∈ carved, x.node = false → ∃ k < 48, x.size = 2 ^ (k + 2)
  nodes : startsOf carved true = (listNodes m .free : Multiset ℤ) + listNodes m .item + listNodes m .event + stackNodes m
  data : startsOf carved false = (itemBlocks m : Multiset ℤ) + ∑ k ∈ Finset.range 48, (freeBlocks m k : Multiset ℤ)
  items : ∀ b ∈ itemBlocks m, ⟨b, m b, false⟩ ∈ carved
  free : ∀ k < 48, ∀ b ∈ freeBlocks m k, ⟨b, 2 ^ (k + 2), false⟩ ∈ carved

/-- A call that does not lose a block: an add is not refused for its arguments. -/
def Accepted (w : World) (e : Made) (w' : World) : Prop := Ran w e w' ∧ (e.call.request.isSome = true → e.reply ≠ .status .errArg)

/-- The most items that were queued between two calls. -/
def notePeak (_ : World) (_ : Made) (w' : World) (peak : ℕ) : ℕ := max peak (itemBlocks w'.mem).length

/-- A call that does not lose a block, with the most items so far. -/
def Peaked (s : World × ℕ) (e : Made) (s' : World × ℕ) : Prop := Accepted s.1 e s'.1 ∧ s'.2 = notePeak s.1 e s'.1 s.2

section
variable {a b : ℤ} {l : List Blk}

/-- The blocks of a tiling lie one behind the other. -/
theorem Tiles.pairwise : ∀ {a : ℤ} {l : List Blk}, Tiles a l b → Sized l → l.Pairwise fun x y => x.start + x.size ≤ y.start
  | _, [], _, _ => .nil
  | a, x :: l, h, hs => by
    have hl : Sized l := fun y hy => hs y (by simp [hy])
    refine .cons (fun y hy => ?_) (h.2.pairwise hl)
    have hy := h.2.bounds hl y hy
    have hx := h.1
    omega

/-- Blocks of a tiling that start together are one. -/
theorem Tiles.eq_of_start (h : Tiles a l b) (hs : Sized l) {x y : Blk} (hx : x ∈ l) (hy : y ∈ l) (he : x.start = y.start) : x = y := by
  rcases h.sep hs x hx y hy with heq | hsep
  · exact heq
  · have hpx := (hs x hx).1
    have hpy := (hs y hy).1
    omega

end

section
variable {w w' w₀ w₁ w₂ : World} {H H' : Heap} {Q Q' : Queue} {e : Made} {es es₁ es₂ : List Made} {depth : ℤ} {peak k : ℕ} {c : Call} {r : Reply}

/-! ## Between two calls -/

theorem Accounted.retains (h : Accounted c r H H') (hr : c.request.isSome = true → r ≠ .status .errArg) : Retains H H' := by
  cases c with
  | add g value length => exact h (hr rfl)
  | addv g vector => exact h (hr rfl)
  | remove g u =>
    obtain ⟨l, hl⟩ := h
    exact hl.toRetains
  | _ => exact h

/-- No call is running: what was carved out is in the lists, with the items or free. -/
structure AtRest (w : World) (H : Heap) (Q : Queue) : Prop where
  sim : Sim w H Q
  sane : Q.Sane
  nodes : H.nodes = 0
  blocks : H.blocks = 0

/-- **What is carved out stays so**, and nothing is held when a call is over. -/
theorem AtRest.step (h : AtRest w H Q) (he : Accepted w e w') :
    ∃ Q' H', Q.Did e Q' ∧ AtRest w' H' Q' ∧ H.carved <+: H'.carved := by
  obtain ⟨Q', H', hd, hS', hacc⟩ := h.sim.ran he.1
  have hret := hacc.retains he.2
  exact ⟨Q', H', hd, ⟨hS', hd.sane h.sane, hret.nodes.trans h.nodes, hret.blocks.trans h.blocks⟩, hret.carved⟩

theorem Created.settled (hw : Created depth w₀) : ∃ H ids clock, AtRest w₀ H (.start depth ids clock) := by
  obtain ⟨w, hf, hm, hr⟩ := hw
  exact ⟨_, _, _, Runs.simulates hf hm hr, Queue.start_sane _ _ _, rfl, rfl⟩

theorem AtRest.live (h : AtRest w H Q) : H.live = (itemBlocks w.mem : Multiset ℤ) := by
  have hitems : itemBlocks w.mem = H.stack ++ H.fifo := by rw [itemBlocks, h.sim.stackBlocks, h.sim.fifoBlocks]
  rw [hitems, ← Multiset.coe_add, add_comm, Heap.live, h.blocks, add_zero]
  rfl

theorem AtRest.freed (h : AtRest w H Q) : H.freed = ∑ k ∈ Finset.range 48, (freeBlocks w.mem k : Multiset ℤ) :=
  Finset.sum_congr rfl fun k hk => by rw [h.sim.freeBlocks (Finset.mem_range.1 hk)]

/-- The inventory, taken from the heap. -/
theorem AtRest.inventory (h : AtRest w H Q) : Inventory w.mem H.carved := by
  have hw := h.sim.inv.wf
  refine ⟨?_, hw.tiles.pairwise hw.sized, hw.tiles.nodup hw.sized, hw.node_size, hw.data_size, ?_, ?_, fun b hb => ?_, fun k hk b hb => ?_⟩
  · rw [h.sim.inv.rep.alloc]
    exact hw.tiles
  · have heq : startsOf H.carved true = H.allNodes := hw.nodes_eq.symm
    rw [heq, Heap.allNodes, h.nodes, add_zero, h.sim.listNodes, h.sim.listNodes, h.sim.listNodes, h.sim.stackNodes]
  · have heq : startsOf H.carved false = H.live + H.freed := hw.data_eq.symm
    rw [heq, h.live, h.freed]
  · have hlive : b ∈ H.live := by
      rw [h.live]
      exact hb
    have hpos := hw.live_bounds hlive
    rw [h.sim.mem_block hlive (le_refl _) (by omega)]
    exact hw.header b hlive
  · rw [h.sim.freeBlocks hk] at hb
    exact hw.bucket k hk b hb

/-- **Nothing leaks**: whatever was carved out is still there later, and at any time each block is in one place. -/
theorem storage_accounted (hw : Created depth w₀) (h₁ : Trace Accepted w₀ es₁ w₁) (h₂ : Trace Accepted w₁ es₂ w₂) :
    ∃ c₁ c₂, Inventory w₁.mem c₁ ∧ Inventory w₂.mem c₂ ∧ c₁ <+: c₂ := by
  obtain ⟨H₁, Q₁, hset₁⟩ : ∃ H Q, AtRest w₁ H Q := by
    refine h₁.invariant (fun w => ∃ H Q, AtRest w H Q) ?_ ?_
    · rintro w e w' ⟨H, Q, hset⟩ he
      obtain ⟨Q', H', -, hset', -⟩ := hset.step he
      exact ⟨H', Q', hset'⟩
    · obtain ⟨H, ids, clock, hset⟩ := hw.settled
      exact ⟨H, _, hset⟩
  obtain ⟨H₂, Q₂, hset₂, hpre⟩ : ∃ H Q, AtRest w₂ H Q ∧ H₁.carved <+: H.carved := by
    refine h₂.invariant (fun w => ∃ H Q, AtRest w H Q ∧ H₁.carved <+: H.carved) ?_ ⟨H₁, Q₁, hset₁, List.prefix_refl _⟩
    rintro w e w' ⟨H, Q, hset, hpre⟩ he
    obtain ⟨Q', H', -, hset', hpre'⟩ := hset.step he
    exact ⟨H', Q', hset', hpre.trans hpre'⟩
  exact ⟨H₁.carved, H₂.carved, hset₁.inventory, hset₂.inventory, hpre⟩

/-! ## How much there is -/

theorem two_pow_slots {j k : ℕ} (h : (2 : ℤ) ^ (j + 2) = 2 ^ (k + 2)) : j = k := by
  have hj : j + 2 = k + 2 := pow_right_injective₀ (by decide) (by decide) h
  omega

/-- The blocks of one size are those of the items of that class. -/
theorem countP_class {m : ℤ → ℤ} {l : List ℤ} {its : List Item} (h : List.Forall₂ (ItemAt m) l its) :
    (l.filter fun b => m b = 2 ^ (k + 2)).length = its.countP fun it => it.cls = k := by
  induction h with
  | nil => rfl
  | @cons b it _ _ hb _ ih =>
    have hsize : m b = 2 ^ (it.cls + 2) := hb.size
    rw [List.countP_cons]
    by_cases hk : it.cls = k
    · rw [List.filter_cons_of_pos (by simp [hsize, hk]), List.length_cons, ih, if_pos (by simp [hk])]
    · rw [List.filter_cons_of_neg (by simpa [hsize] using fun he => hk (two_pow_slots he)), ih, if_neg (by simp [hk]), add_zero]

/-- The blocks of class `k` are those of its items and its free ones. -/
theorem AtRest.blocks_of (h : AtRest w H Q) (hk : k < 48) :
    (H.carved.filter fun x => x.node = false ∧ x.size = 2 ^ (k + 2)).length = Q.blocks k := by
  have hw := h.sim.inv.wf
  have hsub : ∀ b, b ∈ itemBlocks w.mem ↔ b ∈ H.live := fun b => by
    rw [h.live]
    rfl
  have hword : ∀ b ∈ H.live, w.mem b = H.word b := fun b hb => by
    have hpos := hw.live_bounds hb
    exact h.sim.mem_block hb (le_refl _) (by omega)
  have hsame : ∀ x ∈ H.carved, ∀ y ∈ H.carved, x.start = y.start → x = y := fun x hx y hy =>
    hw.tiles.eq_of_start hw.sized hx hy
  set l := (itemBlocks w.mem).filter fun b => w.mem b = 2 ^ (k + 2) with hl
  have hmem : ∀ b, b ∈ l ↔ b ∈ H.live ∧ H.word b = 2 ^ (k + 2) := fun b => by
    rw [hl, List.mem_filter, hsub, decide_eq_true_eq]
    exact and_congr_right fun hb => by rw [hword b hb]
  have hnd : (l ++ H.bucket k).Nodup := by
    have hdata := hw.nodup_data
    rw [h.live, Multiset.nodup_add] at hdata
    refine (hdata.1.filter _).append (hw.bucket_nodup_ne hk hk).1 fun b hb hb' => ?_
    exact hw.bucket_live_ne hk hb' ((hmem b).1 hb).1 rfl
  have hperm : (H.carved.filter fun x => x.node = false ∧ x.size = 2 ^ (k + 2)).Perm
      ((l ++ H.bucket k).map fun b => (⟨b, 2 ^ (k + 2), false⟩ : Blk)) := by
    refine (List.perm_ext_iff_of_nodup ?_ ?_).2 fun x => ?_
    · exact (List.Nodup.of_map _ (hw.tiles.nodup hw.sized)).filter _
    · exact hnd.map fun b c he => congrArg Blk.start he
    · rw [List.mem_filter, List.mem_map, decide_eq_true_eq]
      constructor
      · rintro ⟨hx, hnode, hsize⟩
        refine ⟨x.start, ?_, by rw [← hnode, ← hsize]⟩
        have hstart : x.start ∈ H.live + H.freed := by
          rw [hw.data_eq, Heap.Wf.mem_starts]
          exact ⟨x.size, by rw [← hnode]; exact hx⟩
        rw [List.mem_append]
        rcases Multiset.mem_add.1 hstart with hlive | hfree
        · have heq : x = ⟨x.start, H.word x.start, false⟩ := hsame x hx _ (hw.header _ hlive) rfl
          refine .inl ((hmem _).2 ⟨hlive, ?_⟩)
          rw [← hsize]
          exact (congrArg Blk.size heq).symm
        · obtain ⟨j, hj, hb⟩ := Multiset.mem_sum.1 hfree
          have heq : x = ⟨x.start, 2 ^ (j + 2), false⟩ := hsame x hx _ (hw.bucket j (Finset.mem_range.1 hj) _ hb) rfl
          have hjk : j = k := two_pow_slots ((congrArg Blk.size heq).symm.trans hsize)
          exact .inr (hjk ▸ hb)
      · rintro ⟨b, hb, rfl⟩
        refine ⟨?_, rfl, rfl⟩
        rcases List.mem_append.1 hb with hlive | hfree
        · obtain ⟨hlive, hsize⟩ := (hmem b).1 hlive
          rw [← hsize]
          exact hw.header b hlive
        · exact hw.bucket k hk b hfree
  have hitems : l.length = Q.items.countP fun it => it.cls = k := countP_class h.sim.items
  rw [hperm.length_eq, List.length_map, List.length_append, hitems, Queue.blocks, (h.sim.free k hk).length_eq]

/-- **Storage is reused**: of no size more blocks are carved out than there were items at a time. -/
theorem storage_bounded (hw : Created depth w₀) (h : Trace Peaked (w₀, 0) es (w, peak)) :
    ∃ carved, Inventory w.mem carved ∧ ∀ k < 48, (carved.filter fun x => x.node = false ∧ x.size = 2 ^ (k + 2)).length ≤ peak := by
  obtain ⟨H, Q, hset, hblocks⟩ : ∃ H Q, AtRest w H Q ∧ ∀ k < 48, Q.blocks k ≤ peak := by
    refine h.invariant (fun s => ∃ H Q, AtRest s.1 H Q ∧ ∀ k < 48, Q.blocks k ≤ s.2) ?_ ?_
    · rintro ⟨w, peak⟩ e ⟨w', peak'⟩ ⟨H, Q, hset, hblocks⟩ ⟨he, hpeak⟩
      obtain ⟨Q', H', ⟨a, ha, -⟩, hset', -⟩ := hset.step he
      have hlen : (itemBlocks w'.mem).length = Q'.items.length := hset'.sim.items.length_eq
      refine ⟨H', Q', hset', fun k hk => ?_⟩
      dsimp only [notePeak] at hpeak ⊢
      rw [hpeak, hlen]
      rcases Queue.step_thrifty ha hk with hold | hnew
      · exact le_max_of_le_left (hold.trans (hblocks k hk))
      · exact le_max_of_le_right hnew
    · obtain ⟨H, ids, clock, hset⟩ := hw.settled
      exact ⟨H, _, hset, fun k _ => le_refl 0⟩
  exact ⟨H.carved, hset.inventory, fun k hk => (hset.blocks_of hk).trans_le (hblocks k hk)⟩

/-! ## A byte that comes and goes -/

/-- A call that is accepted. -/
theorem Represents.accepted (hR : Represents w Q) (c : Call) (hv : c.Valid) (h : (Q.answer (fun _ => ⟨1, 0⟩) c).isSome = true)
    (hok : ∀ a ∈ Q.answer (fun _ => ⟨1, 0⟩) c, ¬a.Matches (.status .errArg)) :
    ∃ e w', Accepted w e w' ∧ Represents w' (Q.after (fun _ => ⟨1, 0⟩) c) := by
  obtain ⟨r, w', hr, hm, hR'⟩ := hR.next (fun _ => ⟨1, 0⟩) c hv h
  refine ⟨_, w', ⟨hr, fun _ hrefused => ?_⟩, hR'⟩
  obtain ⟨a, ha⟩ := Option.isSome_iff_exists.1 h
  dsimp only at hrefused
  subst hrefused
  exact hok a ha (hm a ha)

/-- A byte is added, removed and added again. -/
theorem byte_moves : ∃ w₀ e₁ w₁ e₂ w₂ e₃ w₃, Created 4 w₀ ∧ Accepted w₀ e₁ w₁ ∧ Accepted w₁ e₂ w₂ ∧ Accepted w₂ e₃ w₃ ∧
    (itemBlocks w₁.mem).length = 1 ∧ (itemBlocks w₂.mem).length = 0 ∧ (itemBlocks w₃.mem).length = 1 := by
  obtain ⟨w₀, hw, hR₀⟩ := fresh_represents
  obtain ⟨e₁, w₁, h₁, hR₁⟩ := hR₀.accepted (.putByte 65) (Call.putByte_valid 65) (by decide +kernel) (by rintro a ⟨⟩ ⟨⟩)
  obtain ⟨e₂, w₂, h₂, hR₂⟩ := hR₁.accepted .pull trivial (by decide +kernel) (by rintro a ⟨⟩ ⟨⟩)
  obtain ⟨e₃, w₃, h₃, hR₃⟩ := hR₂.accepted (.putByte 65) (Call.putByte_valid 65) (by decide +kernel) (by rintro a ⟨⟩ ⟨⟩)
  exact ⟨w₀, e₁, w₁, e₂, w₂, e₃, w₃, hw, h₁, h₂, h₃, hR₁.length.trans (by decide +kernel), hR₂.length.trans (by decide +kernel),
    hR₃.length.trans (by decide +kernel)⟩

theorem storage_accounted_byte : ∃ w₀ es₁ w₁ es₂ w₂ c₁ c₂, Created 4 w₀ ∧ Trace Accepted w₀ es₁ w₁ ∧ Trace Accepted w₁ es₂ w₂ ∧
    es₁.length = 1 ∧ es₂.length = 2 ∧ Inventory w₁.mem c₁ ∧ Inventory w₂.mem c₂ ∧ c₁ <+: c₂ := by
  obtain ⟨w₀, e₁, w₁, e₂, w₂, e₃, w₃, hw, h₁, h₂, h₃, -⟩ := byte_moves
  have ht₁ : Trace Accepted w₀ [e₁] w₁ := .cons h₁ (.nil _)
  have ht₂ : Trace Accepted w₁ [e₂, e₃] w₃ := .cons h₂ (.cons h₃ (.nil _))
  obtain ⟨c₁, c₂, hc⟩ := storage_accounted hw ht₁ ht₂
  exact ⟨w₀, _, w₁, _, w₃, c₁, c₂, hw, ht₁, ht₂, rfl, rfl, hc⟩

/-- The second byte is put where the first one was. -/
theorem storage_bounded_byte : ∃ w₀ es w carved, Created 4 w₀ ∧ es.length = 3 ∧ Trace Peaked (w₀, 0) es (w, 1) ∧ Inventory w.mem carved ∧
    ∀ k < 48, (carved.filter fun x => x.node = false ∧ x.size = 2 ^ (k + 2)).length ≤ 1 := by
  obtain ⟨w₀, e₁, w₁, e₂, w₂, e₃, w₃, hw, h₁, h₂, h₃, hl₁, hl₂, hl₃⟩ := byte_moves
  have hp₁ : Peaked (w₀, 0) e₁ (w₁, 1) := ⟨h₁, by rw [notePeak, hl₁]; rfl⟩
  have hp₂ : Peaked (w₁, 1) e₂ (w₂, 1) := ⟨h₂, by rw [notePeak, hl₂]; rfl⟩
  have hp₃ : Peaked (w₂, 1) e₃ (w₃, 1) := ⟨h₃, by rw [notePeak, hl₃]; rfl⟩
  have ht : Trace Peaked (w₀, 0) [e₁, e₂, e₃] (w₃, 1) := .cons hp₁ (.cons hp₂ (.cons hp₃ (.nil _)))
  obtain ⟨carved, hc⟩ := storage_bounded hw ht
  exact ⟨w₀, _, w₃, carved, hw, rfl, ht, hc⟩

end

end LibShr
