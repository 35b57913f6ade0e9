import LibShr.Seq.Moves
import LibShr.Model.SharedQ

/-!
# Appending to and removing from the lists, alone

`Inv` is the state between two steps of the library: a heap in memory, with its last carved slot below
the object's size. `Step` is what every function guarantees besides its own move of the heap.
-/

namespace LibShr

open Prog

/-- The object, seen by a process that runs alone, holds the heap `H`. -/
structure Inv (env : Prop) (w : World) (H : Heap) : Prop where
  geo : Geo env w.mem w.ext
  wf : H.Wf
  rep : Heap.Rep w.mem H
  room : H.alloc < w.mem 2
  /-- While nothing fails no block has more than 2^30 slots: beyond them the `int` shifts overflow. -/
  small : env → ∀ x ∈ H.carved, x.size ≤ 2 ^ 30

/-- A world that a function may leave, holding the heap `H'`. -/
structure Step (env : Prop) (w w' : World) (H' : Heap) : Prop where
  inv : Inv env w' H'
  cur_le : w.ext.cur ≤ w'.ext.cur
  size_le : w.mem 2 ≤ w'.mem 2
  sem : ∀ s, s ≠ .evnt → w'.sem s = w.sem s
  malloc : w'.malloc = w.malloc

/-- A world that a list function leaves: of the extents it has only used `insure_in_range` of `slot`. -/
structure Saw (env : Prop) (w w' : World) (slot : ℤ) (H' : Heap) : Prop extends Step env w w' H' where
  can : CanMap w.mem w.ext slot
  ext : w'.ext = w.ext.see (w.mem 2) slot
  size : w'.mem 2 = w.mem 2

/-- The slots of no list and no owner: behind the last carved slot, and inside the free data blocks. -/
def Heap.Loose (H : Heap) (a : ℤ) : Prop :=
  H.alloc ≤ a ∨ ∃ k < 48, ∃ b ∈ H.bucket k, b + 2 ≤ a ∧ a < b + 2 ^ (k + 2)

/-- What a function that leaves the heap `H'` does not touch; it has used `n` numbers of `ID_CNTR`. -/
structure Quiet (w w' : World) (H' : Heap) (n : ℤ) : Prop where
  ids : w'.mem 10 = w.mem 10 + n
  loose : ∀ a, H'.Loose a → w'.mem a = w.mem a
  sem : w'.sem = w.sem
  clock : w'.clock = w.clock

theorem Saw.of_size {env : Prop} {w w' : World} {slot : ℤ} {H' : Heap} (hI : Inv env w' H')
    (hcan : CanMap w.mem w.ext slot) (hc : w.ext.cur ≤ w'.ext.cur) (he : w'.ext = w.ext.see (w.mem 2) slot) (h₂ : w'.mem 2 = w.mem 2)
    (hs : ∀ s, s ≠ .evnt → w'.sem s = w.sem s) (hm : w'.malloc = w.malloc) : Saw env w w' slot H' :=
  ⟨⟨hI, hc, h₂.ge, hs, hm⟩, hcan, he, h₂⟩

section
variable {tot env : Prop} {w w' w'' : World} {H H' H'' : Heap} {m : ℤ → ℤ} {e : Mapping}

theorem Heap.Wf.loose_ne (hw : H.Wf) {a : ℤ} (ha : H.Loose a) :
    164 ≤ a ∧ (∀ n ∈ H.allNodes, a < n ∨ n + 4 ≤ a) ∧ ¬H.Priv a := by
  have hge := hw.alloc_ge
  rcases ha with ha | ⟨k, hk, b, hb, ha⟩
  · refine ⟨by omega, fun n hn => ?_, fun hp => ?_⟩
    · have := hw.node_bounds hn
      omega
    · have := hw.priv_lt_alloc hp
      omega
  · have hbb := hw.bucket_bounds hk hb
    refine ⟨by omega, fun n hn => ?_, fun hp => ?_⟩
    · have := hw.node_data_sep hn (hw.bucket k hk b hb)
      omega
    · have := hw.priv_ne_bucket hp hk hb
      omega

theorem Quiet.refl : Quiet w w H 0 := ⟨(add_zero _).symm, fun _ _ => rfl, rfl, rfl⟩

theorem Quiet.trans {n n' k : ℤ} (h₁ : Quiet w w' H' n) (h₂ : Quiet w' w'' H'' n') (hle : ∀ a, H''.Loose a → H'.Loose a)
    (hk : n + n' = k) : Quiet w w'' H'' k where
  ids := by rw [h₂.ids, h₁.ids, add_assoc, hk]
  loose := fun a ha => (h₂.loose a ha).trans (h₁.loose a (hle a ha))
  sem := h₂.sem.trans h₁.sem
  clock := h₂.clock.trans h₁.clock

/-- Changes of the header and of nodes only. -/
theorem Quiet.of_nodes (hw : H.Wf) {n : ℤ} (hids : w'.mem 10 = w.mem 10 + n)
    (hsame : ∀ a, 164 ≤ a → (∀ x ∈ H.allNodes, a < x ∨ x + 4 ≤ a) → w'.mem a = w.mem a) (hs : w'.sem = w.sem)
    (hc : w'.clock = w.clock) : Quiet w w' H n :=
  ⟨hids, fun a ha => hsame a (hw.loose_ne ha).1 (hw.loose_ne ha).2.1, hs, hc⟩

theorem Step.refl (hI : Inv env w H) : Step env w w H := ⟨hI, le_refl _, le_refl _, fun _ _ => rfl, rfl⟩

/-- Only the memory and the mapping matter: the clock, the signals and the number of accessors are no
part of the heap. -/
theorem Inv.of_eq (hI : Inv env w H) (hm : w'.mem = w.mem) (he : w'.ext = w.ext) : Inv env w' H := by
  refine ⟨?_, hI.wf, ?_, ?_, hI.small⟩
  · rw [hm, he]; exact hI.geo
  · rw [hm]; exact hI.rep
  · rw [hm]; exact hI.room

theorem Step.of_eq (hI : Inv env w H) (hm : w'.mem = w.mem) (he : w'.ext = w.ext)
    (hs : ∀ s, s ≠ .evnt → w'.sem s = w.sem s) (hl : w'.malloc = w.malloc) : Step env w w' H where
  inv := hI.of_eq hm he
  cur_le := by rw [he]
  size_le := by rw [hm]
  sem := hs
  malloc := hl

theorem Step.trans (h₁ : Step env w w' H') (h₂ : Step env w' w'' H'') : Step env w w'' H'' :=
  ⟨h₂.inv, h₁.cur_le.trans h₂.cur_le, h₁.size_le.trans h₂.size_le,
    fun s hs => (h₂.sem s hs).trans (h₁.sem s hs), h₂.malloc.trans h₁.malloc⟩

/-- The extent functions do not touch the heap. -/
theorem Inv.grown (hI : Inv env w H) (hg : Grown env w.mem w.ext m e) : Inv env ((w.setMem m).setExt e) H where
  geo := hg.geo
  wf := hI.wf
  rep := hI.rep.congr hI.wf (hg.same ID_CNTR (by decide) (by decide)).ge fun a ha => hg.same a
    (fun h => ha ⟨fun _ => .inl h, fun n hn _ => by have := hI.wf.node_bounds hn; omega,
      fun k hk b hb => by have := hI.wf.bucket_bounds hk hb; omega,
      fun hp => by have := Heap.Rep.priv_ne hI.wf hp .item; omega⟩)
    (fun h => ha ⟨fun _ => .inr (.inl h), fun n hn _ => by have := hI.wf.node_bounds hn; omega,
      fun k hk b hb => by have := hI.wf.bucket_bounds hk hb; omega,
      fun hp => by have := Heap.Rep.priv_ne hI.wf hp .item; omega⟩)
  room := lt_of_lt_of_le hI.room hg.size_le
  small := hI.small

theorem Step.grown (hI : Inv env w H) (hg : Grown env w.mem w.ext m e) : Step env w ((w.setMem m).setExt e) H :=
  ⟨hI.grown hg, hg.cur_le, hg.size_le, fun _ _ => rfl, rfl⟩

theorem Step.refuse (hI : Inv env w H) : Step env w (w.setExt w.ext.refuse) H :=
  Step.grown hI (.refuse hI.geo)

/-- `ID_CNTR` is no part of the heap, as long as it does not fall. -/
theorem Inv.counter (hI : Inv env w H) {v : ℤ} (hv : w.mem 10 ≤ v) : Inv env (w.setMem (setSlot w.mem 10 v)) H where
  geo := hI.geo.congr (setSlot_ne _ v (show (2 : ℤ) ≠ 10 by decide)) (setSlot_ne _ v (show (3 : ℤ) ≠ 10 by decide))
  wf := hI.wf
  rep := hI.rep.congr hI.wf (hv.trans_eq (setSlot_same w.mem 10 v).symm) fun a ha => setSlot_ne _ _ fun h => ha
    ⟨fun _ => .inr (.inr h), fun n hn _ => by have := hI.wf.node_bounds hn; omega,
      fun k hk b hb => by have := hI.wf.bucket_bounds hk hb; omega,
      fun hp => by have := Heap.Rep.priv_ne hI.wf hp .item; omega⟩
  room := hI.room.trans_eq (setSlot_ne w.mem v (show (2 : ℤ) ≠ 10 by decide)).symm
  small := hI.small

/-- A change of the memory that keeps the two size words. -/
theorem Inv.setMem (hI : Inv env w H) (h₂ : m 2 = w.mem 2) (h₃ : m 3 = w.mem 3) (hw : H'.Wf)
    (hr : Heap.Rep m H') (ha : H'.alloc = H.alloc) (hc : H'.carved = H.carved) : Inv env (w.setMem m) H' :=
  ⟨hI.geo.congr h₂ h₃, hw, hr, by rw [ha]; exact lt_of_lt_of_eq hI.room h₂.symm, hc ▸ hI.small⟩

/-- A node inside the mapping is inside with all its slots. -/
theorem Inv.node_room (hI : Inv env w H) {n : ℤ} (hn : n ∈ H.allNodes) :
    164 ≤ n ∧ n % 4 = 0 ∧ n < w.mem 2 ∧ (n < w.ext.cur → n + 3 < w.ext.cur) := by
  have := hI.wf.node_bounds hn
  have := hI.room
  have := hI.geo.cur_mod
  exact ⟨by omega, by omega, by omega, fun _ => by omega⟩

/-- The owner of a held node may write to its slots. -/
theorem Inv.writeNode (hI : Inv env w H) {n a b : ℤ} (hn : n ∈ H.nodes) (ha : n ≤ a) (hb : b ≤ n + 4)
    (hsame : ∀ c, ¬(a ≤ c ∧ c < b) → m c = w.mem c) : Inv env (w.setMem m) (H.adopt m a b) := by
  have hna := Heap.Wf.held_mem hn
  have hnb := hI.wf.node_bounds hna
  have hsep : ∀ y ∈ H.allNodes, y ∉ H.nodes → y + 4 ≤ n ∨ n + 4 ≤ y :=
    fun y hy hyn => hI.wf.node_sep hy hna fun he => hyn (he ▸ hn)
  have hk : Heap.Wf.Keeps H (H.adopt m a b).word := by
    refine ⟨fun y hy => Heap.word_adopt_ne _ ?_, fun c hc => Heap.word_adopt_ne _ ?_⟩
    · have hy' : y ∈ H.allNodes ∧ y ∉ H.nodes := by
        rcases hy with hy | hy
        · exact ⟨Heap.Wf.queue_mem (List.mem_of_mem_tail hy),
            fun h => hI.wf.queue_held_ne (List.mem_of_mem_tail hy) h rfl⟩
        · exact ⟨Heap.Wf.lifo_mem hy, fun h => hI.wf.lifo_held_ne hy h rfl⟩
      have := hsep y hy'.1 hy'.2
      omega
    · have := hI.wf.node_data_sep hna (hI.wf.header c hc)
      have := hI.wf.live_bounds hc
      omega
  refine hI.setMem (hsame 2 (by omega)) (hsame 3 (by omega)) (hI.wf.write hk) ?_ rfl rfl
  refine hI.rep.adopt hI.wf hk (by omega) (fun y hy hyn => ?_) (fun k hkk c hc => ?_) hsame
  · have := hsep y hy hyn
    omega
  · have := hI.wf.node_data_sep hna (hI.wf.bucket k hkk c hc)
    have := (Heap.Wf.two_pow_mod k).1
    omega

/-- The owner of a held data block may write behind its header. -/
theorem Inv.writeBlock (hI : Inv env w H) {c a b : ℤ} (hc : c ∈ H.blocks) (ha : c < a) (hb : b ≤ c + H.word c)
    (hsame : ∀ x, ¬(a ≤ x ∧ x < b) → m x = w.mem x) : Inv env (w.setMem m) (H.adopt m a b) := by
  have hcl : c ∈ H.live := by simp [Heap.live, hc]
  have hcb := hI.wf.live_bounds hcl
  have hblk := hI.wf.header c hcl
  have hk : Heap.Wf.Keeps H (H.adopt m a b).word := by
    refine ⟨fun y hy => Heap.word_adopt_ne _ ?_, fun x hx => Heap.word_adopt_ne _ ?_⟩
    · have hy' := hy.elim (fun h => Heap.Wf.queue_mem (List.mem_of_mem_tail h)) Heap.Wf.lifo_mem
      have := hI.wf.node_data_sep hy' hblk
      omega
    · by_cases he : c = x
      · omega
      · have := hI.wf.data_sep hblk (hI.wf.header x hx) he
        have := hI.wf.live_bounds hx
        omega
  refine hI.setMem (hsame 2 (by omega)) (hsame 3 (by omega)) (hI.wf.write hk) ?_ rfl rfl
  refine hI.rep.adopt hI.wf hk (by omega) (fun y hy hyn => ?_) (fun k hkk x hx => ?_) hsame
  · have := hI.wf.node_data_sep hy hblk
    omega
  · have := hI.wf.data_sep hblk (hI.wf.bucket k hkk x hx) (hI.wf.bucket_live_ne hkk hx hcl).symm
    have := (Heap.Wf.two_pow_mod k).1
    omega

/-- **`add_end`** appends a held node. -/
theorem addEnd_spec (hI : Inv env w H) (i : QId) {s : ℤ} {N B : Multiset ℤ} (hN : H.nodes = s ::ₘ N)
    (hB : H.blocks = i.carry (H.value s) + B) (hs : s < w.ext.cur)
    (ht : tot → CanMap w.mem w.ext (w.mem i.tail)) :
    Wp tot (addEnd s i.tail) (fun _ w' => Saw env w w' (w.mem i.tail) (H.link i s N B) ∧
      Quiet w w' (H.link i s N B) 1) w := by
  have hsm : s ∈ H.nodes := by simp [hN]
  have hsa := Heap.Wf.held_mem hsm
  obtain ⟨hs₀, hs₄, -, hsr⟩ := hI.node_room hsa
  have hsr := hsr hs
  have hq := hI.rep.queue i
  have htm := hq.tail_mem
  have hta := Heap.Wf.queue_mem htm
  obtain ⟨ht₀, ht₄, htz, htr⟩ := hI.node_room hta
  have hsep := hI.wf.node_sep hta hsa (hI.wf.queue_held_ne htm hsm)
  have hcur := hI.geo.cur_pos
  have hi := i.words i
  have hi₂ : i.tail % 2 = 0 := by cases i <;> decide
  have hself := hq.self
  have hstamp := hq.stamp
  simp (disch := omega) only [addEnd, wp_bind, wp_current, ID_CNTR, wp_afa, wp_store, World.setMem_setMem]
  -- the node is initialised, the list is still as it was
  generalize hm₁ : setSlot (setSlot (setSlot w.mem 10 (w.mem 10 + 1)) s s) (s + 1) (w.mem 10) = m₁
  have hs₁ : m₁ s = s := by subst hm₁; simp (disch := omega) only [setSlot_ne, setSlot_same]
  have hs₂ : m₁ (s + 1) = w.mem 10 := by subst hm₁; exact setSlot_same _ _ _
  have hsame : ∀ a, a ≠ 10 ∧ a ≠ s ∧ a ≠ s + 1 → m₁ a = w.mem a := by
    subst hm₁
    intro a ha
    simp (disch := omega) only [setSlot_ne]
  have h₁₀ : m₁ 10 = w.mem 10 + 1 := by
    subst hm₁
    simp (disch := omega) only [setSlot_ne, setSlot_same]
  have hg₁ : Geo env m₁ w.ext := hI.geo.congr (hsame 2 (by omega)) (hsame 3 (by omega))
  have ht₁ : m₁ i.tail = w.mem i.tail := hsame _ (by omega)
  have ht₂ : m₁ (i.tail + 1) = w.mem (i.tail + 1) := hsame _ (by omega)
  have hl₁ : m₁ (w.mem i.tail) = w.mem i.tail := (hsame _ (by omega)).trans hq.self
  have hl₂ : m₁ (w.mem i.tail + 1) = w.mem (i.tail + 1) := (hsame _ (by omega)).trans hq.stamp
  rw [wp_iterate]
  simp (disch := omega) only [wp_bind, wp_loadDWORD, ht₁, ht₂]
  refine wp_insureInRange_of (w := w.setMem m₁) hg₁ (by omega) (lt_of_lt_of_eq htz (hsame 2 (by omega)).symm) ?_ ?_
  · intro e hcan he hg hlt
    have hcl : w.ext.cur ≤ e.cur := hg.cur_le
    have htr : w.mem i.tail + 3 < e.cur := by
      have := hg.geo.cur_mod
      omega
    simp (disch := omega) only [wp_load, hl₁, hl₂, if_true, wp_bind,
      wp_dwcas, setSlot_ne, ht₁, ht₂, and_self, wp_pure, Sum.elim_inr]
    refine ⟨.of_size ⟨hg.geo.congr ?_ ?_, hI.wf.link hN hB (hI.rep.queue .item).ne_nil, ?_, ?_, hI.small⟩
      (hcan.congr (hsame 2 (by omega)).symm) hcl (he.trans (congrArg (w.ext.see · _) (hsame 2 (by omega)))) ?_ (fun _ _ => rfl) rfl,
      .of_nodes (hI.wf.link hN hB (hI.rep.queue .item).ne_nil) ?_ (fun a ha hn => ?_) rfl rfl⟩
    · simp (disch := omega) only [setSlot_ne]
    · simp (disch := omega) only [setSlot_ne]
    · refine hI.rep.link hI.wf hN hB ?_ ?_ ?_ ?_ ?_ ?_ ?_ fun a ha => ?_
      all_goals simp (disch := omega) only [ID_CNTR, setSlot_ne, setSlot_same, hs₁, hs₂, h₁₀, lt_add_one, hsame]
    · refine lt_of_lt_of_eq hI.room ?_
      simp (disch := omega) only [setSlot_ne, hsame]
    · simp (disch := omega) only [setSlot_ne, hsame]
    · simp (disch := omega) only [setSlot_ne, h₁₀]
    · rw [Heap.Wf.link_allNodes hN] at hn
      have := hn s hsa
      have := hn _ hta
      simp (disch := omega) only [setSlot_ne, hsame]
  · intro st hc hst hle
    exact wp_load_of (fun _ h => absurd h (not_lt.2 hle)) fun h => absurd ((ht h).congr (hsame 2 (by omega))) hc

/-- **`remove_front`** of a list that holds more than its dummy. -/
theorem removeFront_spec (hI : Inv env w H) (i : QId) {d x : ℤ} {l : List ℤ} (hl : H.queue i = d :: x :: l)
    (ht : tot → CanMap w.mem w.ext d) :
    Wp tot (removeFront d (w.mem (i.head + 1)) i.head i.tail)
      (fun r w' => r = d ∧ Saw env w w' d (H.unlink i d x l) ∧ d < w'.ext.cur ∧ Quiet w w' (H.unlink i d x l) 0) w := by
  have hdm : d ∈ H.queue i := by simp [hl]
  have hda := Heap.Wf.queue_mem hdm
  obtain ⟨hd₀, hd₄, hdz, hdr⟩ := hI.node_room hda
  have hq := hI.rep.queue i
  rw [hl] at hq
  have hhead : w.mem i.head = d := hq.head
  have hnext : w.mem d = x := hq.linked.1
  have hne : d ≠ w.mem i.tail := by
    intro he
    obtain ⟨y, hy⟩ := (hq.head_eq_tail (hl ▸ hI.wf.queue_nodup i)).1 (hhead.trans he)
    simp at hy
  have hcur := hI.geo.cur_pos
  have hi := i.words i
  have hi₂ : i.head % 2 = 0 := by cases i <;> decide
  simp (disch := omega) only [removeFront, BASE, wp_bind, wp_current, wp_ite, ge_iff_le, wp_load, ne_eq, hne,
    not_false_eq_true, if_true]
  rw [if_pos (by omega)]
  refine wp_insureInRange_of hI.geo (by omega) hdz ?_ ?_
  · intro e hcan he hg hlt
    have hcl : w.ext.cur ≤ e.cur := hg.cur_le
    have hdr : d + 3 < e.cur := by
      have := hg.geo.cur_mod
      omega
    simp (disch := omega) only [wp_load, wp_dwcas, hhead, and_self, if_true, wp_memset0, wp_pure,
      World.setMem_setMem]
    refine ⟨trivial, .of_size ⟨hg.geo.congr ?_ ?_, hI.wf.unlink hl, ?_, ?_, hI.small⟩ hcan hcl he ?_ (fun _ _ => rfl) rfl, hlt,
      .of_nodes (hI.wf.unlink hl) ?_ (fun a ha hn => ?_) rfl rfl⟩
    · simp (disch := omega) only [zeroed_ne, setSlot_ne]
    · simp (disch := omega) only [zeroed_ne, setSlot_ne]
    · refine hI.rep.unlink hI.wf hl ?_ fun a ha => ?_
      · simp (disch := omega) only [zeroed_ne, setSlot_ne, setSlot_same]
      · simp (disch := omega) only [zeroed_ne, setSlot_ne]
    · refine lt_of_lt_of_eq hI.room ?_
      simp (disch := omega) only [zeroed_ne, setSlot_ne]
    · simp (disch := omega) only [zeroed_ne, setSlot_ne]
    · simp (disch := omega) only [zeroed_ne, setSlot_ne, add_zero]
    · rw [Heap.Wf.unlink_allNodes hl] at hn
      have := hn d hda
      simp (disch := omega) only [zeroed_ne, setSlot_ne]
  · intro st hc hst hle
    exact wp_load_of (fun _ h => absurd h (not_lt.2 hle)) fun h => absurd (ht h) hc

theorem lifoAdd_spec (hI : Inv env w H) {s : ℤ} {N B : Multiset ℤ} (hN : H.nodes = s ::ₘ N)
    (hB : H.blocks = H.value s ::ₘ B) (hs : s < w.ext.cur) :
    Wp tot (lifoAdd s) (fun _ w' => Saw env w w' s (H.push s N B) ∧ Quiet w w' (H.push s N B) 0) w := by
  have hsa : s ∈ H.allNodes := Heap.Wf.held_mem (by simp [hN])
  obtain ⟨hs₀, hs₄, hsz, hsr⟩ := hI.node_room hsa
  have hsr := hsr hs
  have hcur := hI.geo.cur_pos
  rw [lifoAdd, Wp, wp_bind]
  refine wp_insureInRange_of hI.geo (by omega) hsz ?_ fun st _ _ hle => absurd hs (by omega)
  intro e hcan he hg hlt
  have hcl : w.ext.cur ≤ e.cur := hg.cur_le
  dsimp only
  rw [wp_iterate]
  simp (disch := omega) only [wp_bind, STACK_HEAD, STACK_HD_CNT, wp_load, wp_store, wp_loadDWORD, wp_dwcas, wp_ite,
    World.setMem_setMem, setSlot_ne, setSlot_same, Int.reduceAdd, and_self, if_true, wp_pure, Sum.elim_inr]
  refine ⟨.of_size ⟨hg.geo.congr ?_ ?_, hI.wf.push hN hB, ?_, ?_, hI.small⟩ hcan hcl he ?_ (fun _ _ => rfl) rfl,
    .of_nodes (hI.wf.push hN hB) ?_ (fun a ha hn => ?_) rfl rfl⟩
  · simp (disch := omega) only [setSlot_ne]
  · simp (disch := omega) only [setSlot_ne]
  · refine hI.rep.push hI.wf hN hB ?_ ?_ fun a ha => ?_
    all_goals simp (disch := omega) only [setSlot_ne, setSlot_same]
  · refine lt_of_lt_of_eq hI.room ?_
    simp (disch := omega) only [setSlot_ne]
  · simp (disch := omega) only [setSlot_ne]
  · simp (disch := omega) only [setSlot_ne, add_zero]
  · rw [Heap.Wf.push_allNodes hN] at hn
    have := hn s hsa
    simp (disch := omega) only [setSlot_ne]

/-- **`remove_top`** of the top node read before. -/
theorem removeTop_spec (hI : Inv env w H) {s : ℤ} {l : List ℤ} (hl : H.lifo = s :: l)
    (ht : tot → CanMap w.mem w.ext s) :
    Wp tot (removeTop s (w.mem 143)) (fun r w' => r = s ∧ Saw env w w' s (H.pop s l) ∧ s < w'.ext.cur ∧
      Quiet w w' (H.pop s l) 0) w := by
  have hsa : s ∈ H.allNodes := Heap.Wf.lifo_mem (by simp [hl])
  obtain ⟨hs₀, hs₄, hsz, hsr⟩ := hI.node_room hsa
  have hcur := hI.geo.cur_pos
  have hst := hI.rep.lifo
  rw [hl] at hst
  have htop : w.mem 142 = s := hst.1
  simp (disch := omega) only [removeTop, HDR_END, wp_bind, wp_current, wp_ite, ge_iff_le, hs₀, if_true, STACK_HEAD,
    STACK_HD_CNT, wp_load, htop]
  refine wp_insureInRange_of hI.geo (by omega) hsz ?_ ?_
  · intro e hcan he hg hlt
    have hcl : w.ext.cur ≤ e.cur := hg.cur_le
    have hsr : s + 3 < e.cur := by
      have := hg.geo.cur_mod
      omega
    simp (disch := omega) only [wp_load, wp_dwcas, htop, Int.reduceAdd, and_self, if_true,
      wp_memset0, wp_pure, World.setMem_setMem]
    refine ⟨trivial, .of_size ⟨hg.geo.congr ?_ ?_, hI.wf.pop hl, ?_, ?_, hI.small⟩ hcan hcl he ?_ (fun _ _ => rfl) rfl, hlt,
      .of_nodes (hI.wf.pop hl) ?_ (fun a ha hn => ?_) rfl rfl⟩
    · simp (disch := omega) only [zeroed_ne, setSlot_ne]
    · simp (disch := omega) only [zeroed_ne, setSlot_ne]
    · refine hI.rep.pop hI.wf hl ?_ fun a ha => ?_
      · simp (disch := omega) only [zeroed_ne, setSlot_ne, setSlot_same]
      · simp (disch := omega) only [zeroed_ne, setSlot_ne]
    · refine lt_of_lt_of_eq hI.room ?_
      simp (disch := omega) only [zeroed_ne, setSlot_ne]
    · simp (disch := omega) only [zeroed_ne, setSlot_ne]
    · simp (disch := omega) only [zeroed_ne, setSlot_ne, add_zero]
    · rw [Heap.Wf.pop_allNodes hl] at hn
      have := hn s hsa
      simp (disch := omega) only [zeroed_ne, setSlot_ne]
  · intro st hc hst hle
    exact wp_load_of (fun _ h => absurd h (not_lt.2 hle)) fun h => absurd (ht h) hc

end

end LibShr
