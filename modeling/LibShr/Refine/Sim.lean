import LibShr.Spec.Queue
import LibShr.Seq.Aside
import LibShr.Seq.Create

/-!
# The memory of a queue and the abstract machine

`Sim w H Q` says that the object `w` holds the heap `H` and shows the abstract queue `Q`: the settings,
the semaphores, the item behind each node of the FIFO and of the stack, the pending events, and the
content of the free data blocks. Nodes and blocks that a running call holds are the business of that
call; `Held` says that a function left them alone.
-/

namespace LibShr

open Prog

/-- The header settings in memory. -/
structure HeaderAt (m : ℤ → ℤ) (h : Header) : Prop where
  count : m COUNT = h.count
  buffer : m BUFFER = h.buffer
  flags : m FLAGS = h.flags
  level : m LEVEL = h.level
  depth : m MAX_DEPTH = h.depth
  limit : (⟨m LIMIT_SEC, m LIMIT_NSEC⟩ : Timespec) = h.limit
  target : (⟨m TARGET_SEC, m TARGET_NSEC⟩ : Timespec) = h.target
  empty : (⟨m EMPTY_SEC, m EMPTY_NSEC⟩ : Timespec) = h.empty

/-- The settings the abstract queue shows. -/
def shown : List ℤ := [7, 8, 9, 118, 119, 126, 127, 140, 141, 144, 145]

/-- The data block `b` holds the item `it`. -/
structure ItemAt (word : ℤ → ℤ) (b : ℤ) (it : Item) : Prop where
  size : word b = it.slots
  words : ∀ i, 1 ≤ i → i < it.slots → word (b + i) = it.words i
  stores : Stores word b it.payload
  wf : it.payload.Wf

/-- The free data block `b` of class `k` holds `f` behind its two link slots. -/
def JunkAt (m : ℤ → ℤ) (k : ℕ) (b : ℤ) (f : ℤ → ℤ) : Prop := ∀ i, 2 ≤ i → i < 2 ^ (k + 2) → m (b + i) = f i

/-- The events in the nodes of the event list, the dummy apart. -/
def Heap.events (H : Heap) : List ℤ := (H.queue .event).tail.map fun n => H.word (n + EVENT_OFFSET)

/-- The object holds the heap `H` and shows the queue `Q`. -/
structure Sim (w : World) (H : Heap) (Q : Queue) : Prop where
  inv : Inv True w H
  malloc : ∀ n, w.malloc n = true
  clock : w.clock = Q.clock
  sem : w.sem = Q.sem
  ids : w.mem ID_CNTR = Q.ids
  hdr : HeaderAt w.mem Q.hdr
  fifo : List.Forall₂ (ItemAt H.word) H.fifo Q.fifo
  stack : List.Forall₂ (ItemAt H.word) H.stack Q.stack
  events : H.events = Q.events.map Event.code
  free : ∀ k < 48, List.Forall₂ (JunkAt w.mem k) (H.bucket k) (Q.free k)
  zero : ∀ a, H.alloc ≤ a → w.mem a = 0

/-- Nothing is lost: the running call holds what it held before, and what was carved out stays so. -/
structure Retains (H H' : Heap) : Prop where
  nodes : H'.nodes = H.nodes
  blocks : H'.blocks = H.blocks
  carved : H.carved <+: H'.carved

/-- What the running call holds is left alone, and every item and free block stays where it is. -/
structure Held (H H' : Heap) : Prop extends Retains H H' where
  word : ∀ b ∈ H.blocks, ∀ a, b ≤ a → a < b + H.word b → H'.word a = H.word a
  fifo : H'.fifo = H.fifo
  stack : H'.stack = H.stack
  bucket : H'.bucket = H.bucket

section
variable {tot : Prop} {w w' : World} {H H' H'' : Heap} {Q : Queue} {m : ℤ → ℤ} {b n : ℤ} {it : Item} {k : ℕ}

theorem Retains.refl : Retains H H := ⟨rfl, rfl, List.prefix_refl _⟩

theorem Retains.trans (h₁ : Retains H H') (h₂ : Retains H' H'') : Retains H H'' :=
  ⟨h₂.nodes.trans h₁.nodes, h₂.blocks.trans h₁.blocks, h₁.carved.trans h₂.carved⟩

theorem Held.refl : Held H H := ⟨.refl, fun _ _ _ _ _ => rfl, rfl, rfl, rfl⟩

theorem Held.trans (h₁ : Held H H') (h₂ : Held H' H'') (hp : ∀ b ∈ H.blocks, 0 < H.word b) : Held H H'' where
  __ := h₁.toRetains.trans h₂.toRetains
  fifo := h₂.fifo.trans h₁.fifo
  stack := h₂.stack.trans h₁.stack
  bucket := h₂.bucket.trans h₁.bucket
  word := fun b hb a h h' => by
    have he : H'.word b = H.word b := h₁.word b hb b (le_refl _) (by have := hp b hb; omega)
    exact (h₂.word b (h₁.blocks ▸ hb) a h (he ▸ h')).trans (h₁.word b hb a h h')

theorem Item.slots_ge (it : Item) : 4 ≤ it.slots := (Heap.Wf.two_pow_mod it.cls).1

/-! ## Parts that are kept -/

theorem shown_settings {a : ℤ} (ha : a ∈ shown) : a ∈ settings := by
  have : ∀ a ∈ shown, a ∈ settings := by decide
  exact this a ha

theorem HeaderAt.congr {h : Header} {m' : ℤ → ℤ} (hh : HeaderAt m h) (hm : ∀ a ∈ shown, m' a = m a) : HeaderAt m' h := by
  have h₇ := hm 7 (by decide)
  have h₈ := hm 8 (by decide)
  have h₉ := hm 9 (by decide)
  have h₁₁₈ := hm 118 (by decide)
  have h₁₁₉ := hm 119 (by decide)
  have h₁₂₆ := hm 126 (by decide)
  have h₁₂₇ := hm 127 (by decide)
  have h₁₄₀ := hm 140 (by decide)
  have h₁₄₁ := hm 141 (by decide)
  have h₁₄₄ := hm 144 (by decide)
  have h₁₄₅ := hm 145 (by decide)
  exact ⟨h₇.trans hh.count, h₈.trans hh.buffer, h₉.trans hh.flags, h₁₄₄.trans hh.level, h₁₄₅.trans hh.depth,
    by rw [h₁₁₈, h₁₁₉]; exact hh.limit, by rw [h₁₄₀, h₁₄₁]; exact hh.target, by rw [h₁₂₆, h₁₂₇]; exact hh.empty⟩

/-- The slots of a block in use belong to it. -/
theorem ItemAt.kept (h : ItemAt H.word b it) (hk : ∀ a, b ≤ a → a < b + H.word b → H'.word a = H.word a) :
    ItemAt H'.word b it := by
  have h₄ := it.slots_ge
  have hs := h.size
  refine ⟨(hk b (le_refl _) (by omega)).trans hs, fun i h₁ h₂ => ?_, h.stores.congr fun a ha => hk a ha.1 ha.2, h.wf⟩
  exact (hk _ (by omega) (by omega)).trans (h.words i h₁ h₂)

theorem items_kept {l : List ℤ} {its : List Item} (h : List.Forall₂ (ItemAt H.word) l its)
    (hk : ∀ b ∈ l, ∀ a, b ≤ a → a < b + H.word b → H'.word a = H.word a) : List.Forall₂ (ItemAt H'.word) l its := by
  induction h with
  | nil => exact .nil
  | cons hb _ ih => exact .cons (hb.kept (hk _ (by simp))) (ih fun b hb => hk b (by simp [hb]))

/-- The slots the abstract queue is read from. -/
def Heap.Used (H : Heap) (a : ℤ) : Prop :=
  a ∈ LibShr.settings ∨ (∃ b, (b ∈ H.fifo ∨ b ∈ H.stack) ∧ b ≤ a ∧ a < b + H.word b) ∨
    (∃ n, (n ∈ (H.queue .item).tail ∨ n ∈ H.lifo) ∧ a = n + 3) ∨ ∃ n ∈ (H.queue .event).tail, a = n + 2

theorem Heap.Used.own {a : ℤ} (ha : H.Used a) : H.Own a := by
  rcases ha with ha | ⟨b, hb, ha⟩ | ⟨n, hn, ha⟩ | ⟨n, hn, ha⟩
  · exact .inl ha
  · exact .inr (.inl ⟨b, hb.elim Heap.mem_live_fifo Heap.mem_live_stack, ha⟩)
  · exact .inr (.inr ⟨n, hn.elim (fun h => .inl (List.mem_of_mem_tail h)) fun h => .inr (.inr (.inl h)), .inr ha⟩)
  · exact .inr (.inr ⟨n, .inr (.inl (List.mem_of_mem_tail hn)), .inl ha⟩)

/-- What is used does not lie in a held node. -/
theorem Heap.Used.ne_node (hw : H.Wf) {a s : ℤ} (ha : H.Used a) (hs : s ∈ H.nodes) : a < s ∨ s + 4 ≤ a := by
  have hsa := Heap.Wf.held_mem hs
  have hsb := hw.node_bounds hsa
  have hother : ∀ n, n ∈ H.allNodes → n ≠ s → (a = n + 2 ∨ a = n + 3) → a < s ∨ s + 4 ≤ a := fun n hn hne h => by
    have := hw.node_sep hn hsa hne
    omega
  rcases ha with ha | ⟨b, hb, ha⟩ | ⟨n, hn, ha⟩ | ⟨n, hn, ha⟩
  · have := Heap.Wf.settings_lt ha
    omega
  · have := hw.node_data_sep hsa (hw.header b (hb.elim Heap.mem_live_fifo Heap.mem_live_stack))
    omega
  · rcases hn with hn | hn
    · exact hother n (Heap.Wf.queue_mem (List.mem_of_mem_tail hn)) (hw.queue_held_ne (List.mem_of_mem_tail hn) hs) (.inr ha)
    · exact hother n (Heap.Wf.lifo_mem hn) (hw.lifo_held_ne hn hs) (.inr ha)
  · exact hother n (Heap.Wf.queue_mem (List.mem_of_mem_tail hn)) (hw.queue_held_ne (List.mem_of_mem_tail hn) hs) (.inl ha)

/-- What is used does not lie in a held data block. -/
theorem Heap.Used.ne_block (hw : H.Wf) {a c : ℤ} (ha : H.Used a) (hc : c ∈ H.blocks) : a < c ∨ c + H.word c ≤ a := by
  have hcl := Heap.mem_live_block hc
  have hcb := hw.live_bounds hcl
  have hnode : ∀ n, n ∈ H.allNodes → (a = n + 2 ∨ a = n + 3) → a < c ∨ c + H.word c ≤ a := fun n hn h => by
    have := hw.node_data_sep hn (hw.header c hcl)
    omega
  rcases ha with ha | ⟨b, hb, ha⟩ | ⟨n, hn, ha⟩ | ⟨n, hn, ha⟩
  · have := Heap.Wf.settings_lt ha
    omega
  · have hne : b ≠ c := by
      -- a held block is no item's
      rintro rfl
      have hd := (Multiset.nodup_add.1 hw.nodup_data).1
      rw [Heap.live_eq, Multiset.nodup_add] at hd
      refine Multiset.disjoint_left.1 hd.2.2 (Multiset.mem_add.2 ?_) hc
      exact hb
    have := hw.data_sep (hw.header b (hb.elim Heap.mem_live_fifo Heap.mem_live_stack)) (hw.header c hcl) hne
    omega
  · exact hnode n (hn.elim (fun h => Heap.Wf.queue_mem (List.mem_of_mem_tail h)) Heap.Wf.lifo_mem) (.inr ha)
  · exact hnode n (Heap.Wf.queue_mem (List.mem_of_mem_tail hn)) (.inl ha)

/-- `H'` holds what the abstract queue of `H` is read from. -/
def Heap.Still (H H' : Heap) : Prop := ∀ a, H.Used a → H'.word a = H.word a

theorem Heap.Still.fifo (hk : H.Still H') (hq : H'.queue .item = H.queue .item) : H'.fifo = H.fifo := by
  rw [Heap.fifo, Heap.fifo, hq]
  exact List.map_congr_left fun n hn => hk _ (.inr (.inr (.inl ⟨n, .inl hn, rfl⟩)))

theorem Heap.Still.stack (hk : H.Still H') (hl : H'.lifo = H.lifo) : H'.stack = H.stack := by
  rw [Heap.stack, Heap.stack, hl]
  exact List.map_congr_left fun n hn => hk _ (.inr (.inr (.inl ⟨n, .inr hn, rfl⟩)))

theorem Heap.Still.events (hk : H.Still H') (hq : H'.queue .event = H.queue .event) : H'.events = H.events := by
  rw [Heap.events, Heap.events, hq]
  exact List.map_congr_left fun n hn => hk _ (.inr (.inr (.inr ⟨n, hn, rfl⟩)))

theorem junk_kept {l : List ℤ} {fs : List (ℤ → ℤ)} {m' : ℤ → ℤ} (h : List.Forall₂ (JunkAt m k) l fs)
    (hm : ∀ b ∈ l, ∀ i, 2 ≤ i → i < 2 ^ (k + 2) → m' (b + i) = m (b + i)) : List.Forall₂ (JunkAt m' k) l fs := by
  induction h with
  | nil => exact .nil
  | cons hf _ ih =>
    exact .cons (fun i h₁ h₂ => (hm _ (by simp) i h₁ h₂).trans (hf i h₁ h₂)) (ih fun b hb => hm b (by simp [hb]))

/-- Writing to the header leaves the nodes as they are. -/
theorem Heap.Wf.fifo_header (hw : H.Wf) : (H.adopt m 0 164).fifo = H.fifo := List.map_congr_left fun n hn => by
  have := hw.node_bounds (Heap.Wf.queue_mem (List.mem_of_mem_tail hn))
  exact Heap.word_adopt_ne _ (by omega)

theorem Heap.Wf.stack_header (hw : H.Wf) : (H.adopt m 0 164).stack = H.stack := List.map_congr_left fun n hn => by
  have := hw.node_bounds (Heap.Wf.lifo_mem hn)
  exact Heap.word_adopt_ne _ (by omega)

namespace Sim

theorem cur (hS : Sim w H Q) : 512 ≤ w.ext.cur := hS.inv.geo.cur_pos

theorem word_settings (hS : Sim w H Q) {a : ℤ} (ha : a ∈ settings) : w.mem a = H.word a := hS.inv.rep.priv a (.inl ha)

theorem mem_block (hS : Sim w H Q) (hb : b ∈ H.live) {a : ℤ} (h : b ≤ a) (h' : a < b + H.word b) : w.mem a = H.word a :=
  hS.inv.rep.priv a (.inr (.inl ⟨b, hb, h, h'⟩))

/-- A world that differs in what the heap does not show: the mapping as it is, guards, signals, and new
semaphores and clock readings. -/
theorem of_eq (hS : Sim w H Q) {x : Sem → ℤ} {c : ℕ → Timespec} (hm : w'.mem = w.mem) (he : w'.ext = w.ext)
    (hl : w'.malloc = w.malloc) (hs : w'.sem = x) (hc : w'.clock = c) : Sim w' H { Q with sem := x, clock := c } where
  inv := hS.inv.of_eq hm he
  malloc := fun n => by rw [hl]; exact hS.malloc n
  clock := hc
  sem := hs
  ids := by rw [hm]; exact hS.ids
  hdr := by rw [hm]; exact hS.hdr
  fifo := hS.fifo
  stack := hS.stack
  events := hS.events
  free := by rw [hm]; exact hS.free
  zero := by rw [hm]; exact hS.zero

/-- A function that leaves the free stacks alone, by what becomes of the items and the events. -/
theorem move (hS : Sim w H Q) (hs : Step True w w' H') (hq : Quiet w w' H' n) {its st : List Item} {es : List Event}
    (hset : ∀ a ∈ settings, H'.word a = H.word a) (hf : List.Forall₂ (ItemAt H'.word) H'.fifo its)
    (hst : List.Forall₂ (ItemAt H'.word) H'.stack st) (he : H'.events = es.map Event.code)
    (hb : H'.bucket = H.bucket) (ha : H.alloc ≤ H'.alloc) :
    Sim w' H' { Q with fifo := its, stack := st, events := es, ids := Q.ids + n } where
  inv := hs.inv
  malloc := fun n => by rw [hs.malloc]; exact hS.malloc n
  clock := hq.clock.trans hS.clock
  sem := hq.sem.trans hS.sem
  ids := hq.ids.trans (congrArg (· + n) hS.ids)
  hdr := hS.hdr.congr fun a ha => by
    have ha := shown_settings ha
    exact (hs.inv.rep.priv a (.inl ha)).trans ((hset a ha).trans (hS.word_settings ha).symm)
  fifo := hf
  stack := hst
  events := he
  free := fun k hk => by
    rw [hb]
    exact junk_kept (hS.free k hk) fun b hb' i h₁ h₂ =>
      hq.loose _ (.inr ⟨k, hk, b, hb ▸ hb', by omega, by omega⟩)
  zero := fun a h => (hq.loose a (.inl h)).trans (hS.zero a (ha.trans h))

/-- A function that keeps what is in use. -/
theorem kept (hS : Sim w H Q) (hs : Step True w w' H') (hq : Quiet w w' H' n) (hk : H.Still H')
    (hi : H'.queue .item = H.queue .item) (he : H'.queue .event = H.queue .event) (hl : H'.lifo = H.lifo)
    (hb : H'.bucket = H.bucket) (ha : H.alloc ≤ H'.alloc) : Sim w' H' { Q with ids := Q.ids + n } := by
  refine hS.move hs hq (fun a ha => hk a (.inl ha)) ?_ ?_ ((hk.events he).trans hS.events) hb ha
  · rw [hk.fifo hi]
    exact items_kept hS.fifo fun b hb a h h' => hk a (.inr (.inl ⟨b, .inl hb, h, h'⟩))
  · rw [hk.stack hl]
    exact items_kept hS.stack fun b hb a h h' => hk a (.inr (.inl ⟨b, .inr hb, h, h'⟩))

/-- The extent functions. -/
theorem grown (hS : Sim w H Q) {e : Mapping} (hg : Grown True w.mem w.ext m e) : Sim ((w.setMem m).setExt e) H Q := by
  have hq : Quiet w ((w.setMem m).setExt e) H 0 := .of_nodes hS.inv.wf
    ((hg.same 10 (by decide) (by decide)).trans (add_zero _).symm) (fun a ha _ => hg.same a (by omega) (by omega)) rfl rfl
  have h := hS.kept (.grown hS.inv hg) hq (fun _ _ => rfl) rfl rfl rfl rfl (le_refl _)
  rwa [add_zero] at h

/-- Writing to the header. -/
theorem settings (hS : Sim w H Q) {h : Header} (hm : ∀ a, a ∉ LibShr.settings → m a = w.mem a) (hh : HeaderAt m h) :
    Sim (w.setMem m) (H.adopt m 0 164) { Q with hdr := h } where
  inv := hS.inv.settings hm
  malloc := hS.malloc
  clock := hS.clock
  sem := hS.sem
  ids := (hm 10 (by decide)).trans hS.ids
  hdr := hh
  fifo := by
    rw [hS.inv.wf.fifo_header]
    refine items_kept hS.fifo fun b hb a h h' => Heap.word_adopt_ne _ ?_
    have := hS.inv.wf.live_bounds (Heap.mem_live_fifo hb)
    omega
  stack := by
    rw [hS.inv.wf.stack_header]
    refine items_kept hS.stack fun b hb a h h' => Heap.word_adopt_ne _ ?_
    have := hS.inv.wf.live_bounds (Heap.mem_live_stack hb)
    omega
  events := by
    rw [← hS.events]
    refine List.map_congr_left fun n hn => ?_
    have := hS.inv.wf.node_bounds (Heap.Wf.queue_mem (List.mem_of_mem_tail hn))
    exact Heap.word_adopt_ne _ (by simp only [EVENT_OFFSET]; omega)
  free := fun k hk => junk_kept (hS.free k hk) fun b hb i h₁ h₂ => by
    have := hS.inv.wf.bucket_bounds hk hb
    refine hm _ fun ha => ?_
    have := Heap.Wf.settings_lt ha
    omega
  zero := fun a h => by
    have := hS.inv.wf.alloc_ge
    refine (hm a fun ha => ?_).trans (hS.zero a h)
    have := Heap.Wf.settings_lt ha
    have h' : H.alloc ≤ a := h
    omega

end Sim

theorem Held.settings (hw : H.Wf) : Held H (H.adopt m 0 164) where
  nodes := rfl
  blocks := rfl
  carved := List.prefix_refl _
  fifo := hw.fifo_header
  stack := hw.stack_header
  bucket := rfl
  word := fun b hb a h h' => by
    have := hw.live_bounds (Heap.mem_live_block hb)
    exact Heap.word_adopt_ne _ (by omega)

/-- Held blocks have a size. -/
theorem Heap.Wf.held_pos (hw : H.Wf) : ∀ b ∈ H.blocks, 0 < H.word b := fun b hb => by
  have := hw.live_bounds (Heap.mem_live_block hb)
  omega

end

end LibShr
