import LibShr.Lib.Links
import LibShr.Seq.Extents
import Mathlib.Algebra.BigOperators.Group.Finset.Basic
import Mathlib.Data.Multiset.UnionInter

/-!
# The heap of a queue

`Heap` is a logical description of the shared object between two steps of a process that runs alone:
every block ever carved out, the three node lists, the adaptive-LIFO stack, the free stacks of the
data allocator, and what is in nobody's list (`nodes`, `blocks`: held by the running call, or lost
by an earlier one). `word` is the content of the slots that only their owner changes: header
settings, data blocks in use and the two upper words of a node.

`Wf` is what holds of a heap by itself, `Rep` what ties it to a memory.
-/

namespace LibShr

open Links

/-- A block carved out of the object: a 4-slot node or a data block. -/
structure Blk where
  start : ℤ
  size : ℤ
  node : Bool
deriving DecidableEq, Repr

/-- The three lock-free lists. -/
inductive QId
  | free | item | event
deriving DecidableEq, Repr

def QId.head : QId → ℤ
  | .free => FREE_HEAD
  | .item => HEAD
  | .event => EVENT_HEAD

def QId.tail : QId → ℤ
  | .free => FREE_TAIL
  | .item => TAIL
  | .event => EVENT_TAIL

/-- `l` tiles the slots from `a` to `b`. -/
def Tiles : ℤ → List Blk → ℤ → Prop
  | a, [], b => a = b
  | a, x :: l, b => x.start = a ∧ Tiles (a + x.size) l b

/-- Logical state of the object. -/
structure Heap where
  carved : List Blk
  alloc : ℤ
  queue : QId → List ℤ
  lifo : List ℤ
  bucket : ℕ → List ℤ
  nodes : Multiset ℤ
  blocks : Multiset ℤ
  word : ℤ → ℤ

/-- The header slots that hold settings and counts, not links or sizes. -/
def settings : List ℤ :=
  [0, 1, 7, 8, 9, 114, 115, 116, 117, 118, 119, 122, 123, 126, 127, 136, 137, 138, 139, 140, 141, 144, 145]

namespace Heap

variable (H : Heap)

/-- The data slot a node carries. -/
abbrev value (n : ℤ) : ℤ := H.word (n + 3)

def allNodes : Multiset ℤ :=
  (H.queue .free : Multiset ℤ) + H.queue .item + H.queue .event + H.lifo + H.nodes

/-- The data blocks in use: those of queued items (the front node of a list is a dummy) and those
held. -/
def live : Multiset ℤ :=
  ((H.queue .item).tail.map fun n => H.word (n + 3) : List ℤ) + (H.lifo.map fun n => H.word (n + 3) : List ℤ) +
    H.blocks

/-- The data blocks on the free stacks. -/
def freed : Multiset ℤ := ∑ k ∈ Finset.range 48, (H.bucket k : Multiset ℤ)

/-- Starts of the carved nodes (`true`) or data blocks (`false`). -/
def starts (node : Bool) : Multiset ℤ := ((H.carved.filter (·.node = node)).map (·.start) : List ℤ)

/-- The slots whose content is described by `word`. -/
def Priv (a : ℤ) : Prop :=
  a ∈ settings ∨ (∃ b ∈ H.live, b ≤ a ∧ a < b + H.word b) ∨ ∃ n ∈ H.allNodes, a = n + 2 ∨ a = n + 3

/-- The private slots that are in use: those of free nodes are left out. -/
def Own (a : ℤ) : Prop :=
  a ∈ settings ∨ (∃ b ∈ H.live, b ≤ a ∧ a < b + H.word b) ∨
    ∃ n, (n ∈ H.queue .item ∨ n ∈ H.queue .event ∨ n ∈ H.lifo ∨ n ∈ H.nodes) ∧ (a = n + 2 ∨ a = n + 3)

/-- The slots in use hold in `H'` what they hold in `H`. -/
def Kept (H' : Heap) : Prop := ∀ a, H.Own a → H'.word a = H.word a

/-- What holds of a heap by itself. -/
structure Wf : Prop where
  tiles : Tiles HDR_END H.carved H.alloc
  node_size : ∀ x ∈ H.carved, x.node = true → x.size = 4
  data_size : ∀ x ∈ H.carved, x.node = false → ∃ k : ℕ, k < 48 ∧ x.size = 2 ^ (k + 2)
  nodes_eq : H.allNodes = H.starts true
  data_eq : H.live + H.freed = H.starts false
  header : ∀ b ∈ H.live, ⟨b, H.word b, false⟩ ∈ H.carved
  bucket : ∀ k : ℕ, k < 48 → ∀ b ∈ H.bucket k, ⟨b, 2 ^ (k + 2), false⟩ ∈ H.carved

/-- The memory `m` holds the heap. -/
structure Rep (m : ℤ → ℤ) (H : Heap) : Prop where
  priv : ∀ a, H.Priv a → m a = H.word a
  queue : ∀ i, QueueAt m i.head i.tail (H.queue i)
  lifo : StackAt m STACK_HEAD H.lifo
  bucket : ∀ k : ℕ, k < 48 → StackAt m (MEM_BKT_START + 2 * k) (H.bucket k)
  alloc : m DATA_ALLOC = H.alloc
  numbered : Numbered m (m ID_CNTR) fun n => ∃ i, n ∈ H.queue i

end Heap

/-! ## Tiling -/

section
variable {a b : ℤ} {l : List Blk} {x y : Blk}

/-- Sizes a carved block can have. -/
def Sized (l : List Blk) : Prop := ∀ x ∈ l, 4 ≤ x.size ∧ x.size % 4 = 0

theorem Tiles.le : ∀ {a : ℤ} {l : List Blk}, Tiles a l b → Sized l → a ≤ b
  | _, [], h, _ => le_of_eq h
  | a, x :: l, h, hs => by
    have := (hs x (by simp)).1
    have := h.2.le fun y hy => hs y (by simp [hy])
    omega

theorem Tiles.bounds : ∀ {a : ℤ} {l : List Blk}, Tiles a l b → Sized l → ∀ x ∈ l, a ≤ x.start ∧ x.start + x.size ≤ b
  | _, [], _, _ => by simp
  | a, y :: l, h, hs => by
    intro x hx
    have hy := hs y (by simp)
    have hl : Sized l := fun z hz => hs z (by simp [hz])
    rcases List.mem_cons.1 hx with rfl | hx
    · have := h.2.le hl
      have := h.1
      omega
    · have := h.2.bounds hl x hx
      omega

theorem Tiles.mod : ∀ {a : ℤ} {l : List Blk}, Tiles a l b → Sized l → a % 4 = 0 → ∀ x ∈ l, x.start % 4 = 0
  | _, [], _, _, _ => by simp
  | a, y :: l, h, hs, ha => by
    intro x hx
    have hy := hs y (by simp)
    rcases List.mem_cons.1 hx with rfl | hx
    · exact h.1 ▸ ha
    · exact h.2.mod (fun z hz => hs z (by simp [hz])) (by omega) x hx

/-- Two blocks of a tiling are one or do not overlap. -/
theorem Tiles.sep : ∀ {a : ℤ} {l : List Blk}, Tiles a l b → Sized l → ∀ x ∈ l, ∀ y ∈ l,
    x = y ∨ x.start + x.size ≤ y.start ∨ y.start + y.size ≤ x.start
  | _, [], _, _ => by simp
  | a, z :: l, h, hs => by
    intro x hx y hy
    have hl : Sized l := fun z hz => hs z (by simp [hz])
    rcases List.mem_cons.1 hx with rfl | hx' <;> rcases List.mem_cons.1 hy with rfl | hy'
    · exact .inl rfl
    · have := h.2.bounds hl y hy'
      have := h.1
      omega
    · have := h.2.bounds hl x hx'
      have := h.1
      omega
    · exact h.2.sep hl x hx' y hy'

theorem Tiles.nodup : ∀ {a : ℤ} {l : List Blk}, Tiles a l b → Sized l → (l.map (·.start)).Nodup
  | _, [], _, _ => by simp
  | a, x :: l, h, hs => by
    have hl : Sized l := fun z hz => hs z (by simp [hz])
    rw [List.map_cons, List.nodup_cons]
    refine ⟨fun hx => ?_, h.2.nodup hl⟩
    obtain ⟨y, hy, he⟩ := List.mem_map.1 hx
    have := h.2.bounds hl y hy
    have := (hs x (by simp)).1
    have := h.1
    omega

theorem Tiles.snoc : ∀ {a : ℤ} {l : List Blk}, Tiles a l b → x.start = b → Tiles a (l ++ [x]) (b + x.size)
  | _, [], h, hx => ⟨hx.trans h.symm, by rw [← h]; rfl⟩
  | _, _ :: _, h, hx => ⟨h.1, h.2.snoc hx⟩

end

/-! ## Facts about well-formed heaps -/

namespace Heap.Wf

variable {H : Heap} {x y b c n s : ℤ}

theorem two_pow_mod (k : ℕ) : 4 ≤ (2 : ℤ) ^ (k + 2) ∧ (2 : ℤ) ^ (k + 2) % 4 = 0 := by
  have : 0 < (2 : ℤ) ^ k := by positivity
  rw [pow_add]
  omega

theorem sized (hw : H.Wf) : Sized H.carved := by
  intro x hx
  cases hn : x.node with
  | true => have := hw.node_size x hx hn; omega
  | false =>
    obtain ⟨k, _, hk⟩ := hw.data_size x hx hn
    rw [hk]
    exact two_pow_mod k

theorem mem_starts {node : Bool} : x ∈ H.starts node ↔ ∃ s, ⟨x, s, node⟩ ∈ H.carved := by
  simp only [starts, Multiset.mem_coe, List.mem_map, List.mem_filter, decide_eq_true_eq]
  constructor
  · rintro ⟨⟨a, s, d⟩, ⟨h, rfl⟩, rfl⟩; exact ⟨s, h⟩
  · rintro ⟨s, h⟩; exact ⟨_, ⟨h, rfl⟩, rfl⟩

theorem starts_nodup (hw : H.Wf) (node : Bool) : (H.starts node).Nodup := by
  rw [starts, Multiset.coe_nodup]
  exact (hw.tiles.nodup hw.sized).sublist (List.filter_sublist.map _)

theorem nodup_nodes (hw : H.Wf) : H.allNodes.Nodup := hw.nodes_eq ▸ hw.starts_nodup true

theorem nodup_data (hw : H.Wf) : (H.live + H.freed).Nodup := hw.data_eq ▸ hw.starts_nodup false

theorem node_blk (hw : H.Wf) (hx : x ∈ H.allNodes) : ⟨x, 4, true⟩ ∈ H.carved := by
  rw [hw.nodes_eq, mem_starts] at hx
  obtain ⟨s, hs⟩ := hx
  have := hw.node_size _ hs rfl
  exact this ▸ hs

theorem node_bounds (hw : H.Wf) (hx : x ∈ H.allNodes) : 164 ≤ x ∧ x + 4 ≤ H.alloc ∧ x % 4 = 0 := by
  have h := hw.node_blk hx
  have := hw.tiles.bounds hw.sized _ h
  exact ⟨this.1, this.2, hw.tiles.mod hw.sized (by decide) _ h⟩

theorem live_bounds (hw : H.Wf) (hb : b ∈ H.live) :
    164 ≤ b ∧ 4 ≤ H.word b ∧ b + H.word b ≤ H.alloc ∧ b % 4 = 0 := by
  have h := hw.header b hb
  have := hw.tiles.bounds hw.sized _ h
  exact ⟨this.1, (hw.sized _ h).1, this.2, hw.tiles.mod hw.sized (by decide) _ h⟩

theorem bucket_bounds (hw : H.Wf) {k : ℕ} (hk : k < 48) (hb : b ∈ H.bucket k) :
    164 ≤ b ∧ b + 2 ^ (k + 2) ≤ H.alloc ∧ b % 4 = 0 := by
  have h := hw.bucket k hk b hb
  have := hw.tiles.bounds hw.sized _ h
  exact ⟨this.1, this.2, hw.tiles.mod hw.sized (by decide) _ h⟩

theorem alloc_ge (hw : H.Wf) : 164 ≤ H.alloc := hw.tiles.le hw.sized

theorem node_sep (hw : H.Wf) (hx : x ∈ H.allNodes) (hy : y ∈ H.allNodes) (hne : x ≠ y) :
    x + 4 ≤ y ∨ y + 4 ≤ x := by
  rcases hw.tiles.sep hw.sized _ (hw.node_blk hx) _ (hw.node_blk hy) with h | h
  · exact absurd (congrArg Blk.start h) hne
  · exact h

theorem node_data_sep (hw : H.Wf) (hx : x ∈ H.allNodes) (hc : ⟨b, s, false⟩ ∈ H.carved) :
    x + 4 ≤ b ∨ b + s ≤ x := by
  rcases hw.tiles.sep hw.sized _ (hw.node_blk hx) _ hc with h | h
  · exact absurd (congrArg Blk.node h) (by simp)
  · exact h

theorem data_sep (hw : H.Wf) {t : ℤ} (hb : ⟨b, s, false⟩ ∈ H.carved) (hc : ⟨c, t, false⟩ ∈ H.carved)
    (hne : b ≠ c) : b + s ≤ c ∨ c + t ≤ b := by
  rcases hw.tiles.sep hw.sized _ hb _ hc with h | h
  · exact absurd (congrArg Blk.start h) hne
  · exact h

/-! ### Who is where -/

theorem queue_mem {i : QId} (hx : x ∈ H.queue i) : x ∈ H.allNodes := by
  cases i <;> simp [allNodes, hx]

theorem lifo_mem (hx : x ∈ H.lifo) : x ∈ H.allNodes := by
  simp [allNodes, hx]

theorem held_mem (hx : x ∈ H.nodes) : x ∈ H.allNodes := by
  simp [allNodes, hx]

/-- The five places of a node exclude each other. -/
theorem places (hw : H.Wf) :
    (∀ i, (H.queue i).Nodup) ∧ H.lifo.Nodup ∧ H.nodes.Nodup ∧
    (∀ i j, i ≠ j → ∀ x ∈ H.queue i, ∀ y ∈ H.queue j, x ≠ y) ∧
    (∀ i, ∀ x ∈ H.queue i, ∀ y ∈ H.lifo, x ≠ y) ∧
    (∀ i, ∀ x ∈ H.queue i, ∀ y ∈ H.nodes, x ≠ y) ∧
    (∀ x ∈ H.lifo, ∀ y ∈ H.nodes, x ≠ y) := by
  have hn := hw.nodup_nodes
  simp only [allNodes, Multiset.nodup_add, Multiset.coe_nodup, Multiset.disjoint_left, Multiset.mem_add,
    Multiset.mem_coe] at hn
  obtain ⟨⟨⟨⟨hf, hi, hfi⟩, he, hfe⟩, hl, hfl⟩, hh, hfh⟩ := hn
  refine ⟨fun i => by cases i <;> assumption, hl, hh, ?_, ?_, ?_, ?_⟩
  · rintro i j hij x hx y hy rfl
    cases i <;> cases j <;> first | exact hij rfl | skip
    · exact hfi hx hy
    · exact hfe (.inl hx) hy
    · exact hfi hy hx
    · exact hfe (.inr hx) hy
    · exact hfe (.inl hy) hx
    · exact hfe (.inr hy) hx
  · rintro i x hx y hy rfl
    cases i
    · exact hfl (.inl (.inl hx)) hy
    · exact hfl (.inl (.inr hx)) hy
    · exact hfl (.inr hx) hy
  · rintro i x hx y hy rfl
    cases i
    · exact hfh (.inl (.inl (.inl hx))) hy
    · exact hfh (.inl (.inl (.inr hx))) hy
    · exact hfh (.inl (.inr hx)) hy
  · rintro x hx y hy rfl
    exact hfh (.inr hx) hy

theorem queue_nodup (hw : H.Wf) (i : QId) : (H.queue i).Nodup := hw.places.1 i

theorem queue_ne (hw : H.Wf) {i j : QId} (hij : i ≠ j) (hx : x ∈ H.queue i) (hy : y ∈ H.queue j) : x ≠ y :=
  hw.places.2.2.2.1 i j hij x hx y hy

theorem queue_lifo_ne (hw : H.Wf) {i : QId} (hx : x ∈ H.queue i) (hy : y ∈ H.lifo) : x ≠ y :=
  hw.places.2.2.2.2.1 i x hx y hy

theorem queue_held_ne (hw : H.Wf) {i : QId} (hx : x ∈ H.queue i) (hy : y ∈ H.nodes) : x ≠ y :=
  hw.places.2.2.2.2.2.1 i x hx y hy

theorem lifo_held_ne (hw : H.Wf) (hx : x ∈ H.lifo) (hy : y ∈ H.nodes) : x ≠ y :=
  hw.places.2.2.2.2.2.2 x hx y hy

theorem lifo_nodup (hw : H.Wf) : H.lifo.Nodup := hw.places.2.1

theorem bucket_nodup_ne (hw : H.Wf) {j k : ℕ} (hj : j < 48) (hk : k < 48) :
    (H.bucket k).Nodup ∧ (j ≠ k → ∀ x ∈ H.bucket j, ∀ y ∈ H.bucket k, x ≠ y) := by
  have hn := (Multiset.nodup_add.1 hw.nodup_data).2.1
  rw [freed, ← Finset.add_sum_erase _ _ (Finset.mem_range.2 hk), Multiset.nodup_add, Multiset.coe_nodup] at hn
  refine ⟨hn.1, ?_⟩
  rintro hne x hx y hy rfl
  refine Multiset.disjoint_left.1 hn.2.2 hy ?_
  rw [Multiset.mem_sum]
  exact ⟨j, by simp [hne, hj], hx⟩

theorem bucket_live_ne (hw : H.Wf) {k : ℕ} (hk : k < 48) (hx : x ∈ H.bucket k) (hy : y ∈ H.live) : x ≠ y := by
  rintro rfl
  refine Multiset.disjoint_left.1 (Multiset.nodup_add.1 hw.nodup_data).2.2 hy ?_
  rw [freed, Multiset.mem_sum]
  exact ⟨k, Finset.mem_range.2 hk, hx⟩

/-! ### Private slots -/

theorem settings_lt {a : ℤ} (ha : a ∈ settings) : a < 164 := by
  have : ∀ a ∈ settings, a < 164 := by decide
  exact this a ha

theorem priv_lt (hw : H.Wf) {a : ℤ} (ha : H.Priv a) (h : a < 164) : a ∈ settings := by
  rcases ha with ha | ⟨b, hb, ha⟩ | ⟨n, hn, ha⟩
  · exact ha
  · have := hw.live_bounds hb
    omega
  · have := hw.node_bounds hn
    omega

/-- The link words of a node are nobody's private slots. -/
theorem priv_ne_link (hw : H.Wf) {a : ℤ} (ha : H.Priv a) (hn : n ∈ H.allNodes) : a ≠ n ∧ a ≠ n + 1 := by
  have hb := hw.node_bounds hn
  rcases ha with ha | ⟨b, hb', ha⟩ | ⟨n', hn', ha⟩
  · have := settings_lt ha
    omega
  · have := hw.node_data_sep hn (hw.header b hb')
    omega
  · by_cases he : n = n'
    · omega
    · have := hw.node_sep hn hn' he
      omega

/-- A free data block is nobody's private memory. -/
theorem priv_ne_bucket (hw : H.Wf) {a : ℤ} (ha : H.Priv a) {k : ℕ} (hk : k < 48) (hb : b ∈ H.bucket k) :
    a < b ∨ b + 2 ^ (k + 2) ≤ a := by
  have hbb := hw.bucket_bounds hk hb
  have hblk := hw.bucket k hk b hb
  rcases ha with ha | ⟨c, hc, ha⟩ | ⟨n, hn, ha⟩
  · have := settings_lt ha
    omega
  · have := hw.data_sep hblk (hw.header c hc) (hw.bucket_live_ne hk hb hc)
    omega
  · have := hw.node_data_sep hn hblk
    omega

/-- Nothing behind the last carved slot is private. -/
theorem priv_lt_alloc (hw : H.Wf) {a : ℤ} (ha : H.Priv a) : a < H.alloc := by
  rcases ha with ha | ⟨b, hb, ha⟩ | ⟨n, hn, ha⟩
  · have := settings_lt ha
    have := hw.alloc_ge
    omega
  · have := hw.live_bounds hb
    omega
  · have := hw.node_bounds hn
    omega

theorem own_priv {a : ℤ} (ha : H.Own a) : H.Priv a := by
  rcases ha with ha | ha | ⟨n, hn, ha⟩
  · exact .inl ha
  · exact .inr (.inl ha)
  · refine .inr (.inr ⟨n, ?_, ha⟩)
    rcases hn with hn | hn | hn | hn
    · exact queue_mem hn
    · exact queue_mem hn
    · exact lifo_mem hn
    · exact held_mem hn

/-- A free node is not in use. -/
theorem own_ne_free (hw : H.Wf) {a : ℤ} (ha : H.Own a) (hn : n ∈ H.queue .free) : a < n ∨ n + 4 ≤ a := by
  have hna := queue_mem hn
  have hnb := hw.node_bounds hna
  rcases ha with ha | ⟨b, hb, ha⟩ | ⟨n', hn', ha⟩
  · have := settings_lt ha
    omega
  · have := hw.node_data_sep hna (hw.header b hb)
    omega
  · have hne : n ≠ n' ∧ n' ∈ H.allNodes := by
      rcases hn' with hn' | hn' | hn' | hn'
      · exact ⟨hw.queue_ne (by decide) hn hn', queue_mem hn'⟩
      · exact ⟨hw.queue_ne (by decide) hn hn', queue_mem hn'⟩
      · exact ⟨hw.queue_lifo_ne hn hn', lifo_mem hn'⟩
      · exact ⟨hw.queue_held_ne hn hn', held_mem hn'⟩
    have := hw.node_sep hna hne.2 hne.1
    omega

end Heap.Wf

end LibShr
