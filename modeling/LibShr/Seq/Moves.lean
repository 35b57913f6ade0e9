import LibShr.Seq.Heap
import Mathlib.Tactic.Abel
import Mathlib.Algebra.BigOperators.Group.Finset.Piecewise

/-!
# What the library does to the heap

Every function of the library changes the heap by a few moves: appending a held node to a list and
unlinking the front of one, pushing and popping the adaptive-LIFO stack, freeing and reusing a data
block, carving a new block, and writing to a slot its owner may change. Each move keeps `Wf`; and it
keeps `Rep` for every memory that agrees with the old one outside the slots of the move.
-/

namespace LibShr

open Links

/-- The data block that goes with a node: only item nodes carry one. -/
def QId.carry (i : QId) (b : ℤ) : Multiset ℤ := if i = .item then {b} else 0

namespace Heap

variable (H : Heap)

/-- A held node `s` is appended to list `i`; `N` and `B` stay held. -/
def link (i : QId) (s : ℤ) (N B : Multiset ℤ) : Heap :=
  { H with queue := Function.update H.queue i (H.queue i ++ [s]), nodes := N, blocks := B }

/-- The front node `d` of list `i` is unlinked, `x :: l` stays. -/
def unlink (i : QId) (d x : ℤ) (l : List ℤ) : Heap :=
  { H with
    queue := Function.update H.queue i (x :: l)
    nodes := d ::ₘ H.nodes
    blocks := i.carry (H.value x) + H.blocks }

/-- A held node `s` is pushed on the adaptive-LIFO stack. -/
def push (s : ℤ) (N B : Multiset ℤ) : Heap := { H with lifo := s :: H.lifo, nodes := N, blocks := B }

/-- The top node `s` of the adaptive-LIFO stack is popped, `l` stays. -/
def pop (s : ℤ) (l : List ℤ) : Heap :=
  { H with lifo := l, nodes := s ::ₘ H.nodes, blocks := H.value s ::ₘ H.blocks }

/-- A held data block `b` is put on free stack `k`. -/
def release (k : ℕ) (b : ℤ) (B : Multiset ℤ) : Heap :=
  { H with bucket := Function.update H.bucket k (b :: H.bucket k), blocks := B }

/-- The top block `b` of free stack `k` is taken, `l` stays. -/
def reuse (k : ℕ) (b : ℤ) (l : List ℤ) : Heap :=
  { H with bucket := Function.update H.bucket k l, blocks := b ::ₘ H.blocks }

/-- A node is carved out at the end. -/
def carveNode : Heap :=
  { H with carved := H.carved ++ [⟨H.alloc, 4, true⟩], alloc := H.alloc + 4, nodes := H.alloc ::ₘ H.nodes }

/-- A data block of `s` slots is carved out at the end. -/
def carveData (s : ℤ) : Heap :=
  { H with carved := H.carved ++ [⟨H.alloc, s, false⟩], alloc := H.alloc + s, blocks := H.alloc ::ₘ H.blocks }

/-- The content of slots changes. -/
def write (w : ℤ → ℤ) : Heap := { H with word := w }

/-- The slots from `a` up to `b` now hold what the memory `m` holds there. -/
def adopt (m : ℤ → ℤ) (a b : ℤ) : Heap := H.write fun c => if a ≤ c ∧ c < b then m c else H.word c

@[simp] theorem word_adopt_of {m : ℤ → ℤ} {a b c : ℤ} (h : a ≤ c ∧ c < b) : (H.adopt m a b).word c = m c :=
  if_pos h

@[simp] theorem word_adopt_ne {m : ℤ → ℤ} {a b c : ℤ} (h : ¬(a ≤ c ∧ c < b)) :
    (H.adopt m a b).word c = H.word c :=
  if_neg h

end Heap

/-! ## Well-formedness -/

namespace Heap.Wf

variable {H : Heap} {i : QId} {s d x b : ℤ} {l : List ℤ} {N B : Multiset ℤ} {k : ℕ} {w : ℤ → ℤ}

theorem link_allNodes (hN : H.nodes = s ::ₘ N) : (H.link i s N B).allNodes = H.allNodes := by
  cases i <;> simp [Heap.link, allNodes, hN, ← Multiset.coe_add, ← Multiset.singleton_add] <;> abel

theorem link_live (hB : H.blocks = i.carry (H.value s) + B) (hl : H.queue .item ≠ []) :
    (H.link i s N B).live = H.live := by
  cases i <;>
    simp [Heap.link, live, hB, QId.carry, List.tail_append_of_ne_nil hl, ← Multiset.coe_add,
      ← Multiset.singleton_add, -List.map_tail]
  abel

theorem unlink_allNodes (hl : H.queue i = d :: x :: l) : (H.unlink i d x l).allNodes = H.allNodes := by
  cases i <;> simp [Heap.unlink, allNodes, hl, ← Multiset.cons_coe, ← Multiset.singleton_add] <;> abel

theorem unlink_live (hl : H.queue i = d :: x :: l) : (H.unlink i d x l).live = H.live := by
  cases i <;>
    simp [Heap.unlink, live, QId.carry, hl, ← Multiset.cons_coe, ← Multiset.singleton_add, -Multiset.coe_add]
  abel

theorem push_allNodes (hN : H.nodes = s ::ₘ N) : (H.push s N B).allNodes = H.allNodes := by
  simp [Heap.push, allNodes, hN, ← Multiset.cons_coe, ← Multiset.singleton_add, -Multiset.coe_add]
  abel

theorem push_live (hB : H.blocks = H.value s ::ₘ B) : (H.push s N B).live = H.live := by
  simp [Heap.push, live, hB, ← Multiset.cons_coe, ← Multiset.singleton_add, -Multiset.coe_add]
  abel

theorem pop_allNodes (hl : H.lifo = s :: l) : (H.pop s l).allNodes = H.allNodes := by
  simp [Heap.pop, allNodes, hl, ← Multiset.cons_coe, ← Multiset.singleton_add, -Multiset.coe_add]
  abel

theorem pop_live (hl : H.lifo = s :: l) : (H.pop s l).live = H.live := by
  simp [Heap.pop, live, hl, ← Multiset.cons_coe, ← Multiset.singleton_add, -Multiset.coe_add]
  abel

theorem sum_bucket_update {f : ℕ → List ℤ} (hk : k < 48) {t : List ℤ} {c : Multiset ℤ}
    (hl : (t : Multiset ℤ) = c + f k) :
    ∑ j ∈ Finset.range 48, (Function.update f k t j : Multiset ℤ) =
      c + ∑ j ∈ Finset.range 48, (f j : Multiset ℤ) := by
  have hm : k ∈ Finset.range 48 := Finset.mem_range.2 hk
  rw [← Finset.add_sum_erase _ _ hm, ← Finset.add_sum_erase _ (fun j => (f j : Multiset ℤ)) hm]
  have he : ∑ j ∈ (Finset.range 48).erase k, (Function.update f k t j : Multiset ℤ) =
      ∑ j ∈ (Finset.range 48).erase k, (f j : Multiset ℤ) :=
    Finset.sum_congr rfl fun j hj => by rw [Function.update_of_ne (Finset.ne_of_mem_erase hj)]
  rw [he, Function.update_self, hl, add_assoc]

theorem release_freed (hk : k < 48) : (H.release k b B).freed = {b} + H.freed :=
  sum_bucket_update hk (by rw [← Multiset.cons_coe, Multiset.singleton_add])

theorem release_live (hB : H.blocks = b ::ₘ B) : {b} + (H.release k b B).live = H.live := by
  simp only [Heap.release, live, hB, ← Multiset.singleton_add]
  abel

theorem reuse_freed (hk : k < 48) (hl : H.bucket k = b :: l) : {b} + (H.reuse k b l).freed = H.freed := by
  have h := sum_bucket_update (f := Function.update H.bucket k l) (t := b :: l) (c := {b}) hk
    (by rw [Function.update_self, ← Multiset.cons_coe, Multiset.singleton_add])
  rw [Function.update_idem, ← hl, Function.update_eq_self] at h
  exact h.symm

theorem reuse_live : (H.reuse k b l).live = {b} + H.live := by
  simp only [Heap.reuse, live, ← Multiset.singleton_add]
  abel

/-- What a write to slots must not change: the data slots of queued nodes and the headers of data
blocks in use. -/
structure Keeps (H : Heap) (w : ℤ → ℤ) : Prop where
  value : ∀ n, n ∈ (H.queue .item).tail ∨ n ∈ H.lifo → w (n + 3) = H.word (n + 3)
  header : ∀ b ∈ H.live, w b = H.word b

theorem write_live (hk : Keeps H w) : (H.write w).live = H.live := by
  have h₁ : (H.queue .item).tail.map (fun n => w (n + 3)) = (H.queue .item).tail.map fun n => H.word (n + 3) :=
    List.map_congr_left fun n hn => hk.value n (.inl hn)
  have h₂ : H.lifo.map (fun n => w (n + 3)) = H.lifo.map fun n => H.word (n + 3) :=
    List.map_congr_left fun n hn => hk.value n (.inr hn)
  simp only [Heap.write, live, h₁, h₂]

theorem adopt_live {m : ℤ → ℤ} {a b : ℤ} (hk : Keeps H (H.adopt m a b).word) :
    (H.adopt m a b).live = H.live :=
  write_live hk

/-- A move that leaves the carved blocks and the content alone. -/
theorem of_eq {H' : Heap} (hw : H.Wf) (hc : H'.carved = H.carved) (ha : H'.alloc = H.alloc)
    (hwd : H'.word = H.word) (hn : H'.allNodes = H.allNodes) (hl : H'.live = H.live)
    (hb : H'.bucket = H.bucket) : H'.Wf where
  tiles := by rw [hc, ha]; exact hw.tiles
  node_size := hc ▸ hw.node_size
  data_size := hc ▸ hw.data_size
  nodes_eq := by rw [hn, hw.nodes_eq, starts, starts, hc]
  data_eq := by rw [hl, freed, hb, starts, hc]; exact hw.data_eq
  header := by rw [hl, hwd, hc]; exact hw.header
  bucket := by rw [hb, hc]; exact hw.bucket

theorem link (hw : H.Wf) (hN : H.nodes = s ::ₘ N) (hB : H.blocks = i.carry (H.value s) + B)
    (hl : H.queue .item ≠ []) : (H.link i s N B).Wf :=
  hw.of_eq rfl rfl rfl (link_allNodes hN) (link_live hB hl) rfl

theorem unlink (hw : H.Wf) (hl : H.queue i = d :: x :: l) : (H.unlink i d x l).Wf :=
  hw.of_eq rfl rfl rfl (unlink_allNodes hl) (unlink_live hl) rfl

theorem push (hw : H.Wf) (hN : H.nodes = s ::ₘ N) (hB : H.blocks = H.value s ::ₘ B) : (H.push s N B).Wf :=
  hw.of_eq rfl rfl rfl (push_allNodes hN) (push_live hB) rfl

theorem pop (hw : H.Wf) (hl : H.lifo = s :: l) : (H.pop s l).Wf :=
  hw.of_eq rfl rfl rfl (pop_allNodes hl) (pop_live hl) rfl

theorem release (hw : H.Wf) (hk : k < 48) (hB : H.blocks = b ::ₘ B) (hs : H.word b = 2 ^ (k + 2)) :
    (H.release k b B).Wf where
  tiles := hw.tiles
  node_size := hw.node_size
  data_size := hw.data_size
  nodes_eq := hw.nodes_eq
  data_eq := by
    refine Eq.trans ?_ hw.data_eq
    rw [release_freed hk, ← release_live hB]
    abel
  header := fun c hc => hw.header c (by rw [← release_live (k := k) hB]; exact Multiset.mem_add.2 (.inr hc))
  bucket := by
    intro j hj c hc
    by_cases hjk : j = k
    · subst hjk
      simp only [Heap.release, Function.update_self, List.mem_cons] at hc
      rcases hc with rfl | hc
      · have hm : c ∈ H.live := by rw [← release_live (k := j) hB]; simp
        exact hs ▸ hw.header c hm
      · exact hw.bucket j hj c hc
    · simp only [Heap.release, Function.update_of_ne hjk] at hc
      exact hw.bucket j hj c hc

theorem reuse (hw : H.Wf) (hk : k < 48) (hl : H.bucket k = b :: l) (hs : H.word b = 2 ^ (k + 2)) :
    (H.reuse k b l).Wf where
  tiles := hw.tiles
  node_size := hw.node_size
  data_size := hw.data_size
  nodes_eq := hw.nodes_eq
  data_eq := by
    refine Eq.trans ?_ hw.data_eq
    rw [reuse_live, ← reuse_freed hk hl]
    abel
  header := by
    intro c hc
    rw [reuse_live, Multiset.mem_add, Multiset.mem_singleton] at hc
    rcases hc with rfl | hc
    · have hm := hw.bucket k hk c (by rw [hl]; simp)
      exact hs ▸ hm
    · exact hw.header c hc
  bucket := by
    intro j hj c hc
    by_cases hjk : j = k
    · subst hjk
      simp only [Heap.reuse, Function.update_self] at hc
      exact hw.bucket j hj c (by rw [hl]; simp [hc])
    · simp only [Heap.reuse, Function.update_of_ne hjk] at hc
      exact hw.bucket j hj c hc

theorem starts_carve {H' : Heap} {x : Blk} (hc : H'.carved = H.carved ++ [x]) (node : Bool) :
    H'.starts node = (if x.node = node then {x.start} else 0) + H.starts node := by
  rw [starts, starts, hc, List.filter_append, List.map_append, ← Multiset.coe_add, add_comm]
  split <;> simp [*]

theorem carveNode (hw : H.Wf) : H.carveNode.Wf where
  tiles := hw.tiles.snoc rfl
  node_size := by
    intro x hx hn
    rcases List.mem_append.1 hx with hx | hx
    · exact hw.node_size x hx hn
    · rw [List.mem_singleton.1 hx]
  data_size := by
    intro x hx hn
    rcases List.mem_append.1 hx with hx | hx
    · exact hw.data_size x hx hn
    · rw [List.mem_singleton.1 hx] at hn; cases hn
  nodes_eq := by
    rw [starts_carve (H := H) rfl true, ← hw.nodes_eq]
    simp only [Heap.carveNode, allNodes, ← Multiset.singleton_add, if_true]
    abel
  data_eq := by
    rw [starts_carve (H := H) rfl false, if_neg (by simp), zero_add]
    exact hw.data_eq
  header := fun b hb => List.mem_append_left _ (hw.header b hb)
  bucket := fun k hk b hb => List.mem_append_left _ (hw.bucket k hk b hb)

theorem carveData (hw : H.Wf) (hk : k < 48) (hs : H.word H.alloc = 2 ^ (k + 2)) :
    (H.carveData (2 ^ (k + 2))).Wf where
  tiles := hw.tiles.snoc rfl
  node_size := by
    intro x hx hn
    rcases List.mem_append.1 hx with hx | hx
    · exact hw.node_size x hx hn
    · rw [List.mem_singleton.1 hx] at hn; cases hn
  data_size := by
    intro x hx hn
    rcases List.mem_append.1 hx with hx | hx
    · exact hw.data_size x hx hn
    · rw [List.mem_singleton.1 hx]; exact ⟨k, hk, rfl⟩
  nodes_eq := by
    rw [starts_carve (H := H) rfl true, if_neg (by simp), zero_add]
    exact hw.nodes_eq
  data_eq := by
    rw [starts_carve (H := H) rfl false, ← hw.data_eq]
    simp only [Heap.carveData, live, freed, ← Multiset.singleton_add, if_true]
    abel
  header := by
    intro b hb
    simp only [Heap.carveData, live, Multiset.mem_add, Multiset.mem_cons] at hb
    have hb' : b = H.alloc ∨ b ∈ H.live := by
      simp only [live, Multiset.mem_add]
      tauto
    rcases hb' with rfl | hb'
    · exact List.mem_append_right _ (by simp [Heap.carveData, hs])
    · exact List.mem_append_left _ (hw.header b hb')
  bucket := fun k hk b hb => List.mem_append_left _ (hw.bucket k hk b hb)

theorem write (hw : H.Wf) (hk : Keeps H w) : (H.write w).Wf where
  tiles := hw.tiles
  node_size := hw.node_size
  data_size := hw.data_size
  nodes_eq := hw.nodes_eq
  data_eq := by rw [write_live hk]; exact hw.data_eq
  header := by
    rw [write_live hk]
    intro b hb
    rw [show (H.write w).word b = H.word b from hk.header b hb]
    exact hw.header b hb
  bucket := hw.bucket

end Heap.Wf

/-! ## Representation -/

theorem QId.ne_words {i j : QId} (h : i ≠ j) :
    i.head ≠ j.head ∧ i.tail ≠ j.tail ∧ i.tail + 1 ≠ j.tail ∧ i.tail ≠ j.tail + 1 ∧
    i.head + 1 ≠ j.head ∧ i.head ≠ j.head + 1 := by
  cases i <;> cases j <;> first | exact absurd rfl h | decide

/-- Head and tail words lie in the header, clear of each other and of the other structural words. -/
theorem QId.words (i j : QId) :
    4 ≤ i.head ∧ i.head < 126 ∧ 12 ≤ i.tail ∧ i.tail < 126 ∧ i.head ≠ 6 ∧ i.head ≠ 10 ∧
    (i.head < 6 ∨ 110 ≤ i.head) ∧ (i.tail < 13 ∨ 110 ≤ i.tail) ∧ i.head ≠ 5 ∧
    i.head ≠ j.tail ∧ i.head + 1 ≠ j.tail ∧ i.head ≠ j.tail + 1 ∧ i.tail ≠ 13 := by
  cases i <;> cases j <;> decide

namespace Heap.Rep

open Heap

variable {H : Heap} {m m' : ℤ → ℤ} {i : QId} {s d x b : ℤ} {l : List ℤ} {N B : Multiset ℤ} {k : ℕ}

/-- A setting is none of the structural words. -/
theorem settings_ne {a : ℤ} (ha : a ∈ settings) (i : QId) :
    a ≠ i.head ∧ a ≠ i.head + 1 ∧ a ≠ i.tail ∧ a ≠ i.tail + 1 ∧ a ≠ 2 ∧ a ≠ 3 ∧ a ≠ 6 ∧ a ≠ 10 ∧
    (a < 14 ∨ 110 ≤ a) ∧ a ≠ 142 ∧ a ≠ 143 := by
  have : ∀ a ∈ settings, ∀ i ∈ [QId.free, .item, .event],
      a ≠ i.head ∧ a ≠ i.head + 1 ∧ a ≠ i.tail ∧ a ≠ i.tail + 1 ∧ a ≠ 2 ∧ a ≠ 3 ∧ a ≠ 6 ∧ a ≠ 10 ∧
      (a < 14 ∨ 110 ≤ a) ∧ a ≠ 142 ∧ a ≠ 143 := by decide
  exact this a ha i (by cases i <;> simp)

/-- A private slot is none of the structural words. -/
theorem priv_ne (hw : H.Wf) {a : ℤ} (ha : H.Priv a) (i : QId) :
    a ≠ i.head ∧ a ≠ i.head + 1 ∧ a ≠ i.tail ∧ a ≠ i.tail + 1 ∧ a ≠ 2 ∧ a ≠ 3 ∧ a ≠ 6 ∧ a ≠ 10 ∧
    (a < 14 ∨ 110 ≤ a) ∧ a ≠ 142 ∧ a ≠ 143 := by
  by_cases h : a < 164
  · exact settings_ne (hw.priv_lt ha h) i
  · have := i.words i
    omega

theorem link (hr : Rep m H) (hw : H.Wf) (hN : H.nodes = s ::ₘ N) (hB : H.blocks = i.carry (H.value s) + B)
    (hs : m' s = s) (hst : m' (i.tail + 1) = m' (s + 1)) (ht : m' i.tail = s) (hlast : m' (m i.tail) = s)
    (hst' : m' (s + 1) = m ID_CNTR) (hlast' : m' (m i.tail + 1) = m ID_CNTR) (hids : m ID_CNTR < m' ID_CNTR)
    (hsame : ∀ a, a ≠ s ∧ a ≠ s + 1 ∧ a ≠ m i.tail ∧ a ≠ m i.tail + 1 ∧ a ≠ i.tail ∧ a ≠ i.tail + 1 ∧ a ≠ 10 →
      m' a = m a) : Rep m' (H.link i s N B) := by
  have hsm : s ∈ H.nodes := by simp [hN]
  have htm := (hr.queue i).tail_mem
  have hsa := Wf.held_mem hsm
  have hta := Wf.queue_mem htm
  have hsb := hw.node_bounds hsa
  have htb := hw.node_bounds hta
  have hi := i.words i
  -- the nodes of the lists, the last one of this list apart, keep their words
  have hnode : ∀ j, ∀ y ∈ H.queue j, y ≠ m i.tail → m' y = m y ∧ m' (y + 1) = m (y + 1) := by
    intro j y hy hne
    have hya := Wf.queue_mem hy
    have := hw.node_bounds hya
    have := hw.node_sep hya hsa (hw.queue_held_ne hy hsm)
    have := hw.node_sep hya hta hne
    exact ⟨hsame _ (by omega), hsame _ (by omega)⟩
  refine ⟨fun a ha => ?_, fun j => ?_, ?_, fun k hk => ?_, ?_, ?_⟩
  · have ha : H.Priv a := by
      have h₁ := Wf.link_allNodes (i := i) (B := B) hN
      have h₂ := Wf.link_live (N := N) (s := s) hB (hr.queue .item).ne_nil
      simp only [Priv, h₁, h₂] at ha
      exact ha
    refine (hsame a ?_).trans (hr.priv a ha)
    have := hw.priv_ne_link ha hsa
    have := hw.priv_ne_link ha hta
    have := priv_ne hw ha i
    omega
  · by_cases hj : j = i
    · subst hj
      simp only [Heap.link, Function.update_self]
      exact (hr.queue j).push (hw.queue_nodup j) (hsame _ (by omega)) ht hst hs hlast fun y hy hne => (hnode j y hy hne).1
    · simp only [Heap.link, Function.update_of_ne hj]
      have hij := QId.ne_words hj
      have hjw := j.words i
      exact (hr.queue j).congr (hsame _ (by omega)) (hsame _ (by omega)) (hsame _ (by omega)) fun y hy =>
        hnode j y hy (hw.queue_ne hj hy htm)
  · refine hr.lifo.congr (hsame _ (by simp only [STACK_HEAD]; omega)) fun y hy => hsame y ?_
    have hya := Wf.lifo_mem hy
    have := hw.node_bounds hya
    have := hw.node_sep hya hsa (hw.lifo_held_ne hy hsm)
    have := hw.node_sep hya hta (hw.queue_lifo_ne htm hy).symm
    omega
  · refine (hr.bucket k hk).congr (hsame _ (by simp only [MEM_BKT_START]; omega)) fun c hc => hsame c ?_
    have := hw.bucket_bounds hk hc
    have hblk := hw.bucket k hk c hc
    have := hw.node_data_sep hsa hblk
    have := hw.node_data_sep hta hblk
    have := (Wf.two_pow_mod k).1
    omega
  · exact (hsame _ (by simp only [DATA_ALLOC]; omega)).trans hr.alloc
  · refine hr.numbered.push hids ⟨i, htm⟩ (fun y hy => ?_) (fun y hy => ?_) hs hst' hlast hlast' fun y hy hne => ?_
    · obtain ⟨j, hy⟩ := hy
      exact hw.queue_held_ne ((hr.queue j).next_mem hy) hsm
    · obtain ⟨j, hy⟩ := hy
      by_cases hj : j = i
      · subst hj
        simp only [Heap.link, Function.update_self, List.mem_append, List.mem_singleton] at hy
        exact hy.symm.imp_right fun hy => ⟨j, hy⟩
      · simp only [Heap.link, Function.update_of_ne hj] at hy
        exact .inr ⟨j, hy⟩
    · obtain ⟨j, hy⟩ := hy
      exact hnode j y hy hne

theorem unlink (hr : Rep m H) (hw : H.Wf) (hl : H.queue i = d :: x :: l) (hh : m' i.head = m d)
    (hsame : ∀ a, a ≠ i.head ∧ a ≠ i.head + 1 ∧ a ≠ d ∧ a ≠ d + 1 → m' a = m a) :
    Rep m' (H.unlink i d x l) := by
  have hdm : d ∈ H.queue i := by simp [hl]
  have hda := Wf.queue_mem hdm
  have hdb := hw.node_bounds hda
  have hi := i.words i
  have hnd : d ∉ x :: l := (List.nodup_cons.1 (hl ▸ hw.queue_nodup i)).1
  -- the other nodes of the lists keep their words
  have hnode : ∀ j, ∀ y ∈ H.queue j, y ≠ d → m' y = m y ∧ m' (y + 1) = m (y + 1) := by
    intro j y hy hne
    have hya := Wf.queue_mem hy
    have := hw.node_bounds hya
    have := hw.node_sep hya hda hne
    exact ⟨hsame _ (by omega), hsame _ (by omega)⟩
  refine ⟨fun a ha => ?_, fun j => ?_, ?_, fun k hk => ?_, ?_, ?_⟩
  · have ha : H.Priv a := by
      simp only [Priv, Wf.unlink_allNodes hl, Wf.unlink_live hl] at ha
      exact ha
    refine (hsame a ?_).trans (hr.priv a ha)
    have := hw.priv_ne_link ha hda
    have := priv_ne hw ha i
    omega
  · by_cases hj : j = i
    · subst hj
      simp only [Heap.unlink, Function.update_self]
      refine (hl ▸ hr.queue j).pop hh (hsame _ (by omega)) (hsame _ (by omega)) fun y hy => hnode j y ?_ fun he => hnd (he ▸ hy)
      rw [hl]
      exact List.mem_cons_of_mem _ hy
    · simp only [Heap.unlink, Function.update_of_ne hj]
      have hij := QId.ne_words hj
      have hjw := j.words i
      have hjw' := i.words j
      exact (hr.queue j).congr (hsame _ (by omega)) (hsame _ (by omega)) (hsame _ (by omega)) fun y hy =>
        hnode j y hy (hw.queue_ne hj hy hdm)
  · refine hr.lifo.congr (hsame _ (by simp only [STACK_HEAD]; omega)) fun y hy => hsame y ?_
    have hya := Wf.lifo_mem hy
    have := hw.node_bounds hya
    have := hw.node_sep hya hda (hw.queue_lifo_ne hdm hy).symm
    omega
  · refine (hr.bucket k hk).congr (hsame _ (by simp only [MEM_BKT_START]; omega)) fun c hc => hsame c ?_
    have := hw.bucket_bounds hk hc
    have := hw.node_data_sep hda (hw.bucket k hk c hc)
    have := (Wf.two_pow_mod k).1
    omega
  · exact (hsame _ (by simp only [DATA_ALLOC]; omega)).trans hr.alloc
  · refine hr.numbered.congr (hsame _ (by simp only [ID_CNTR]; omega)).ge fun y hy => ?_
    obtain ⟨j, hy⟩ := hy
    by_cases hj : j = i
    · subst hj
      simp only [Heap.unlink, Function.update_self] at hy
      have hyq : y ∈ H.queue j := by rw [hl]; exact List.mem_cons_of_mem _ hy
      exact ⟨⟨j, hyq⟩, hnode j y hyq fun he => hnd (he ▸ hy)⟩
    · simp only [Heap.unlink, Function.update_of_ne hj] at hy
      exact ⟨⟨j, hy⟩, hnode j y hy (hw.queue_ne hj hy hdm)⟩

theorem push (hr : Rep m H) (hw : H.Wf) (hN : H.nodes = s ::ₘ N) (hB : H.blocks = H.value s ::ₘ B)
    (ht : m' 142 = s) (hs : m' s = m 142)
    (hsame : ∀ a, a ≠ s ∧ a ≠ s + 1 ∧ a ≠ 142 ∧ a ≠ 143 → m' a = m a) : Rep m' (H.push s N B) := by
  have hsm : s ∈ H.nodes := by simp [hN]
  have hsa := Wf.held_mem hsm
  have hsb := hw.node_bounds hsa
  have hnode : ∀ j, ∀ y ∈ H.queue j, m' y = m y ∧ m' (y + 1) = m (y + 1) := by
    intro j y hy
    have hya := Wf.queue_mem hy
    have := hw.node_bounds hya
    have := hw.node_sep hya hsa (hw.queue_held_ne hy hsm)
    exact ⟨hsame _ (by omega), hsame _ (by omega)⟩
  refine ⟨fun a ha => ?_, fun j => ?_, ?_, fun k hk => ?_, ?_, ?_⟩
  · have ha : H.Priv a := by
      simp only [Priv, Wf.push_allNodes hN, Wf.push_live hB] at ha
      exact ha
    refine (hsame a ?_).trans (hr.priv a ha)
    have := hw.priv_ne_link ha hsa
    have := priv_ne hw ha .item
    omega
  · have hjw := j.words j
    exact (hr.queue j).congr (hsame _ (by omega)) (hsame _ (by omega)) (hsame _ (by omega)) (hnode j)
  · refine hr.lifo.push ht hs fun y hy => hsame y ?_
    have hya := Wf.lifo_mem hy
    have := hw.node_bounds hya
    have := hw.node_sep hya hsa (hw.lifo_held_ne hy hsm)
    omega
  · refine (hr.bucket k hk).congr (hsame _ (by simp only [MEM_BKT_START]; omega)) fun c hc => hsame c ?_
    have := hw.bucket_bounds hk hc
    have := hw.node_data_sep hsa (hw.bucket k hk c hc)
    have := (Wf.two_pow_mod k).1
    omega
  · exact (hsame _ (by simp only [DATA_ALLOC]; omega)).trans hr.alloc
  · refine hr.numbered.congr (hsame _ (by simp only [ID_CNTR]; omega)).ge fun y hy => ⟨hy, ?_⟩
    obtain ⟨j, hy⟩ := hy
    exact hnode j y hy

theorem pop (hr : Rep m H) (hw : H.Wf) (hl : H.lifo = s :: l) (ht : m' 142 = m s)
    (hsame : ∀ a, a ≠ s ∧ a ≠ s + 1 ∧ a ≠ 142 ∧ a ≠ 143 → m' a = m a) : Rep m' (H.pop s l) := by
  have hsm : s ∈ H.lifo := by simp [hl]
  have hsa := Wf.lifo_mem hsm
  have hsb := hw.node_bounds hsa
  have hnd : s ∉ l := (List.nodup_cons.1 (hl ▸ hw.lifo_nodup)).1
  have hnode : ∀ j, ∀ y ∈ H.queue j, m' y = m y ∧ m' (y + 1) = m (y + 1) := by
    intro j y hy
    have hya := Wf.queue_mem hy
    have := hw.node_bounds hya
    have := hw.node_sep hya hsa (hw.queue_lifo_ne hy hsm)
    exact ⟨hsame _ (by omega), hsame _ (by omega)⟩
  refine ⟨fun a ha => ?_, fun j => ?_, ?_, fun k hk => ?_, ?_, ?_⟩
  · have ha : H.Priv a := by
      simp only [Priv, Wf.pop_allNodes hl, Wf.pop_live hl] at ha
      exact ha
    refine (hsame a ?_).trans (hr.priv a ha)
    have := hw.priv_ne_link ha hsa
    have := priv_ne hw ha .item
    omega
  · have hjw := j.words j
    exact (hr.queue j).congr (hsame _ (by omega)) (hsame _ (by omega)) (hsame _ (by omega)) (hnode j)
  · refine (hl ▸ hr.lifo).pop ht fun y hy => hsame y ?_
    have hya : y ∈ H.allNodes := Wf.lifo_mem (by rw [hl]; exact List.mem_cons_of_mem _ hy)
    have hne : y ≠ s := fun he => hnd (he ▸ hy)
    have := hw.node_bounds hya
    have := hw.node_sep hya hsa hne
    omega
  · refine (hr.bucket k hk).congr (hsame _ (by simp only [MEM_BKT_START]; omega)) fun c hc => hsame c ?_
    have := hw.bucket_bounds hk hc
    have := hw.node_data_sep hsa (hw.bucket k hk c hc)
    have := (Wf.two_pow_mod k).1
    omega
  · exact (hsame _ (by simp only [DATA_ALLOC]; omega)).trans hr.alloc
  · refine hr.numbered.congr (hsame _ (by simp only [ID_CNTR]; omega)).ge fun y hy => ⟨hy, ?_⟩
    obtain ⟨j, hy⟩ := hy
    exact hnode j y hy

/-- A slot a heap describes: header words, links and private slots. -/
structure Untracked (H : Heap) (a : ℤ) : Prop where
  header : a < 164 → a = 2 ∨ a = 3 ∨ a = 10
  node : ∀ n ∈ H.allNodes, n ∉ H.nodes → a ≠ n ∧ a ≠ n + 1
  bucket : ∀ k : ℕ, k < 48 → ∀ b ∈ H.bucket k, a ≠ b
  priv : ¬H.Priv a

/-- Slots that a heap does not describe may change. -/
theorem congr (hr : Rep m H) (hw : H.Wf) (hids : m ID_CNTR ≤ m' ID_CNTR) (hsame : ∀ a, ¬Untracked H a → m' a = m a) : Rep m' H := by
  have hhead : ∀ a, a < 164 → a ≠ 2 → a ≠ 3 → a ≠ 10 → m' a = m a :=
    fun a h h₂ h₃ h₁₀ => hsame a fun hu => by have := hu.header h; omega
  have hnode : ∀ j, ∀ y ∈ H.queue j, m' y = m y ∧ m' (y + 1) = m (y + 1) := by
    intro j y hy
    have hya := Wf.queue_mem hy
    have hyn : y ∉ H.nodes := fun h => hw.queue_held_ne hy h rfl
    exact ⟨hsame y fun hu => (hu.node y hya hyn).1 rfl, hsame _ fun hu => (hu.node y hya hyn).2 rfl⟩
  refine ⟨fun a ha => (hsame a fun hu => hu.priv ha).trans (hr.priv a ha), fun j => ?_, ?_, fun k hk => ?_, ?_, ?_⟩
  · have hj := j.words j
    exact (hr.queue j).congr (hhead _ (by omega) (by omega) (by omega) (by omega))
      (hhead _ (by omega) (by omega) (by omega) (by omega))
      (hhead _ (by omega) (by omega) (by omega) (by omega)) (hnode j)
  · refine hr.lifo.congr (hhead _ (by decide) (by decide) (by decide) (by decide)) fun y hy => ?_
    exact hsame y fun hu => (hu.node y (Wf.lifo_mem hy) fun h => hw.lifo_held_ne hy h rfl).1 rfl
  · refine (hr.bucket k hk).congr ?_ fun c hc => hsame c fun hu => hu.bucket k hk c hc rfl
    exact hhead _ (by simp only [MEM_BKT_START]; omega) (by simp only [MEM_BKT_START]; omega)
      (by simp only [MEM_BKT_START]; omega) (by simp only [MEM_BKT_START]; omega)
  · exact (hhead _ (by decide) (by decide) (by decide) (by decide)).trans hr.alloc
  · refine hr.numbered.congr hids fun y hy => ⟨hy, ?_⟩
    obtain ⟨j, hy⟩ := hy
    exact hnode j y hy

/-- Writing to a range of slots nobody else looks at. -/
theorem adopt {a b : ℤ} (hr : Rep m H) (hw : H.Wf) (hk : Wf.Keeps H (H.adopt m' a b).word)
    (ha : 164 ≤ a) (hn : ∀ n ∈ H.allNodes, n ∉ H.nodes → ¬(a ≤ n ∧ n < b) ∧ ¬(a ≤ n + 1 ∧ n + 1 < b))
    (hb : ∀ k : ℕ, k < 48 → ∀ c ∈ H.bucket k, ¬(a ≤ c ∧ c < b))
    (hsame : ∀ c, ¬(a ≤ c ∧ c < b) → m' c = m c) : Rep m' (H.adopt m' a b) := by
  have hp : ∀ c, (H.adopt m' a b).Priv c → H.Priv c := by
    rintro c (hc | ⟨x, hx, hc⟩ | ⟨n, hn, hc⟩)
    · exact .inl hc
    · rw [Wf.adopt_live hk] at hx
      rw [hk.header x hx] at hc
      exact .inr (.inl ⟨x, hx, hc⟩)
    · exact .inr (.inr ⟨n, hn, hc⟩)
  have hnode : ∀ j, ∀ y ∈ H.queue j, m' y = m y ∧ m' (y + 1) = m (y + 1) := by
    intro j y hy
    have := hn y (Wf.queue_mem hy) fun h => hw.queue_held_ne hy h rfl
    exact ⟨hsame _ this.1, hsame _ this.2⟩
  refine ⟨fun c hc => ?_, fun j => ?_, ?_, fun k hk => ?_, ?_, ?_⟩
  · by_cases h : a ≤ c ∧ c < b
    · rw [word_adopt_of _ h]
    · rw [word_adopt_ne _ h, hsame c h]
      exact hr.priv c (hp c hc)
  · have hj := j.words j
    exact (hr.queue j).congr (hsame _ (by omega)) (hsame _ (by omega)) (hsame _ (by omega)) (hnode j)
  · refine hr.lifo.congr (hsame _ (by simp only [STACK_HEAD]; omega)) fun y hy => hsame y ?_
    exact (hn y (Wf.lifo_mem hy) fun h => hw.lifo_held_ne hy h rfl).1
  · exact (hr.bucket k hk).congr (hsame _ (by simp only [MEM_BKT_START]; omega)) fun c hc => hsame c (hb k hk c hc)
  · exact (hsame _ (by simp only [DATA_ALLOC]; omega)).trans hr.alloc
  · refine hr.numbered.congr (hsame _ (by simp only [ID_CNTR]; omega)).ge fun y hy => ⟨hy, ?_⟩
    obtain ⟨j, hy⟩ := hy
    exact hnode j y hy

theorem settings (hr : Rep m H) (hw : H.Wf) (hsame : ∀ a, a ∉ LibShr.settings → m' a = m a) :
    Rep m' (H.adopt m' 0 164) := by
  have hkeep : Wf.Keeps H (H.adopt m' 0 164).word := by
    refine ⟨fun n hn => word_adopt_ne _ ?_, fun b hb => word_adopt_ne _ ?_⟩
    · have := hw.node_bounds (hn.elim (fun h => Wf.queue_mem (List.mem_of_mem_tail h)) Wf.lifo_mem)
      omega
    · have := hw.live_bounds hb
      omega
  have hsame' : ∀ a, 164 ≤ a → m' a = m a := fun a ha => hsame a fun h => by
    have := Wf.settings_lt h
    omega
  have hhead : ∀ j : QId, m' j.head = m j.head ∧ m' j.tail = m j.tail ∧ m' (j.tail + 1) = m (j.tail + 1) :=
    fun j => by cases j <;> exact ⟨hsame _ (by decide), hsame _ (by decide), hsame _ (by decide)⟩
  have hnode : ∀ j, ∀ y ∈ H.queue j, m' y = m y ∧ m' (y + 1) = m (y + 1) := by
    intro j y hy
    have := hw.node_bounds (Wf.queue_mem hy)
    exact ⟨hsame' _ (by omega), hsame' _ (by omega)⟩
  refine ⟨fun a ha => ?_, fun j => ?_, ?_, fun k hk => ?_, hsame _ (by decide) |>.trans hr.alloc, ?_⟩
  · by_cases h : 0 ≤ a ∧ a < 164
    · rw [word_adopt_of _ h]
    · rw [word_adopt_ne _ h]
      rcases ha with ha | ⟨b, hb, ha⟩ | ⟨n, hn, ha⟩
      · have h' : ∀ a ∈ LibShr.settings, 0 ≤ a ∧ a < 164 := by decide
        exact absurd (h' a ha) h
      · rw [Wf.adopt_live hkeep] at hb
        rw [hkeep.header b hb] at ha
        have := hw.live_bounds hb
        exact (hsame' a (by omega)).trans (hr.priv a (.inr (.inl ⟨b, hb, ha⟩)))
      · have := hw.node_bounds (show n ∈ H.allNodes from hn)
        exact (hsame' a (by omega)).trans (hr.priv a (.inr (.inr ⟨n, hn, ha⟩)))
  · exact (hr.queue j).congr (hhead j).1 (hhead j).2.1 (hhead j).2.2 (hnode j)
  · refine hr.lifo.congr (hsame _ (by decide)) fun y hy => hsame' y ?_
    have := hw.node_bounds (Wf.lifo_mem hy)
    omega
  · refine (hr.bucket k hk).congr (hsame _ fun h => ?_) fun c hc => hsame' c ?_
    · have := settings_ne h .item
      simp only [MEM_BKT_START] at this
      omega
    · have := hw.bucket_bounds hk hc
      omega
  · refine hr.numbered.congr (hsame _ (by decide)).ge fun y hy => ⟨hy, ?_⟩
    obtain ⟨j, hy⟩ := hy
    exact hnode j y hy

theorem release (hr : Rep m H) (hw : H.Wf) (hk : k < 48) (hB : H.blocks = b ::ₘ B) (hb : H.word b = 2 ^ (k + 2))
    (ht : m' (14 + 2 * k) = b) (hs : m' b = m (14 + 2 * k))
    (hsame : ∀ a, a ≠ b ∧ a ≠ b + 1 ∧ a ≠ 14 + 2 * k ∧ a ≠ 14 + 2 * k + 1 → m' a = m a) :
    Rep m' (H.release k b B) := by
  have hbl : b ∈ H.live := by rw [← Wf.release_live (k := k) hB]; simp
  have hbb := hw.live_bounds hbl
  have hblk := hw.header b hbl
  have hnode : ∀ j, ∀ y ∈ H.queue j, m' y = m y ∧ m' (y + 1) = m (y + 1) := by
    intro j y hy
    have := hw.node_bounds (Wf.queue_mem hy)
    have := hw.node_data_sep (Wf.queue_mem hy) hblk
    exact ⟨hsame _ (by omega), hsame _ (by omega)⟩
  refine ⟨fun a ha => ?_, fun j => ?_, ?_, fun j hj => ?_, ?_, ?_⟩
  · have ha : H.Priv a ∧ (a < b ∨ b + H.word b ≤ a) := by
      rcases ha with ha | ⟨c, hc, ha⟩ | ⟨n, hn, ha⟩
      · have := settings_ne ha .item
        have := Wf.settings_lt ha
        exact ⟨.inl ha, by omega⟩
      · have hcl : c ∈ H.live := by
          rw [← Wf.release_live (k := k) hB]
          exact Multiset.mem_add.2 (.inr hc)
        have hne : b ≠ c := by
          have hnd := (Multiset.nodup_add.1 hw.nodup_data).1
          rw [← Wf.release_live (k := k) hB, Multiset.nodup_add] at hnd
          rintro rfl
          exact Multiset.disjoint_left.1 hnd.2.2 (Multiset.mem_singleton_self b) hc
        have := hw.data_sep hblk (hw.header c hcl) hne
        simp only [Heap.release] at ha
        exact ⟨.inr (.inl ⟨c, hcl, ha⟩), by omega⟩
      · have := hw.node_data_sep hn hblk
        exact ⟨.inr (.inr ⟨n, hn, ha⟩), by omega⟩
    refine (hsame a ?_).trans (hr.priv a ha.1)
    have := priv_ne hw ha.1 .item
    omega
  · have hj := j.words j
    exact (hr.queue j).congr (hsame _ (by omega)) (hsame _ (by omega)) (hsame _ (by omega)) (hnode j)
  · refine hr.lifo.congr (hsame _ (by simp only [STACK_HEAD]; omega)) fun y hy => hsame y ?_
    have := hw.node_bounds (Wf.lifo_mem hy)
    have := hw.node_data_sep (Wf.lifo_mem hy) hblk
    omega
  · have hsep : ∀ c ∈ H.bucket j, m' c = m c := fun c hc => by
      have := hw.bucket_bounds hj hc
      have := hw.data_sep hblk (hw.bucket j hj c hc) (hw.bucket_live_ne hj hc hbl).symm
      have := (Wf.two_pow_mod j).1
      exact hsame c (by omega)
    by_cases hjk : j = k
    · subst hjk
      simp only [Heap.release, Function.update_self]
      exact (hr.bucket j hj).push ht hs hsep
    · simp only [Heap.release, Function.update_of_ne hjk]
      exact (hr.bucket j hj).congr (hsame _ (by simp only [MEM_BKT_START]; omega)) hsep
  · exact (hsame _ (by simp only [DATA_ALLOC]; omega)).trans hr.alloc
  · refine hr.numbered.congr (hsame _ (by simp only [ID_CNTR]; omega)).ge fun y hy => ⟨hy, ?_⟩
    obtain ⟨j, hy⟩ := hy
    exact hnode j y hy

end Heap.Rep

/-! ## Moves that take memory into use -/

namespace Heap

variable {H : Heap} {m v : ℤ → ℤ} {b s : ℤ} {l : List ℤ} {k : ℕ}

/-- A range that holds no node and no data block in use may be overwritten. -/
theorem Wf.keeps_adopt {a b : ℤ} (hn : ∀ n ∈ H.allNodes, ¬(a ≤ n + 3 ∧ n + 3 < b))
    (hb : ∀ c ∈ H.live, ¬(a ≤ c ∧ c < b)) : Wf.Keeps H (H.adopt m a b).word where
  value n hn' := word_adopt_ne _ (hn n (hn'.elim (fun h => queue_mem (List.mem_of_mem_tail h)) lifo_mem))
  header c hc := word_adopt_ne _ (hb c hc)

/-- Taking the top block `b` of free stack `k`, whose header is restored. -/
theorem reuse_block (hr : Rep m H) (hw : H.Wf) (hk : k < 48) (hl : H.bucket k = b :: l)
    (ht : v (14 + 2 * k) = m b) (hb : v b = 2 ^ (k + 2))
    (hsame : ∀ a, (a < b ∨ b + 2 ^ (k + 2) ≤ a) ∧ a ≠ 14 + 2 * k ∧ a ≠ 14 + 2 * k + 1 → v a = m a) :
    ((H.adopt v b (b + 2 ^ (k + 2))).reuse k b l).Wf ∧
      Rep v ((H.adopt v b (b + 2 ^ (k + 2))).reuse k b l) := by
  have hbm : b ∈ H.bucket k := by simp [hl]
  have hbb := hw.bucket_bounds hk hbm
  have hblk := hw.bucket k hk b hbm
  have hpos := (Wf.two_pow_mod k).1
  have hkeep : Wf.Keeps H (H.adopt v b (b + 2 ^ (k + 2))).word := by
    refine Wf.keeps_adopt (fun n hn => ?_) fun c hc => ?_
    · have := hw.node_data_sep hn hblk
      omega
    · have := hw.live_bounds hc
      have := hw.data_sep hblk (hw.header c hc) (hw.bucket_live_ne hk hbm hc)
      omega
  have hw' := hw.write hkeep
  refine ⟨hw'.reuse hk hl (by rw [← hb]; exact word_adopt_of _ ⟨le_refl _, by omega⟩), ?_⟩
  have hnode : ∀ j, ∀ y ∈ H.queue j, v y = m y ∧ v (y + 1) = m (y + 1) := by
    intro j y hy
    have := hw.node_bounds (Wf.queue_mem hy)
    have := hw.node_data_sep (Wf.queue_mem hy) hblk
    exact ⟨hsame _ (by omega), hsame _ (by omega)⟩
  refine ⟨fun a ha => ?_, fun j => ?_, ?_, fun j hj => ?_, ?_, ?_⟩
  · by_cases hab : b ≤ a ∧ a < b + 2 ^ (k + 2)
    · exact (word_adopt_of _ hab).symm
    · have hap : H.Priv a := by
        rcases ha with ha | ⟨c, hc, ha⟩ | ⟨n, hn, ha⟩
        · exact .inl ha
        · rw [Wf.reuse_live, Wf.adopt_live hkeep, Multiset.mem_add, Multiset.mem_singleton] at hc
          rcases hc with rfl | hc
          · refine absurd ?_ hab
            have hwb : ((H.adopt v c (c + 2 ^ (k + 2))).reuse k c l).word c = 2 ^ (k + 2) :=
              (word_adopt_of _ ⟨le_refl _, by omega⟩).trans hb
            rwa [hwb] at ha
          · have hwc : ((H.adopt v b (b + 2 ^ (k + 2))).reuse k b l).word c = H.word c := hkeep.header c hc
            rw [hwc] at ha
            exact .inr (.inl ⟨c, hc, ha⟩)
        · exact .inr (.inr ⟨n, hn, ha⟩)
      refine Eq.trans ?_ (word_adopt_ne _ hab).symm
      refine (hsame a ?_).trans (hr.priv a hap)
      have := Rep.priv_ne hw hap .item
      omega
  · have hj := j.words j
    exact (hr.queue j).congr (hsame _ (by omega)) (hsame _ (by omega)) (hsame _ (by omega)) (hnode j)
  · refine hr.lifo.congr (hsame _ (by simp only [STACK_HEAD]; omega)) fun y hy => hsame y ?_
    have := hw.node_bounds (Wf.lifo_mem hy)
    have := hw.node_data_sep (Wf.lifo_mem hy) hblk
    omega
  · by_cases hjk : j = k
    · subst hjk
      simp only [Heap.reuse, Function.update_self]
      refine (hl ▸ hr.bucket j hj).pop ht fun c hc => hsame c ?_
      have hcm : c ∈ H.bucket j := by rw [hl]; exact List.mem_cons_of_mem _ hc
      have hne : b ≠ c := fun he => (List.nodup_cons.1 (hl ▸ (hw.bucket_nodup_ne hj hj).1)).1 (he ▸ hc)
      have := hw.bucket_bounds hj hcm
      have := hw.data_sep hblk (hw.bucket j hj c hcm) hne
      omega
    · simp only [Heap.reuse, Function.update_of_ne hjk]
      refine (hr.bucket j hj).congr (hsame _ (by simp only [MEM_BKT_START]; omega)) fun c hc => hsame c ?_
      have := hw.bucket_bounds hj hc
      have := hw.data_sep hblk (hw.bucket j hj c hc) ((hw.bucket_nodup_ne hj hk).2 hjk c hc b hbm).symm
      have := (Wf.two_pow_mod j).1
      omega
  · exact (hsame _ (by simp only [DATA_ALLOC]; omega)).trans hr.alloc
  · refine hr.numbered.congr (hsame _ (by simp only [ID_CNTR]; omega)).ge fun y hy => ⟨hy, ?_⟩
    obtain ⟨j, hy⟩ := hy
    exact hnode j y hy

/-- The range behind the last carved slot may be overwritten. -/
theorem Wf.keeps_alloc (hw : H.Wf) (s : ℤ) : Wf.Keeps H (H.adopt m H.alloc (H.alloc + s)).word := by
  refine Wf.keeps_adopt (fun n hn => ?_) fun c hc => ?_
  · have := hw.node_bounds hn
    omega
  · have := hw.live_bounds hc
    omega

theorem Rep.of_carve (hr : Rep m H) (hw : H.Wf) {H' : Heap} (hs : 0 < s)
    (ha : v 6 = H.alloc + s) (hsame : ∀ a, (a < H.alloc ∨ H.alloc + s ≤ a) ∧ a ≠ 6 → v a = m a)
    (halloc : H'.alloc = H.alloc + s) (hq : H'.queue = H.queue) (hl : H'.lifo = H.lifo) (hb : H'.bucket = H.bucket)
    (hword : H'.word = (H.adopt v H.alloc (H.alloc + s)).word)
    (hp : ∀ a, H'.Priv a → H.Priv a ∨ H.alloc ≤ a ∧ a < H.alloc + s) : Rep v H' := by
  have h164 := hw.alloc_ge
  have hnode : ∀ j, ∀ y ∈ H.queue j, v y = m y ∧ v (y + 1) = m (y + 1) := by
    intro j y hy
    have := hw.node_bounds (Wf.queue_mem hy)
    exact ⟨hsame _ (by omega), hsame _ (by omega)⟩
  refine ⟨fun a ha => ?_, fun j => ?_, ?_, fun j hj => ?_, ?_, ?_⟩
  · rw [hword]
    by_cases hab : H.alloc ≤ a ∧ a < H.alloc + s
    · exact (word_adopt_of _ hab).symm
    · have hap : H.Priv a := (hp a ha).resolve_right hab
      refine Eq.trans ?_ (word_adopt_ne _ hab).symm
      refine (hsame a ?_).trans (hr.priv a hap)
      have := hw.priv_lt_alloc hap
      have := Rep.priv_ne hw hap .item
      omega
  · rw [hq]
    have hj := j.words j
    exact (hr.queue j).congr (hsame _ (by omega)) (hsame _ (by omega)) (hsame _ (by omega)) (hnode j)
  · rw [hl]
    refine hr.lifo.congr (hsame _ (by simp only [STACK_HEAD]; omega)) fun y hy => hsame y ?_
    have := hw.node_bounds (Wf.lifo_mem hy)
    omega
  · rw [hb]
    refine (hr.bucket j hj).congr (hsame _ (by simp only [MEM_BKT_START]; omega)) fun c hc => hsame c ?_
    have := hw.bucket_bounds hj hc
    have := (Wf.two_pow_mod j).1
    omega
  · rw [halloc]
    exact ha
  · rw [hq]
    refine hr.numbered.congr (hsame _ (by simp only [ID_CNTR]; omega)).ge fun y hy => ⟨hy, ?_⟩
    obtain ⟨j, hy⟩ := hy
    exact hnode j y hy

theorem carve_node (hr : Rep m H) (hw : H.Wf) (ha : v 6 = H.alloc + 4)
    (hsame : ∀ a, (a < H.alloc ∨ H.alloc + 4 ≤ a) ∧ a ≠ 6 → v a = m a) :
    ((H.adopt v H.alloc (H.alloc + 4)).carveNode).Wf ∧
      Rep v ((H.adopt v H.alloc (H.alloc + 4)).carveNode) := by
  have hkeep := hw.keeps_alloc (m := v) 4
  refine ⟨(hw.write hkeep).carveNode, hr.of_carve hw (by decide) ha hsame rfl rfl rfl rfl rfl ?_⟩
  rintro a (ha | ⟨c, hc, ha⟩ | ⟨n, hn, ha⟩)
  · exact .inl (.inl ha)
  · have hc' : c ∈ H.live := by rw [← Wf.write_live hkeep]; exact hc
    have hwc : ((H.adopt v H.alloc (H.alloc + 4)).carveNode).word c = H.word c := hkeep.header c hc'
    rw [hwc] at ha
    exact .inl (.inr (.inl ⟨c, hc', ha⟩))
  · have hn' : n = H.alloc ∨ n ∈ H.allNodes := by
      simp only [carveNode, adopt, write, allNodes, Multiset.mem_add, Multiset.mem_cons] at hn ⊢
      tauto
    rcases hn' with rfl | hn'
    · exact .inr (by omega)
    · exact .inl (.inr (.inr ⟨n, hn', ha⟩))

/-- Carving a data block, whose header is written. -/
theorem carve_data (hr : Rep m H) (hw : H.Wf) (hk : k < 48) (ha : v 6 = H.alloc + 2 ^ (k + 2))
    (hh : v H.alloc = 2 ^ (k + 2))
    (hsame : ∀ a, (a < H.alloc ∨ H.alloc + 2 ^ (k + 2) ≤ a) ∧ a ≠ 6 → v a = m a) :
    ((H.adopt v H.alloc (H.alloc + 2 ^ (k + 2))).carveData (2 ^ (k + 2))).Wf ∧
      Rep v ((H.adopt v H.alloc (H.alloc + 2 ^ (k + 2))).carveData (2 ^ (k + 2))) := by
  have hpos := (Wf.two_pow_mod k).1
  have hkeep := hw.keeps_alloc (m := v) (2 ^ (k + 2))
  have hword : (H.adopt v H.alloc (H.alloc + 2 ^ (k + 2))).word H.alloc = 2 ^ (k + 2) :=
    (word_adopt_of _ ⟨le_refl _, by omega⟩).trans hh
  refine ⟨(hw.write hkeep).carveData hk hword, hr.of_carve hw (by omega) ha hsame rfl rfl rfl rfl rfl ?_⟩
  rintro a (ha | ⟨c, hc, ha⟩ | ⟨n, hn, ha⟩)
  · exact .inl (.inl ha)
  · have hc' : c = H.alloc ∨ c ∈ (H.adopt v H.alloc (H.alloc + 2 ^ (k + 2))).live := by
      simp only [carveData, adopt, write, live, Multiset.mem_add, Multiset.mem_cons] at hc ⊢
      tauto
    rcases hc' with rfl | hc'
    · exact .inr (hword ▸ ha)
    · rw [Wf.adopt_live hkeep] at hc'
      have hwc : ((H.adopt v H.alloc (H.alloc + 2 ^ (k + 2))).carveData (2 ^ (k + 2))).word c = H.word c :=
        hkeep.header c hc'
      rw [hwc] at ha
      exact .inl (.inr (.inl ⟨c, hc', ha⟩))
  · exact .inl (.inr (.inr ⟨n, hn, ha⟩))

end Heap

end LibShr
