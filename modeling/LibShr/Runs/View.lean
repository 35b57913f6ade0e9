import LibShr.Refine.Sim
import LibShr.Spec.Expire
import Mathlib.Order.Interval.Finset.Nat
import Mathlib.Data.Int.Interval

/-!
# Reading a queue off its memory

What an observer of the memory sees of a queue: the data blocks of the queued items in the order of
service, the pending events, and the free data blocks. The walks stop after as many steps as slots
were carved out.
-/

namespace LibShr

open Links

section
variable (m : ℤ → ℤ)

/-- The nodes of the adaptive-LIFO stack, top first. -/
def stackNodes : List ℤ := downFrom m (m DATA_ALLOC).toNat (m STACK_HEAD)

/-- The data blocks on the adaptive-LIFO stack, top first. -/
def stackBlocks : List ℤ := (downFrom m (m DATA_ALLOC).toNat (m STACK_HEAD)).map fun n => m (n + VALUE_OFFSET)

/-- The nodes of a list, the dummy first. -/
def listNodes (i : QId) : List ℤ := m i.head :: behind m (m i.tail) (m DATA_ALLOC).toNat (m i.head)

/-- The data blocks in the FIFO, front first. -/
def fifoBlocks : List ℤ := (behind m (m TAIL) (m DATA_ALLOC).toNat (m HEAD)).map fun n => m (n + VALUE_OFFSET)

/-- The data blocks of the queued items in the order of service. -/
def itemBlocks : List ℤ := stackBlocks m ++ fifoBlocks m

/-- The events that wait to be taken. -/
def pendingEvents : List Event :=
  (behind m (m EVENT_TAIL) (m DATA_ALLOC).toNat (m EVENT_HEAD)).map fun n => Event.ofCode (m (n + EVENT_OFFSET))

/-- The free data blocks of class `k`, last freed first. -/
def freeBlocks (k : ℕ) : List ℤ := downFrom m (m DATA_ALLOC).toNat (m (MEM_BKT_START + 2 * k))

/-- The settings of the header. -/
def Header.ofMem : Header :=
  ⟨m COUNT, m BUFFER, m FLAGS, m LEVEL, m MAX_DEPTH, ⟨m LIMIT_SEC, m LIMIT_NSEC⟩, ⟨m TARGET_SEC, m TARGET_NSEC⟩, ⟨m EMPTY_SEC, m EMPTY_NSEC⟩⟩

/-- The time stamp of a data block. -/
def stampAt (b : ℤ) : Timespec := ⟨m (b + TM_SEC), m (b + TM_NSEC)⟩

/-- The data blocks a removal does not drop: it takes the first. -/
def survivingBlocks (clock : ℕ → Timespec) (g : Gate) : List ℤ := (Header.ofMem m).survivors (stampAt m) clock g (itemBlocks m)

end

theorem HeaderAt.ofMem {m : ℤ → ℤ} {h : Header} (hh : HeaderAt m h) : Header.ofMem m = h := by
  cases hh
  simp only [Header.ofMem, *]

theorem ItemAt.stamp {m : ℤ → ℤ} {b : ℤ} {it : Item} (h : ItemAt m b it) : stampAt m b = it.stamp := by
  have := it.slots_ge
  rw [stampAt, Item.stamp, h.words TM_SEC (by decide) (by simp only [TM_SEC]; omega),
    h.words TM_NSEC (by decide) (by simp only [TM_NSEC]; omega)]

/-- A list of different slots below `n` is not longer than `n`. -/
theorem length_le_of_bounds {l : List ℤ} {n : ℤ} (hn : l.Nodup) (hb : ∀ x ∈ l, 0 ≤ x ∧ x < n) : l.length ≤ n.toNat := by
  have hsub : l.toFinset ⊆ Finset.Ico 0 n := fun x hx => Finset.mem_Ico.2 (hb x (List.mem_toFinset.1 hx))
  have hcard := Finset.card_le_card hsub
  rwa [List.toFinset_card_of_nodup hn, Int.card_Ico, sub_zero] at hcard

/-- An element related to one of the other list in two ways. -/
theorem exists_both {α β : Type} {R S : α → β → Prop} {l : List α} {l' : List β} {a : α} (h : List.Forall₂ R l l') (h' : List.Forall₂ S l l') (ha : a ∈ l) :
    ∃ c ∈ l', R a c ∧ S a c := by
  induction h with
  | nil => cases ha
  | cons hab _ ih =>
    cases h' with
    | cons hab' h' =>
      rcases List.mem_cons.1 ha with rfl | ha
      · exact ⟨_, List.mem_cons_self, hab, hab'⟩
      · obtain ⟨c, hc, hac⟩ := ih h' ha
        exact ⟨c, List.mem_cons_of_mem _ hc, hac⟩

namespace Sim

variable {w : World} {H : Heap} {Q : Queue} {b : ℤ} {it : Item}

theorem nodes_length (hS : Sim w H Q) {l : List ℤ} (hn : l.Nodup) (hl : ∀ x ∈ l, x ∈ H.allNodes) :
    l.length ≤ (w.mem DATA_ALLOC).toNat := by
  rw [hS.inv.rep.alloc]
  refine length_le_of_bounds hn fun x hx => ?_
  have := hS.inv.wf.node_bounds (hl x hx)
  omega

theorem word_node (hS : Sim w H Q) {n : ℤ} (hn : n ∈ H.allNodes) : w.mem (n + 2) = H.word (n + 2) ∧ w.mem (n + 3) = H.word (n + 3) :=
  ⟨hS.inv.rep.priv _ (.inr (.inr ⟨n, hn, .inl rfl⟩)), hS.inv.rep.priv _ (.inr (.inr ⟨n, hn, .inr rfl⟩))⟩

theorem stackNodes (hS : Sim w H Q) : LibShr.stackNodes w.mem = H.lifo := by
  have hmem : ∀ n ∈ H.lifo, n ∈ H.allNodes := fun n hn => Heap.Wf.lifo_mem hn
  refine hS.inv.rep.lifo.downFrom (fun x hx => ?_) (hS.nodes_length hS.inv.wf.lifo_nodup hmem)
  have := hS.inv.wf.node_bounds (hmem x hx)
  omega

theorem stackBlocks (hS : Sim w H Q) : LibShr.stackBlocks w.mem = H.stack := by
  have hwalk : downFrom w.mem (w.mem DATA_ALLOC).toNat (w.mem STACK_HEAD) = H.lifo := hS.stackNodes
  rw [LibShr.stackBlocks, hwalk, Heap.stack]
  exact List.map_congr_left fun n hn => (hS.word_node (Heap.Wf.lifo_mem hn)).2

theorem behind_queue (hS : Sim w H Q) (i : QId) :
    behind w.mem (w.mem i.tail) (w.mem DATA_ALLOC).toNat (w.mem i.head) = (H.queue i).tail := by
  have hq := hS.inv.rep.queue i
  have hnd := hS.inv.wf.queue_nodup i
  cases hl : H.queue i with
  | nil => exact absurd hl hq.ne_nil
  | cons d l =>
    rw [hl] at hq hnd
    refine hq.behind hnd (hS.nodes_length (List.nodup_cons.1 hnd).2 fun x hx => Heap.Wf.queue_mem (i := i) ?_)
    rw [hl]
    exact List.mem_cons_of_mem _ hx

theorem listNodes (hS : Sim w H Q) (i : QId) : LibShr.listNodes w.mem i = H.queue i := by
  have hq := hS.inv.rep.queue i
  unfold LibShr.listNodes
  rw [hS.behind_queue]
  cases hl : H.queue i with
  | nil => exact absurd hl hq.ne_nil
  | cons d l =>
    rw [hl] at hq
    rw [hq.head, List.headD_cons, List.tail_cons]

theorem fifoBlocks (hS : Sim w H Q) : LibShr.fifoBlocks w.mem = H.fifo := by
  rw [LibShr.fifoBlocks, show behind w.mem (w.mem TAIL) _ (w.mem HEAD) = _ from hS.behind_queue .item, Heap.fifo]
  exact List.map_congr_left fun n hn => (hS.word_node (Heap.Wf.queue_mem (List.mem_of_mem_tail hn))).2

/-- The pending events are those of the abstract queue. -/
theorem pendingEvents (hS : Sim w H Q) : LibShr.pendingEvents w.mem = Q.events := by
  have hev : H.events.map Event.ofCode = Q.events := by
    rw [hS.events, List.map_map]
    exact (List.map_congr_left fun e _ => Event.ofCode_code e).trans (List.map_id _)
  rw [LibShr.pendingEvents, show behind w.mem (w.mem EVENT_TAIL) _ (w.mem EVENT_HEAD) = _ from hS.behind_queue .event, ← hev,
    Heap.events, List.map_map]
  exact List.map_congr_left fun n hn =>
    congrArg Event.ofCode (hS.word_node (Heap.Wf.queue_mem (List.mem_of_mem_tail hn))).1

theorem freeBlocks (hS : Sim w H Q) {k : ℕ} (hk : k < 48) : LibShr.freeBlocks w.mem k = H.bucket k := by
  refine (hS.inv.rep.bucket k hk).downFrom (fun x hx => ?_) ?_
  · have := hS.inv.wf.bucket_bounds hk hx
    omega
  · rw [hS.inv.rep.alloc]
    refine length_le_of_bounds (hS.inv.wf.bucket_nodup_ne hk hk).1 fun x hx => ?_
    have := hS.inv.wf.bucket_bounds hk hx
    have hp : (0 : ℤ) < 2 ^ (k + 2) := by positivity
    omega

/-- The memory of a block in use holds its item. -/
theorem itemAt (hS : Sim w H Q) (hb : b ∈ H.live) (h : ItemAt H.word b it) : ItemAt w.mem b it := by
  have h₄ := it.slots_ge
  have hs := h.size
  have hmem : ∀ a, b ≤ a → a < b + H.word b → w.mem a = H.word a := fun a => hS.mem_block hb
  refine ⟨(hmem b (le_refl _) (by omega)).trans hs, fun i h₁ h₂ => (hmem _ (by omega) (by omega)).trans (h.words i h₁ h₂), ?_, h.wf⟩
  exact h.stores.congr fun a ha => hmem a ha.1 ha.2

theorem itemsAt (hS : Sim w H Q) {l : List ℤ} {its : List Item} (h : List.Forall₂ (ItemAt H.word) l its) (hl : ∀ b ∈ l, b ∈ H.live) :
    List.Forall₂ (ItemAt w.mem) l its := by
  induction h with
  | nil => exact .nil
  | cons hb _ ih => exact .cons (hS.itemAt (hl _ (by simp)) hb) (ih fun b hb => hl b (by simp [hb]))

theorem stackItems (hS : Sim w H Q) : List.Forall₂ (ItemAt w.mem) (LibShr.stackBlocks w.mem) Q.stack := by
  rw [hS.stackBlocks]
  exact hS.itemsAt hS.stack fun b hb => Heap.mem_live_stack hb

theorem fifoItems (hS : Sim w H Q) : List.Forall₂ (ItemAt w.mem) (LibShr.fifoBlocks w.mem) Q.fifo := by
  rw [hS.fifoBlocks]
  exact hS.itemsAt hS.fifo fun b hb => Heap.mem_live_fifo hb

/-- **The blocks of the queued items hold the items of the abstract queue.** -/
theorem items (hS : Sim w H Q) : List.Forall₂ (ItemAt w.mem) (LibShr.itemBlocks w.mem) Q.items :=
  List.rel_append hS.stackItems hS.fifoItems

end Sim

end LibShr
