import LibShr.Refine.Gates

/-!
# Removing an item

`deq` takes the next item in the order of service, copies it out and decides whether it is dropped;
the loop of the remove functions repeats that until an item is kept.
-/

namespace LibShr

open Prog

/-- The choice `deq` makes between stack and FIFO. -/
def takeNext (array : ℤ) : M (Option ℤ) := do
  if (← load array STACK_HEAD) = 0 then
    let head ← load array HEAD
    if head = (← load array TAIL) then pure none else some <$> fifoRemove
  else some <$> lifoRemove

/-- The search of `deq` for an item. -/
def search (array : ℤ) : M (Option ℤ) :=
  iterate (fun _ => do
    match ← takeNext array with
    | none => return .inr none
    | some slot => if slot = 0 then return .inl () else return .inr (some slot)) ()

/-- The last item was taken. -/
def clearIfLast (array count : ℤ) : M Unit := do
  if ← isCodelActive array then
    if count = 1 then clearEmptyTimestamp array

/-- Is the item too old? -/
def isExpired (array b : ℤ) : M Bool := do
  if ← isDiscardOnExpire array then itemExceedsDelay b array else pure false

/-- The block is freed, and the item reported or not. -/
def dispose (b : ℤ) (drop : Bool) (item : SqItem) : M SqItem := do
  if drop then
    let _ ← freeDataSlots b
    pure (SqItem.ofStatus .errExist)
  else
    let status ← freeDataSlots b
    pure { item with status := status }

/-! ### The texts, with the answers of `add_event` noted -/

namespace Noted

/-- `post_process_deq` (`shared_q.c:1214`). -/
def postProcessDeq (dataSlot : ℤ) (item : SqItem) : NotedM SqItem := do
  let array ← plain current
  let count ← plain (afa array COUNT (-1))
  plain (clearIfLast array count)
  let expired ← plain (isExpired array dataSlot)
  let empty ← raise (count = 1) .empty
  let time ← raise (expired = true) .time
  let drop ← plain (if expired then isDiscardOnExpire array else pure false)
  let item ← plain (dispose dataSlot drop item)
  plain (notify array (empty || time))
  return item

/-- What `deq` does with an item it took. -/
def deliver (dataSlot : ℤ) (buffer : UserBuffer) : NotedM (SqItem × UserBuffer) := do
  let (copied, item, buffer) ← plain (safelyCopyData dataSlot (SqItem.ofStatus .errEmpty) buffer)
  let item ← if copied then postProcessDeq dataSlot item else pure item
  plain releasePrevExtents
  return (item, buffer)

/-- What `deq` does after its search. -/
def deqFound (buffer : UserBuffer) : Option ℤ → NotedM (SqItem × UserBuffer)
  | none => do
    plain releasePrevExtents
    return (SqItem.ofStatus .errEmpty, buffer)
  | some dataSlot => deliver dataSlot buffer

/-- `deq` (`shared_q.c:1269`). -/
def deq (buffer : UserBuffer) : NotedM (SqItem × UserBuffer) := do
  let array ← plain current
  deqFound buffer (← plain (search array))

/-- One round of the remove functions (`shared_q.c:2561-2591`). -/
def removeRound (gate : M Status) (buffer : UserBuffer) : NotedM (UserBuffer ⊕ (SqItem × UserBuffer)) := do
  let status ← plain gate
  if status ≠ .ok then
    return .inr (SqItem.ofStatus status, buffer)
  else
    let (item, buffer) ← deq buffer
    if item.status ≠ .errExist then
      if item.status ≠ .ok then
        let _ ← plain deqReleaseGate
        return .inr (item, buffer)
      else
        let status ← plain enqReleaseGate
        return .inr ({ item with status := status }, buffer)
    else
      let _ ← plain enqReleaseGate
      return .inl buffer

/-- The common frame of the remove functions. -/
def removeThrough (gate : M Status) (buffer : UserBuffer) : NotedM (SqItem × UserBuffer) := do
  plain guardQMemory
  let result ← iterate (removeRound gate) buffer
  plain unguardQMemory
  return result

end Noted

section
variable (b : ℤ) (item : SqItem) (gate : M Status) (u : UserBuffer)

@[simp] theorem erase_postProcessDeq : (Noted.postProcessDeq b item).erase = postProcessDeq b item := by
  simp only [Noted.postProcessDeq, postProcessDeq, clearIfLast, isExpired, dispose, notify, erase_bind, erase_plain,
    erase_pure, erase_raise, ite_bind, LawfulMonad.bind_assoc, LawfulMonad.pure_bind]

@[simp] theorem erase_deq : (Noted.deq u).erase = deq u := by
  simp only [Noted.deq, deq, search, takeNext, erase_bind, erase_plain, ite_bind, LawfulMonad.bind_assoc, LawfulMonad.pure_bind]
  -- the item that was found, or none
  refine congrArg (current >>= ·) (funext fun array => congrArg (Prog.bind _) (funext fun x => ?_))
  rcases x with _ | b
  · simp only [Noted.deqFound, erase_bind, erase_plain, erase_pure]
  · simp only [Noted.deqFound, Noted.deliver, erase_bind, erase_ite, erase_plain, erase_pure, erase_postProcessDeq,
      LawfulMonad.pure_bind]

@[simp] theorem erase_removeThrough : (Noted.removeThrough gate u).erase = removeThrough gate u := by
  simp only [Noted.removeThrough, Noted.removeRound, removeThrough, erase_bind, erase_ite, erase_plain, erase_pure, erase_iterate,
    erase_deq]

end

/-- Where a time limit is read from. -/
def TimespecPtr.Reads (p : TimespecPtr) (m : ℤ → ℤ) (t : Timespec) : Prop :=
  match p with
  | .own t' => t' = t
  | .shared a s => 0 ≤ s ∧ s + 1 < a ∧ (⟨m s, m (s + 1)⟩ : Timespec) = t

section
variable {tot : Prop} {w w' : World} {H H' : Heap} {Q Q' : Queue} {a b d x s : ℤ} {l : List ℤ} {it : Item} {g : Gate}
  {es : List Event} {ns : List EventNote}

/-- The call holds the data block `b` with the item `it`, besides what it held before. -/
structure TookItem (H H' : Heap) (b : ℤ) (it : Item) : Prop where
  nodes : H'.nodes = H.nodes
  blocks : H'.blocks = b ::ₘ H.blocks
  carved : H.carved <+: H'.carved
  bucket : H'.bucket = H.bucket
  word : H'.word = H.word
  item : ItemAt H'.word b it
  slot : 164 ≤ b

/-- The data blocks `l` were in front of the others, and are free now. -/
structure Took (l : List ℤ) (H H' : Heap) : Prop extends Retains H H' where
  items : H.stack ++ H.fifo = l ++ (H'.stack ++ H'.fifo)
  bucket : ∀ k, H'.bucket k = (l.filter fun b => H.word b = 2 ^ (k + 2)).reverse ++ H.bucket k

/-- What a caller receives of the item `it`. -/
structure SqItem.Shows (i : SqItem) (it : Item) (st : Status) : Prop where
  status : i.status = st
  delivers : i.Delivers it.payload
  buffer : i.buffer = some it.bytes
  size : i.bufSize = it.slots * 8 - 8

/-! ## Blocks that change place -/

/-- A block that was carved out keeps its size. -/
theorem Retains.size (h : Retains H H') (hw : H.Wf) (hw' : H'.Wf) (hb : b ∈ H.live) (hb' : b ∈ H'.live) : H'.word b = H.word b := by
  have hold : (⟨b, H.word b, false⟩ : Blk) ∈ H'.carved := h.carved.subset (hw.header b hb)
  have hpos := hw.live_bounds hb
  have hpos' := hw'.live_bounds hb'
  rcases hw'.tiles.sep hw'.sized _ (hw'.header b hb') _ hold with heq | hsep
  · exact congrArg Blk.size heq
  · dsimp only at hsep
    omega

/-- Freeing the block that is held. -/
theorem Held.release (h : Held H H') {B : Multiset ℤ} {k : ℕ} (hB : H.blocks = b ::ₘ B) : Held (H.release k b B) (H'.release k b B) where
  nodes := h.nodes
  blocks := rfl
  carved := h.carved
  word := fun c hc => h.word c (by rw [hB]; exact Multiset.mem_cons_of_mem hc)
  fifo := h.fifo
  stack := h.stack
  bucket := by
    unfold Heap.release
    rw [h.bucket]

theorem Held.took (h : Held H H') : Took [] H H' where
  __ := h.toRetains
  items := by rw [h.stack, h.fifo, List.nil_append]
  bucket := fun k => by rw [h.bucket]; rfl

/-- The block that was taken is free now. -/
theorem TookItem.took {H₁ : Heap} (h : TookItem H H₁ b it) (hi : H.stack ++ H.fifo = b :: (H₁.stack ++ H₁.fifo))
    (hh : Held (H₁.release it.cls b H.blocks) H') : Took [b] H H' where
  nodes := hh.nodes.trans h.nodes
  blocks := hh.blocks
  carved := h.carved.trans hh.carved
  items := by rw [hi, hh.stack, hh.fifo]; rfl
  bucket := fun k => by
    have hsize : H.word b = 2 ^ (it.cls + 2) := h.word ▸ h.item.size
    have hbucket : H'.bucket = Function.update H.bucket it.cls (b :: H.bucket it.cls) := by
      rw [hh.bucket, ← h.bucket]
      rfl
    rw [hbucket]
    by_cases hk : k = it.cls
    · rw [hk, Function.update_self, List.filter_cons_of_pos (by simpa using hsize)]
      rfl
    · have hne : ¬H.word b = 2 ^ (k + 2) := fun he => by
        have := pow_right_injective₀ (by norm_num : (0 : ℤ) < 2) (by norm_num) (he.symm.trans hsize)
        exact hk (Nat.add_right_cancel this)
      rw [Function.update_of_ne hk, List.filter_cons_of_neg (by simpa using hne)]
      rfl

/-- First the blocks `l`, then the blocks `l'`. -/
theorem Took.trans {H'' : Heap} {l l' : List ℤ} (hw : H.Wf) (hw' : H'.Wf) (h : Took l H H') (h' : Took l' H' H'') : Took (l ++ l') H H'' where
  __ := h.toRetains.trans h'.toRetains
  items := by rw [h.items, h'.items, List.append_assoc]
  bucket := fun k => by
    have hsize : (l'.filter fun b => H'.word b = 2 ^ (k + 2)) = l'.filter fun b => H.word b = 2 ^ (k + 2) := by
      refine List.filter_congr fun b hb => ?_
      have hb' : b ∈ H'.stack ++ H'.fifo := by rw [h'.items]; exact List.mem_append_left _ hb
      have hb₀ : b ∈ H.stack ++ H.fifo := by rw [h.items]; exact List.mem_append_right _ hb'
      have hlive : ∀ {H : Heap}, b ∈ H.stack ++ H.fifo → b ∈ H.live := fun hm =>
        (List.mem_append.1 hm).elim Heap.mem_live_stack Heap.mem_live_fifo
      rw [h.size hw hw' (hlive hb₀) (hlive hb')]
    rw [h'.bucket, h.bucket, hsize, List.filter_append, List.reverse_append, List.append_assoc]

namespace Sim

/-! ## Taking -/

theorem wp_tvSec {p : TimespecPtr} {t : Timespec} {R : ℤ → World → Prop} (hp : p.Reads w.mem t) :
    Wp tot p.tvSec R w ↔ R t.sec w := by
  cases p with
  | own t' => rw [← show t' = t from hp]; exact wp_pure
  | shared a s => rw [← hp.2.2]; exact wp_load hp.1 (by have := hp.2.1; omega)

theorem wp_tvNsec {p : TimespecPtr} {t : Timespec} {R : ℤ → World → Prop} (hp : p.Reads w.mem t) :
    Wp tot p.tvNsec R w ↔ R t.nsec w := by
  cases p with
  | own t' => rw [← show t' = t from hp]; exact wp_pure
  | shared a s => rw [← hp.2.2]; exact wp_load (by have := hp.1; omega) hp.2.1

/-- `next_item` of the dummy of a list with an item. -/
theorem nextItem (hS : Sim w H Q) (hl : H.queue .item = d :: x :: l) :
    Wp tot (LibShr.nextItem d) (fun r w' => r = H.value x ∧ ∃ e, w' = w.setExt e ∧ Sim w' H Q ∧ w.ext.cur ≤ e.cur) w := by
  have hda : d ∈ H.allNodes := Heap.Wf.queue_mem (i := .item) (by simp [hl])
  have hxa : x ∈ H.allNodes := Heap.Wf.queue_mem (i := .item) (by simp [hl])
  obtain ⟨hd₀, -, hdz, -⟩ := hS.inv.node_room hda
  obtain ⟨hx₀, -, -, -⟩ := hS.inv.node_room hxa
  have hxb := hS.inv.wf.node_bounds hxa
  have hroom := hS.inv.room
  have hq := hS.inv.rep.queue .item
  rw [hl] at hq
  have hnext : w.mem d = x := hq.linked.1
  have hval : w.mem (x + 3) = H.value x := hS.inv.rep.priv _ (.inr (.inr ⟨x, hxa, .inr rfl⟩))
  rw [LibShr.nextItem, Wp, wp_bind]
  refine hS.wp_insureInRange (by omega) hdz fun e hS₁ hlt hle => ?_
  have hd' : ¬d = 0 := by omega
  have hx' : ¬x = 0 := by omega
  simp (disch := omega) only [hd', if_false, wp_bind, wp_load, hnext, hx', VALUE_OFFSET]
  refine hS₁.wp_insureInRange (by omega) (show x + 3 < w.mem 2 by omega) fun e' hS₂ hlt' hle' => ?_
  have hv : ¬x + 3 = 0 := by omega
  have hend : ¬x < HDR_END := by simp only [HDR_END]; omega
  simp (disch := omega) only [hv, hend, if_false, wp_load]
  exact ⟨hval, e', rfl, hS₂, le_trans hle hle'⟩

/-- **`fifo_remove`** takes the front item. -/
theorem fifoRemove (hS : Sim w H Q) (hl : H.queue .item = d :: x :: l) : ∃ it its, Q.fifo = it :: its ∧
    Wp tot LibShr.fifoRemove (fun b w' => ∃ H', Sim w' H' { Q with fifo := its, ids := Q.ids + 1 } ∧ TookItem H H' b it ∧
      H.fifo = b :: H'.fifo ∧ H'.stack = H.stack) w := by
  obtain ⟨it, its, hQ, hit, -⟩ := hS.frontItem hl
  refine ⟨it, its, hQ, ?_⟩
  have hcur := hS.cur
  have hda : d ∈ H.allNodes := Heap.Wf.queue_mem (i := .item) (by simp [hl])
  obtain ⟨hd₀, -, hdz, -⟩ := hS.inv.node_room hda
  have hval := hS.inv.wf.live_bounds (Heap.mem_live_fifo (H := H) (b := H.value x) (by simp [Heap.fifo, hl]))
  have hq := hS.inv.rep.queue .item
  have hhead : w.mem 124 = d := by
    have := hq.head
    rw [hl] at this
    exact this
  have hne : ¬d = w.mem 112 := by
    intro he
    obtain ⟨y, hy⟩ := (hq.head_eq_tail (hS.inv.wf.queue_nodup .item)).1 (hhead.trans he)
    simp [hl] at hy
  simp (disch := omega) only [LibShr.fifoRemove, Wp, wp_bind, wp_current, HEAD_CNT, HEAD, TAIL, wp_load, hhead, hne, if_false]
  refine hS.wp_insureInRange (by omega) hdz fun e hS₁ hlt hle => ?_
  refine wp_mono ?_ (hS₁.nextItem hl)
  rintro _ w₂ ⟨rfl, e₂, rfl, hS₂, hle₂⟩
  have h₀ : ¬H.value x = 0 := by omega
  simp only [h₀, if_false, wp_bind]
  obtain ⟨it', its', hQ', -, hwp⟩ := hS₂.unlinkItem hl
  obtain ⟨rfl, rfl⟩ := List.cons.inj (hQ.symm.trans hQ')
  refine wp_mono ?_ hwp
  rintro r w₃ ⟨hr, hlt₃, -, hS₃⟩
  have hr' : ¬r = 0 := by omega
  simp only [hr', if_false, wp_bind]
  refine wp_mono ?_ (hS₃.freeNode (N := H.nodes) rfl hlt₃)
  rintro _ w₄ ⟨hS₄, -⟩
  refine wp_pure.2 ⟨_, hS₄, ⟨rfl, rfl, List.prefix_refl _, rfl, rfl, hit, hval.1⟩, ?_, rfl⟩
  rw [Heap.link_fifo_ne (by decide), Heap.fifo, Heap.fifo, Heap.unlink_queue_self, hl]
  rfl

/-- **`lifo_remove`** takes the top item. -/
theorem lifoRemove (hS : Sim w H Q) (hl : H.lifo = s :: l) : ∃ it its, Q.stack = it :: its ∧
    Wp tot LibShr.lifoRemove (fun b w' => ∃ H', Sim w' H' { Q with stack := its, ids := Q.ids + 1 } ∧ TookItem H H' b it ∧
      H.stack = b :: H'.stack ∧ H'.fifo = H.fifo) w := by
  obtain ⟨it, its, hQ, hit, -⟩ := hS.topItem hl
  refine ⟨it, its, hQ, ?_⟩
  have hcur := hS.cur
  have hsa : s ∈ H.allNodes := Heap.Wf.lifo_mem (by simp [hl])
  obtain ⟨hs₀, -, hsz, -⟩ := hS.inv.node_room hsa
  have hval := hS.inv.wf.live_bounds (Heap.mem_live_stack (H := H) (b := H.value s) (by simp [Heap.stack, hl]))
  have hst := hS.inv.rep.lifo
  rw [hl] at hst
  have htop : w.mem 142 = s := hst.1
  have hvalue : w.mem (s + 3) = H.value s := hS.inv.rep.priv _ (.inr (.inr ⟨s, hsa, .inr rfl⟩))
  simp (disch := omega) only [LibShr.lifoRemove, Wp, wp_bind, wp_current, STACK_HD_CNT, STACK_HEAD, wp_load, htop]
  refine hS.wp_insureInRange (by omega) hsz fun e hS₁ hlt hle => ?_
  have hroom : s + 3 < e.cur := by
    have := hS₁.inv.node_room hsa
    have := this.2.2.2 hlt
    exact this
  have h₀ : ¬H.value s = 0 := by omega
  simp (disch := omega) only [wp_bind, VALUE_OFFSET, wp_load, hvalue, h₀, if_false]
  obtain ⟨it', its', hQ', -, hwp⟩ := hS₁.popItem hl
  obtain ⟨rfl, rfl⟩ := List.cons.inj (hQ.symm.trans hQ')
  refine wp_mono ?_ hwp
  rintro r w₃ ⟨hr, hlt₃, hS₃⟩
  have hr' : ¬r = 0 := by omega
  simp only [hr', if_false, wp_bind]
  refine wp_mono ?_ (hS₃.freeNode (N := H.nodes) rfl hlt₃)
  rintro _ w₄ ⟨hS₄, -⟩
  refine wp_pure.2 ⟨_, hS₄, ⟨rfl, rfl, List.prefix_refl _, rfl, rfl, hit, hval.1⟩, ?_, Heap.link_fifo_ne (by decide)⟩
  rw [Heap.stack, hl]
  rfl

/-- The next item in the order of service is taken, if there is one. -/
theorem takeNext (hS : Sim w H Q) : Wp tot (LibShr.takeNext w.ext.cur) (fun r w' => match Q.takeItem with
    | none => r = none ∧ w' = w
    | some (it, Q') => ∃ b, r = some b ∧ ∃ H', Sim w' H' Q' ∧ TookItem H H' b it ∧
        H.stack ++ H.fifo = b :: (H'.stack ++ H'.fifo)) w := by
  have hcur := hS.cur
  have hst := hS.inv.rep.lifo
  have hq := hS.inv.rep.queue .item
  simp (disch := omega) only [LibShr.takeNext, Wp, wp_bind, STACK_HEAD, wp_load]
  cases hlifo : H.lifo with
  | nil =>
    have hstack : Q.stack = [] := by
      have h := hS.stack
      rw [Heap.stack, hlifo] at h
      exact List.forall₂_nil_left_iff.1 h
    rw [hlifo] at hst
    have htop : w.mem 142 = 0 := hst.1
    simp (disch := omega) only [htop, if_true, wp_bind, HEAD, TAIL, wp_load]
    cases hitem : H.queue .item with
    | nil => exact absurd hitem hq.ne_nil
    | cons d t =>
      rw [hitem] at hq
      have hhead : w.mem 124 = d := hq.head
      have hnd : (d :: t).Nodup := hitem ▸ hS.inv.wf.queue_nodup .item
      cases t with
      | nil =>
        have hfifo : Q.fifo = [] := by
          have h := hS.fifo
          rw [Heap.fifo, hitem] at h
          exact List.forall₂_nil_left_iff.1 h
        have he : w.mem 124 = w.mem 112 := (hq.head_eq_tail hnd).2 ⟨d, rfl⟩
        simp only [he, if_true, Queue.takeItem, hstack, hfifo]
        exact wp_pure.2 ⟨rfl, rfl⟩
      | cons x l =>
        have he : ¬w.mem 124 = w.mem 112 := by
          intro he
          obtain ⟨y, hy⟩ := (hq.head_eq_tail hnd).1 he
          simp at hy
        obtain ⟨it, its, hQ, hwp⟩ := hS.fifoRemove hitem
        have htake : Q.takeItem = some (it, { Q with fifo := its, ids := Q.ids + 1 }) := by
          simp only [Queue.takeItem, hstack, hQ]
        simp only [he, if_false, htake, wp_map]
        refine wp_mono ?_ hwp
        rintro b w' ⟨H', hS', htook, hf, hs⟩
        have hnone : H.stack = [] := by rw [Heap.stack, hlifo]; rfl
        exact ⟨b, rfl, H', hS', htook, by rw [hs, hnone, hf]; rfl⟩
  | cons s l =>
    have hsa : s ∈ H.allNodes := Heap.Wf.lifo_mem (by simp [hlifo])
    obtain ⟨hs₀, -⟩ := hS.inv.node_room hsa
    rw [hlifo] at hst
    have htop : w.mem 142 = s := hst.1
    have hne : ¬s = 0 := by omega
    obtain ⟨it, its, hQ, hwp⟩ := hS.lifoRemove hlifo
    have htake : Q.takeItem = some (it, { Q with stack := its, ids := Q.ids + 1 }) := by
      simp only [Queue.takeItem, hQ]
    simp only [htop, hne, if_false, htake, wp_map]
    refine wp_mono ?_ hwp
    rintro b w' ⟨H', hS', htook, hs, hf⟩
    exact ⟨b, rfl, H', hS', htook, by rw [hs, hf]; rfl⟩

/-! ## Copying out -/

theorem allocated (hS : Sim w H Q) : Sim { w with malloc := rest w.malloc } H Q :=
  { hS with inv := hS.inv.of_eq rfl rfl, malloc := fun n => hS.malloc (n + 1) }

/-- The bytes behind the first slot of an item's block. -/
theorem blockBytes (hS : Sim w H Q) (hb : b ∈ H.live) (hit : ItemAt H.word b it) :
    bytesAt w.mem (b + 1) (w.mem b - 1).toNat = it.bytes := by
  have hbb := hS.inv.wf.live_bounds hb
  have hword : H.word b = it.slots := hit.size
  have hsz : w.mem b = it.slots := (hS.mem_block hb (le_refl _) (by omega)).trans hword
  have h : ∀ n : ℕ, (n : ℤ) ≤ it.slots - 1 → ∀ i, 1 ≤ i → i + n ≤ it.slots → bytesAt w.mem (b + i) n = bytesAt it.words i n := by
    intro n hn
    induction n with
    | zero => intros; rfl
    | succ n ih =>
      intro i h₁ h₂
      rw [bytesAt, bytesAt, add_assoc, ih (by omega) (i + 1) (by omega) (by omega),
        (hS.mem_block hb (by omega) (by omega)).trans (hit.words i h₁ (by omega))]
  rw [hsz, Item.bytes]
  exact h _ (by omega) 1 (le_refl _) (by omega)

/-- **`safely_copy_data`** hands out what the item was added with, and all its bytes. -/
theorem safelyCopyData (hS : Sim w H Q) (hb : b ∈ H.live) (hit : ItemAt H.word b it) {item : SqItem} {u : UserBuffer} :
    Wp tot (LibShr.safelyCopyData b item u) (fun r w' => r.1 = true ∧ r.2.1.Shows it item.status ∧
      r.2.2 = u.resized it.bufferSize ∧ Sim w' H Q ∧ b < w'.ext.cur ∧ r.2.1.length = w.mem (b + DATA_LENGTH)) w := by
  have hbb := hS.inv.wf.live_bounds hb
  have hroom := hS.inv.room
  have hsmall : H.word b ≤ 2 ^ 30 := hS.inv.small trivial _ (hS.inv.wf.header b hb)
  have hsz : w.mem b = it.slots := (hS.mem_block hb (le_refl _) (by omega)).trans hit.size
  have hword : H.word b = it.slots := hit.size
  have h₀ : ¬b = 0 := by omega
  rw [LibShr.safelyCopyData, Wp, wp_bind]
  refine hS.wp_insureInRange (by omega) (by omega) fun e hS₁ hlt hle => ?_
  simp (disch := omega) only [h₀, if_false, wp_bind, DATA_SLOTS, add_zero, wp_load, hsz]
  have h₁ : ¬b + it.slots - 1 = 0 := by omega
  refine hS₁.wp_insureInRange (by omega) (show b + it.slots - 1 < w.mem 2 by omega) fun e' hS₂ hlt' hle' => ?_
  simp only [h₁, if_false, wp_bind]
  have hstored : Stores w.mem b it.payload := hit.stores.congr fun a ha => hS.mem_block hb ha.1 ha.2
  have hbytes : bytesAt w.mem (b + 1) (w.mem b - 1).toNat = it.bytes := hS.blockBytes hb hit
  refine wp_copyToBuffer (w := w.setExt e') (b := b) hstored hit.wf (by omega) (show b + w.mem b ≤ e'.cur by omega)
    (show w.mem b < 2 ^ 59 by omega) ?_ ?_
  · intro i w' hw' hdel hst hlen hbuf hbs _
    have hsize : w.mem b * 8 - 8 + it.payload.length * SIZEOF_VEC = it.bufferSize := by rw [hsz]; rfl
    refine wp_pure.2 ⟨rfl, ⟨hst, hdel, hbuf.trans (congrArg some hbytes), ?_⟩, ?_, ?_⟩
    · rw [hbs]
      show w.mem b * 8 - 8 = _
      rw [hsz]
    · exact congrArg u.resized hsize
    · rcases hw' with rfl | rfl
      · exact ⟨hS₂, lt_of_lt_of_le hlt hle', hlen⟩
      · exact ⟨hS₂.allocated, lt_of_lt_of_le hlt hle', hlen⟩
  · intro _ hm
    exact absurd (hS₂.malloc 0) (by rw [hm]; decide)

/-! ## Expiry -/

/-- **`item_exceeds_limit`** for a queued or held item. -/
theorem itemExceedsLimit (hS : Sim w H Q) (hb : b ∈ H.live) (hit : ItemAt H.word b it) {p : TimespecPtr} {t now : Timespec}
    (hp : p.Reads w.mem t) : Wp tot (LibShr.itemExceedsLimit b p now) (fun r w' => r = it.exceeds t now ∧
      ∃ e, w' = w.setExt e ∧ Sim w' H Q ∧ w.ext.cur ≤ e.cur) w := by
  have hbb := hS.inv.wf.live_bounds hb
  have hroom := hS.inv.room
  have hend : ¬b < HDR_END := by simp only [HDR_END]; omega
  have hself : ∃ e, w = w.setExt e ∧ Sim w H Q ∧ w.ext.cur ≤ e.cur := ⟨w.ext, rfl, hS, le_refl _⟩
  rw [LibShr.itemExceedsLimit]
  simp only [hend, if_false, Wp, wp_bind]
  refine (wp_tvSec hp).2 ?_
  have hrest : ¬(t.sec = 0 ∧ t.nsec = 0) → Wp tot (insureInRange b >>= fun view => if view.slot ≠ b then pure false
      else loadTimespec view.extent (b + TM_SEC) >>= fun item => p.tvSec >>= fun sec => p.tvNsec >>= fun nsec =>
        pure (timespecgt (timespecsub now item) ⟨sec, nsec⟩)) (fun r w' => r = it.exceeds t now ∧
      ∃ e, w' = w.setExt e ∧ Sim w' H Q ∧ w.ext.cur ≤ e.cur) w := fun hne => by
    rw [Wp, wp_bind]
    refine hS.wp_insureInRange (by omega) (by omega) fun e hS₁ hlt hle => ?_
    have hin : b + 3 < e.cur := by
      have := hS₁.inv.geo.cur_mod
      have h : (w.setExt e).ext.cur = e.cur := rfl
      omega
    have h₁ : w.mem (b + 1) = it.words 1 := (hS.mem_block hb (by omega) (by omega)).trans
      (hit.words 1 (le_refl _) (by have := it.slots_ge; omega))
    have h₂ : w.mem (b + 2) = it.words 2 := (hS.mem_block hb (by omega) (by omega)).trans
      (hit.words 2 (by omega) (by have := it.slots_ge; omega))
    simp (disch := omega) only [ne_eq, not_true_eq_false, if_false, wp_bind, loadTimespec, TM_SEC, wp_load, wp_pure, add_assoc,
      Int.reduceAdd, h₁, h₂]
    refine (wp_tvSec (w := w.setExt e) hp).2 ((wp_tvNsec (w := w.setExt e) hp).2 ?_)
    refine ⟨?_, e, rfl, hS₁, hle⟩
    rw [Item.exceeds, if_neg hne]
    rfl
  by_cases hs : t.sec = 0
  · simp only [hs, if_true, wp_bind]
    refine (wp_tvNsec hp).2 ?_
    by_cases hn : t.nsec = 0
    · simp only [hn, if_true]
      refine wp_pure.2 ⟨?_, hself⟩
      rw [Item.exceeds, if_pos ⟨hs, hn⟩]
    · simp only [hn, if_false]
      exact hrest fun h => hn h.2
  · simp only [hs, if_false]
    exact hrest fun h => hs h.1

theorem isSet {n s : ℤ} {R : Bool → World → Prop} (hn : 0 ≤ n ∧ n < a) (hs : 0 ≤ s ∧ s < a) :
    Wp tot (LibShr.isSet a n s) R w ↔ R (decide (w.mem s ≠ 0) || decide (w.mem n ≠ 0)) w := by
  simp (disch := omega) only [LibShr.isSet, wp_bind, wp_load, wp_ite, wp_pure]
  by_cases h : w.mem n = 0 <;> simp [h]

theorem isCodelActive (hS : Sim w H Q) (ha : 512 ≤ a) {R : Bool → World → Prop} :
    Wp tot (LibShr.isCodelActive a) R w ↔ R Q.codel w := by
  have ht : (⟨w.mem 140, w.mem 141⟩ : Timespec) = Q.hdr.target := hS.hdr.target
  have hl : (⟨w.mem 118, w.mem 119⟩ : Timespec) = Q.hdr.limit := hS.hdr.limit
  rw [Queue.codel, ← ht, ← hl, LibShr.isCodelActive, Wp, wp_bind]
  refine (isSet (by simp only [TARGET_NSEC]; omega) (by simp only [TARGET_SEC]; omega)).trans ?_
  by_cases h : (decide (w.mem 140 ≠ 0) || decide (w.mem 141 ≠ 0)) = true
  · simp only [TARGET_SEC, TARGET_NSEC, h, Bool.not_true, Bool.false_eq_true, if_false, Bool.true_and]
    exact isSet (by simp only [LIMIT_NSEC]; omega) (by simp only [LIMIT_SEC]; omega)
  · rw [Bool.not_eq_true] at h
    simp only [TARGET_SEC, TARGET_NSEC, h, Bool.not_false, if_true, Bool.false_and, wp_pure]

theorem isDiscardOnExpire (hS : Sim w H Q) (ha : 512 ≤ a) {R : Bool → World → Prop} :
    Wp tot (LibShr.isDiscardOnExpire a) R w ↔ R Q.discards w := by
  have hf : w.mem 9 = Q.hdr.flags := hS.hdr.flags
  simp (disch := omega) only [LibShr.isDiscardOnExpire, wp_bind, FLAGS, wp_load, wp_pure, hf, Queue.discards]

/-- **`item_exceeds_delay`** tells whether the item held is too old. -/
theorem isExpired (hS : Sim w H Q) (hb : b ∈ H.live) (hit : ItemAt H.word b it) (ha : 512 ≤ a) :
    Wp tot (LibShr.isExpired a b) (fun r w' => r = (Q.expired it).1 ∧ Sim w' H (Q.expired it).2 ∧ w.ext.cur ≤ w'.ext.cur) w := by
  rw [LibShr.isExpired, Wp, wp_bind]
  refine (hS.isDiscardOnExpire ha).2 ?_
  by_cases hd : Q.discards = true
  swap
  · simp only [hd, Bool.false_eq_true, if_false, Queue.expired]
    exact wp_pure.2 ⟨rfl, hS, le_refl _⟩
  have hbb := hS.inv.wf.live_bounds hb
  have hend : ¬b < HDR_END := by simp only [HDR_END]; omega
  have hnow : w.clock 0 = Q.now := by rw [hS.clock]; rfl
  have hlim : (⟨w.mem 118, w.mem 119⟩ : Timespec) = Q.hdr.limit := hS.hdr.limit
  have htgt : (⟨w.mem 140, w.mem 141⟩ : Timespec) = Q.hdr.target := hS.hdr.target
  have hemp : (⟨w.mem 126, w.mem 127⟩ : Timespec) = Q.hdr.empty := hS.hdr.empty
  have hesec : w.mem 126 = Q.hdr.empty.sec := congrArg Timespec.sec hemp
  simp only [hd, if_true, Queue.expired, itemExceedsDelay, hend, if_false, wp_bind]
  refine wp_clock.2 ?_
  have hS₁ := hS.tick
  rw [hnow]
  -- one of the two times is used
  have huse : ∀ {s : ℤ} {t : Timespec}, 0 ≤ s → s + 1 < 512 → (⟨w.mem s, w.mem (s + 1)⟩ : Timespec) = t → Q.ageLimit Q.now = t →
      Wp tot (LibShr.itemExceedsLimit b (.shared a s) Q.now) (fun r w' => r = it.exceeds (Q.ageLimit Q.now) Q.now ∧
        Sim w' H Q.tick ∧ w.ext.cur ≤ w'.ext.cur) { w with clock := rest w.clock } := fun h₀ h₁ ht hage => by
    refine wp_mono ?_ (hS₁.itemExceedsLimit hb hit ⟨h₀, by omega, ht⟩)
    rintro r w' ⟨rfl, e, rfl, hS', hle⟩
    exact ⟨by rw [hage], hS', hle⟩
  refine (hS₁.isCodelActive ha).2 ?_
  show wp seq tot (if Q.codel = true then _ else _) _ _
  by_cases hc : Q.codel = true
  swap
  · rw [if_neg hc]
    exact huse (by decide) (by decide) hlim (by rw [Queue.ageLimit, if_neg (by simp [hc])])
  rw [if_pos hc]
  simp (disch := omega) only [loadTimespec, wp_bind, EMPTY_SEC, LIMIT_SEC, wp_load, wp_pure, Int.reduceAdd, hesec]
  by_cases hz : Q.hdr.empty.sec = 0
  · simp only [hz, if_true]
    exact huse (by decide) (by decide) hlim (by rw [Queue.ageLimit, if_neg (by simp [hz])])
  simp (disch := omega) only [hz, if_false, wp_bind, wp_load, wp_pure, hlim]
  have he' : (⟨Q.hdr.empty.sec, w.mem 127⟩ : Timespec) = Q.hdr.empty := by rw [← hesec]; exact hemp
  rw [he']
  by_cases hg : timespecgt (timespecsub Q.now Q.hdr.limit) Q.hdr.empty = true
  · rw [if_pos hg]
    exact huse (by decide) (by decide) htgt (by rw [Queue.ageLimit, if_pos (by simp [hc, hz, hg])])
  · rw [if_neg hg]
    exact huse (by decide) (by decide) hlim (by rw [Queue.ageLimit, if_neg (by simp [hg])])

/-! ## After an item was copied -/

theorem clearIfLast (hS : Sim w H Q) (ha : 512 ≤ a) {count : ℤ} :
    Wp tot (LibShr.clearIfLast a count) (fun _ w' => Leaves w H (if count = 1 then Q.clearEmpty else Q) w') w := by
  rw [LibShr.clearIfLast, Wp, wp_bind]
  refine (hS.isCodelActive ha).2 ?_
  by_cases hc : Q.codel = true <;> by_cases h₁ : count = 1
  · simp only [hc, if_true, h₁, Queue.clearEmpty]
    exact hS.clearEmpty ha
  · simp only [hc, if_true, h₁, if_false]
    exact wp_pure.2 hS.leaves
  · simp only [hc, Bool.false_eq_true, if_false, h₁, if_true, Queue.clearEmpty]
    exact wp_pure.2 hS.leaves
  · simp only [hc, Bool.false_eq_true, if_false, h₁]
    exact wp_pure.2 hS.leaves

theorem dispose (hS : Sim w H Q) {B : Multiset ℤ} (hB : H.blocks = b ::ₘ B) (hit : ItemAt H.word b it) (hb : b < w.ext.cur)
    {drop : Bool} {item : SqItem} : Wp tot (LibShr.dispose b drop item) (fun i w' =>
      i = (if drop then SqItem.ofStatus .errExist else { item with status := .ok }) ∧ Sim w' (H.release it.cls b B) (Q.putBlock it)) w := by
  rw [LibShr.dispose]
  split
  · rw [Wp, wp_bind]
    refine wp_mono ?_ (hS.freeBlock hB hit hb)
    rintro st w' ⟨-, -, hS'⟩
    exact wp_pure.2 ⟨rfl, hS'⟩
  · rw [Wp, wp_bind]
    refine wp_mono ?_ (hS.freeBlock hB hit hb)
    rintro st w' ⟨rfl, -, hS'⟩
    exact wp_pure.2 ⟨rfl, hS'⟩

end Sim

/-- Raising an event does not touch the modes. -/
theorem Queue.raise_discards (c : Prop) [Decidable c] (e : Event) : (Q.raise c e).discards = Q.discards := by
  rw [Queue.raise]
  split
  · rw [Queue.addEvent]
    split
    · simp only [Queue.discards, Bits.land_clear (f := Q.hdr.flags) (h := FLAG_DISCARD_EXPIRED) (getEventFlag_modes e).1]
    · rfl
  · rfl

/-- Only what expires while expired items are dropped is. -/
theorem Queue.expired_discards (h : (Q.expired it).1 = true) : (Q.expired it).2.discards = true := by
  rw [Queue.expired] at h ⊢
  by_cases hd : Q.discards = true
  · rw [if_pos hd]
    exact hd
  · rw [if_neg hd] at h
    exact absurd h Bool.false_ne_true

namespace Sim

/-- **`post_process_deq`** of a held item. -/
theorem postDeq (hS : Sim w H Q) (ht : Tells es Q ns) {B : Multiset ℤ} (hB : H.blocks = b ::ₘ B) (hit : ItemAt H.word b it) (hb : b < w.ext.cur)
    {item : SqItem} : NotedWp tot (Noted.postProcessDeq b item) (fun i v =>
      i = (if (Q.postDeq it).1 then SqItem.ofStatus .errExist else { item with status := .ok }) ∧ Tells es (Q.postDeq it).2 v.2 ∧
      ∃ H', Sim v.1 H' (Q.postDeq it).2 ∧ Held (H.release it.cls b B) H') (w, ns) := by
  have hcur := hS.cur
  have hbB : b ∈ H.blocks := by simp [hB]
  have hcnt : w.mem 7 = Q.hdr.count := hS.hdr.count
  -- what the call holds survives every stage
  have hkept : ∀ {H₁ H₂ : Heap}, Held H₁ H₂ → H₁.blocks = b ::ₘ B → ItemAt H₁.word b it →
      H₂.blocks = b ::ₘ B ∧ ItemAt H₂.word b it := fun hh hB hit =>
    ⟨hh.blocks.trans hB, hit.kept (hh.word b (by simp [hB]))⟩
  simp (disch := omega) only [Noted.postProcessDeq, NotedWp, wp_bind, wp_plain, wp_current, COUNT, wp_afa, hcnt]
  obtain ⟨H₁, hS₁, hh₁, hc₁⟩ := hS.setOne (s := 7) (by decide) (hS.hdr.setCount (Q.hdr.count + -1))
  obtain ⟨hB₁, hit₁⟩ := hkept hh₁ hB hit
  refine wp_mono ?_ (hS₁.clearIfLast hcur)
  rintro _ w₂ ⟨H₂, hS₂, hh₂, hc₂⟩
  obtain ⟨hB₂, hit₂⟩ := hkept hh₂ hB₁ hit₁
  refine wp_mono ?_ (hS₂.isExpired (Heap.mem_live_block (by simp [hB₂])) hit₂ hcur)
  rintro expired w₃ ⟨he, hS₃, hc₃⟩
  have hevents : (if Q.hdr.count = 1 then (Q.setHdr { Q.hdr with count := Q.hdr.count + -1 }).clearEmpty
      else Q.setHdr { Q.hdr with count := Q.hdr.count + -1 }).events = Q.events := by
    split
    · exact Queue.events_clearEmpty
    · rfl
  refine wp_mono ?_ (hS₃.raise (ht.kept (Queue.events_expired.trans hevents)) (by decide))
  rintro empty ⟨w₄, l₄⟩ ⟨⟨H₄, hS₄, hh₄, hc₄⟩, ht₄⟩
  obtain ⟨hB₄, hit₄⟩ := hkept hh₄ hB₂ hit₂
  refine wp_mono ?_ (hS₄.raise ht₄ (by decide))
  rintro time ⟨w₅, l₅⟩ ⟨⟨H₅, hS₅, hh₅, hc₅⟩, ht₅⟩
  dsimp only at hc₄ hc₅
  simp only [wp_plain]
  obtain ⟨hB₅, hit₅⟩ := hkept hh₅ hB₄ hit₄
  have hheld : Held H H₅ := ((hh₁.trans hh₂ hS.inv.wf.held_pos).trans hh₄ hS.inv.wf.held_pos).trans hh₅ hS.inv.wf.held_pos
  have hlt : b < w₅.ext.cur := by
    have h₁ : (w.setMem (setSlot w.mem 7 (Q.hdr.count + -1))).ext.cur = w.ext.cur := rfl
    omega
  -- nothing changed the mode since the item was found too old
  have hdrop : ∀ R : Bool → World → Prop, R expired w₅ →
      wp seq tot (if expired = true then LibShr.isDiscardOnExpire w.ext.cur else pure false) R w₅ := fun R hR => by
    by_cases hx : expired = true
    · rw [if_pos hx]
      refine (hS₅.isDiscardOnExpire hcur).2 ?_
      rw [Queue.raise_discards, Queue.raise_discards, Queue.expired_discards (he ▸ hx), ← hx]
      exact hR
    · rw [if_neg hx]
      rw [Bool.not_eq_true] at hx
      rw [hx] at hR
      exact wp_pure.2 hR
  refine hdrop _ ?_
  refine wp_mono ?_ (hS₅.dispose hB₅ hit₅ hlt)
  rintro i w₆ ⟨hi, hS₆⟩
  refine wp_mono ?_ (idle_notify hcur w₆ _ _ hS₆)
  rintro _ w₇ ⟨H₇, hS₇, hh₇, -⟩
  have hpost : Q.postDeq it = (expired, (((Q.setHdr { Q.hdr with count := Q.hdr.count + -1 } |> fun Q₁ =>
      if Q.hdr.count = 1 then Q₁.clearEmpty else Q₁).expired it).2.raise (Q.hdr.count = 1) .empty |>.raise (expired = true) .time).putBlock it) := by
    rw [he]
    rfl
  rw [hpost]
  refine wp_pure.2 ⟨hi, ht₅.kept Queue.events_putBlock, H₇, hS₇, (hheld.release hB).trans hh₇ fun c hc => ?_⟩
  exact hS.inv.wf.held_pos c (by rw [hB]; exact Multiset.mem_cons_of_mem hc)

theorem search (hS : Sim w H Q) : Wp tot (LibShr.search w.ext.cur) (fun r w' => match Q.takeItem with
    | none => r = none ∧ w' = w
    | some (it, Q') => ∃ b, r = some b ∧ ∃ H', Sim w' H' Q' ∧ TookItem H H' b it ∧
        H.stack ++ H.fifo = b :: (H'.stack ++ H'.fifo)) w := by
  rw [LibShr.search, Wp, wp_iterate, wp_bind]
  refine wp_mono ?_ hS.takeNext
  rintro r w₁ hr
  cases htake : Q.takeItem with
  | none =>
    rw [htake] at hr
    obtain ⟨rfl, rfl⟩ := hr
    exact wp_pure.2 ⟨rfl, rfl⟩
  | some p =>
    obtain ⟨it, Q'⟩ := p
    rw [htake] at hr
    obtain ⟨b, rfl, H₁, hS₁, htook, hitems⟩ := hr
    have hne : ¬b = 0 := by have := htook.slot; omega
    simp only [hne, if_false]
    exact wp_pure.2 ⟨b, rfl, H₁, hS₁, htook, hitems⟩

/-- **`deq`**: the next item is taken, copied and reported, or dropped. -/
theorem deq (hS : Sim w H Q) (ht : Tells es Q ns) {u : UserBuffer} : NotedWp tot (Noted.deq u) (fun r v => match Q.takeItem with
    | none => r = (SqItem.ofStatus .errEmpty, u) ∧ Tells es Q v.2 ∧ ∃ H', Sim v.1 H' Q ∧ Took [] H H'
    | some (it, Q') => (if (Q'.postDeq it).1 then r.1 = SqItem.ofStatus .errExist else r.1.Shows it .ok) ∧
      r.2 = u.resized it.bufferSize ∧ Tells es (Q'.postDeq it).2 v.2 ∧ ∃ H' b, Sim v.1 H' (Q'.postDeq it).2 ∧ Took [b] H H') (w, ns) := by
  rw [Noted.deq, NotedWp, wp_bind, wp_plain]
  refine wp_current.2 ?_
  rw [wp_bind, wp_plain]
  refine wp_mono ?_ hS.search
  rintro r w₁ hr
  cases htake : Q.takeItem with
  | none =>
    rw [htake] at hr
    obtain ⟨rfl, rfl⟩ := hr
    rw [Noted.deqFound, wp_bind, wp_plain]
    refine wp_mono ?_ (Idle.releasePrevExtents _ H Q hS)
    rintro _ w₂ ⟨H₂, hS₂, hh₂, -⟩
    exact wp_pure.2 ⟨rfl, ht, H₂, hS₂, hh₂.took⟩
  | some p =>
    obtain ⟨it, Q'⟩ := p
    rw [htake] at hr
    obtain ⟨b, rfl, H₁, hS₁, htook, hitems⟩ := hr
    rw [Noted.deqFound, Noted.deliver, wp_bind, wp_plain]
    refine wp_mono ?_ (hS₁.safelyCopyData (Heap.mem_live_block (by simp [htook.blocks])) htook.item)
    rintro ⟨copied, item, u'⟩ w₂ ⟨hc, hshow, hu, hS₂, hlt, -⟩
    dsimp only at hc hshow hu
    subst hc hu
    simp only [if_true, wp_bind]
    refine wp_mono ?_ (hS₂.postDeq (ht.kept (Queue.events_takeItem htake)) htook.blocks htook.item hlt)
    rintro i ⟨w₃, l₃⟩ ⟨hi, ht₃, H₃, hS₃, hh₃⟩
    rw [wp_plain]
    refine wp_mono ?_ (Idle.releasePrevExtents w₃ H₃ _ hS₃)
    rintro _ w₄ ⟨H₄, hS₄, hh₄, -⟩
    have hpos : ∀ c ∈ H.blocks, 0 < H₁.word c := fun c hc => by
      rw [htook.word]
      exact hS.inv.wf.held_pos c hc
    have hheld := hh₃.trans hh₄ hpos
    refine wp_pure.2 ⟨?_, rfl, ht₃, H₄, b, hS₄, htook.took hitems hheld⟩
    subst hi
    split
    · rfl
    · exact ⟨rfl, hshow.delivers, hshow.buffer, hshow.size⟩

/-! ## The loop of the remove functions -/

/-- What a remove function returns, by what the abstract queue says. -/
def Removed (H : Heap) (a : Option Item × UserBuffer × Queue) (r : SqItem × UserBuffer) (w' : World) : Prop :=
  (match a.1 with
    | none => r.1 = SqItem.ofStatus .errEmpty
    | some it => r.1.Shows it .ok) ∧ r.2 = a.2.1 ∧ ∃ H' l, Sim w' H' a.2.2 ∧ Took l H H'

/-- The same, and the notes tell which events were raised. -/
def RemovedTold (es : List Event) (H : Heap) (a : Option Item × UserBuffer × Queue) (r : SqItem × UserBuffer)
    (v : World × List EventNote) : Prop := Removed H a r v.1 ∧ Tells es a.2.2 v.2

/-- The loop of the remove functions, by induction on the attempts that are left: each takes an item. -/
theorem removeLoop {n : ℕ} (hg : g ≠ .timed none) (hS : Sim w H Q) (ht : Tells es Q ns) {u : UserBuffer} (hn : Q.items.length < n)
    (hsome : tot → (Q.removeLoop g n u).isSome) : NotedWp tot (iterate (Noted.removeRound (LibShr.deqGate g)) u)
      (fun r v => ∃ a, Q.removeLoop g n u = some a ∧ RemovedTold es H a r v) (w, ns) := by
  induction n generalizing w H Q u ns with
  | zero => exact absurd hn (Nat.not_lt_zero _)
  | succ n ih =>
    rw [NotedWp, wp_iterate, Noted.removeRound, wp_bind, wp_plain]
    refine wp_mono ?_ (hS.deqGate hg fun h => ?_)
    swap
    · have hloop := hsome h
      rw [Queue.removeLoop] at hloop
      cases hp : Q.pass .deq g with
      | none => rw [hp] at hloop; exact hloop
      | some _ => rfl
    rintro st w₁ ⟨b, Q₁, hpass, rfl, H₁, hS₁, hh₁, -⟩
    rw [Queue.removeLoop, hpass]
    rw [Queue.removeLoop, hpass] at hsome
    have hitems := Queue.items_pass hpass
    have ht₁ : Tells es Q₁ ns := ht.kept (Queue.events_pass hpass)
    cases b with
    | false => exact wp_pure.2 ⟨_, rfl, ⟨rfl, rfl, H₁, _, hS₁, hh₁.took⟩, ht₁⟩
    | true =>
      simp only [if_true, ne_eq, not_true_eq_false, if_false]
      rw [wp_bind]
      refine wp_mono ?_ (hS₁.deq ht₁)
      rintro ⟨i, u'⟩ ⟨w₂, l₂⟩ hr
      cases htake : Q₁.takeItem with
      | none =>
        -- the token is given back
        rw [htake] at hr
        obtain ⟨hi, ht₂, H₂, hS₂, htook⟩ := hr
        cases hi
        dsimp only [SqItem.ofStatus]
        simp only [reduceCtorEq, not_false_eq_true, if_true, wp_bind, wp_plain]
        refine wp_mono ?_ (hS₂.releaseGate .deq)
        rintro _ w₃ ⟨-, hS₃, -⟩
        exact wp_pure.2 ⟨_, rfl, ⟨rfl, rfl, H₂, _, hS₃, hh₁.took.trans hS.inv.wf hS₁.inv.wf htook⟩, ht₂.kept Queue.events_up⟩
      | some p =>
        obtain ⟨it, Q₂⟩ := p
        dsimp only at hsome ⊢
        rw [htake] at hr hsome
        obtain ⟨hi, hu, ht₂, H₂, b, hS₂, htook⟩ := hr
        dsimp only at hi hu hsome ⊢
        subst hu
        have htook₂ : Took ([] ++ [b]) H H₂ := hh₁.took.trans hS.inv.wf hS₁.inv.wf htook
        by_cases hdrop : (Q₂.postDeq it).1 = true
        · -- the item was too old, so the next one is tried
          rw [if_pos hdrop] at hi hsome
          subst hi
          dsimp only [SqItem.ofStatus]
          simp only [not_true_eq_false, if_false, wp_bind, wp_plain, hdrop, if_true]
          refine wp_mono ?_ (hS₂.releaseGate .enq)
          rintro _ w₃ ⟨-, hS₃, -⟩
          refine wp_pure.2 (wp_mono ?_ (ih hS₃ (ht₂.kept Queue.events_up) ?_ hsome))
          · rintro r v ⟨a, ha, ⟨hr, hu, H₄, l, hS₄, htook₄⟩, ht₄⟩
            exact ⟨a, ha, ⟨hr, hu, H₄, _, hS₄, htook₂.trans hS.inv.wf hS₂.inv.wf htook₄⟩, ht₄⟩
          · have hlen := congrArg List.length (Queue.items_takeItem htake)
            rw [hitems, List.length_cons] at hlen
            rw [Queue.items_up, Queue.items_postDeq]
            omega
        · rw [if_neg hdrop] at hi
          simp only [hi.status, reduceCtorEq, not_false_eq_true, if_true, not_true_eq_false, if_false, wp_bind, wp_plain, hdrop]
          refine wp_mono ?_ (hS₂.releaseGate .enq)
          rintro st w₃ ⟨rfl, hS₃, -⟩
          exact wp_pure.2 ⟨_, rfl, ⟨⟨rfl, hi.delivers, hi.buffer, hi.size⟩, rfl, H₂, _, hS₃, htook₂⟩, ht₂.kept Queue.events_up⟩

/-- **The frame of the remove functions.** -/
theorem removeThrough (hS : Sim w H Q) (ht : Tells es Q ns) {u : UserBuffer} (hg : g ≠ .timed none) (hsome : tot → (Q.remove g u).isSome) :
    NotedWp tot (Noted.removeThrough (LibShr.deqGate g) u) (fun r v => ∃ a, Q.remove g u = some a ∧ RemovedTold es H a r v) (w, ns) := by
  rw [Noted.removeThrough]
  refine hS.notedGuarded fun w₁ hS₁ => ?_
  rw [NotedWp, wp_bind]
  refine wp_mono ?_ (hS₁.removeLoop hg ht (Nat.lt_succ_self _) hsome)
  rintro r ⟨w₂, l₂⟩ ⟨a, ha, ⟨hi, hu, H₂, l, hS₂, htook⟩, ht₂⟩
  exact hS₂.notedUnguarded fun w₃ hS₃ => ⟨a, ha, ⟨hi, hu, H₂, l, hS₃, htook⟩, ht₂⟩

end Sim

end

end LibShr
