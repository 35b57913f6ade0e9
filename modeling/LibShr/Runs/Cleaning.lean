import LibShr.Runs.History
import LibShr.Spec.Times

/-!
# What a clean removes

`shr_q_clean` takes the longest prefix of expired items off the FIFO; here also what becomes of their
nodes and data blocks, and of everything that is not removed.
-/

namespace LibShr

open Prog

/-- A call that reads the clock as `clock_gettime` gives it: the nanoseconds are less than a second. -/
def Ticking (w : World) (e : Made) (w' : World) : Prop := Ran w e w' ∧ ∀ i, (e.caller.clock i).Normal

def overdue (m : ℤ → ℤ) (t now : Timespec) (b : ℤ) : Bool := t.nanos < now.nanos - (stampAt m b).nanos

/-- From `w` to `w'` the items older than `t` were removed from the front of the FIFO, `n` in number. -/
structure Cleaned (t now : Timespec) (n : ℕ) (w w' : World) : Prop where
  fifo : fifoBlocks w'.mem = (fifoBlocks w.mem).dropWhile (overdue w.mem t now)
  removed : (fifoBlocks w.mem).length = n + (fifoBlocks w'.mem).length
  stack : stackBlocks w'.mem = stackBlocks w.mem
  content : ∀ b ∈ itemBlocks w'.mem, ∀ i, 0 ≤ i → i < w.mem b → w'.mem (b + i) = w.mem (b + i)
  count : w'.mem COUNT = w.mem COUNT - n
  deq : w'.sem .deq = w.sem .deq - n
  enq : w'.sem .enq = w.sem .enq + n
  blocks : ∀ b ∈ (fifoBlocks w.mem).take n, ∃ k < 48, b ∈ freeBlocks w'.mem k
  items : listNodes w'.mem .item = (listNodes w.mem .item).drop n
  nodes : listNodes w'.mem .free = listNodes w.mem .free ++ (listNodes w.mem .item).take n

section
variable {α : Type} {l l₁ l₂ : List α}

/-- Two ends of a list are the same if they are equally long. -/
theorem suffix_eq (h₁ : l₁ <:+ l) (h₂ : l₂ <:+ l) (h : l₁.length = l₂.length) : l₁ = l₂ :=
  (List.suffix_of_suffix_length_le h₁ h₂ h.le).eq_of_length h

end

section
variable {w w' w₀ : World} {H H' : Heap} {Q Q' : Queue} {es : List Made} {depth b : ℤ} {p : Caller} {q : ShrQ} {t now : Timespec} {n : ℕ}

/-- The time stamps of queued items are readings of the clock. -/
theorem stamps_normal (hw : Created depth w₀) (h : Trace Ticking w₀ es w) :
    ∃ Q, Represents w Q ∧ Q.Sane ∧ ∀ it ∈ Q.items, it.stamp.Normal := by
  refine h.invariant (fun w => ∃ Q, Represents w Q ∧ Q.Sane ∧ ∀ it ∈ Q.items, it.stamp.Normal) ?_ ?_
  · rintro w e w' ⟨Q, hR, hs, hn⟩ ⟨hran, hclock⟩
    obtain ⟨Q', hd, hR'⟩ := hR.ran hran
    refine ⟨Q', hR', hd.sane hs, fun it hit => ?_⟩
    obtain ⟨a, ha, -⟩ := hd
    rcases Queue.step_items (Q := Q.reading e.caller.clock) hs.count ha with ⟨n, v, it', es, -, -, hch, hcame⟩ | ⟨δ, hch, hnew⟩ | ⟨hi, -⟩
    · rcases hch.mem it hit with hnew | hold
      · obtain ⟨i, hi⟩ := hcame.stamp
        rw [List.mem_singleton.1 hnew, hi]
        exact hclock i
      · exact hn it hold
    · rcases hch.mem it hit with h | hold
      · rw [hnew] at h
        cases h
      · exact hn it hold
    · rw [hi] at hit
      exact hn it hit
  · obtain ⟨ids, clock, hR₀⟩ := hw.represents
    exact ⟨_, hR₀, Queue.start_sane depth ids clock, fun it hit => by cases hit⟩

/-- The items of the FIFO a clean keeps. -/
theorem Queue.clean_fifo (hd : Q.fifo.length ≤ Q.sem .deq) (hclock : ∀ i, Q.clock i = now) :
    (Q.clean t).stack = Q.stack ∧ (Q.clean t).fifo = Q.fifo.dropWhile fun it => it.exceeds t now := by
  obtain ⟨hs, hf⟩ := Queue.cleanLoop_fifo (t := t) (n := Q.fifo.length + 1) (Nat.lt_succ_self _) hd
  refine ⟨hs, ?_⟩
  rw [Queue.clean, hf, ← dropFrom_const (i := 0)]
  simp only [hclock]

/-- What the two heaps and the two abstract queues say together. -/
theorem Sim.cleaned (hS : Sim w H Q) (hS' : Sim w' H' (Q.clean t)) (hdrop : Dropped n H H') (hs : Q.Sane)
    (hclock : ∀ i, Q.clock i = now) (ht : t.Normal) (ht₀ : t.nanos ≠ 0) (hnow : now.Normal)
    (hstamps : ∀ it ∈ Q.items, it.stamp.Normal) : Cleaned t now n w w' := by
  have hd : (Q.fifo.length : ℤ) ≤ Q.sem .deq := by
    have h := hs.deq
    rw [Queue.items, List.length_append] at h
    omega
  obtain ⟨hstack, hfifo⟩ := Queue.clean_fifo (t := t) hd hclock
  have hblocks := hS.fifoBlocks
  have hblocks' := hS'.fifoBlocks
  have hitems := hS.fifoItems
  have hitems' := hS'.fifoItems
  rw [hblocks] at hitems
  rw [hblocks'] at hitems'
  -- the blocks that stay are those whose items stay
  have hkeep : List.Forall₂ (ItemAt w.mem) (H.fifo.dropWhile (overdue w.mem t now)) (Q.clean t).fifo := by
    have hage : List.Forall₂ (fun b it => ItemAt w.mem b it ∧ it.stamp.Normal) H.fifo Q.fifo := by
      refine ((List.forall₂_and_left _ _).2 ⟨fun it hit => ?_, hitems.flip⟩).flip.imp fun _ _ h => ⟨h.2, h.1⟩
      exact hstamps it (List.mem_append_right _ hit)
    have hrel := dropFrom_rel (p := fun _ _ => overdue w.mem t now) (q := fun _ _ it => it.exceeds t now) (i := 0)
      (fun _ _ b it hbit => ?_) hage
    · rw [dropFrom_const, dropFrom_const, ← hfifo] at hrel
      exact hrel.imp fun _ _ h => h.1
    · have hiff := Timespec.olderThan_iff ht hnow hbit.2
      rw [Bool.eq_iff_iff, overdue, decide_eq_true_iff, hbit.1.stamp]
      exact ⟨fun h => hiff.2 ⟨ht₀, h⟩, fun h => (hiff.1 h).2⟩
  have hfifo' : H'.fifo = H.fifo.dropWhile (overdue w.mem t now) := by
    refine suffix_eq (l := H.fifo) ?_ (List.dropWhile_suffix _) ?_
    · rw [hdrop.fifo]
      exact List.drop_suffix _ _
    · rw [hitems'.length_eq, hkeep.length_eq]
  have hlen : H.fifo.length = n + H'.fifo.length := by
    have := hdrop.le
    rw [hdrop.fifo, List.length_drop]
    omega
  obtain ⟨k, hch⟩ := Queue.cleanLoop_change (Q := Q) (t := t) (n := Q.fifo.length + 1)
  have hk : k = n := by
    have h := hch.len
    have h₁ : (Q.clean t).items.length = Q.stack.length + (Q.clean t).fifo.length := by
      rw [Queue.items, List.length_append, hstack]
    have h₂ : Q.items.length = Q.stack.length + Q.fifo.length := List.length_append
    have h₃ := hitems.length_eq
    have h₄ := hitems'.length_eq
    change ((Q.clean t).items.length : ℤ) = Q.items.length + -(k : ℤ) at h
    omega
  subst hk
  have hcnt : w.mem COUNT = Q.hdr.count := hS.hdr.count
  have hcnt' : w'.mem COUNT = (Q.clean t).hdr.count := hS'.hdr.count
  refine ⟨?_, ?_, ?_, ?_, ?_, ?_, ?_, ?_, ?_, ?_⟩
  · rw [hblocks', hblocks]
    exact hfifo'
  · rw [hblocks', hblocks]
    exact hlen
  · rw [hS'.stackBlocks, hS.stackBlocks]
    exact hdrop.stack
  · intro b hb i h₀ hi
    have hold : List.Forall₂ (ItemAt w.mem) (itemBlocks w'.mem) (Q.clean t).items := by
      unfold itemBlocks Queue.items
      rw [hS'.stackBlocks, hblocks', hdrop.stack, ← hS.stackBlocks, hstack]
      exact List.rel_append hS.stackItems (hfifo' ▸ hkeep)
    obtain ⟨it, -, h₁, h₂⟩ := exists_both hold hS'.items hb
    have hsize := h₁.size
    by_cases hz : i = 0
    · rw [hz, add_zero, hsize, h₂.size]
    · rw [h₁.words i (by omega) (by omega), h₂.words i (by omega) (by omega)]
  · rw [hcnt', hcnt]
    exact hch.count
  · rw [hS'.sem, hS.sem]
    exact hch.deq
  · rw [hS'.sem, hS.sem]
    exact hch.enq
  · intro b hb
    rw [hblocks] at hb
    obtain ⟨k, hk, hbk⟩ := hdrop.freed b hb
    exact ⟨k, hk, by rwa [hS'.freeBlocks hk]⟩
  · rw [hS'.listNodes, hS.listNodes]
    exact hdrop.items
  · rw [hS'.listNodes, hS.listNodes, hS.listNodes]
    exact hdrop.nodes

/-- Entering the library changes nothing a clean is about. -/
theorem Cleaned.of_enter (h : Cleaned t now n (p.enter w) w') : Cleaned t now n w w' :=
  ⟨h.fifo, h.removed, h.stack, h.content, h.count, h.deq, h.enq, h.blocks, h.items, h.nodes⟩

/-- The call itself, in a state whose queue holds readings of the clock. -/
theorem clean_run (hR : Represents w Q) (hs : Q.Sane) (hstamps : ∀ it ∈ Q.items, it.stamp.Normal) (hp : p.Ok w)
    (hm : q.mode.canRead = true) (hclock : ∀ i, p.clock i = now) (ht : t.Normal) (ht₀ : t.nanos ≠ 0) (hnow : now.Normal) :
    ∃ n w', Runs seq (shrQClean (some q) (some t)) (p.enter w) .ok w' ∧ Cleaned t now n w w' ∧ ∃ Q', Represents w' Q' := by
  obtain ⟨H, hS⟩ := hR
  have hspec : Wp True (shrQClean (some q) (some t)) _ (p.enter w) := (hS.enter hp).clean hm
  obtain ⟨_, w', hr, rfl, n, H', hS', hdrop, -⟩ := (wp_iff_runs trivial).1 hspec
  have hcleaned := (hS.enter hp).cleaned hS' hdrop (hs.reading _) hclock ht ht₀ hnow hstamps
  exact ⟨n, w', hr, hcleaned.of_enter, _, H', hS'⟩

/-- **A clean removes exactly the expired prefix of the FIFO**, and gives back a data block and a node for
each item it removes. The nodes are the dummy and those of all removed items but the last, whose node is
the dummy from then on. -/
theorem clean_removes_expired (hw : Created depth w₀) (h : Trace Ticking w₀ es w) (hp : p.Ok w) (hm : q.mode.canRead = true)
    (hclock : ∀ i, p.clock i = now) (hnow : now.Normal) (ht : t.Normal) (ht₀ : t.nanos ≠ 0) :
    ∃ n w', Runs seq (shrQClean (some q) (some t)) (p.enter w) .ok w' ∧ Cleaned t now n w w' := by
  obtain ⟨Q, hR, hs, hstamps⟩ := stamps_normal hw h
  obtain ⟨n, w', hr, hcleaned, -⟩ := clean_run hR hs hstamps hp hm hclock ht ht₀ hnow
  exact ⟨n, w', hr, hcleaned⟩

/-- A node of the list of items is not free. -/
theorem Represents.node_not_free (hR : Represents w Q) {x : ℤ} (hx : x ∈ listNodes w.mem .item) : x ∉ listNodes w.mem .free := by
  obtain ⟨H, hS⟩ := hR
  rw [hS.listNodes] at hx ⊢
  exact fun hfree => hS.inv.wf.queue_ne (by decide) hx hfree rfl

end

/-- One byte was added at the time 1. -/
def Queue.waiting : Queue := Queue.fresh.after (fun _ => ⟨1, 0⟩) (.add .poll (some [65]) 1)

theorem waiting_represents : ∃ w₀ e w, Created 4 w₀ ∧ Ticking w₀ e w ∧ e.call = .add .poll (some [65]) 1 ∧ Represents w Queue.waiting := by
  obtain ⟨w₀, hw, hR₀⟩ := fresh_represents
  obtain ⟨r, w, hr, -, hR⟩ := hR₀.next (fun _ => ⟨1, 0⟩) (.add .poll (some [65]) 1) (by rintro v ⟨⟩; decide) (by decide +kernel)
  exact ⟨w₀, _, w, hw, ⟨hr, fun _ => ⟨le_refl (0 : ℤ), show (0 : ℤ) < 1000000000 by decide⟩⟩, rfl, hR⟩

/-- It is cleaned away at the time 10. -/
theorem waiting_cleaned {w w' : World} {n : ℕ} (hR : Represents w Queue.waiting) (h : Cleaned ⟨1, 0⟩ ⟨10, 0⟩ n w w') :
    ∃ b, fifoBlocks w.mem = [b] ∧ fifoBlocks w'.mem = [] ∧ n = 1 := by
  have hstamps : (fifoBlocks w.mem).map (stampAt w.mem) = [⟨1, 0⟩] := hR.fifo_stamps.trans (by decide +kernel)
  obtain ⟨b, hb, hstamp⟩ := List.map_eq_singleton_iff.1 hstamps
  have hgone : fifoBlocks w'.mem = [] := by
    rw [h.fifo, hb, List.dropWhile_cons_of_pos, List.dropWhile_nil]
    rw [overdue, hstamp]
    rfl
  have hn := h.removed
  rw [hgone, hb] at hn
  exact ⟨b, hb, hgone, hn.symm⟩

theorem clean_removes_expired_one : ∃ w₀ es w, ∃ p : Caller, ∃ w', Created 4 w₀ ∧ Trace Ticking w₀ es w ∧ p.Ok w ∧ Represents w Queue.waiting ∧
    Runs seq (shrQClean (some ⟨.readwrite⟩) (some ⟨1, 0⟩)) (p.enter w) .ok w' ∧ Cleaned ⟨1, 0⟩ ⟨10, 0⟩ 1 w w' ∧ fifoBlocks w'.mem = [] := by
  obtain ⟨w₀, e, w, hw, he, -, hR⟩ := waiting_represents
  have hp := Caller.page_ok hR ⟨.readwrite⟩ fun _ => ⟨10, 0⟩
  obtain ⟨n, w', hr, hcleaned⟩ := clean_removes_expired (q := ⟨.readwrite⟩) (t := ⟨1, 0⟩) hw (.cons he (.nil _)) hp rfl (fun _ => rfl)
    ⟨by decide, by decide⟩ ⟨by decide, by decide⟩ (by decide)
  obtain ⟨b, -, hgone, rfl⟩ := waiting_cleaned hR hcleaned
  exact ⟨w₀, _, w, _, w', hw, .cons he (.nil _), hp, hR, hr, hcleaned, hgone⟩

/-- The node of an item that was cleaned away alone is not free, it is the dummy. -/
theorem node_stays : ∃ w₀ es w, ∃ p : Caller, ∃ b x w', Created 4 w₀ ∧ Trace Ticking w₀ es w ∧ (∀ e ∈ es, e.call = .add .poll (some [65]) 1) ∧ p.Ok w ∧
    (∀ i, p.clock i = ⟨10, 0⟩) ∧ Runs seq (shrQClean (some ⟨.readwrite⟩) (some ⟨1, 0⟩)) (p.enter w) .ok w' ∧
    fifoBlocks w.mem = [b] ∧ fifoBlocks w'.mem = [] ∧ x ∈ (listNodes w.mem .item).tail ∧ w.mem (x + VALUE_OFFSET) = b ∧
    x ∉ listNodes w'.mem .free := by
  obtain ⟨w₀, e, w, hw, he, hadd, hR⟩ := waiting_represents
  have hp := Caller.page_ok hR ⟨.readwrite⟩ fun _ => ⟨10, 0⟩
  obtain ⟨n, w', hr, hcleaned, Q', hR'⟩ := clean_run (q := ⟨.readwrite⟩) (t := ⟨1, 0⟩) hR ⟨by decide +kernel, by decide +kernel, by decide +kernel, by decide +kernel⟩
    (by decide +kernel) hp rfl (fun _ => rfl) ⟨by decide, by decide⟩ (by decide) ⟨by decide, by decide⟩
  obtain ⟨b, hb, hgone, hn⟩ := waiting_cleaned hR hcleaned
  obtain ⟨x, hx, hxb⟩ := List.map_eq_singleton_iff.1 (show (listNodes w.mem .item).tail.map (fun n => w.mem (n + VALUE_OFFSET)) = [b] from hb)
  refine ⟨w₀, _, w, _, b, x, w', hw, .cons he (.nil _), by simpa using hadd, hp, fun _ => rfl, hr, hb, hgone, ?_, hxb, hR'.node_not_free ?_⟩
  · rw [hx]
    exact List.mem_singleton_self x
  · rw [hcleaned.items, hn, List.drop_one, hx]
    exact List.mem_singleton_self x

end LibShr
