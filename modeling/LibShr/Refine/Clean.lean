import LibShr.Refine.Remove

/-!
# Dropping old items from the front

`shr_q_clean` takes items off the FIFO, not off the stack, as long as the front one is too old.
-/

namespace LibShr

open Prog

/-- `n` items were dropped from the front: their data blocks are free now, and so are `n` nodes, the
dummy first. The node of the last item dropped is the new dummy. -/
structure Dropped (n : ℕ) (H H' : Heap) : Prop where
  le : n ≤ H.fifo.length
  items : H'.queue .item = (H.queue .item).drop n
  nodes : H'.queue .free = H.queue .free ++ (H.queue .item).take n
  stack : H'.stack = H.stack
  fifo : H'.fifo = H.fifo.drop n
  freed : ∀ b ∈ H.fifo.take n, ∃ k < 48, b ∈ H'.bucket k
  bucket : ∀ k, H.bucket k ⊆ H'.bucket k

section
variable {tot : Prop} {w w' : World} {H H' H'' : Heap} {Q Q' : Queue} {a b d x s : ℤ} {l : List ℤ} {it : Item} {k m n : ℕ}

theorem Dropped.refl : Dropped 0 H H where
  le := Nat.zero_le _
  items := List.drop_zero.symm
  nodes := by rw [List.take_zero, List.append_nil]
  stack := rfl
  fifo := List.drop_zero.symm
  freed := by simp
  bucket := fun _ => List.Subset.refl _

theorem Dropped.trans (h : Dropped m H H') (h' : Dropped n H' H'') : Dropped (m + n) H H'' where
  le := by
    have h₁ := h'.le
    have h₂ := h.le
    rw [h.fifo, List.length_drop] at h₁
    omega
  items := by rw [h'.items, h.items, List.drop_drop]
  nodes := by rw [h'.nodes, h.nodes, h.items, List.append_assoc, List.take_add]
  stack := h'.stack.trans h.stack
  fifo := by rw [h'.fifo, h.fifo, List.drop_drop]
  freed := fun b hb => by
    rw [List.take_add, List.mem_append] at hb
    rcases hb with hb | hb
    · obtain ⟨k, hk, hbk⟩ := h.freed b hb
      exact ⟨k, hk, h'.bucket k hbk⟩
    · rw [← h.fifo] at hb
      exact h'.freed b hb
  bucket := fun k => List.Subset.trans (h.bucket k) (h'.bucket k)

/-- The heap after one turn of `shr_q_clean` that dropped an item. -/
theorem dropped_one {v : ℤ → ℤ} (hw : H.Wf) (hl : H.queue .item = d :: x :: l) (hk : k < 48) :
    Dropped 1 H ((((H.unlink .item d x l).adopt v 0 164).link .free d H.nodes (H.value x ::ₘ H.blocks)).release k (H.value x) H.blocks) := by
  set H₁ := (((H.unlink .item d x l).adopt v 0 164).link .free d H.nodes (H.value x ::ₘ H.blocks)).release k (H.value x) H.blocks with hH₁
  have hitem : H₁.queue .item = x :: l := by
    have h : (((H.unlink .item d x l).adopt v 0 164).link .free d H.nodes (H.value x ::ₘ H.blocks)).queue .item = _ :=
      Heap.link_queue_ne (by decide)
    have h' : (H.unlink .item d x l).queue .item = x :: l := Heap.unlink_queue_self
    exact h.trans h'
  have hfree : H₁.queue .free = H.queue .free ++ [d] := by
    have h : (((H.unlink .item d x l).adopt v 0 164).link .free d H.nodes (H.value x ::ₘ H.blocks)).queue .free = _ :=
      Heap.link_queue_self
    have h' : (H.unlink .item d x l).queue .free = H.queue .free := Heap.unlink_queue_ne (by decide)
    exact h.trans (congrArg (· ++ [d]) h')
  have hvalue : ∀ n ∈ H.allNodes, H₁.value n = H.value n := fun n hn => by
    have := hw.node_bounds hn
    exact Heap.word_adopt_ne _ (by omega)
  have hfifo : H.fifo = H.value x :: l.map H.value := by rw [Heap.fifo, hl]; rfl
  refine ⟨?_, ?_, ?_, ?_, ?_, ?_, ?_⟩
  · rw [hfifo, List.length_cons]
    omega
  · rw [hitem, hl]
    rfl
  · rw [hfree, hl]
    rfl
  · exact List.map_congr_left fun n hn => hvalue n (Heap.Wf.lifo_mem hn)
  · rw [hfifo, Heap.fifo, hitem]
    refine List.map_congr_left fun n hn => hvalue n (Heap.Wf.queue_mem (i := .item) ?_)
    rw [hl]
    exact List.mem_cons_of_mem _ (List.mem_cons_of_mem _ hn)
  · intro b hb
    rw [hfifo] at hb
    rw [List.mem_singleton.1 hb]
    exact ⟨k, hk, by simp [hH₁, Heap.release]⟩
  · intro j b hb
    by_cases hj : j = k
    · subst hj
      have h : H₁.bucket j = H.value x :: H.bucket j := Function.update_self _ _ _
      rw [h]
      exact List.mem_cons_of_mem _ hb
    · have h : H₁.bucket j = H.bucket j := Function.update_of_ne hj _ _
      rwa [h]

namespace Sim

/-- One turn of `shr_q_clean` after the gate. -/
theorem cleanFront (hS : Sim w H Q) {t : Timespec} : Wp tot (LibShr.cleanFront t) (fun r w' =>
    match Q.fifo with
    | [] => r = none ∧ Sim w' H Q
    | it :: its => if it.exceeds t Q.now then r = some .ok ∧ ∃ H', Sim w' H' (Q.tick.drop it its) ∧ Dropped 1 H H' ∧ Retains H H'
      else r = none ∧ Sim w' H Q.tick) w := by
  have hcur := hS.cur
  have hq := hS.inv.rep.queue .item
  simp (disch := omega) only [LibShr.cleanFront, Wp, wp_bind, wp_current, HEAD_CNT, HEAD, TAIL, wp_load]
  cases hl : H.queue .item with
  | nil => exact absurd hl hq.ne_nil
  | cons d t' =>
    rw [hl] at hq
    have hhead : w.mem 124 = d := hq.head
    have hnd : (d :: t').Nodup := hl ▸ hS.inv.wf.queue_nodup .item
    cases t' with
    | nil =>
      have hfifo : Q.fifo = [] := by
        have h := hS.fifo
        rw [Heap.fifo, hl] at h
        exact List.forall₂_nil_left_iff.1 h
      have he : w.mem 124 = w.mem 112 := (hq.head_eq_tail hnd).2 ⟨d, rfl⟩
      simp only [he, if_true, hfifo]
      exact wp_pure.2 ⟨rfl, hS⟩
    | cons x l =>
      have hda : d ∈ H.allNodes := Heap.Wf.queue_mem (i := .item) (by simp [hl])
      obtain ⟨hd₀, -, hdz, -⟩ := hS.inv.node_room hda
      have he : ¬d = w.mem 112 := by
        intro he
        obtain ⟨y, hy⟩ := (hq.head_eq_tail hnd).1 (hhead.trans he)
        simp at hy
      obtain ⟨it, its, hQ, hit, -⟩ := hS.frontItem hl
      have hfl : H.value x ∈ H.live := Heap.mem_live_fifo (by simp [Heap.fifo, hl])
      have hvb := hS.inv.wf.live_bounds hfl
      have hroom := hS.inv.room
      simp only [hhead, he, if_false, wp_bind, hQ]
      refine hS.wp_insureInRange (by omega) hdz fun e hS₁ hlt hle => ?_
      refine wp_mono ?_ (hS₁.nextItem hl)
      rintro _ w₂ ⟨rfl, e₂, rfl, hS₂, hle₂⟩
      have h₀ : ¬H.value x = 0 := by omega
      simp only [h₀, if_false, wp_bind]
      refine hS₂.wp_insureInRange (by omega) (show H.value x < w.mem 2 by omega) fun e₃ hS₃ hlt₃ hle₃ => ?_
      simp only [h₀, if_false, wp_bind]
      refine wp_clock.2 ?_
      have hnow : w.clock 0 = Q.now := by rw [hS.clock]; rfl
      refine wp_mono ?_ (hS₃.tick.itemExceedsLimit hfl hit (p := .own t) rfl)
      rintro r w₄ ⟨hr, e₄, rfl, hS₄, hle₄⟩
      rw [hnow] at hr
      subst hr
      by_cases hx : it.exceeds t Q.now = true
      swap
      · simp only [hx, Bool.not_false, if_true, Bool.false_eq_true, if_false]
        exact wp_pure.2 ⟨rfl, hS₄⟩
      simp only [hx, Bool.not_true, Bool.false_eq_true, if_false, if_true, wp_bind]
      obtain ⟨it', its', hQ', -, hwp⟩ := hS₄.unlinkItem hl
      obtain ⟨rfl, rfl⟩ := List.cons.inj (hQ.symm.trans hQ')
      refine wp_mono ?_ hwp
      rintro r w₅ ⟨hr, hlt₅, hle₅, hS₅⟩
      have hr' : ¬r = 0 := by omega
      have hcnt : w₅.mem 7 = Q.hdr.count := hS₅.hdr.count
      have ha : 512 ≤ e.cur := le_trans hcur hle
      simp (disch := omega) only [hr', if_false, wp_bind, COUNT, wp_afa, hcnt]
      have hS₆ := hS₅.settings (m := setSlot w₅.mem 7 (Q.hdr.count + -1)) (fun a ha => setSlot_ne _ _ fun he => ha (he ▸ by decide))
        (hS₅.hdr.setCount (Q.hdr.count + -1))
      refine wp_mono ?_ (hS₆.freeNode (N := H.nodes) rfl hlt₅)
      rintro _ w₇ ⟨hS₇, hle₇⟩
      have hit₇ : ItemAt ((H.unlink .item d x l).adopt (setSlot w₅.mem 7 (Q.hdr.count + -1)) 0 164).word (H.value x) it :=
        hit.kept fun a h _ => Heap.word_adopt_ne _ (by omega)
      have hb₇ : H.value x < w₇.ext.cur := by
        have h₁ : e₃.cur ≤ w₅.ext.cur := le_trans hle₄ hle₅
        have h₂ : w₅.ext.cur ≤ w₇.ext.cur := hle₇
        omega
      refine wp_mono ?_ (hS₇.freeBlock (B := H.blocks) rfl hit₇ hb₇)
      rintro _ w₈ ⟨-, hk, hS₈⟩
      rw [wp_map]
      refine wp_mono ?_ (hS₈.releaseGate .enq)
      rintro st w₉ ⟨rfl, hS₉, -⟩
      exact ⟨rfl, _, hS₉, dropped_one hS.inv.wf hl hk, rfl, rfl, List.prefix_refl _⟩

/-- The loop of `shr_q_clean`, by induction on the items of the FIFO. -/
theorem cleanLoop (hS : Sim w H Q) {t : Timespec} {n : ℕ} (hn : Q.fifo.length < n) :
    Wp tot (LibShr.cleanLoop t) (fun r w' => ∃ H' k, Dropped k H H' ∧ Retains H H' ∧ match r with
      | .inr st => st = .ok ∧ Sim w' H' (Q.cleanLoop t n)
      | .inl _ => ∃ Q', Sim w' H' Q' ∧ Q.cleanLoop t n = Q'.up .deq) w := by
  induction n generalizing w H Q with
  | zero => exact absurd hn (Nat.not_lt_zero _)
  | succ n ih =>
    rw [LibShr.cleanLoop, Wp, wp_iterate, wp_bind]
    refine wp_mono ?_ hS.deqGateTry_still
    rintro st w₁ ⟨b, Q₁, hpass, rfl, hS₁, -, -⟩
    rw [Queue.pass] at hpass
    rw [Queue.cleanLoop]
    by_cases hpos : 0 < Q.sem .deq
    swap
    · rw [if_neg hpos] at hpass ⊢
      cases hpass
      exact wp_pure.2 ⟨H, 0, .refl, .refl, rfl, hS₁⟩
    rw [if_pos hpos] at hpass ⊢
    cases hpass
    simp only [if_true, ne_eq, not_true_eq_false, if_false, wp_bind]
    refine wp_mono ?_ (hS₁.cleanFront (t := t))
    rintro r w₂ hr
    have hfifo : (Q.down .deq).fifo = Q.fifo := rfl
    cases hf : Q.fifo with
    | nil =>
      rw [hfifo, hf] at hr
      obtain ⟨rfl, hS₂⟩ := hr
      exact wp_pure.2 ⟨H, 0, .refl, .refl, _, hS₂, rfl⟩
    | cons it its =>
      rw [hfifo, hf] at hr
      have hnow : (Q.down .deq).now = Q.now := rfl
      dsimp only at hr ⊢
      rw [hnow] at hr
      by_cases hx : it.exceeds t Q.now = true
      · rw [if_pos hx] at hr
        obtain ⟨rfl, H₂, hS₂, hone, hb₂⟩ := hr
        rw [if_pos hx]
        refine wp_pure.2 (wp_mono ?_ (ih hS₂ ?_))
        · rintro r w₃ ⟨H₃, k, hk, hb₃, h₃⟩
          exact ⟨H₃, 1 + k, hone.trans hk, hb₂.trans hb₃, h₃⟩
        · rw [hf, List.length_cons] at hn
          show its.length < n
          omega
      · rw [if_neg hx] at hr
        obtain ⟨rfl, hS₂⟩ := hr
        rw [if_neg hx]
        exact wp_pure.2 ⟨H, 0, .refl, .refl, _, hS₂, rfl⟩

/-- **`shr_q_clean`** of a readable queue. -/
theorem clean (hS : Sim w H Q) {q : ShrQ} {t : Timespec} (hm : q.mode.canRead = true) :
    Wp tot (shrQClean (some q) (some t)) (fun st w' => st = .ok ∧ ∃ n H', Sim w' H' (Q.clean t) ∧ Dropped n H H' ∧
      Retains H H') w := by
  simp only [shrQClean, hm, Bool.not_true, Bool.false_eq_true, if_false]
  refine hS.guarded fun w₁ hS₁ => ?_
  rw [Wp, wp_bind]
  refine wp_mono ?_ (hS₁.cleanLoop (t := t) (Nat.lt_succ_self _))
  rintro (_ | st) w₂ ⟨H₂, n, hdrop, hbal, hr⟩
  · -- the token of the last turn is given back
    obtain ⟨Q₂, hS₂, hQ₂⟩ := hr
    dsimp only
    rw [wp_bind]
    refine wp_mono ?_ (hS₂.releaseGate .deq)
    rintro st w₃ ⟨rfl, hS₃, -⟩
    rw [← hQ₂] at hS₃
    exact hS₃.unguarded fun w₄ hS₄ => ⟨rfl, n, H₂, hS₄, hdrop, hbal⟩
  · obtain ⟨rfl, hS₂⟩ := hr
    exact hS₂.unguarded fun w₃ hS₃ => ⟨rfl, n, H₂, hS₃, hdrop, hbal⟩

end Sim

end

end LibShr
