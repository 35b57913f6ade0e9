import LibShr.Refine.Sim

/-!
# What the lists and the allocators do to the abstract queue

One lemma for each function of `shared_int.c` the queue is built from, where no call to the system
fails: the abstract queue before and after, and what the caller holds then.
-/

namespace LibShr

open Prog

section
variable {tot : Prop} {w w' : World} {H H' : Heap} {Q : Queue} {a s b n : ℤ} {it : Item} {N B : Multiset ℤ}

namespace Heap

variable {i j : QId} {d x : ℤ} {l : List ℤ}

@[simp] theorem link_queue_self : (H.link i s N B).queue i = H.queue i ++ [s] := Function.update_self i _ H.queue

theorem link_queue_ne (h : j ≠ i) : (H.link i s N B).queue j = H.queue j := Function.update_of_ne h _ H.queue

@[simp] theorem unlink_queue_self : (H.unlink i d x l).queue i = x :: l := Function.update_self i _ H.queue

theorem unlink_queue_ne (h : j ≠ i) : (H.unlink i d x l).queue j = H.queue j := Function.update_of_ne h _ H.queue

theorem link_fifo_ne (h : QId.item ≠ i) : (H.link i s N B).fifo = H.fifo := by
  rw [fifo, fifo, link_queue_ne h]
  rfl

theorem link_events_ne (h : QId.event ≠ i) : (H.link i s N B).events = H.events := by
  rw [events, events, link_queue_ne h]
  rfl

theorem unlink_fifo_ne (h : QId.item ≠ i) : (H.unlink i d x l).fifo = H.fifo := by
  rw [fifo, fifo, unlink_queue_ne h]
  rfl

theorem unlink_events_ne (h : QId.event ≠ i) : (H.unlink i d x l).events = H.events := by
  rw [events, events, unlink_queue_ne h]
  rfl

end Heap

/-- Taking a node leaves everything else alone. -/
theorem TookNode.held (ht : TookNode H H' n) : Held H { H' with nodes := H.nodes } := by
  have hstill : H.Still H' := fun a ha => ht.kept a ha.own
  exact
    { nodes := rfl
      blocks := ht.blocks
      carved := ht.carved
      word := fun b hb a h h' => ht.kept a (.inr (.inl ⟨b, Heap.mem_live_block hb, h, h'⟩))
      fifo := hstill.fifo ht.item
      stack := hstill.stack ht.lifo
      bucket := ht.bucket }

namespace Sim

theorem canMap (hS : Sim w H Q) (s : ℤ) : CanMap w.mem w.ext s := hS.inv.geo.canMap trivial s

/-- `insure_in_range` maps the slot. -/
theorem wp_insureInRange (hS : Sim w H Q) (hs : 0 < s) (hsz : s < w.mem 2) {R : View → World → Prop}
    (hR : ∀ e, Sim (w.setExt e) H Q → s < e.cur → w.ext.cur ≤ e.cur → R ⟨.ok, s, e.cur⟩ (w.setExt e)) :
    Wp tot (insureInRange s) R w := by
  refine wp_insureInRange_of hS.inv.geo hs hsz ?_ fun st hc => absurd (hS.canMap s) hc
  intro e _ _ hg hlt
  exact hR e (hS.grown hg) hlt hg.cur_le

theorem allocNode (hS : Sim w H Q) : Wp tot allocIdxSlots (fun v w' => ∃ H', Sim w' H' Q ∧ TookNode H H' v.slot ∧
    164 ≤ v.slot ∧ v.slot + 4 < v.extent ∧ v.extent = w'.ext.cur ∧ w.ext.cur ≤ w'.ext.cur) w := by
  refine wp_mono ?_ (allocIdxSlots_spec hS.inv fun _ => hS.canMap _)
  rintro v w' ⟨H₁, H', hlose, hs, hq, hle, -, ⟨htook, h₁₆₄, hlt, he, -⟩ | ⟨henv, -⟩⟩
  · have h₁ : H₁ = H := by
      rcases hlose with h | ⟨d, x, l, -, -, hc, -⟩
      · exact h
      · exact absurd (hS.canMap _) hc
    subst h₁
    have h := hS.kept hs hq (fun a ha => htook.kept a ha.own) htook.item htook.event htook.lifo htook.bucket hle
    rw [add_zero] at h
    exact ⟨H', h, htook, h₁₆₄, hlt, he, hs.cur_le⟩
  · exact absurd trivial henv

theorem freeNode (hS : Sim w H Q) (hN : H.nodes = s ::ₘ N) (hs : s < w.ext.cur) :
    Wp tot (addEnd s FREE_TAIL) (fun _ w' => Sim w' (H.link .free s N H.blocks) { Q with ids := Q.ids + 1 } ∧
      w.ext.cur ≤ w'.ext.cur) w := by
  refine wp_mono ?_ (addEnd_spec hS.inv .free hN (B := H.blocks) (zero_add _).symm hs fun _ => hS.canMap _)
  rintro _ w' ⟨hsaw, hq⟩
  exact ⟨hS.kept hsaw.toStep hq (fun _ _ => rfl) (Heap.link_queue_ne (by decide)) (Heap.link_queue_ne (by decide))
    rfl rfl (le_refl _), hsaw.cur_le⟩

/-- Writing one of the upper words of a held node. -/
theorem writeNode (hS : Sim w H Q) (hN : s ∈ H.nodes) {x v : ℤ} (hx : s + 2 ≤ x ∧ x < s + 4) :
    Sim (w.setMem (setSlot w.mem x v)) (H.adopt (setSlot w.mem x v) x (x + 1)) Q := by
  have hsb := hS.inv.wf.node_bounds (Heap.Wf.held_mem hN)
  have hI := hS.inv.writeNode (n := s) (a := x) (b := x + 1) (m := setSlot w.mem x v) hN (by omega) (by omega)
    fun c hc => setSlot_ne _ _ (by omega)
  have hsz : setSlot w.mem x v 2 = w.mem 2 := setSlot_ne _ _ (by omega)
  have hq : Quiet w (w.setMem (setSlot w.mem x v)) (H.adopt (setSlot w.mem x v) x (x + 1)) 0 := by
    refine .of_nodes hI.wf ((setSlot_ne _ _ (by omega)).trans (add_zero _).symm) (fun a ha hn => ?_) rfl rfl
    have := hn s (Heap.Wf.held_mem hN)
    exact setSlot_ne _ _ (by omega)
  have h := hS.kept ⟨hI, le_refl _, hsz.ge, fun _ _ => rfl, rfl⟩ hq (fun a ha => Heap.word_adopt_ne _ ?_) rfl rfl rfl rfl
    (le_refl _)
  · rwa [add_zero] at h
  · have := ha.ne_node hS.inv.wf hN
    omega

theorem linkEvent (hS : Sim w H Q) (e : Event) (hN : H.nodes = s ::ₘ N) (hs : s + 4 < w.ext.cur) :
    Wp tot (store w.ext.cur (s + EVENT_OFFSET) e.code) (fun _ w₁ => Wp tot (addEnd s EVENT_TAIL) (fun _ w' => ∃ H',
      Sim w' H' { Q with events := Q.events ++ [e], ids := Q.ids + 1 } ∧ Held { H with nodes := N } H' ∧
      w.ext.cur ≤ w'.ext.cur) w₁) w := by
  have hsn : s ∈ H.nodes := by simp [hN]
  have hsa := Heap.Wf.held_mem hsn
  have hsb := hS.inv.wf.node_bounds hsa
  simp (disch := omega) only [EVENT_OFFSET, wp_store]
  have hS₁ := hS.writeNode (x := s + 2) (v := e.code) hsn (by omega)
  refine wp_mono ?_ (addEnd_spec hS₁.inv .event (s := s) (N := N) (B := H.blocks) hN (zero_add _).symm
    (by show s < w.ext.cur; omega) fun _ => hS₁.canMap _)
  rintro _ w' ⟨hsaw, hq⟩
  set H₁ := H.adopt (setSlot w.mem (s + 2) e.code) (s + 2) (s + 2 + 1) with hH₁
  have hev : (H₁.link .event s N H.blocks).events = (Q.events ++ [e]).map Event.code := by
    have hne : H.queue .event ≠ [] := (hS.inv.rep.queue .event).ne_nil
    have hq' : (H₁.link .event s N H.blocks).queue .event = H.queue .event ++ [s] := Heap.link_queue_self
    have hold : ((H.queue .event).tail.map fun n => H₁.word (n + EVENT_OFFSET)) = Q.events.map Event.code := hS₁.events
    have hnew : H₁.word (s + 2) = e.code := (Heap.word_adopt_of _ (by omega)).trans (setSlot_same _ _ _)
    rw [Heap.events, hq', List.tail_append_of_ne_nil hne, List.map_append, List.map_append]
    exact congrArg₂ (· ++ ·) hold (congrArg (fun x => [x]) hnew)
  have hstill : H.Still H₁ := fun a ha => by
    have := ha.ne_node hS.inv.wf hsn
    exact Heap.word_adopt_ne _ (by omega)
  refine ⟨_, hS₁.move hsaw.toStep hq (fun _ _ => rfl) ?_ hS₁.stack hev rfl (le_refl _), ?_, hsaw.cur_le⟩
  · rw [Heap.link_fifo_ne (by decide)]
    exact hS₁.fifo
  · refine ⟨⟨rfl, rfl, List.prefix_refl _⟩, fun b hb a h h' => ?_, ?_, hstill.stack rfl, rfl⟩
    · have hlt : a < b + H.word b := h'
      have := hS.inv.wf.node_data_sep hsa (hS.inv.wf.header b (Heap.mem_live_block hb))
      exact Heap.word_adopt_ne _ (by omega)
    · exact (Heap.link_fifo_ne (by decide)).trans (hstill.fifo rfl)

theorem linkItem (hS : Sim w H Q) (hN : H.nodes = s ::ₘ N) (hB : H.blocks = H.value s ::ₘ B)
    (hit : ItemAt H.word (H.value s) it) (hs : s < w.ext.cur) :
    Wp tot (addEnd s TAIL) (fun _ w' => Sim w' (H.link .item s N B) { Q with fifo := Q.fifo ++ [it], ids := Q.ids + 1 }) w := by
  refine wp_mono ?_ (addEnd_spec hS.inv .item hN (B := B) (by rw [hB]; rfl) hs fun _ => hS.canMap _)
  rintro _ w' ⟨hsaw, hq⟩
  have hne : H.queue .item ≠ [] := (hS.inv.rep.queue .item).ne_nil
  have hf : (H.link .item s N B).fifo = H.fifo ++ [H.value s] := by
    rw [Heap.fifo, Heap.link_queue_self, List.tail_append_of_ne_nil hne, List.map_append]
    rfl
  have hev : (H.link .item s N B).events = H.events := Heap.link_events_ne (by decide)
  refine hS.move hsaw.toStep hq (fun _ _ => rfl) ?_ hS.stack (hev.trans hS.events) rfl (le_refl _)
  rw [hf]
  exact List.rel_append hS.fifo (.cons hit .nil)

theorem pushItem (hS : Sim w H Q) (hN : H.nodes = s ::ₘ N) (hB : H.blocks = H.value s ::ₘ B)
    (hit : ItemAt H.word (H.value s) it) (hs : s < w.ext.cur) :
    Wp tot (lifoAdd s) (fun _ w' => Sim w' (H.push s N B) { Q with stack := it :: Q.stack }) w := by
  refine wp_mono ?_ (lifoAdd_spec hS.inv hN hB hs)
  rintro _ w' ⟨hsaw, hq⟩
  have h := hS.move hsaw.toStep hq (fun _ _ => rfl) hS.fifo
    (.cons hit hS.stack) hS.events rfl (le_refl _)
  rwa [add_zero] at h

theorem frontItem (hS : Sim w H Q) {d x : ℤ} {l : List ℤ} (hl : H.queue .item = d :: x :: l) : ∃ it its, Q.fifo = it :: its ∧
    ItemAt H.word (H.value x) it ∧ List.Forall₂ (ItemAt H.word) (l.map H.value) its := by
  have hf : H.fifo = H.value x :: l.map H.value := by rw [Heap.fifo, hl]; rfl
  have h := hS.fifo
  rw [hf] at h
  obtain ⟨it, its, hit, hits, hQ⟩ := List.forall₂_cons_left_iff.1 h
  exact ⟨it, its, hQ, hit, hits⟩

theorem topItem (hS : Sim w H Q) {l : List ℤ} (hl : H.lifo = s :: l) : ∃ it its, Q.stack = it :: its ∧
    ItemAt H.word (H.value s) it ∧ List.Forall₂ (ItemAt H.word) (l.map H.value) its := by
  have hf : H.stack = H.value s :: l.map H.value := by rw [Heap.stack, hl]; rfl
  have h := hS.stack
  rw [hf] at h
  obtain ⟨it, its, hit, hits, hQ⟩ := List.forall₂_cons_left_iff.1 h
  exact ⟨it, its, hQ, hit, hits⟩

theorem unlinkItem (hS : Sim w H Q) {d x : ℤ} {l : List ℤ} (hl : H.queue .item = d :: x :: l) :
    ∃ it its, Q.fifo = it :: its ∧ ItemAt H.word (H.value x) it ∧
      Wp tot (removeFront d (w.mem HEAD_CNT) HEAD TAIL) (fun r w' => r = d ∧ d < w'.ext.cur ∧ w.ext.cur ≤ w'.ext.cur ∧
        Sim w' (H.unlink .item d x l) { Q with fifo := its }) w := by
  obtain ⟨it, its, hQ, hit, hits⟩ := hS.frontItem hl
  refine ⟨it, its, hQ, hit, ?_⟩
  refine wp_mono ?_ (removeFront_spec hS.inv .item hl fun _ => hS.canMap _)
  rintro r w' ⟨hr, hsaw, hlt, hq⟩
  have hf' : (H.unlink .item d x l).fifo = l.map H.value := by
    rw [Heap.fifo, Heap.unlink_queue_self]
    rfl
  have hev : (H.unlink .item d x l).events = H.events := Heap.unlink_events_ne (by decide)
  have h := hS.move hsaw.toStep hq (fun _ _ => rfl) (hf' ▸ hits) hS.stack
    (hev.trans hS.events) rfl (le_refl _)
  rw [add_zero] at h
  exact ⟨hr, hlt, hsaw.cur_le, h⟩

theorem popItem (hS : Sim w H Q) {l : List ℤ} (hl : H.lifo = s :: l) :
    ∃ it its, Q.stack = it :: its ∧ ItemAt H.word (H.value s) it ∧
      Wp tot (removeTop s (w.mem 143)) (fun r w' => r = s ∧ s < w'.ext.cur ∧
        Sim w' (H.pop s l) { Q with stack := its }) w := by
  obtain ⟨it, its, hQ, hit, hits⟩ := hS.topItem hl
  refine ⟨it, its, hQ, hit, ?_⟩
  refine wp_mono ?_ (removeTop_spec hS.inv hl fun _ => hS.canMap _)
  rintro r w' ⟨hr, hsaw, hlt, hq⟩
  have h := hS.move hsaw.toStep hq (fun _ _ => rfl) hS.fifo hits
    hS.events rfl (le_refl _)
  rw [add_zero] at h
  exact ⟨hr, hlt, h⟩

theorem unlinkEvent (hS : Sim w H Q) {d x : ℤ} {l : List ℤ} (hl : H.queue .event = d :: x :: l) :
    ∃ e es, Q.events = e :: es ∧ H.word (x + EVENT_OFFSET) = e.code ∧
      Wp tot (removeFront d (w.mem EVENT_HD_CNT) EVENT_HEAD EVENT_TAIL) (fun r w' => r = d ∧ d < w'.ext.cur ∧
        Sim w' (H.unlink .event d x l) { Q with events := es }) w := by
  have hf : H.events = H.word (x + EVENT_OFFSET) :: l.map fun n => H.word (n + EVENT_OFFSET) := by
    rw [Heap.events, hl]
    rfl
  obtain ⟨e, es, hQ, he, hes⟩ : ∃ e es, Q.events = e :: es ∧ e.code = H.word (x + EVENT_OFFSET) ∧
      es.map Event.code = l.map fun n => H.word (n + EVENT_OFFSET) := by
    have h := hS.events.symm
    rw [hf] at h
    exact List.map_eq_cons_iff.1 h
  refine ⟨e, es, hQ, he.symm, ?_⟩
  refine wp_mono ?_ (removeFront_spec hS.inv .event hl fun _ => hS.canMap _)
  rintro r w' ⟨hr, hsaw, hlt, hq⟩
  have hf' : (H.unlink .event d x l).fifo = H.fifo := Heap.unlink_fifo_ne (by decide)
  have hev : (H.unlink .event d x l).events = es.map Event.code := by
    rw [Heap.events, Heap.unlink_queue_self, hes]
    rfl
  have h := hS.move hsaw.toStep hq (fun _ _ => rfl) (hf' ▸ hS.fifo) hS.stack hev rfl
    (le_refl _)
  rw [add_zero] at h
  exact ⟨hr, hlt, h⟩

/-! ### Data blocks -/

/-- A free stack of the heap is empty where that of the abstract queue is. -/
theorem free_nil (hS : Sim w H Q) {k : ℕ} (hk : k < 48) : H.bucket k = [] ↔ Q.free k = [] := by
  have h := hS.free k hk
  constructor
  · intro he
    rw [he] at h
    exact List.forall₂_nil_left_iff.1 h
  · intro he
    rw [he] at h
    exact List.forall₂_nil_right_iff.1 h

theorem fit_eq (hS : Sim w H Q) (k : ℕ) : H.fit k = firstFit (fun j => Q.free j = []) k 3 :=
  firstFit_congr (fun _ hj => hS.free_nil hj) k 3

/-- A held block goes to the free stack of its class. -/
theorem freeBlock (hS : Sim w H Q) (hB : H.blocks = b ::ₘ B) (hit : ItemAt H.word b it) (hb : b < w.ext.cur) :
    Wp tot (freeDataSlots b) (fun st w' => st = .ok ∧ it.cls < 48 ∧ Sim w' (H.release it.cls b B) (Q.putBlock it)) w := by
  have hbl : b ∈ H.live := Heap.mem_live_block (by simp [hB])
  refine wp_mono ?_ (freeDataSlots_spec hS.inv hB hb)
  rintro st w' ⟨hst, k, hk, hs, hstep, hq⟩
  have hcls : k = it.cls := by
    have he : (2 : ℤ) ^ (k + 2) = 2 ^ (it.cls + 2) := hs.symm.trans hit.size
    have := pow_right_injective₀ (by norm_num : (0 : ℤ) < 2) (by norm_num) he
    omega
  subst hcls
  refine ⟨hst, hk, hstep.inv, fun n => by rw [hstep.malloc]; exact hS.malloc n, hq.clock.trans hS.clock,
    hq.sem.trans hS.sem, (hq.ids.trans (add_zero _)).trans hS.ids,
    hS.hdr.congr fun a ha => (hstep.inv.rep.priv a (.inl (shown_settings ha))).trans (hS.word_settings (shown_settings ha)).symm,
    hS.fifo, hS.stack, hS.events, fun j hj => ?_, fun a ha => (hq.loose a (.inl ha)).trans (hS.zero a ha)⟩
  by_cases hjk : j = it.cls
  · subst hjk
    have hbk : (H.release it.cls b B).bucket it.cls = b :: H.bucket it.cls := Function.update_self _ _ _
    have hQk : (Q.putBlock it).free it.cls = it.words :: Q.free it.cls := Function.update_self _ _ _
    have hloose : ∀ c ∈ b :: H.bucket it.cls, ∀ i, 2 ≤ i → i < 2 ^ (it.cls + 2) → w'.mem (c + i) = w.mem (c + i) :=
      fun c hc i h₁ h₂ => hq.loose _ (.inr ⟨it.cls, hj, c, hbk ▸ hc, by omega, by omega⟩)
    rw [hbk, hQk]
    refine .cons (fun i h₁ h₂ => ?_) (junk_kept (hS.free _ hj) fun c hc => hloose c (by simp [hc]))
    have hslots : it.slots = 2 ^ (it.cls + 2) := rfl
    rw [hloose b (by simp) i h₁ h₂, hS.mem_block hbl (by omega) (by omega), hit.words i (by omega) (by omega)]
  · have hbk : (H.release it.cls b B).bucket j = H.bucket j := Function.update_of_ne hjk _ _
    have hQk : (Q.putBlock it).free j = Q.free j := Function.update_of_ne hjk _ _
    rw [hbk, hQk]
    exact junk_kept (hS.free j hj) fun c hc i h₁ h₂ =>
      hq.loose _ (.inr ⟨j, hj, c, hbk ▸ hc, by omega, by omega⟩)

/-- **`alloc_data_slots`** hands out a block of the class and the content the abstract queue says. -/
theorem allocBlock (hS : Sim w H Q) {n k : ℕ} (h₄ : 4 ≤ n) (hn : n ≤ 2 ^ 30) (hk : Bits.ceilLog2 n = k + 2) :
    Wp tot (allocDataSlots n) (fun v w' => ∃ H', Sim w' H' (Q.takeBlock k).2.2 ∧ TookBlock H H' v.slot (Q.takeBlock k).1 ∧
      (∀ i, 1 ≤ i → i < 2 ^ ((Q.takeBlock k).1 + 2) → H'.word (v.slot + i) = (Q.takeBlock k).2.1 i) ∧
      H.carved <+: H'.carved ∧ k ≤ (Q.takeBlock k).1 ∧ 164 ≤ v.slot ∧ v.slot + 2 ^ (k + 2) < v.extent ∧ v.extent = w'.ext.cur) w := by
  have hpos := Heap.Wf.two_pow_mod k
  refine wp_mono ?_ (allocDataSlots_spec (fun _ => trivial) hS.inv h₄ (by omega) hk fun _ => hn)
  rintro v w' ⟨H₁, H', hlose, hs, hq, ⟨j, hkj, htook, hcase, h₁₆₄, hlt, he⟩ | ⟨henv, -⟩⟩
  swap
  · exact absurd trivial henv
  have h₁ : H₁ = H := by
    rcases hlose with h | ⟨b, j, -, -, -, hc⟩
    · exact h
    · exact absurd (hS.canMap _) hc
  subst h₁
  have hstill : H₁.Still H' := fun a ha => htook.kept a ha.own
  have hfifo : List.Forall₂ (ItemAt H'.word) H'.fifo Q.fifo := by
    rw [hstill.fifo (by rw [htook.queue])]
    exact items_kept hS.fifo fun b hb a h h' => hstill a (.inr (.inl ⟨b, .inl hb, h, h'⟩))
  have hstack : List.Forall₂ (ItemAt H'.word) H'.stack Q.stack := by
    rw [hstill.stack htook.lifo]
    exact items_kept hS.stack fun b hb a h h' => hstill a (.inr (.inl ⟨b, .inr hb, h, h'⟩))
  have hevents : H'.events = Q.events.map Event.code := (hstill.events (by rw [htook.queue])).trans hS.events
  have hids : w'.mem ID_CNTR = Q.ids := (hq.ids.trans (add_zero _)).trans hS.ids
  have hhdr : HeaderAt w'.mem Q.hdr := hS.hdr.congr fun a ha => by
    have ha := shown_settings ha
    exact (hs.inv.rep.priv a (.inl ha)).trans ((hstill a (.inl ha)).trans (hS.word_settings ha).symm)
  rcases hcase with ⟨⟨l, hf, hl, hb, hcv, hal⟩, hclear⟩ | ⟨rfl, ⟨hval, hb, hcv, hal⟩, hf, hwords⟩
  · -- a freed block is reused
    have hj := (firstFit_some hf).1
    obtain ⟨f, fs, hjunk, hfs, hQf⟩ : ∃ f fs, JunkAt w.mem j v.slot f ∧ List.Forall₂ (JunkAt w.mem j) l fs ∧ Q.free j = f :: fs := by
      have h := hS.free j hj
      rw [hl] at h
      exact List.forall₂_cons_left_iff.1 h
    have htake : Q.takeBlock k = (j, fun i => if i < 2 ^ (k + 2) then 0 else f i,
        { Q with free := Function.update Q.free j fs }) := by
      have hfit := (hS.fit_eq k).symm.trans hf
      simp only [Queue.takeBlock, hfit, hQf, List.headD_cons, List.tail_cons]
    rw [htake]
    dsimp only
    refine ⟨H', ⟨hs.inv, fun n => by rw [hs.malloc]; exact hS.malloc n, hq.clock.trans hS.clock, hq.sem.trans hS.sem, hids,
      hhdr, hfifo, hstack, hevents, fun i hi => ?_, fun a ha => ?_⟩, htook, fun i h₁ h₂ => ?_, hcv ▸ List.prefix_refl _, hkj, h₁₆₄, hlt, he⟩
    · have hkeep : ∀ c ∈ H'.bucket i, ∀ x, 2 ≤ x → x < 2 ^ (i + 2) → w'.mem (c + x) = w.mem (c + x) :=
        fun c hc x h₁ h₂ => hq.loose _ (.inr ⟨i, hi, c, hc, by omega, by omega⟩)
      rw [hb] at hkeep ⊢
      dsimp only
      by_cases hij : i = j
      · subst hij
        rw [Function.update_self, Function.update_self]
        rw [Function.update_self] at hkeep
        exact junk_kept hfs hkeep
      · rw [Function.update_of_ne hij, Function.update_of_ne hij]
        rw [Function.update_of_ne hij] at hkeep
        exact junk_kept (hS.free i hi) hkeep
    · exact (hq.loose a (.inl ha)).trans (hS.zero a (by rwa [hal] at ha))
    · by_cases hi : i < 2 ^ (k + 2)
      · simp only [hi, if_true]
        exact hclear.1 _ (by omega) (by omega)
      · simp only [hi, if_false]
        rw [hclear.2 _ (by omega) (by omega)]
        exact hjunk i (by omega) h₂
  · -- a new block is carved out
    have htake : Q.takeBlock j = (j, fun _ => 0, Q) := by
      have hfit := (hS.fit_eq j).symm.trans (hf trivial)
      simp only [Queue.takeBlock, hfit]
    have hle : H₁.alloc ≤ H'.alloc := by rw [hal]; omega
    rw [htake]
    dsimp only
    refine ⟨H', ⟨hs.inv, fun n => by rw [hs.malloc]; exact hS.malloc n, hq.clock.trans hS.clock, hq.sem.trans hS.sem, hids,
      hhdr, hfifo, hstack, hevents, fun i hi => ?_, fun a ha => ?_⟩, htook, fun i h₁ h₂ => ?_, hcv ▸ List.prefix_append _ _, hkj, h₁₆₄, hlt, he⟩
    · have hkeep : ∀ c ∈ H'.bucket i, ∀ x, 2 ≤ x → x < 2 ^ (i + 2) → w'.mem (c + x) = w.mem (c + x) :=
        fun c hc x h₁ h₂ => hq.loose _ (.inr ⟨i, hi, c, hc, by omega, by omega⟩)
      rw [hb] at hkeep ⊢
      exact junk_kept (hS.free i hi) hkeep
    · exact (hq.loose a (.inl ha)).trans (hS.zero a (hle.trans ha))
    · rw [hwords _ (by omega) (by omega)]
      exact hS.zero _ (by omega)

end Sim

end

end LibShr
