import LibShr.Seq.Alloc
import LibShr.Seq.Bytes
import LibShr.Model.Api

/-!
# Creation

A fresh object is a whole number of pages, all zero and all mapped. After `shr_q_create` has filled
it in, it holds the heap of three dummy nodes.
-/

namespace LibShr

open Prog

/-- The object right after it was created, extended and mapped. -/
structure Fresh (env : Prop) (w : World) : Prop where
  zero : ∀ a, w.mem a = 0
  cur_mod : w.ext.cur % 512 = 0
  cur_pos : 512 ≤ w.ext.cur
  map_ok : env → ∀ n s, w.ext.map n s = .ok
  trunc_ok : env → ∀ n, w.ext.trunc n = true
  map_lim : ∀ n s, w.ext.map n s = .ok → env ∨ s * 8 < 2 ^ 47
  cur_lim : env ∨ w.ext.cur * 8 < 2 ^ 47

/-- A fresh object of one page, in a system that refuses nothing. -/
def World.fresh : World where
  mem := fun _ => 0
  sem := fun _ => 0
  ext := ⟨512, [], 4096, fun _ _ => .ok, fun _ => true⟩
  accessors := 0
  clock := fun _ => ⟨0, 0⟩
  malloc := fun _ => true
  signals := []

theorem World.fresh_fresh : Fresh True World.fresh where
  zero := fun _ => rfl
  cur_mod := by decide
  cur_pos := by decide
  map_ok := fun _ _ _ => rfl
  trunc_ok := fun _ _ => rfl
  map_lim := fun _ _ _ => .inl trivial
  cur_lim := .inl trivial

section
variable {tot env : Prop} {w : World}

/-- The part of `create_base_object` that fills in the object: sizes, version and tag are set. -/
theorem initBaseObject_spec (hf : Fresh env w) {tag : List UInt8} (htag : tag.length ≤ 8) (version : ℤ) :
    Wp tot (initBaseObject tag version) (fun _ w' => ∃ m, w' = w.setMem m ∧ Geo env m w.ext ∧ m 2 = w.ext.cur ∧
      m 3 = w.ext.cur * 8 ∧ m 6 = 110 ∧ ∀ a, 7 ≤ a → m a = 0) w := by
  have hcur := hf.cur_pos
  have hcm := hf.cur_mod
  simp (disch := omega) only [initBaseObject, SIZE, EXPAND_SIZE, DATA_ALLOC, BASE, VERSION, TAG, wp_bind, wp_current,
    wp_store, World.setMem_setMem]
  generalize hm : setSlot (setSlot (setSlot (setSlot w.mem 2 w.ext.cur) 3 (w.ext.cur * 8)) 6 110) 1 version = m
  have h₂ : m 2 = w.ext.cur := by subst hm; simp (disch := omega) only [setSlot_ne, setSlot_same]
  have h₃ : m 3 = w.ext.cur * 8 := by subst hm; simp (disch := omega) only [setSlot_ne, setSlot_same]
  have h₆ : m 6 = 110 := by subst hm; simp (disch := omega) only [setSlot_ne, setSlot_same]
  have h₀ : ∀ a, 7 ≤ a → m a = 0 := by
    subst hm
    intro a ha
    simp (disch := omega) only [setSlot_ne, hf.zero]
  -- the tag is one word at most
  have hpost : ∀ m', m' 2 = m 2 → m' 3 = m 3 → m' 6 = m 6 → (∀ a, 7 ≤ a → m' a = m a) →
      ∃ m'', w.setMem m' = w.setMem m'' ∧ Geo env m'' w.ext ∧ m'' 2 = w.ext.cur ∧
        m'' 3 = w.ext.cur * 8 ∧ m'' 6 = 110 ∧ ∀ a, 7 ≤ a → m'' a = 0 := by
    intro m' e₂ e₃ e₆ e₀
    refine ⟨m', rfl, ⟨?_, hcm, hcur, ?_, ?_, ?_, hf.map_ok, hf.trunc_ok, hf.map_lim, hf.cur_lim⟩, e₂.trans h₂,
      e₃.trans h₃, e₆.trans h₆, fun a ha => (e₀ a ha).trans (h₀ a ha)⟩
    all_goals omega
  refine (wp_memcpyTo (by omega) (le_refl _) (by omega)).2 ?_
  have hsame : ∀ a, 1 ≤ a → stored m 0 (Words.chunks (tag.take tag.length)) a = m a := by
    intro a ha
    refine stored_ne (.inr ?_)
    rw [List.take_length, Words.length_chunks]
    omega
  exact hpost _ (hsame 2 (by omega)) (hsame 3 (by omega)) (hsame 6 (by omega)) fun a ha => hsame a (by omega)

/-- `prime_list` where the node fits the first extent: the list holds one node, stamped alike in its
second word and beside the tail with a number of `ID_CNTR`. -/
theorem primeList_spec (hg : Geo env w.mem w.ext) (i : QId) (ha : 126 ≤ w.mem 6 ∨ i = .free ∧ 110 ≤ w.mem 6)
    (hlt : w.mem 6 + 4 < w.ext.cur) :
    Wp tot (primeList IDX_SIZE i.head (i.head + 1) i.tail (i.tail + 1)) (fun _ w' => ∃ m, w' = w.setMem m ∧
      m 6 = w.mem 6 + 4 ∧ m i.head = w.mem 6 ∧ m i.tail = w.mem 6 ∧ m (w.mem 6) = w.mem 6 ∧
      m (w.mem 6 + 1) = m (i.tail + 1) ∧ m (w.mem 6 + 1) = w.mem 10 ∧ m 10 = w.mem 10 + 1 ∧
      ∀ a, a ≠ 6 ∧ a ≠ 10 ∧ a ≠ i.head ∧ a ≠ i.head + 1 ∧ a ≠ i.tail ∧ a ≠ i.tail + 1 ∧ a ≠ w.mem 6 ∧ a ≠ w.mem 6 + 1 →
        m a = w.mem a) w := by
  have hi := i.words i
  have hi' : i.tail + 1 < 126 := by cases i <;> decide
  have hfree : i = .free → i.head = 4 ∧ i.tail = 12 := by rintro rfl; exact ⟨rfl, rfl⟩
  have ha' : 126 ≤ w.mem 6 ∨ i.head = 4 ∧ i.tail = 12 ∧ 110 ≤ w.mem 6 :=
    ha.imp id fun h => ⟨(hfree h.1).1, (hfree h.1).2, h.2⟩
  have hcur := hg.cur_pos
  have hidx : ((IDX_SIZE : ℕ) : ℤ) = 4 := rfl
  simp (disch := omega) only [primeList, wp_bind, wp_current, wp_allocNewData_in hg, hidx, ID_CNTR, wp_store, wp_afa,
    wp_load, World.setMem_setMem, carved, setSlot_ne, setSlot_same]
  refine ⟨_, rfl, ?_, ?_, ?_, ?_, ?_, ?_, ?_, fun a ha => ?_⟩
  all_goals simp (disch := omega) only [setSlot_ne, setSlot_same]

/-- `init_data_allocator`: the bump pointer is set and the free list holds one node. -/
theorem initDataAllocator_spec (hg : Geo env w.mem w.ext) {start : ℤ} (hs : 110 ≤ start)
    (hlt : start + 4 < w.ext.cur) :
    Wp tot (initDataAllocator start) (fun _ w' => ∃ m, w' = w.setMem m ∧ m 6 = start + 4 ∧ m 4 = start ∧
      m 12 = start ∧ m start = start ∧ m (start + 1) = m 13 ∧ m (start + 1) = w.mem 10 ∧ m 10 = w.mem 10 + 1 ∧
      ∀ a, a ≠ 4 ∧ a ≠ 5 ∧ a ≠ 6 ∧ a ≠ 10 ∧ a ≠ 12 ∧ a ≠ 13 ∧ a ≠ start ∧ a ≠ start + 1 → m a = w.mem a) w := by
  have hcur := hg.cur_pos
  have hg₁ : Geo env (setSlot w.mem 6 start) w.ext :=
    hg.congr (setSlot_ne _ _ (by omega)) (setSlot_ne _ _ (by omega))
  have h₆ : setSlot w.mem 6 start 6 = start := setSlot_same _ _ _
  simp (disch := omega) only [initDataAllocator, DATA_ALLOC, wp_bind, wp_current, wp_store]
  refine wp_mono ?_ (primeList_spec (w := w.setMem (setSlot w.mem 6 start)) hg₁ .free
    (.inr ⟨rfl, hs.trans_eq h₆.symm⟩) (lt_of_eq_of_lt (congrArg (· + 4) h₆) hlt))
  rintro _ w' ⟨m, rfl, hm⟩
  simp only [h₆] at hm
  obtain ⟨h₁, h₂, h₃, h₄, h₅, h₇, h₈, hsame⟩ := hm
  have h₁₀ : setSlot w.mem 6 start 10 = w.mem 10 := setSlot_ne _ _ (by decide)
  refine ⟨m, rfl, h₁, h₂, h₃, h₄, h₅, h₇.trans h₁₀, h₈.trans (congrArg (· + 1) h₁₀), fun a ha => ?_⟩
  exact (hsame a ⟨ha.2.2.1, ha.2.2.2.1, ha.1, ha.2.1, ha.2.2.2.2.1, ha.2.2.2.2.2.1, ha.2.2.2.2.2.2.1,
    ha.2.2.2.2.2.2.2⟩).trans (setSlot_ne _ _ ha.2.2.1)

/-- The heap of a queue that was just created. -/
def emptyHeap (word : ℤ → ℤ) : Heap where
  carved := [⟨164, 4, true⟩, ⟨168, 4, true⟩, ⟨172, 4, true⟩]
  alloc := 176
  queue := fun | .free => [164] | .event => [168] | .item => [172]
  lifo := []
  bucket := fun _ => []
  nodes := 0
  blocks := 0
  word := word

theorem emptyHeap_wf (word : ℤ → ℤ) : (emptyHeap word).Wf where
  tiles := by simp [emptyHeap, Tiles]
  node_size := by simp [emptyHeap]
  data_size := by simp [emptyHeap]
  nodes_eq := by
    simp only [emptyHeap, Heap.allNodes, Heap.starts]
    decide
  data_eq := by
    simp [emptyHeap, Heap.live, Heap.freed, Heap.starts]
  header := by simp [emptyHeap, Heap.live]
  bucket := by simp [emptyHeap]

/-- `format_as_queue` of an object whose sizes are set, which is 0 apart from them. -/
theorem formatAsQueue_spec (hg₁ : Geo env w.mem w.ext) (h0 : ∀ a, 7 ≤ a → w.mem a = 0) (maxDepth : ℤ) :
    Wp tot (formatAsQueue maxDepth) (fun st w' => st = .ok ∧ Inv env w' (emptyHeap w'.mem) ∧ w'.ext = w.ext ∧
      w'.malloc = w.malloc ∧ w'.sem .deq = 0 ∧ w'.sem .evnt = 0 ∧
      w'.sem .enq = (if maxDepth = 0 then SEM_VALUE_MAX else maxDepth) ∧
      w'.mem 145 = (if maxDepth = 0 then SEM_VALUE_MAX else maxDepth) ∧
      (∀ a ∈ settings, 7 ≤ a → a ≠ 145 → w'.mem a = 0) ∧ w'.clock = w.clock ∧ ∀ a, 176 ≤ a → w'.mem a = 0) w := by
  have hcur := hg₁.cur_pos
  rw [formatAsQueue, Wp, wp_bind]
  refine wp_mono ?_ (initDataAllocator_spec hg₁ (by decide) (by simp only [HDR_END]; omega))
  rintro _ _ ⟨m₂, rfl, k6, k4, k12, ks, ks', kst, kid, ksame⟩
  simp (disch := omega) only [wp_bind, wp_current, wp_semInit, Bool.not_true, Bool.false_eq_true, if_false, MAX_DEPTH, wp_store]
  -- the settings so far, then the two lists
  generalize hd : (if maxDepth = 0 then SEM_VALUE_MAX else maxDepth) = depth
  have l₁ : ∀ a, a ≠ 145 → setSlot m₂ 145 depth a = m₂ a := fun a h => setSlot_ne _ _ h
  have g₂ : Geo env m₂ w.ext := hg₁.congr (ksame 2 (by decide)) (ksame 3 (by decide))
  have g₃ : Geo env (setSlot m₂ 145 depth) w.ext := g₂.congr (l₁ 2 (by decide)) (l₁ 3 (by decide))
  have e₆ : setSlot m₂ 145 depth 6 = 168 := (l₁ 6 (by decide)).trans k6
  refine wp_mono ?_ (primeList_spec (w := ((w.setMem (setSlot m₂ 145 depth)).setSem _)) g₃ .event
    (.inl (by show (126 : ℤ) ≤ setSlot m₂ 145 depth 6; omega)) (by show setSlot m₂ 145 depth 6 + 4 < w.ext.cur; omega))
  rintro _ _ ⟨m₄, rfl, p6, ph, pt, ps, ps', pst, pid, psame⟩
  simp only [e₆] at p6 ph pt ps ps' pst psame
  have g₄ : Geo env m₄ w.ext := g₃.congr (psame 2 (by decide)) (psame 3 (by decide))
  refine wp_mono ?_ (primeList_spec (w := ((w.setMem m₄).setSem _)) g₄ .item
    (.inl (by show (126 : ℤ) ≤ m₄ 6; omega)) (by show m₄ 6 + 4 < w.ext.cur; omega))
  rintro _ _ ⟨m₅, rfl, q6, qh, qt, qs, qs', qst, qid, qsame⟩
  simp only [p6, Int.reduceAdd] at q6 qh qt qs qs' qst qsame
  have g₅ : Geo env m₅ w.ext := g₄.congr (qsame 2 (by decide)) (qsame 3 (by decide))
  have hm₄ : ∀ a, a ≠ 6 ∧ a ≠ 10 ∧ a ≠ 120 ∧ a ≠ 121 ∧ a ≠ 110 ∧ a ≠ 111 ∧ a ≠ 168 ∧ a ≠ 169 → a ≠ 145 → m₄ a = m₂ a :=
    fun a h h' => (psame a h).trans (l₁ a h')
  have hm₅ : ∀ a, a ≠ 6 ∧ a ≠ 10 ∧ a ≠ 124 ∧ a ≠ 125 ∧ a ≠ 112 ∧ a ≠ 113 ∧ a ≠ 172 ∧ a ≠ 173 → m₅ a = m₄ a := qsame
  -- the slots that none of the three lists uses are still 0
  have hrest : ∀ a, 14 ≤ a ∧ a < 164 ∧ a ≠ 110 ∧ a ≠ 111 ∧ a ≠ 112 ∧ a ≠ 113 ∧ a ≠ 120 ∧ a ≠ 121 ∧ a ≠ 124 ∧
      a ≠ 125 ∧ a ≠ 145 ∨ 7 ≤ a ∧ a < 10 → m₅ a = 0 := by
    intro a ha
    rw [hm₅ a (by omega), hm₄ a (by omega) (by omega), ksame a (by simp only [HDR_END]; omega)]
    exact h0 a (by omega)
  have hcs := g₅.cur_le
  have hqueue : ∀ i : QId, Links.QueueAt m₅ i.head i.tail ((emptyHeap m₅).queue i) := by
    intro i
    cases i with
    | item =>
      have ht : m₅ QId.item.tail = 172 := qt
      refine ⟨qh, by rw [ht]; rfl, ⟨?_, trivial⟩, ?_⟩
      · rw [ht]
        exact qs
      · rw [ht]
        exact qs'
    | event =>
      have ht : m₅ QId.event.tail = 168 := (hm₅ 110 (by decide)).trans pt
      refine ⟨(hm₅ 120 (by decide)).trans ph, by rw [ht]; rfl, ⟨?_, trivial⟩, ?_⟩
      · rw [ht]
        exact (hm₅ 168 (by decide)).trans ps
      · rw [ht]
        exact (hm₅ 169 (by decide)).trans (ps'.trans (hm₅ 111 (by decide)).symm)
    | free =>
      have h : ∀ a, a ≠ 6 ∧ a ≠ 10 ∧ (a < 110 ∨ 145 < a ∧ a < 168) → m₅ a = m₂ a := fun a ha =>
        (hm₅ a (by omega)).trans (hm₄ a (by omega) (by omega))
      have ht : m₅ QId.free.tail = 164 := (h 12 (by decide)).trans k12
      refine ⟨(h 4 (by decide)).trans k4, by rw [ht]; rfl, ⟨?_, trivial⟩, ?_⟩
      · rw [ht]
        exact (h 164 (by decide)).trans ks
      · rw [ht]
        exact (h 165 (by decide)).trans (ks'.trans (h 13 (by decide)).symm)
  -- the three nodes have the first three numbers
  have hstamps : m₅ 164 = 164 ∧ m₅ 165 = 0 ∧ m₅ 168 = 168 ∧ m₅ 169 = 1 ∧ m₅ 172 = 172 ∧ m₅ 173 = 2 ∧ m₅ 10 = 3 := by
    have h₂ : m₂ 10 = 1 := kid.trans (by rw [h0 10 (by decide)]; rfl)
    have h₄ : m₄ 10 = 2 := pid.trans (congrArg (· + 1) ((l₁ 10 (by decide)).trans h₂))
    refine ⟨?_, ?_, ?_, ?_, qs, qst.trans h₄, qid.trans (congrArg (· + 1) h₄)⟩
    · exact (hm₅ 164 (by decide)).trans ((hm₄ 164 (by decide) (by decide)).trans ks)
    · exact (hm₅ 165 (by decide)).trans ((hm₄ 165 (by decide) (by decide)).trans (kst.trans (h0 10 (by decide))))
    · exact (hm₅ 168 (by decide)).trans ps
    · exact (hm₅ 169 (by decide)).trans (pst.trans ((l₁ 10 (by decide)).trans h₂))
  have hnumbered : Links.Numbered m₅ (m₅ ID_CNTR) fun n => ∃ i, n ∈ (emptyHeap m₅).queue i := by
    obtain ⟨h₁, h₂, h₃, h₄, h₅, h₆, h₇⟩ := hstamps
    have hid : m₅ ID_CNTR = 3 := h₇
    have hnode : ∀ n, (∃ i, n ∈ (emptyHeap m₅).queue i) → m₅ n = n ∧ (n = 164 ∧ m₅ (n + 1) = 0 ∨ n = 168 ∧ m₅ (n + 1) = 1 ∨ n = 172 ∧ m₅ (n + 1) = 2) := by
      rintro n ⟨i, hn⟩
      cases i <;> obtain rfl := List.mem_singleton.1 hn
      · exact ⟨h₁, .inl ⟨rfl, h₂⟩⟩
      · exact ⟨h₅, .inr (.inr ⟨rfl, h₆⟩)⟩
      · exact ⟨h₃, .inr (.inl ⟨rfl, h₄⟩)⟩
    refine ⟨fun n hn => ?_, fun x y hx hy => ?_⟩
    · have := (hnode n hn).2
      omega
    · have := hnode x hx
      have := hnode y hy
      omega
  refine wp_pure.2 ⟨rfl, ⟨g₅, emptyHeap_wf _, ⟨fun a _ => rfl, hqueue, ?_, fun k hk => ?_, q6, hnumbered⟩, ?_, ?_⟩,
    rfl, rfl, rfl, rfl, rfl, ?_, fun a ha h₇ h₁₄₅ => ?_, rfl, fun a ha => ?_⟩
  · exact ⟨hrest 142 (by decide), trivial⟩
  · exact ⟨hrest _ (by simp only [MEM_BKT_START]; omega), trivial⟩
  · show (176 : ℤ) < m₅ 2
    omega
  · intro _ x hx
    have : x.size = 4 := by
      simp only [emptyHeap, List.mem_cons, List.not_mem_nil, or_false] at hx
      rcases hx with rfl | rfl | rfl <;> rfl
    omega
  · exact (hm₅ 145 (by decide)).trans ((psame 145 (by decide)).trans (setSlot_same _ _ _))
  · refine hrest a ?_
    have hall : ∀ a ∈ settings, a < 10 ∨ 14 ≤ a ∧ a < 110 ∨ a = 114 ∨ 114 < a ∧ a < 120 ∨ a = 122 ∨ a = 123 ∨ 126 ≤ a := by
      decide
    have := hall a ha
    have := Heap.Wf.settings_lt ha
    omega
  · show m₅ a = 0
    rw [hm₅ a (by omega), hm₄ a (by omega) (by omega), ksame a (by simp only [HDR_END]; omega)]
    exact h0 a (by omega)

/-- **`shr_q_create`** leaves an empty queue of the given depth. -/
theorem initQueue_spec (hf : Fresh env w) (maxDepth : ℤ) :
    Wp tot (initQueue maxDepth) (fun st w' => st = .ok ∧ Inv env w' (emptyHeap w'.mem) ∧ w'.ext = w.ext ∧
      w'.malloc = w.malloc ∧ w'.sem .deq = 0 ∧ w'.sem .evnt = 0 ∧
      w'.sem .enq = (if maxDepth = 0 then SEM_VALUE_MAX else maxDepth) ∧
      w'.mem 145 = (if maxDepth = 0 then SEM_VALUE_MAX else maxDepth) ∧
      (∀ a ∈ settings, 7 ≤ a → a ≠ 145 → w'.mem a = 0) ∧ w'.clock = w.clock ∧ ∀ a, 176 ≤ a → w'.mem a = 0) w := by
  rw [initQueue, Wp, wp_bind]
  refine wp_mono ?_ (initBaseObject_spec hf (by decide) QVERSION)
  rintro _ _ ⟨m, rfl, hg, -, -, -, h0⟩
  exact formatAsQueue_spec (w := w.setMem m) hg h0 maxDepth

end

end LibShr
