import LibShr.Seq.Effects
import LibShr.Seq.Bytes

/-!
# Payloads in the array

How the elements of an item lie in its data block, and the two directions of copying them:
`copy_value` and `copy_vector` into a fresh block, `copy_to_buffer` and `initialize_item_vector` out
of one. A single element is described by the block's header; several are laid out one after another,
each behind its type and length.
-/

namespace LibShr

open Prog

/-- The type and the bytes of each element. -/
abbrev Payload := List (ℤ × List UInt8)

/-- Slots that `n` bytes need. -/
def slotsFor (n : ℕ) : ℕ := (n + 7) / 8

/-- The bytes `bs` are stored from slot `s` on. -/
def HasBytes (m : ℤ → ℤ) (s : ℤ) (bs : List UInt8) : Prop :=
  (bytesAt m s (slotsFor bs.length)).take bs.length = bs

/-- The elements of `p` lie one after another from slot `s` to slot `e`. -/
def Elems (m : ℤ → ℤ) : ℤ → Payload → ℤ → Prop
  | s, [], e => s = e
  | s, x :: p, e => m s = x.1 ∧ m (s + 1) = x.2.length ∧ HasBytes m (s + 2) x.2 ∧
      Elems m (s + 2 + slotsFor x.2.length) p e

/-- The data block `b` holds the payload `p`. -/
def Stores (m : ℤ → ℤ) (b : ℤ) : Payload → Prop
  | [x] => m (b + 5) = 1 ∧ m (b + 4) = x.1 ∧ m (b + 6) = x.2.length ∧ HasBytes m (b + 7) x.2 ∧
      7 + slotsFor x.2.length ≤ m b
  | p => m (b + 5) = p.length ∧ ∃ e, Elems m (b + 7) p e ∧ e ≤ b + m b

/-- A payload a queue can hold: no element is empty, types are C enumeration values. -/
def Payload.Wf (p : Payload) : Prop :=
  p ≠ [] ∧ ∀ x ∈ p, x.2 ≠ [] ∧ -2 ^ 31 ≤ x.1 ∧ x.1 < 2 ^ 32

section
variable {m m' : ℤ → ℤ} {s e b : ℤ} {bs : List UInt8} {p : Payload}

theorem HasBytes.congr (h : HasBytes m s bs) (hm : ∀ a, s ≤ a ∧ a < s + slotsFor bs.length → m' a = m a) :
    HasBytes m' s bs := by
  rwa [HasBytes, bytesAt_congr hm]

theorem Elems.le : ∀ {s : ℤ} {p : Payload}, Elems m s p e → s ≤ e
  | _, [], h => le_of_eq h
  | _, _ :: _, h => by
    have := h.2.2.2.le
    omega

theorem Elems.congr : ∀ {s : ℤ} {p : Payload}, Elems m s p e → (∀ a, s ≤ a ∧ a < e → m' a = m a) → Elems m' s p e
  | _, [], h, _ => h
  | s, x :: p, h, hm => by
    have hle := h.2.2.2.le
    obtain ⟨h₀, h₁, h₂, h₃⟩ := h
    exact ⟨(hm s (by omega)).trans h₀, (hm _ (by omega)).trans h₁, h₂.congr fun a ha => hm a (by omega),
      h₃.congr fun a ha => hm a (by omega)⟩

/-- The payload of a block depends on the block's slots only. -/
theorem Stores.congr (h : Stores m b p) (hm : ∀ a, b ≤ a ∧ a < b + m b → m' a = m a) : Stores m' b p := by
  match p, h with
  | [x], ⟨h₅, h₄, h₆, hb, hl⟩ =>
    have he : m' b = m b := hm b (by omega)
    exact ⟨(hm _ (by omega)).trans h₅, (hm _ (by omega)).trans h₄, (hm _ (by omega)).trans h₆,
      hb.congr fun a ha => hm a (by omega), he ▸ hl⟩
  | [], ⟨h₅, e, he, hl⟩ | _ :: _ :: _, ⟨h₅, e, he, hl⟩ =>
    have hle := he.le
    have hb : m' b = m b := hm b (by omega)
    exact ⟨(hm _ (by omega)).trans h₅, e, he.congr fun a ha => hm a (by omega), hb ▸ hl⟩

/-- A block is large enough for its payload's header. -/
theorem Stores.size (h : Stores m b p) (hp : p ≠ []) : 7 ≤ m b := by
  match p, h, hp with
  | [x], h, _ =>
    have := h.2.2.2.2
    omega
  | _ :: _ :: _, ⟨_, e, he, hl⟩, _ =>
    have := he.le
    omega

theorem Stores.count (h : Stores m b p) (hp : p ≠ []) : m (b + 5) = p.length := by
  match p, h, hp with
  | [x], h, _ => exact h.1
  | _ :: _ :: _, h, _ => exact h.1

end

/-! ## Copying in -/

/-- The element a vector entry stands for. -/
def SqVec.elem (v : SqVec) : ℤ × List UInt8 := (v.type, (v.base.getD []).take v.len.toNat)

/-- A block's slots behind its first one, by offset, once the header is written over `f`. -/
def headerWords (f : ℤ → ℤ) (now : Timespec) (uid type vcnt length : ℤ) : ℤ → ℤ :=
  setSlot (setSlot (setSlot (setSlot (setSlot (setSlot f TM_SEC now.sec) TM_NSEC now.nsec) UID uid) TYPE type)
    VEC_CNT vcnt) DATA_LENGTH length

/-- A block's slots after `copy_value`. -/
def valueWords (f : ℤ → ℤ) (now : Timespec) (uid type : ℤ) (bytes : List UInt8) : ℤ → ℤ :=
  stored (headerWords f now uid type 1 bytes.length) DATA_HDR (Words.chunks bytes)

/-- What the copy loop of `copy_vector` leaves from slot `s` on; it stops at an invalid element. -/
def elemsStored (m : ℤ → ℤ) : ℤ → List SqVec → ℤ → ℤ
  | _, [] => m
  | s, v :: vs =>
    if v.invalid then m
    else
      elemsStored (stored (setSlot (setSlot m s v.type) (s + 1) v.len) (s + 2) (Words.chunks v.elem.2))
        (s + 2 + slotsFor v.len.toNat) vs

/-- Slots reserved for a vector's elements. -/
def vectorSlots (vs : List SqVec) : ℤ := (vs.map vectorElemSlots).sum

/-- A block's slots after `copy_vector`. -/
def vectorWords (f : ℤ → ℤ) (now : Timespec) (uid : ℤ) (vs : List SqVec) : ℤ → ℤ :=
  elemsStored (headerWords f now uid 0 vs.length (vectorSlots vs * 8)) DATA_HDR vs

/-- The caller's memory can be read as far as the vector says. -/
def SqVec.Readable (v : SqVec) : Prop := v.invalid = false → v.len ≤ (v.base.getD []).length

section
variable {tot env : Prop} {w : World} {a s : ℤ}

theorem SqVec.valid_len {v : SqVec} (h : v.invalid = false) : 0 < v.len := by
  simp only [SqVec.invalid, Bool.or_eq_false_iff, decide_eq_false_iff_not] at h
  omega

theorem vectorElemSlots_le {v : SqVec} (h : 0 < v.len) : 2 + (slotsFor v.len.toNat : ℤ) ≤ vectorElemSlots v := by
  simp only [vectorElemSlots, slotsFor]
  split <;> omega

theorem vectorElemSlots_ge {v : SqVec} (h : 0 ≤ v.len) : 2 ≤ vectorElemSlots v := by
  simp only [vectorElemSlots]
  split <;> omega

theorem vectorSlots_ge {vs : List SqVec} (h : ∀ v ∈ vs, 0 ≤ v.len) : 2 * (vs.length : ℤ) ≤ vectorSlots vs := by
  induction vs with
  | nil => simp [vectorSlots]
  | cons v vs ih =>
    have hv := vectorElemSlots_ge (h v (by simp))
    have := ih fun v' hv' => h v' (by simp [hv'])
    simp only [vectorSlots, List.map_cons, List.sum_cons, List.length_cons, Nat.cast_add, Nat.cast_one] at this ⊢
    omega

/-- `memcpy` into the array, by what it leaves. -/
theorem wp_memcpyTo_bytes {src : List UInt8} {n : ℕ} (h₀ : 0 ≤ s) (h₁ : s + slotsFor n ≤ a)
    (ht : tot → n ≤ src.length) {Q : Unit → World → Prop}
    (hQ : ∀ m, m = stored w.mem s (Words.chunks (src.take n)) → HasBytes m s (src.take n) → (src.take n).length = n →
      (∀ x, ¬(s ≤ x ∧ x < s + slotsFor n) → m x = w.mem x) → Q () (w.setMem m)) :
    Wp tot (memcpyTo a s src n) Q w := by
  by_cases hn : n ≤ src.length
  · have hlen : (src.take n).length = n := by rw [List.length_take, min_eq_left hn]
    refine (wp_memcpyTo h₀ hn h₁).2 (hQ _ rfl ?_ hlen fun x hx => stored_ne ?_)
    · exact take_bytesAt_stored _ _ _ (by rw [slotsFor])
    · rw [Words.length_chunks, hlen]
      simp only [slotsFor] at hx
      omega
  · have hlen : (n : ℤ) > src.length := by omega
    simp only [memcpyTo, hlen, if_true, wp_bind]
    exact wp_undefined.2 fun h => hn (ht h)

/-- The copy loop of `copy_vector`: it stops at the first invalid element. -/
theorem wp_copyElems {vs : List SqVec} {Q : Bool → World → Prop} (h₀ : 0 ≤ s) (h₁ : s + vectorSlots vs ≤ a)
    (hs : ∀ v ∈ vs, 0 ≤ vectorElemSlots v) (ht : tot → ∀ v ∈ vs, v.Readable)
    (hQ : ∀ r m, m = elemsStored w.mem s vs → (∀ x, ¬(s ≤ x ∧ x < s + vectorSlots vs) → m x = w.mem x) →
      (r = true ↔ ∀ v ∈ vs, v.invalid = false) →
      (r = true → ∃ e, Elems m s (vs.map SqVec.elem) e ∧ e ≤ s + vectorSlots vs ∧
        ∀ v ∈ vs, v.elem.2 ≠ []) → Q r (w.setMem m)) :
    Wp tot (copyElems a s vs) Q w := by
  induction vs generalizing s w with
  | nil =>
    refine wp_pure.2 (hQ true w.mem rfl (fun _ _ => rfl) (by simp) fun _ => ⟨s, rfl, ?_, by simp⟩)
    simp [vectorSlots]
  | cons v vs ih =>
    have hv := hs v (by simp)
    have hsum : vectorSlots (v :: vs) = vectorElemSlots v + vectorSlots vs := by simp [vectorSlots]
    have hnn : 0 ≤ vectorSlots vs := List.sum_nonneg fun x hx => by
      obtain ⟨v', hv', rfl⟩ := List.mem_map.1 hx
      exact hs v' (by simp [hv'])
    by_cases hinv : v.invalid = true
    · simp only [copyElems, hinv, if_true]
      refine wp_pure.2 (hQ false w.mem (if_pos hinv).symm (fun _ _ => rfl) ?_ fun h => by cases h)
      simp [hinv]
    · have hval : v.invalid = false := by simpa using hinv
      have hlen := SqVec.valid_len hval
      obtain ⟨n, hn⟩ : ∃ n : ℕ, v.len = n := ⟨v.len.toNat, by omega⟩
      have hle := vectorElemSlots_le hlen
      have hlast : (if v.len % 8 ≠ 0 then s + 2 + v.len / 8 + 1 else s + 2 + v.len / 8) = s + 2 + slotsFor n := by
        simp only [slotsFor]
        split <;> omega
      have hread : tot → n ≤ (v.base.getD []).length := fun h => by
        have := ht h v (by simp) hval
        omega
      rw [hn, Int.toNat_natCast] at hle
      simp (disch := omega) only [copyElems, hval, Bool.false_eq_true, if_false, wp_bind, wp_store,
        World.setMem_setMem, hlast]
      rw [hn]
      refine wp_memcpyTo_bytes (by omega) (by omega) hread fun m₁ hst hb hbl hm₁ => ?_
      refine ih (by omega) (by omega) (fun v' hv' => hs v' (by simp [hv'])) (fun h v' hv' => ht h v' (by simp [hv']))
        fun r m hme hm hr hel => hQ r m ?_ ?_ ?_ ?_
      · have hbytes : v.elem.2 = (v.base.getD []).take n := by rw [SqVec.elem, hn, Int.toNat_natCast]
        rw [hme, elemsStored, if_neg hinv, hbytes, hn, Int.toNat_natCast, World.mem_setMem, hst, World.mem_setMem]
      · intro x hx
        rw [hm x (by omega), World.mem_setMem, hm₁ x (by omega)]
        simp (disch := omega) only [setSlot_ne]
      · simp [hr, hval]
      · intro h
        obtain ⟨e, he, hle', hne⟩ := hel h
        have hbytes : v.elem.2 = (v.base.getD []).take n := by rw [SqVec.elem, hn, Int.toNat_natCast]
        refine ⟨e, ⟨?_, ?_, ?_, ?_⟩, by omega, ?_⟩
        · rw [hm s (by omega), World.mem_setMem, hm₁ s (by omega)]
          simp (disch := omega) only [setSlot_ne, setSlot_same]
          rfl
        · rw [hm _ (by omega), World.mem_setMem, hm₁ _ (by omega), World.mem_setMem, setSlot_same, hbytes, hbl]
        · rw [hbytes]
          refine hb.congr fun x hx => hm x ?_
          rw [hbl] at hx
          omega
        · rwa [hbytes, hbl]
        · intro v' hv'
          rcases List.mem_cons.1 hv' with rfl | hv'
          · rw [hbytes]
            exact fun h => by rw [h] at hbl; simp at hbl; omega
          · exact hne v' hv'

theorem wp_updateBufferSize {space vecSz : ℤ} (ha : 8 < a) (ht : tot → 0 ≤ space ∧ space * 8 + vecSz < 2 ^ 63)
    {Q : Unit → World → Prop}
    (hQ : ∀ m, 0 ≤ space → space * 8 + vecSz < 2 ^ 63 → m 8 = max (w.mem 8) (space * 8 + vecSz) →
      (∀ x, x ≠ 8 → m x = w.mem x) → Q () (w.setMem m)) :
    Wp tot (updateBufferSize a space vecSz) Q w := by
  by_cases h : space < 0 ∨ space * 8 + vecSz ≥ 2 ^ 63
  · simp only [updateBufferSize, h, if_true, wp_bind]
    exact wp_undefined.2 fun hh => by have := ht hh; omega
  simp (disch := omega) only [updateBufferSize, h, if_false, wp_bind, BUFFER, wp_load]
  rw [wp_iterate]
  by_cases hb : space * 8 + vecSz > w.mem 8
  · simp (disch := omega) only [hb, if_true, wp_bind, wp_cas, wp_pure, Sum.elim_inr]
    exact hQ _ (by omega) (by omega) ((setSlot_same _ _ _).trans (max_eq_right (by omega)).symm)
      fun x hx => setSlot_ne _ _ hx
  · simp only [hb, if_false, wp_pure, Sum.elim_inr]
    exact hQ w.mem (by omega) (by omega) (max_eq_left (by omega)).symm fun _ _ => rfl

theorem setSlot_congr {P : ℤ → Prop} {f g : ℤ → ℤ} {s x y : ℤ} (h : ∀ i, P i → f i = g i) (hxy : P s → x = y) :
    ∀ i, P i → setSlot f s x i = setSlot g s y i := by
  intro i hi
  by_cases his : i = s
  · subst his
    rw [setSlot_same, setSlot_same, hxy hi]
  · rw [setSlot_ne _ _ his, setSlot_ne _ _ his, h i hi]

/-- What is stored at a slot depends on the old content of that slot only. -/
theorem stored_congr {P : ℤ → Prop} : ∀ {f g : ℤ → ℤ} {s : ℤ} {cs : List (List UInt8)},
    (∀ i, P i → f i = g i) → ∀ i, P i → stored f s cs i = stored g s cs i
  | _, _, _, [], h => h
  | _, _, s, c :: cs, h => by
    have hfirst := setSlot_congr (s := s) h fun hs => congrArg (Words.patch · c) (h s hs)
    unfold stored
    exact stored_congr hfirst

theorem elemsStored_congr {P : ℤ → Prop} : ∀ {f g : ℤ → ℤ} {s : ℤ} {vs : List SqVec},
    (∀ i, P i → f i = g i) → ∀ i, P i → elemsStored f s vs i = elemsStored g s vs i
  | _, _, _, [], h => h
  | f, g, s, v :: vs, h => by
    intro i hi
    rw [elemsStored, elemsStored]
    by_cases hv : v.invalid = true
    · rw [if_pos hv, if_pos hv, h i hi]
    · rw [if_neg hv, if_neg hv]
      exact elemsStored_congr (stored_congr (setSlot_congr (setSlot_congr h fun _ => rfl) fun _ => rfl)) i hi

theorem headerWords_congr {P : ℤ → Prop} {f g : ℤ → ℤ} {now : Timespec} {uid type vcnt length : ℤ}
    (h : ∀ i, P i → f i = g i) : ∀ i, P i → headerWords f now uid type vcnt length i = headerWords g now uid type vcnt length i :=
  setSlot_congr (setSlot_congr (setSlot_congr (setSlot_congr (setSlot_congr (setSlot_congr h fun _ => rfl) fun _ => rfl)
    fun _ => rfl) fun _ => rfl) fun _ => rfl) fun _ => rfl

theorem stored_shift (b : ℤ) : ∀ (m : ℤ → ℤ) (s : ℤ) (cs : List (List UInt8)) (i : ℤ),
    stored m (b + s) cs (b + i) = stored (fun i => m (b + i)) s cs i
  | _, _, [], _ => rfl
  | m, s, c :: cs, i => by
    have hf : (fun i => setSlot m (b + s) (Words.patch (m (b + s)) c) (b + i)) =
        setSlot (fun i => m (b + i)) s (Words.patch (m (b + s)) c) := by
      funext i
      simp only [setSlot, add_right_inj]
    rw [stored, stored, add_assoc, stored_shift b _ (s + 1) cs i, hf]

theorem elemsStored_shift (b : ℤ) : ∀ (m : ℤ → ℤ) (s : ℤ) (vs : List SqVec) (i : ℤ),
    elemsStored m (b + s) vs (b + i) = elemsStored (fun i => m (b + i)) s vs i
  | _, _, [], _ => rfl
  | m, s, v :: vs, i => by
    rw [elemsStored, elemsStored]
    by_cases hv : v.invalid = true
    · rw [if_pos hv, if_pos hv]
    · have hf : (fun i => stored (setSlot (setSlot m (b + s) v.type) (b + (s + 1)) v.len) (b + (s + 2))
          (Words.chunks v.elem.2) (b + i)) =
          stored (setSlot (setSlot (fun i => m (b + i)) s v.type) (s + 1) v.len) (s + 2) (Words.chunks v.elem.2) := by
        funext i
        rw [stored_shift]
        congr 1
        funext i
        simp only [setSlot, add_right_inj]
      rw [if_neg hv, if_neg hv, add_assoc b s 1, add_assoc b s 2, add_assoc b (s + 2), elemsStored_shift b _ _ vs i, hf]

theorem wp_storeDataHeader {b type vcnt length : ℤ} {now : Timespec} (hb : 110 ≤ b) (hlt : b + 6 < a)
    {Q : Unit → World → Prop}
    (hQ : ∀ m, m 10 = w.mem 10 + 1 →
      (∀ i, 1 ≤ i → m (b + i) = headerWords (fun i => w.mem (b + i)) now (w.mem 10) type vcnt length i) →
      (∀ x, x ≠ 10 → ¬(b + 1 ≤ x ∧ x < b + 7) → m x = w.mem x) → Q () (w.setMem m)) :
    Wp tot (storeDataHeader a b now type vcnt length) Q w := by
  simp (disch := omega) only [storeDataHeader, TM_SEC, TM_NSEC, UID, TYPE, VEC_CNT, DATA_LENGTH, ID_CNTR, wp_bind,
    wp_store, wp_afa, World.setMem_setMem]
  refine hQ _ ?_ (fun i hi => ?_) fun x h h' => ?_
  · simp (disch := omega) only [setSlot_ne, setSlot_same]
  · have hne : b + i ≠ 10 := by omega
    simp (disch := omega) only [headerWords, TM_SEC, TM_NSEC, UID, TYPE, VEC_CNT, DATA_LENGTH, setSlot, add_right_inj, hne,
      if_false, if_true, reduceIte, left_eq_add, add_eq_left]
    simp (disch := omega) only [if_neg]
  · simp (disch := omega) only [setSlot_ne]

variable {H : Heap}

/-- Filling the held block `b`: its first slots up to `e` and `ID_CNTR` may have changed. -/
theorem Inv.fill (hI : Inv env w H) {m : ℤ → ℤ} {b e : ℤ} (hb : b ∈ H.blocks) (he : e ≤ b + H.word b)
    (hids : m 10 = w.mem 10 + 1) (hsame : ∀ x, x ≠ 10 → ¬(b + 1 ≤ x ∧ x < e) → m x = w.mem x) :
    Inv env (w.setMem m) (H.adopt m (b + 1) e) := by
  refine (hI.counter (v := m 10) (by omega)).writeBlock (m := m) hb (by omega) he fun x hx => ?_
  by_cases h : x = 10
  · rw [h, World.mem_setMem, setSlot_same]
  · rw [World.mem_setMem, setSlot_ne _ _ h]
    exact hsame x h hx

/-- Writing one element into the held block `b`. -/
theorem wp_fillValue (hI : Inv env w H) {b type : ℤ} {now : Timespec} {value : List UInt8} {n : ℕ} (hb : b ∈ H.blocks)
    (hsize : ((7 + slotsFor n : ℕ) : ℤ) ≤ H.word b) (hlt : b + ((7 + slotsFor n : ℕ) : ℤ) ≤ a) (hn : 0 < n)
    (hread : tot → n ≤ value.length) {Q : Unit → World → Prop}
    (hQ : ∀ m e, e = b + ((7 + slotsFor n : ℕ) : ℤ) → m 10 = w.mem 10 + 1 →
      (∀ x, x ≠ 10 → ¬(b + 1 ≤ x ∧ x < e) → m x = w.mem x) →
      (∀ i, 1 ≤ i → m (b + i) = valueWords (fun i => w.mem (b + i)) now (w.mem 10) type (value.take n) i) →
      Inv env (w.setMem m) (H.adopt m (b + 1) e) → Stores (H.adopt m (b + 1) e).word b [(type, value.take n)] →
      value.take n ≠ [] → Q () (w.setMem m)) :
    Wp tot (storeDataHeader a b now type 1 n) (fun _ w₁ => Wp tot (memcpyTo a (b + DATA_HDR) value n) Q w₁) w := by
  have h₁₆₄ := (hI.wf.live_bounds (b := b) (by simp [Heap.live, hb])).1
  push_cast at hsize hlt
  refine wp_storeDataHeader (by omega) (by omega) fun m₁ hid₁ hw₁ hm₁ => ?_
  refine wp_memcpyTo_bytes (by simp only [DATA_HDR]; omega) (by simp only [DATA_HDR]; omega) hread
    fun m₂ hst hbytes hbl hm₂ => ?_
  simp only [DATA_HDR, World.mem_setMem] at hst hbytes hm₂
  have hsame : ∀ x, x ≠ 10 → ¬(b + 1 ≤ x ∧ x < b + ((7 + slotsFor n : ℕ) : ℤ)) → m₂ x = w.mem x := by
    intro x h h'
    push_cast at h'
    rw [hm₂ x (by omega)]
    exact hm₁ x h (by omega)
  have hne : value.take n ≠ [] := fun h => by
    rw [h] at hbl
    simp only [List.length_nil] at hbl
    omega
  refine hQ m₂ _ rfl ((hm₂ 10 (by omega)).trans hid₁) hsame (fun i hi => ?_)
    (hI.fill hb (by push_cast; omega) ((hm₂ 10 (by omega)).trans hid₁) hsame) ?_ hne
  · rw [hst, stored_shift, valueWords, hbl]
    exact stored_congr (P := fun i => 1 ≤ i) (fun i hi => hw₁ i hi) i hi
  · have hin : ∀ i : ℤ, 1 ≤ i → i < 7 + slotsFor n → (H.adopt m₂ (b + 1) (b + ((7 + slotsFor n : ℕ) : ℤ))).word (b + i) = m₂ (b + i) :=
      fun i h h' => Heap.word_adopt_of _ (by push_cast; omega)
    have hhd : ∀ i : ℤ, 1 ≤ i → i < 7 → (H.adopt m₂ (b + 1) (b + ((7 + slotsFor n : ℕ) : ℤ))).word (b + i) =
        headerWords (fun i => w.mem (b + i)) now (w.mem 10) type 1 n i := fun i h h' => by
      rw [hin i h (by omega), hm₂ _ (by omega)]
      exact hw₁ i h
    refine ⟨hhd 5 (by decide) (by decide), hhd 4 (by decide) (by decide), ?_, hbytes.congr fun x hx => ?_, ?_⟩
    · rw [hbl]
      exact hhd 6 (by decide) (by decide)
    · rw [hbl] at hx
      exact Heap.word_adopt_of _ (by push_cast; omega)
    · rw [hbl, Heap.word_adopt_ne _ (by omega)]
      exact hsize

/-- Writing several elements into the held block `b`, as far as they are valid. -/
theorem wp_fillVector (hI : Inv env w H) {b : ℤ} {now : Timespec} {vs : List SqVec} {n : ℕ} (hb : b ∈ H.blocks)
    (h₂ : 2 ≤ vs.length) (hlen : ∀ v ∈ vs, 0 ≤ v.len) (hn : 7 + vectorSlots vs = n) (hsize : (n : ℤ) ≤ H.word b)
    (hlt : b + (n : ℤ) ≤ a) (hread : tot → ∀ v ∈ vs, v.Readable) {Q : Bool → World → Prop}
    (hQ : ∀ r m e, e = b + (n : ℤ) → m 10 = w.mem 10 + 1 → (∀ x, x ≠ 10 → ¬(b + 1 ≤ x ∧ x < e) → m x = w.mem x) →
      (∀ i, 1 ≤ i → m (b + i) = vectorWords (fun i => w.mem (b + i)) now (w.mem 10) vs i) →
      Inv env (w.setMem m) (H.adopt m (b + 1) e) → (r = true ↔ ∀ v ∈ vs, v.invalid = false) →
      (r = true → Stores (H.adopt m (b + 1) e).word b (vs.map SqVec.elem) ∧ ∀ v ∈ vs, v.elem.2 ≠ []) → Q r (w.setMem m)) :
    Wp tot (storeDataHeader a b now 0 vs.length ((n - DATA_HDR) * 8))
      (fun _ w₁ => Wp tot (copyElems a (b + DATA_HDR) vs) Q w₁) w := by
  have h₁₆₄ := (hI.wf.live_bounds (b := b) (by simp [Heap.live, hb])).1
  have hge := vectorSlots_ge hlen
  refine wp_storeDataHeader (by omega) (by omega) fun m₁ hid₁ hw₁ hm₁ => ?_
  refine wp_copyElems (by simp only [DATA_HDR]; omega) (by simp only [DATA_HDR]; omega)
    (fun v hv => (by decide : (0 : ℤ) ≤ 2).trans (vectorElemSlots_ge (hlen v hv))) hread fun r m₂ hst hm₂ hr hel => ?_
  simp only [DATA_HDR, World.mem_setMem] at hst hm₂ hel
  have hsame : ∀ x, x ≠ 10 → ¬(b + 1 ≤ x ∧ x < b + (n : ℤ)) → m₂ x = w.mem x := by
    intro x h h'
    rw [hm₂ x (by omega)]
    exact hm₁ x h (by omega)
  have hlen7 : ((n : ℤ) - DATA_HDR) * 8 = vectorSlots vs * 8 := by
    rw [← hn]
    simp only [DATA_HDR]
    ring
  refine hQ r m₂ _ rfl ((hm₂ 10 (by omega)).trans hid₁) hsame (fun i hi => ?_) (hI.fill hb (by omega) ((hm₂ 10 (by omega)).trans hid₁) hsame) hr fun hrt => ?_
  · rw [hst, elemsStored_shift, vectorWords, ← hlen7]
    exact elemsStored_congr (P := fun i => 1 ≤ i) (fun i hi => hw₁ i hi) i hi
  · obtain ⟨e, hele, hle, hne⟩ := hel hrt
    have hin : ∀ x, b + 1 ≤ x ∧ x < b + n → (H.adopt m₂ (b + 1) (b + n)).word x = m₂ x := fun x hx => Heap.word_adopt_of _ hx
    obtain ⟨v₁, v₂, vs', rfl⟩ : ∃ v₁ v₂ vs', vs = v₁ :: v₂ :: vs' := by
      cases vs with
      | nil => simp at h₂
      | cons v₁ vs =>
        cases vs with
        | nil => simp at h₂
        | cons v₂ vs' => exact ⟨v₁, v₂, vs', rfl⟩
    refine ⟨⟨?_, e, hele.congr fun x hx => hin x (by omega), ?_⟩, hne⟩
    · rw [hin _ (by omega), hm₂ _ (by omega), ← List.map_cons, List.length_map]
      exact hw₁ 5 (by decide)
    · rw [Heap.word_adopt_ne _ (by omega)]
      omega

/-- The class of free stacks a request of `n` slots is served from. -/
def classOf (n : ℕ) : ℕ := Bits.ceilLog2 n - 2

theorem calcDataSlots_eq {length : ℕ} : calcDataSlots length = ((7 + slotsFor length : ℕ) : ℤ) := by
  simp only [calcDataSlots, DATA_HDR, slotsFor]
  split <;> omega

theorem foldl_vectorElemSlots (vs : List SqVec) (a : ℤ) : vs.foldl (fun space v => space + vectorElemSlots v) a = a + vectorSlots vs := by
  induction vs generalizing a with
  | nil => simp [vectorSlots]
  | cons v vs ih => rw [List.foldl_cons, ih, vectorSlots, vectorSlots, List.map_cons, List.sum_cons, add_assoc]

theorem calcVectorSlots_eq {vs : List SqVec} (h : ∀ v ∈ vs, 0 ≤ v.len) (hlt : 7 + vectorSlots vs < 2 ^ 63) :
    calcVectorSlots vs = 7 + vectorSlots vs := by
  have := vectorSlots_ge h
  rw [calcVectorSlots, foldl_vectorElemSlots, DATA_HDR]
  exact Int.bmod_eq_of_le (by omega) (by omega)

end

/-! ## Copying out -/

/-- A vector entry of a removed item shows an element in the buffer. -/
def Shows1 (bytes : List UInt8) (v : VecView) (x : ℤ × List UInt8) : Prop :=
  v.type = x.1 ∧ v.len = x.2.length ∧ 0 ≤ v.base ∧ v.base + v.len ≤ bytes.length ∧
    (bytes.drop v.base.toNat).take x.2.length = x.2

/-- The item hands the payload `p` to the caller: `value` points behind the header in the buffer, and
the vector shows every element. -/
def SqItem.Delivers (i : SqItem) (p : Payload) : Prop :=
  i.vcount = p.length ∧ i.value = some ((DATA_HDR - 1) * 8) ∧
    ∃ bytes, i.buffer = some bytes ∧ List.Forall₂ (Shows1 bytes) i.vector p

/-- The caller's buffer is large enough. -/
abbrev UserBuffer.Fits (u : UserBuffer) (total : ℤ) : Prop := u.present = true ∧ ¬u.size < total

/-- The caller's buffer after `resize_buffer`: its own where that is large enough, else a new one. -/
def UserBuffer.resized (u : UserBuffer) (total : ℤ) : UserBuffer := if u.Fits total then u else ⟨true, total⟩

section
variable {tot : Prop} {w : World} {m : ℤ → ℤ} {a b s e : ℤ} {bs : List UInt8} {p : Payload} {j n : ℕ}

theorem drop_bytesAt (m : ℤ → ℤ) (s : ℤ) (h : j ≤ n) :
    (bytesAt m s n).drop (j * 8) = bytesAt m (s + j) (n - j) := by
  obtain ⟨k, rfl⟩ := Nat.exists_eq_add_of_le h
  rw [bytesAt_add, List.drop_left' (length_bytesAt m s j), Nat.add_sub_cancel_left]

/-- The bytes of an element, in the copy of its block. -/
theorem HasBytes.copied (h : HasBytes m (s + j) bs) (hn : j + slotsFor bs.length ≤ n) :
    ((bytesAt m s n).drop (j * 8)).take bs.length = bs := by
  obtain ⟨k, hk⟩ := Nat.exists_eq_add_of_le (show slotsFor bs.length ≤ n - j by omega)
  rw [drop_bytesAt m s (by omega), hk, bytesAt_add, List.take_append_of_le_length]
  · exact h
  · rw [length_bytesAt, slotsFor]
    omega

theorem wp_readLong {Q : ℤ → World → Prop} (hj : j < n) (h : -2 ^ 63 ≤ m (s + j)) (h' : m (s + j) < 2 ^ 63) :
    Wp tot (readLong (bytesAt m s n) (j * 8 : ℕ)) Q w ↔ Q (m (s + j)) w := by
  have hin : ¬(((j * 8 : ℕ) : ℤ) < 0 ∨ ((j * 8 : ℕ) : ℤ) + 8 > (bytesAt m s n).length) := by
    rw [length_bytesAt]
    omega
  have hword : ((bytesAt m s n).drop (j * 8)).take 8 = Words.toBytes (m (s + j)) := by
    obtain ⟨k, hk⟩ := Nat.exists_eq_add_of_le (show 1 ≤ n - j by omega)
    rw [drop_bytesAt m s hj.le, hk, Nat.add_comm 1 k, bytesAt, List.take_left' (Words.length_toBytes _)]
  simp only [readLong, hin, if_false, wp_pure, Int.toNat_natCast, hword, Words.ofBytes_toBytes h h']

/-- `initialize_item_vector` finds the elements that were stored. -/
theorem wp_initializeItemVector {Q : List VecView → World → Prop} (hp : ∀ x ∈ p, x.2 ≠ [] ∧ -2 ^ 31 ≤ x.1 ∧ x.1 < 2 ^ 32)
    (he : Elems m (s + j) p e) (hle : e ≤ s + n) (hn : n * 8 < 2 ^ 63)
    (hQ : ∀ vs, List.Forall₂ (Shows1 (bytesAt m s n)) vs p → Q vs w) :
    Wp tot (initializeItemVector (bytesAt m s n) (j * 8 : ℕ) p.length) Q w := by
  induction p generalizing j Q with
  | nil => exact wp_pure.2 (hQ [] .nil)
  | cons x p ih =>
    obtain ⟨hx, hx₀, hx₁⟩ := hp x (by simp)
    obtain ⟨h₀, h₁, h₂, h₃⟩ := he
    have hlast := h₃.le
    have hpos : 0 < x.2.length := List.length_pos_of_ne_nil hx
    have hslots : x.2.length ≤ slotsFor x.2.length * 8 := by
      rw [slotsFor]
      omega
    have e₁ : s + (j : ℤ) + 1 = s + ((j + 1 : ℕ) : ℤ) := by push_cast; ring
    have e₂ : s + (j : ℤ) + 2 = s + ((j + 2 : ℕ) : ℤ) := by push_cast; ring
    have e₃ : s + (j : ℤ) + 2 + slotsFor x.2.length = s + ((j + 2 + slotsFor x.2.length : ℕ) : ℤ) := by push_cast; ring
    rw [e₁] at h₁
    rw [e₂] at h₂
    rw [e₃] at h₃ hlast
    have o₁ : ((j * 8 : ℕ) : ℤ) + 8 = (((j + 1) * 8 : ℕ) : ℤ) := by push_cast; ring
    have o₂ : ((j * 8 : ℕ) : ℤ) + 16 = (((j + 2) * 8 : ℕ) : ℤ) := by push_cast; ring
    simp only [initializeItemVector, List.length_cons, wp_bind, o₁, o₂]
    refine (wp_readLong (by omega) (by omega) (by omega)).2 ((wp_readLong (by omega) (by omega) (by omega)).2 ?_)
    -- a length fits a `size_t`, and the next element starts behind the last word of this one
    have hu : ((unsigned (m (s + ((j + 1 : ℕ) : ℤ))) : ℕ) : ℤ) = x.2.length := by
      rw [h₁, unsigned, Int.emod_eq_of_lt (by omega) (by omega), Int.toNat_natCast]
    have hnext : (if ((x.2.length : ℕ) : ℤ) ≤ 8 then (((j + 2) * 8 : ℕ) : ℤ) + 8
        else if ((x.2.length : ℕ) : ℤ) % 8 ≠ 0 then (((j + 2) * 8 : ℕ) : ℤ) + ((x.2.length : ℕ) : ℤ) / 8 * 8 + 8
        else (((j + 2) * 8 : ℕ) : ℤ) + ((x.2.length : ℕ) : ℤ) / 8 * 8) = (((j + 2 + slotsFor x.2.length) * 8 : ℕ) : ℤ) := by
      simp only [slotsFor]
      split
      · omega
      · split <;> omega
    rw [hu, hnext]
    refine ih (fun y hy => hp y (by simp [hy])) h₃ fun vs hvs => ?_
    refine wp_pure.2 (hQ _ (.cons ⟨h₀, rfl, Int.natCast_nonneg _, ?_, ?_⟩ hvs))
    · rw [length_bytesAt]
      show (((j + 2) * 8 : ℕ) : ℤ) + (x.2.length : ℤ) ≤ ((n * 8 : ℕ) : ℤ)
      omega
    · rw [Int.toNat_natCast]
      exact h₂.copied (by omega)

theorem wp_resizeBuffer {buffer : UserBuffer} {size : ℤ} (hb : 0 ≤ b) (hlt : b + 5 < a)
    {Q : Option UserBuffer → World → Prop} :
    Wp tot (resizeBuffer a b buffer size) Q w ↔
      if buffer.Fits (size + w.mem (b + 5) * SIZEOF_VEC) then Q (some buffer) w
      else if w.malloc 0 = true then
        Q (some ⟨true, size + w.mem (b + 5) * SIZEOF_VEC⟩) { w with malloc := rest w.malloc }
      else Q none { w with malloc := rest w.malloc } := by
  simp (disch := omega) only [resizeBuffer, VEC_CNT, wp_bind, wp_load]
  by_cases hf : buffer.present = true ∧ ¬buffer.size < size + w.mem (b + 5) * SIZEOF_VEC
  · rw [if_pos hf, if_pos hf, wp_pure]
  · rw [if_neg hf, if_neg hf, wp_bind]
    refine wp_malloc.trans ?_
    by_cases hm : w.malloc 0 = true
    · rw [if_pos hm, if_pos hm, wp_pure]
    · rw [if_neg hm, if_neg hm, wp_pure]

/-- **`copy_to_buffer`** of a stored payload, which fails exactly where memory is lacking. -/
theorem wp_copyToBuffer {item : SqItem} {buffer : UserBuffer} (hS : Stores w.mem b p) (hp : p.Wf) (hb : 0 ≤ b)
    (hle : b + w.mem b ≤ a) (hsz : w.mem b < 2 ^ 59) {Q : SqItem × UserBuffer → World → Prop}
    (hok : ∀ i w', (w' = w ∨ w' = { w with malloc := rest w.malloc }) → i.Delivers p → i.status = item.status →
      i.length = w.mem (b + 6) → i.buffer = some (bytesAt w.mem (b + 1) (w.mem b - 1).toNat) → i.bufSize = w.mem b * 8 - 8 →
      buffer.Fits (w.mem b * 8 - 8 + p.length * SIZEOF_VEC) ∨ w.malloc 0 = true →
      Q (i, buffer.resized (w.mem b * 8 - 8 + p.length * SIZEOF_VEC)) w')
    (hfail : ¬buffer.Fits (w.mem b * 8 - 8 + p.length * SIZEOF_VEC) → w.malloc 0 = false →
      Q ({ item with status := .errNomem }, ⟨false, 0⟩) { w with malloc := rest w.malloc }) :
    Wp tot (copyToBuffer a b item buffer) Q w := by
  have h₇ := hS.size hp.1
  have hcount := hS.count hp.1
  obtain ⟨n, hn⟩ : ∃ n : ℕ, w.mem b = n + 1 := ⟨(w.mem b - 1).toNat, by omega⟩
  have hsize : w.mem b * 8 - 8 = (n * 8 : ℕ) := by omega
  -- once there is a buffer
  have hcopy : ∀ u w', u = buffer.resized (w.mem b * 8 - 8 + p.length * SIZEOF_VEC) →
      (w' = w ∨ w' = { w with malloc := rest w.malloc }) → buffer.Fits (w.mem b * 8 - 8 + p.length * SIZEOF_VEC) ∨ w.malloc 0 = true →
      Wp tot (do
        if w.mem b * 8 - 8 < 0 then undefined
        let bytes ← memcpyFrom a (b + 1) ((w.mem b * 8 - 8) / 8).toNat
        let type ← load a (b + TYPE)
        let length ← load a (b + DATA_LENGTH)
        let vcount ← load a (b + VEC_CNT)
        let value := (DATA_HDR - 1) * 8
        let vector ←
          if vcount = 1 then
            pure [⟨← load a (b + TYPE), length, value⟩]
          else initializeItemVector bytes value vcount.toNat
        return (⟨item.status, type, length, some value, some 0, some bytes, w.mem b * 8 - 8, vcount, vector⟩, u)) Q w' := by
    rintro _ w' rfl hw' hm
    have hmem : w'.mem = w.mem := by rcases hw' with rfl | rfl <;> rfl
    have hneg : ¬w.mem b * 8 - 8 < 0 := by omega
    have hwords : ((w.mem b * 8 - 8) / 8).toNat = n := by omega
    have hall : (w.mem b - 1).toNat = n := by omega
    rw [hall] at hok
    have hvalue : (DATA_HDR - 1) * 8 = ((6 * 8 : ℕ) : ℤ) := by decide
    simp (disch := omega) only [hneg, if_false, hwords, wp_bind, wp_memcpyFrom, TYPE, DATA_LENGTH, VEC_CNT, wp_load, hmem,
      hcount]
    match p, hS, hp with
    | [x], ⟨h₅, h₄, h₆, hb', hl⟩, hp =>
      obtain ⟨hx, -⟩ := hp.2 x (by simp)
      simp (disch := omega) only [List.length_singleton, Nat.cast_one, if_true, wp_bind, wp_load, wp_pure, hmem, h₄, h₆]
      refine hok _ w' hw' ⟨rfl, rfl, _, rfl, .cons ⟨rfl, rfl, hvalue ▸ Int.natCast_nonneg _, ?_, ?_⟩ .nil⟩ rfl h₆.symm rfl rfl hm
      · have hslots : x.2.length ≤ slotsFor x.2.length * 8 := by
          rw [slotsFor]
          omega
        rw [length_bytesAt]
        show (DATA_HDR - 1) * 8 + (x.2.length : ℤ) ≤ ((n * 8 : ℕ) : ℤ)
        simp only [DATA_HDR]
        omega
      · rw [hvalue, Int.toNat_natCast]
        refine HasBytes.copied ?_ (by omega)
        convert hb' using 1
        push_cast
        ring
    | x :: y :: p, ⟨h₅, e, he, hl⟩, hp =>
      have hne : ¬(((x :: y :: p).length : ℕ) : ℤ) = 1 := by simp only [List.length_cons]; omega
      simp only [hne, if_false, hvalue, Int.toNat_natCast, wp_bind]
      refine wp_initializeItemVector (p := x :: y :: p) (e := e) (s := b + 1) hp.2 ?_ (by omega) (by omega) fun vs hvs => ?_
      · convert he using 1
        push_cast
        ring
      · exact wp_pure.2 (hok _ w' hw' ⟨rfl, congrArg some hvalue.symm, _, rfl, hvs⟩ rfl rfl rfl rfl hm)
  rw [copyToBuffer, Wp, wp_bind]
  refine (wp_load (by simp only [DATA_SLOTS]; omega) (by simp only [DATA_SLOTS]; omega)).2 ?_
  have hslot : b + DATA_SLOTS = b := add_zero b
  rw [wp_bind, hslot]
  refine (wp_resizeBuffer (by omega) (by omega)).2 ?_
  rw [hcount]
  by_cases hfit : buffer.Fits (w.mem b * 8 - 8 + p.length * SIZEOF_VEC)
  · rw [if_pos hfit]
    exact hcopy buffer w (if_pos hfit).symm (.inl rfl) (.inl hfit)
  rw [if_neg hfit]
  by_cases hmal : w.malloc 0 = true
  · rw [if_pos hmal]
    exact hcopy _ _ (if_neg hfit).symm (.inr rfl) (.inr hmal)
  · rw [if_neg hmal]
    exact wp_pure.2 (hfail hfit (by simpa using hmal))

end

end LibShr
