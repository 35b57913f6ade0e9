import LibShr.Refine.Gates

/-!
# Adding an item

`copy_value` and `copy_vector` make an item of the abstract queue, `enq_data` queues it.
-/

namespace LibShr

open Prog

section
variable {tot : Prop} {w w' : World} {H H' : Heap} {Q : Queue} {m : ℤ → ℤ} {a b : ℤ} {it : Item} {es : List Event} {l : List EventNote}

/-! ## Copying in -/

/-- Class of the smallest power of two that holds `n` slots. -/
theorem classOf_spec {n : ℕ} (h₄ : 4 ≤ n) (hn : n < 2 ^ 63) : Bits.ceilLog2 n = classOf n + 2 ∧ n ≤ 2 ^ (classOf n + 2) := by
  have hceil := Bits.ceilLog2_spec (n := n) (by omega) (by omega)
  have h₂ : 2 ≤ Bits.ceilLog2 n := by
    by_contra h
    have : 2 ^ Bits.ceilLog2 n ≤ 2 ^ 1 := Nat.pow_le_pow_right (by decide) (by omega)
    omega
  have he : Bits.ceilLog2 n = classOf n + 2 := by rw [classOf]; omega
  exact ⟨he, he ▸ hceil.1⟩

namespace Sim

/-- What `copy_value` and `copy_vector` do before they write. -/
theorem allocForCopy (hS : Sim w H Q) {n : ℕ} {vecSz : ℤ} (h₄ : 4 ≤ n) (hn : n ≤ 2 ^ 30)
    (hv : (n : ℤ) * 8 + vecSz < 2 ^ 63) :
    Wp tot (updateBufferSize w.ext.cur n vecSz) (fun _ w₁ => Wp tot (allocDataSlots n) (fun v w' => ∃ H' Q₂ j f,
      Sim w' H' Q₂ ∧ w'.mem 10 = Q.ids ∧
      (∀ fill p, Q.copyIn n vecSz fill p = (⟨j, fill f Q.now Q.ids, p⟩, { Q₂ with ids := Q₂.ids + 1 })) ∧
      Retains { H with blocks := v.slot ::ₘ H.blocks } H' ∧ H'.word v.slot = 2 ^ (j + 2) ∧
      (∀ i, 1 ≤ i → i < 2 ^ (j + 2) → H'.word (v.slot + i) = f i) ∧ (n : ℤ) ≤ 2 ^ (j + 2) ∧ 164 ≤ v.slot ∧
      v.slot + (n : ℤ) < v.extent ∧ v.extent = w'.ext.cur) w₁) { w with clock := rest w.clock } := by
  have hcur := hS.cur
  obtain ⟨hceil, hle⟩ := classOf_spec h₄ (lt_of_le_of_lt hn (by decide))
  have hle' : (n : ℤ) ≤ 2 ^ (classOf n + 2) := by exact_mod_cast hle
  refine wp_updateBufferSize (by omega) (fun _ => ⟨by omega, hv⟩) fun m _ _ h₈ hm => ?_
  have hb : w.mem 8 = Q.hdr.buffer := hS.hdr.buffer
  have hmem : m = setSlot w.mem 8 (max Q.hdr.buffer (n * 8 + vecSz)) := by
    funext x
    by_cases hx : x = 8
    · rw [hx, setSlot_same, h₈, hb]
    · rw [setSlot_ne _ _ hx, hm x hx]
  rw [hmem]
  obtain ⟨H₁, hS₁, hh, -⟩ := hS.tick.setOne (s := 8) (by decide) (hS.hdr.setBuffer (max Q.hdr.buffer (n * 8 + vecSz)))
  refine wp_mono ?_ (hS₁.allocBlock h₄ hn hceil)
  rintro v w' ⟨H', hS', htook, hw, hcv, hkj, h₁₆₄, hlt, he⟩
  have hids : (Q.tick.setHdr { Q.hdr with buffer := max Q.hdr.buffer (n * 8 + vecSz) } |>.takeBlock (classOf n)).2.2.ids =
      Q.ids := by
    simp only [Queue.takeBlock]
    split <;> rfl
  refine ⟨H', _, _, _, hS', hS'.ids.trans hids, fun fill p => ?_,
    ⟨htook.nodes.trans hh.nodes, by rw [htook.blocks, hh.blocks], hh.carved.trans hcv⟩, htook.header, hw, ?_, h₁₆₄, by omega, he⟩
  · rw [hids]
    rfl
  · exact hle'.trans (pow_le_pow_right₀ (by norm_num) (by omega))

/-- A held block was filled up to slot `e`. -/
theorem filled (hS : Sim w H Q) {e : ℤ} {j : ℕ} {g : ℤ → ℤ} {p : Payload} (hb : b ∈ H.blocks) (hsz : H.word b = 2 ^ (j + 2))
    (he : e ≤ b + H.word b) (hids : m 10 = w.mem 10 + 1) (hsame : ∀ x, x ≠ 10 → ¬(b + 1 ≤ x ∧ x < e) → m x = w.mem x)
    (hg : ∀ i, 1 ≤ i → i < 2 ^ (j + 2) → m (b + i) = g i) (hI : Inv True (w.setMem m) (H.adopt m (b + 1) e)) :
    Sim (w.setMem m) (H.adopt m (b + 1) e) { Q with ids := Q.ids + 1 } ∧
      (Stores (H.adopt m (b + 1) e).word b p → p.Wf → ItemAt (H.adopt m (b + 1) e).word b ⟨j, g, p⟩) := by
  have hbl := Heap.mem_live_block hb
  have hbb := hS.inv.wf.live_bounds hbl
  have h₂ : m 2 = w.mem 2 := hsame 2 (by decide) (by omega)
  refine ⟨hS.kept ⟨hI, le_refl _, h₂.ge, fun _ _ => rfl, rfl⟩ ⟨hids, fun x hx => ?_, rfl, rfl⟩ (fun x hx => ?_) rfl rfl rfl rfl
    (le_refl _), fun hst hp => ⟨?_, fun i h₁ h₂ => ?_, hst, hp⟩⟩
  · -- a loose slot lies in no block that is in use
    obtain ⟨h₁₆₄, -, hpriv⟩ := hS.inv.wf.loose_ne (a := x) hx
    exact hsame x (by omega) fun h => hpriv (.inr (.inl ⟨b, hbl, by omega, by omega⟩))
  · have := hx.ne_block hS.inv.wf hb
    exact Heap.word_adopt_ne _ (by omega)
  · exact (Heap.word_adopt_ne _ (by omega)).trans hsz
  · have h₂' : i < 2 ^ (j + 2) := h₂
    refine Eq.trans ?_ (hg i h₁ h₂')
    by_cases hie : b + i < e
    · exact Heap.word_adopt_of _ (by omega)
    · rw [Heap.word_adopt_ne _ (by omega), hsame _ (by omega) (by omega)]
      exact (hS.mem_block hbl (by omega) (by omega)).symm

/-- What is written over a fresh block depends on the content the abstract queue gives it. -/
theorem words_eq (hS : Sim w H Q) {j : ℕ} {f : ℤ → ℤ} {F : (ℤ → ℤ) → ℤ → ℤ} (hb : b ∈ H.blocks) (hsz : H.word b = 2 ^ (j + 2))
    (hwords : ∀ i, 1 ≤ i → i < 2 ^ (j + 2) → H.word (b + i) = f i)
    (hF : ∀ {f g : ℤ → ℤ}, (∀ i, 1 ≤ i ∧ i < 2 ^ (j + 2) → f i = g i) → ∀ i, 1 ≤ i ∧ i < 2 ^ (j + 2) → F f i = F g i) :
    ∀ i, 1 ≤ i → i < 2 ^ (j + 2) → F (fun i => w.mem (b + i)) i = F f i := by
  intro i h₁ h₂
  refine hF (fun i hi => ?_) i ⟨h₁, h₂⟩
  exact (hS.mem_block (Heap.mem_live_block hb) (by omega) (by omega)).trans (hwords i hi.1 hi.2)

/-- **`copy_value`** makes an item. -/
theorem copyValue (hS : Sim w H Q) {value : List UInt8} {n : ℕ} {type : ℤ} (hn : 0 < n) (hread : n ≤ value.length)
    (hsmall : 7 + slotsFor n ≤ 2 ^ 30) (hty : -2 ^ 31 ≤ type ∧ type < 2 ^ 32) :
    Wp tot (LibShr.copyValue (some value) n type) (fun r w' => ∃ H', Sim w' H' (Q.copyValue value n type).2 ∧
      Retains { H with blocks := r ::ₘ H.blocks } H' ∧ ItemAt H'.word r (Q.copyValue value n type).1 ∧ 164 ≤ r ∧
      r + 7 < w'.ext.cur) w := by
  have hn' : ¬(n : ℤ) ≤ 0 := by omega
  simp only [LibShr.copyValue, hn', if_false, Wp, wp_bind]
  refine wp_clock.2 ?_
  simp only [wp_current, calcDataSlots_eq]
  refine wp_mono ?_ (hS.allocForCopy (n := 7 + slotsFor n) (by unfold slotsFor; omega) hsmall
    (by simp only [SIZEOF_VEC]; omega))
  intro _ w₁ h₁
  refine wp_mono ?_ h₁
  rintro v w₂ ⟨H₂, Q₂, j, f, hS₂, hids₂, hcopy, hbal, hsz, hwords, hle, h₁₆₄, hlt, he⟩
  have h₁₆₄' : v.slot ≥ HDR_END := h₁₆₄
  have hb : v.slot ∈ H₂.blocks := by simp [hbal.blocks]
  have hnow : w.clock 0 = Q.now := by rw [hS.clock]; rfl
  rw [Queue.copyValue, hcopy]
  simp only [if_pos h₁₆₄', wp_bind, hnow]
  refine wp_fillValue hS₂.inv hb (hsz ▸ hle) (by omega) hn (fun _ => hread) fun m e hee hids hsame hw hI hst hne => wp_pure.2 ?_
  have hg : ∀ i, 1 ≤ i → i < 2 ^ (j + 2) → m (v.slot + i) = valueWords f Q.now Q.ids type (value.take n) i := fun i h₁ h₂ => by
    rw [hw i h₁, hids₂]
    exact words_eq (F := fun f => valueWords f Q.now Q.ids type (value.take n)) hS₂ hb hsz hwords
      (fun h => stored_congr (headerWords_congr h)) i h₁ h₂
  obtain ⟨hS₃, hit⟩ := hS₂.filled (p := [(type, value.take n)]) hb hsz (by omega) hids hsame hg hI
  refine ⟨_, hS₃, ⟨hbal.nodes, hbal.blocks, hbal.carved⟩, hit hst ⟨by simp, fun x hx => ?_⟩, h₁₆₄, by show v.slot + 7 < w₂.ext.cur; omega⟩
  rw [List.mem_singleton.1 hx]
  exact ⟨hne, hty⟩

/-- **`copy_vector`** makes an item, unless it meets an invalid element. -/
theorem copyVector (hS : Sim w H Q) {vs : List SqVec} (h₂ : 2 ≤ vs.length) (hlen : ∀ v ∈ vs, 0 ≤ v.len)
    (hread : ∀ v ∈ vs, v.Readable) (hsmall : 7 + vectorSlots vs ≤ 2 ^ 30) (hty : ∀ v ∈ vs, -2 ^ 31 ≤ v.type ∧ v.type < 2 ^ 32) :
    Wp tot (LibShr.copyVector (some vs)) (fun r w' => ∃ H', Sim w' H' (Q.copyVector vs).2 ∧
      if vs.any SqVec.invalid then r = -1
      else Retains { H with blocks := r ::ₘ H.blocks } H' ∧ ItemAt H'.word r (Q.copyVector vs).1 ∧ 164 ≤ r ∧
        r + 7 < w'.ext.cur) w := by
  have hge := vectorSlots_ge hlen
  obtain ⟨n, hn⟩ : ∃ n : ℕ, 7 + vectorSlots vs = n := ⟨(7 + vectorSlots vs).toNat, by omega⟩
  have h₂' : ¬vs.length < 2 := by omega
  have hnat : (7 + vectorSlots vs).toNat = n := by omega
  simp only [LibShr.copyVector, h₂', if_false, Wp, wp_bind]
  refine wp_clock.2 ?_
  simp only [wp_current, calcVectorSlots_eq hlen (by omega), hn]
  refine wp_mono ?_ (hS.allocForCopy (n := n) (by omega) (by omega)
    (by simp only [SIZEOF_VEC]; omega))
  intro _ w₁ h₁
  refine wp_mono ?_ h₁
  rintro v w₂ ⟨H₂, Q₂, j, f, hS₂, hids₂, hcopy, hbal, hsz, hwords, hle, h₁₆₄, hlt, he⟩
  have h₁₆₄' : v.slot ≥ HDR_END := h₁₆₄
  have hb : v.slot ∈ H₂.blocks := by simp [hbal.blocks]
  have hnow : w.clock 0 = Q.now := by rw [hS.clock]; rfl
  rw [Queue.copyVector, hnat, hcopy]
  simp only [if_pos h₁₆₄', wp_bind, hnow]
  refine wp_fillVector hS₂.inv hb h₂ hlen hn (hsz ▸ hle) (by omega) (fun _ => hread)
    fun r m e hee hids hsame hw hI hr hst => ?_
  have hg : ∀ i, 1 ≤ i → i < 2 ^ (j + 2) → m (v.slot + i) = vectorWords f Q.now Q.ids vs i := fun i h₁ h₂ => by
    rw [hw i h₁, hids₂]
    exact words_eq (F := fun f => vectorWords f Q.now Q.ids vs) hS₂ hb hsz hwords
      (fun h => elemsStored_congr (headerWords_congr h)) i h₁ h₂
  obtain ⟨hS₃, hit⟩ := hS₂.filled (p := vs.map SqVec.elem) hb hsz (by omega) hids hsame hg hI
  by_cases hrt : r = true
  · have hall : vs.any SqVec.invalid = false := by
      rw [List.any_eq_false]
      intro v hv
      simp [hr.1 hrt v hv]
    simp only [hrt, Bool.not_true, Bool.false_eq_true, if_false, hall]
    refine wp_pure.2 ⟨_, hS₃, ⟨hbal.nodes, hbal.blocks, hbal.carved⟩, hit (hst hrt).1 ⟨?_, ?_⟩, h₁₆₄, by show v.slot + 7 < w₂.ext.cur; omega⟩
    · intro hnil
      rw [List.map_eq_nil_iff.1 hnil] at h₂
      simp at h₂
    · intro x hx
      obtain ⟨v, hv, rfl⟩ := List.mem_map.1 hx
      exact ⟨(hst hrt).2 v hv, hty v hv⟩
  · have hany : vs.any SqVec.invalid = true := by
      by_contra h
      refine hrt (hr.2 fun v hv => ?_)
      simpa using List.any_eq_false.1 (by simpa using h) v hv
    have hrf : r = false := by simpa using hrt
    simp only [hrf, Bool.not_false, if_true, hany]
    exact wp_pure.2 ⟨_, hS₃, rfl⟩

end Sim

/-! ## Queueing -/

/-- The time of the last add is noted, and the process that listens told. -/
def noteAdd (array : ℤ) (t : DWORD) : M Unit := do
  let prevTime ← loadTimespec array TS_SEC
  let _ ← dwcas .stamp array TS_SEC prevTime.toDWORD t
  signalArrival

/-- Is a new item stacked? -/
def chooseLifo (array : ℤ) : M Bool := do
  if ← isAdaptiveLifo array then
    pure (decide ((← load array COUNT) ≥ (← load array LEVEL)))
  else pure false

/-! ### The texts, with the answers of `add_event` noted -/

namespace Noted

/-- The first add marks the queue as used. -/
def activate (array : ℤ) : NotedM Bool := do
  if Int.land (← plain (load array FLAGS)) FLAG_ACTIVATED = 0 then
    if ← plain (setFlag array FLAG_ACTIVATED) then addEvent .init else return false
  else return false

/-- `post_process_enq` (`shared_q.c:632`). -/
def postProcessEnq (count : ℤ) (currTime : DWORD) : NotedM Unit := do
  let array ← plain current
  plain (if count = 0 then updateEmptyTimestamp array else pure ())
  let activated ← activate array
  let nonempty ← raise (count = 0) .nonempty
  let depth ← plain (load array MAX_DEPTH)
  let limit ← raise (count = depth - 1) .limit
  plain (notify array (activated || nonempty || limit))
  plain (noteAdd array currTime)

/-- `enq_data` (`shared_q.c:698`). -/
def enqData (dataSlot : ℤ) : NotedM Status := do
  let array ← plain current
  let sec ← plain (load array (dataSlot + TM_SEC))
  let nsec ← plain (load array (dataSlot + TM_NSEC))
  let view ← plain allocIdxSlots
  if view.slot = 0 then
    let _ ← plain (freeDataSlots dataSlot)
    return .errNomem
  plain (store view.extent (view.slot + VALUE_OFFSET) dataSlot)
  let lifo ← plain (chooseLifo view.extent)
  plain (if lifo then lifoAdd view.slot else fifoAdd view.slot)
  let count ← plain (afa view.extent COUNT 1)
  postProcessEnq count ⟨sec, nsec⟩
  plain releasePrevExtents
  return .ok

/-- The end of `enq` and `enqv` (`shared_q.c:761-773`). -/
def enqChecked (dataSlot : ℤ) : NotedM Status := do
  if dataSlot = 0 then return .errNomem
  if dataSlot < HDR_END then return .errState
  enqData dataSlot

/-- `enq` (`shared_q.c:744`). -/
def enq (value : Option (List UInt8)) (length type : ℤ) : NotedM Status := do
  if value = none ∨ length ≤ 0 then return .errArg
  enqChecked (← plain (copyValue value (toLong length) type))

/-- `enqv` (`shared_q.c:777`). -/
def enqv (vector : Option (List SqVec)) : NotedM Status := do
  if vector = none ∨ (vector.getD []).length < 2 then return .errArg
  let dataSlot ← plain (copyVector vector)
  if dataSlot < 0 then return .errArg
  enqChecked dataSlot

/-- The choice between `enq` and `enqv` (`shared_q.c:2321-2329`). -/
def enqVector : List SqVec → NotedM Status
  | [v] => enq v.base v.len v.type
  | vector => enqv (some vector)

/-- `check_for_level_event` (`shared_q.c:1343`). -/
def checkForLevelEvent : NotedM Unit := do
  let array ← plain current
  let level ← plain (load array LEVEL)
  if level ≤ 0 then return ()
  if ← plain (eventDisabled array .level) then return ()
  if (← plain (load array COUNT)) ≥ level then
    if ← addEvent .level then plain signalEvent

/-- The common frame of the add functions (`shared_q.c:2103-2138`). -/
def addThrough (gate : M Status) (enqueue : NotedM Status) : NotedM Status := do
  plain guardQMemory
  let status ← plain gate
  if status ≠ .ok then
    plain unguardQMemory
    return status
  let status ← enqueue
  if status ≠ .ok then
    let _ ← plain enqReleaseGate
    plain unguardQMemory
    return status
  let status ← plain deqReleaseGate
  if status ≠ .ok then
    plain unguardQMemory
    return status
  checkForLevelEvent
  plain unguardQMemory
  return status

end Noted

section
variable (count b n type : ℤ) (t : DWORD) (value : Option (List UInt8)) (vector : Option (List SqVec)) (vs : List SqVec)
  (gate : M Status) (p : NotedM Status)

@[simp] theorem erase_postProcessEnq : (Noted.postProcessEnq count t).erase = postProcessEnq count t := by
  simp only [Noted.postProcessEnq, Noted.activate, postProcessEnq, notify, noteAdd, erase_bind, erase_ite, erase_plain, erase_pure,
    erase_addEvent, erase_raise, ite_bind, LawfulMonad.bind_assoc, LawfulMonad.pure_bind]

@[simp] theorem erase_enqData : (Noted.enqData b).erase = enqData b := by
  simp only [Noted.enqData, enqData, chooseLifo, erase_bind, erase_ite, erase_plain, erase_pure, erase_postProcessEnq, ite_bind,
    LawfulMonad.bind_assoc, LawfulMonad.pure_bind]

@[simp] theorem erase_enqChecked : (Noted.enqChecked b).erase = enqChecked b := by
  simp only [Noted.enqChecked, enqChecked, erase_ite, erase_pure, erase_enqData]

@[simp] theorem erase_enq : (Noted.enq value n type).erase = enq value n type := by
  simp only [Noted.enq, enq, erase_bind, erase_ite, erase_plain, erase_pure, erase_enqChecked]

@[simp] theorem erase_enqv : (Noted.enqv vector).erase = enqv vector := by
  simp only [Noted.enqv, enqv, erase_bind, erase_ite, erase_plain, erase_pure, erase_enqChecked]

@[simp] theorem erase_enqVector : (Noted.enqVector vs).erase = enqVector vs := by
  rcases vs with _ | ⟨v, _ | ⟨v', vs⟩⟩
  · exact erase_enqv _
  · exact erase_enq _ _ _
  · exact erase_enqv _

@[simp] theorem erase_checkForLevelEvent : Noted.checkForLevelEvent.erase = checkForLevelEvent := by
  simp only [Noted.checkForLevelEvent, checkForLevelEvent, erase_bind, erase_ite, erase_plain, erase_pure, erase_addEvent]

@[simp] theorem erase_addThrough : (Noted.addThrough gate p).erase = addThrough gate p.erase := by
  simp only [Noted.addThrough, addThrough, erase_bind, erase_ite, erase_plain, erase_pure, erase_checkForLevelEvent]

end

/-! ### What the functions do -/

theorem idle_noteAdd {t : DWORD} (ha : 512 ≤ a) : Idle tot (noteAdd a t) := by
  have hstamp : Idle tot (do
      let prevTime ← loadTimespec a TS_SEC
      let _ ← dwcas .stamp a TS_SEC prevTime.toDWORD t : M Unit) := by
    intro w H Q hS
    simp (disch := omega) only [loadTimespec, TS_SEC, Wp, wp_bind, wp_load, wp_pure, wp_dwcas, Int.reduceAdd, Timespec.toDWORD,
      and_self, if_true]
    refine hS.setHidden fun x hx => ?_
    have hx' : x ≠ 114 ∧ x ≠ 115 := by
      rcases hx with hx | hx
      · exact ⟨fun h => hx (h ▸ by decide), fun h => hx (h ▸ by decide)⟩
      · have : ∀ x ∈ shown, x ≠ 114 ∧ x ≠ 115 := by decide
        exact this x hx
    simp (disch := omega) only [setSlot_ne]
  have heq : noteAdd a t = (do
      let prevTime ← loadTimespec a TS_SEC
      let _ ← dwcas .stamp a TS_SEC prevTime.toDWORD t : M Unit) >>= fun _ => signalArrival := by
    simp only [noteAdd, LawfulMonad.bind_assoc, LawfulMonad.pure_bind]
  rw [heq]
  exact hstamp.bind fun _ => Idle.signalArrival

namespace Sim

theorem chooseLifo (hS : Sim w H Q) (ha : 512 ≤ a) :
    Wp tot (LibShr.chooseLifo a) (fun r w' => r = Q.onStack ∧ w' = w) w := by
  have hf : w.mem 9 = Q.hdr.flags := hS.hdr.flags
  have hc : w.mem 7 = Q.hdr.count := hS.hdr.count
  have hl : w.mem 144 = Q.hdr.level := hS.hdr.level
  simp (disch := omega) only [LibShr.chooseLifo, isAdaptiveLifo, Wp, wp_bind, FLAGS, COUNT, LEVEL, wp_load, wp_pure, wp_ite, hf,
    hc, hl, Queue.onStack, and_true]
  by_cases h : Int.land Q.hdr.flags FLAG_LIFO_ON_LEVEL = 0 <;> simp [h]

/-- The first add raises `SH_EVNT_INIT`. -/
theorem activate (hS : Sim w H Q) (ht : Tells es Q l) (ha : 512 ≤ a) :
    NotedWp tot (Noted.activate a) (fun _ v => LeavesTold es w H Q.activate v) (w, l) := by
  have hf : w.mem FLAGS = Q.hdr.flags := hS.hdr.flags
  rw [Noted.activate, NotedWp, wp_bind, wp_plain]
  refine (wp_load (by decide) (by simp only [FLAGS]; omega)).2 ?_
  rw [hf, Queue.activate]
  by_cases hz : Int.land Q.hdr.flags FLAG_ACTIVATED = 0
  · simp only [hz, if_true]
    rw [wp_bind, wp_plain]
    refine wp_mono ?_ (hS.wp_setFlag (f := FLAG_ACTIVATED) ha)
    rintro r w' ⟨hr, H', hS', hh, hc⟩
    rw [if_pos (hr.2 hz)]
    refine wp_mono ?_ (hS'.noteEvent (ht.kept Queue.events_setFlag) (e := .init) (by decide))
    rintro _ v ⟨h, ht'⟩
    exact ⟨h.trans hS.inv.wf hh hc, ht'⟩
  · simp only [hz, if_false]
    exact wp_pure.2 ⟨hS.leaves, ht⟩

theorem postEnq (hS : Sim w H Q) (ht : Tells es Q l) {count : ℤ} {t : DWORD} :
    NotedWp tot (Noted.postProcessEnq count t) (fun _ v => LeavesTold es w H (Q.postEnq count) v) (w, l) := by
  have hcur := hS.cur
  rw [Noted.postProcessEnq, NotedWp, wp_bind, wp_plain]
  refine wp_current.2 ?_
  have hempty : Wp tot (if count = 0 then updateEmptyTimestamp w.ext.cur else pure ())
      (fun _ w' => Leaves w H (if count = 0 then Q.updateEmpty else Q) w') w := by
    by_cases hc : count = 0
    · simp only [hc, if_true]
      exact hS.updateEmpty hcur
    · simp only [hc, if_false]
      exact wp_pure.2 hS.leaves
  have hevents : (if count = 0 then Q.updateEmpty else Q).events = Q.events := by
    split
    · exact Queue.events_updateEmpty
    · rfl
  refine LeavesTold.bind hS (ht.plain hevents hempty) fun _ w₁ H₁ l₁ hS₁ ht₁ => ?_
  refine LeavesTold.bind hS₁ (hS₁.activate ht₁ hcur) fun _ w₂ H₂ l₂ hS₂ ht₂ => ?_
  have hnonempty : NotedWp tot (Noted.raise (count = 0) .nonempty)
      (fun _ v => LeavesTold es w₂ H₂ ((if count = 0 then Q.updateEmpty else Q).activate.raise (count = 0) .nonempty) v) (w₂, l₂) :=
    hS₂.raise ht₂ (by decide)
  refine LeavesTold.bind hS₂ hnonempty fun _ w₃ H₃ l₃ hS₃ ht₃ => ?_
  rw [NotedWp, wp_bind, wp_plain]
  refine (wp_load (by decide) (by simp only [MAX_DEPTH]; omega)).2 ?_
  have hd : w₃.mem MAX_DEPTH = _ := hS₃.hdr.depth
  have hlimit : NotedWp tot (Noted.raise (count = w₃.mem MAX_DEPTH - 1) .limit) _ (w₃, l₃) :=
    hS₃.raise ht₃ (by decide)
  rw [hd] at hlimit ⊢
  refine LeavesTold.bind hS₃ hlimit fun _ w₄ H₄ l₄ hS₄ ht₄ => ?_
  refine LeavesTold.bind hS₄ (ht₄.plain rfl (idle_notify hcur w₄ H₄ _ hS₄)) fun _ w₅ H₅ l₅ hS₅ ht₅ => ?_
  exact ht₅.plain rfl (idle_noteAdd hcur w₅ H₅ _ hS₅)

/-- A held node and its block are queued. -/
theorem link (hS : Sim w H Q) {s : ℤ} {N B : Multiset ℤ} (hN : H.nodes = s ::ₘ N) (hB : H.blocks = H.value s ::ₘ B)
    (hit : ItemAt H.word (H.value s) it) (hs : s < w.ext.cur) :
    Wp tot (if Q.onStack then lifoAdd s else fifoAdd s) (fun _ w' => ∃ H', Sim w' H' (Q.link it) ∧
      Retains { H with nodes := N, blocks := B } H') w := by
  rw [Queue.link]
  split
  · exact wp_mono (fun _ _ h => ⟨H.push s N B, h, rfl, rfl, List.prefix_refl _⟩) (hS.pushItem hN hB hit hs)
  · exact wp_mono (fun _ _ h => ⟨H.link .item s N B, h, rfl, rfl, List.prefix_refl _⟩) (hS.linkItem hN hB hit hs)

/-- **`enq_data`** queues the item of a held block. -/
theorem enqData (hS : Sim w H Q) (ht : Tells es Q l) {B : Multiset ℤ} (hB : H.blocks = b ::ₘ B) (hit : ItemAt H.word b it) (h₁₆₄ : 164 ≤ b)
    (hb : b + 7 < w.ext.cur) :
    NotedWp tot (Noted.enqData b) (fun st v => st = .ok ∧ Tells es (Q.enqData it) v.2 ∧ ∃ H', Sim v.1 H' (Q.enqData it) ∧
      Retains { H with blocks := B } H') (w, l) := by
  have hbB : b ∈ H.blocks := by simp [hB]
  simp (disch := omega) only [Noted.enqData, NotedWp, wp_bind, wp_plain, wp_current, TM_SEC, TM_NSEC, wp_load]
  refine wp_mono ?_ hS.allocNode
  rintro v w₁ ⟨H₁, hS₁, htook, hv, hlt, hve, hc₁⟩
  have hsn : v.slot ∈ H₁.nodes := by simp [htook.nodes]
  have hsb := hS₁.inv.wf.node_bounds (Heap.Wf.held_mem hsn)
  rw [if_neg (by omega), hve]
  simp (disch := omega) only [wp_bind, wp_plain, wp_store, VALUE_OFFSET]
  -- the node points to the block, which stays as it is
  have hS₂ := hS₁.writeNode (x := v.slot + 3) (v := b) hsn (by omega)
  have hbl₁ : b ∈ H₁.live := Heap.mem_live_block (by rw [htook.blocks]; exact hbB)
  have hit₁ : ItemAt H₁.word b it := hit.kept fun a h h' => htook.kept a (.inr (.inl ⟨b, Heap.mem_live_block hbB, h, h'⟩))
  have hsep := hS₁.inv.wf.node_data_sep (Heap.Wf.held_mem hsn) (hS₁.inv.wf.header b hbl₁)
  set m := setSlot w₁.mem (v.slot + 3) b with hm
  have hval : (H₁.adopt m (v.slot + 3) (v.slot + 3 + 1)).value v.slot = b :=
    (Heap.word_adopt_of _ (by omega)).trans (setSlot_same _ _ _)
  have hit₂ : ItemAt (H₁.adopt m (v.slot + 3) (v.slot + 3 + 1)).word b it := hit₁.kept fun a h h' => by
    exact Heap.word_adopt_ne _ (by omega)
  refine wp_mono ?_ (hS₂.chooseLifo (a := w₁.ext.cur) (by have := hS.cur; omega))
  rintro lifo w₃ ⟨rfl, rfl⟩
  refine wp_mono ?_ (hS₂.link (N := H.nodes) (B := B) htook.nodes
    (by rw [hval]; exact htook.blocks.trans hB) (by rw [hval]; exact hit₂) (by show v.slot < w₁.ext.cur; omega))
  rintro _ w₄ ⟨H₄, hS₄, hbal⟩
  have hlink : (Q.link it).hdr = Q.hdr := by rw [Queue.link]; split <;> rfl
  have hcnt : w₄.mem 7 = Q.hdr.count := hS₄.hdr.count.trans (by rw [hlink])
  have hcur : 512 ≤ w₁.ext.cur := hc₁.trans' hS.cur
  simp (disch := omega) only [COUNT, wp_afa, hcnt]
  obtain ⟨H₅, hS₅, hh₅, -⟩ := hS₄.setOne (s := 7) (by decide) (hS₄.hdr.setCount (Q.hdr.count + 1))
  have ht₅ : Tells es ((Q.link it).setHdr { (Q.link it).hdr with count := Q.hdr.count + 1 }) l := ht.kept Queue.events_link
  refine wp_mono ?_ (hS₅.postEnq ht₅ (t := ⟨w.mem (b + 1), w.mem (b + 2)⟩))
  rintro _ ⟨w₆, l₆⟩ ⟨⟨H₆, hS₆, hh₆, -⟩, ht₆⟩
  rw [wp_plain]
  refine wp_mono ?_ (Idle.releasePrevExtents w₆ H₆ _ hS₆)
  rintro _ w₇ ⟨H₇, hS₇, hh₇, -⟩
  rw [hlink] at hS₇ ht₆
  have hrest := ((hbal.trans hh₅.toRetains).trans hh₆.toRetains).trans hh₇.toRetains
  exact wp_pure.2 ⟨rfl, ht₆, H₇, hS₇, hrest.nodes, hrest.blocks, htook.carved.trans hrest.carved⟩

/-- A block that was filled passes the test of `enq` and `enqv`. -/
theorem enqChecked (hS : Sim w H Q) (ht : Tells es Q l) {B : Multiset ℤ} (hB : H.blocks = b ::ₘ B) (hit : ItemAt H.word b it) (h₁₆₄ : 164 ≤ b)
    (hb : b + 7 < w.ext.cur) :
    NotedWp tot (Noted.enqChecked b) (fun st v => st = .ok ∧ Tells es (Q.enqData it) v.2 ∧ ∃ H', Sim v.1 H' (Q.enqData it) ∧
      Retains { H with blocks := B } H') (w, l) := by
  have h₀ : ¬b = 0 := by omega
  have h₁ : ¬b < HDR_END := by simp only [HDR_END]; omega
  simp only [Noted.enqChecked, h₀, h₁, if_false]
  exact hS.enqData ht hB hit h₁₆₄ hb

theorem enq (hS : Sim w H Q) (ht : Tells es Q l) {value : Option (List UInt8)} {n : ℤ} {type : ℤ}
    (hread : ∀ v ∈ value, n ≤ v.length) (hsmall : 7 + slotsFor n.toNat ≤ 2 ^ 30) (hty : -2 ^ 31 ≤ type ∧ type < 2 ^ 32) :
    NotedWp tot (Noted.enq value n type) (fun st v => st = (Q.enq value n type).1 ∧ Tells es (Q.enq value n type).2 v.2 ∧
      ∃ H', Sim v.1 H' (Q.enq value n type).2 ∧ Retains H H') (w, l) := by
  cases value with
  | none =>
    simp only [Noted.enq, Queue.enq, true_or, if_true]
    exact wp_pure.2 ⟨rfl, ht, H, hS, .refl⟩
  | some value =>
    by_cases hn : n ≤ 0
    · simp only [Noted.enq, Queue.enq, hn, or_true, if_true]
      exact wp_pure.2 ⟨rfl, ht, H, hS, .refl⟩
    obtain ⟨k, rfl⟩ : ∃ k : ℕ, n = k := ⟨n.toNat, by omega⟩
    have hr := hread value rfl
    have hlong : toLong (k : ℤ) = k := by
      have : (k : ℤ) < 2 ^ 63 := by unfold slotsFor at hsmall; omega
      simp only [toLong, this, if_true]
    simp only [Noted.enq, Queue.enq, hn, or_false, reduceCtorEq, if_false, hlong, Int.toNat_natCast, NotedWp, wp_bind, wp_plain]
    refine wp_mono ?_ (hS.copyValue (n := k) (by omega) (by omega) hsmall hty)
    rintro r w₁ ⟨H₁, hS₁, hbal, hit, h₁₆₄, hlt⟩
    refine wp_mono ?_ (hS₁.enqChecked (ht.kept Queue.events_copyIn) hbal.blocks hit h₁₆₄ hlt)
    rintro st v ⟨hst, ht₂, H₂, hS₂, hbal₂⟩
    exact ⟨hst, ht₂, H₂, hS₂, hbal₂.nodes.trans hbal.nodes, hbal₂.blocks, hbal.carved.trans hbal₂.carved⟩

theorem enqv (hS : Sim w H Q) (ht : Tells es Q l) {vs : List SqVec} (hlen : ∀ v ∈ vs, 0 ≤ v.len) (hread : ∀ v ∈ vs, v.Readable)
    (hsmall : 7 + vectorSlots vs ≤ 2 ^ 30) (hty : ∀ v ∈ vs, -2 ^ 31 ≤ v.type ∧ v.type < 2 ^ 32) :
    NotedWp tot (Noted.enqv (some vs)) (fun st v => st = (Q.enqv vs).1 ∧ Tells es (Q.enqv vs).2 v.2 ∧ ∃ H', Sim v.1 H' (Q.enqv vs).2 ∧
      (st ≠ .errArg → Retains H H')) (w, l) := by
  by_cases h₂ : vs.length < 2
  · simp only [Noted.enqv, Queue.enqv, Option.getD_some, h₂, or_true, if_true]
    exact wp_pure.2 ⟨rfl, ht, H, hS, fun _ => .refl⟩
  simp only [Noted.enqv, Queue.enqv, Option.getD_some, h₂, or_false, reduceCtorEq, if_false, NotedWp, wp_bind, wp_plain]
  refine wp_mono ?_ (hS.copyVector (by omega) hlen hread hsmall hty)
  rintro r w₁ ⟨H₁, hS₁, hcase⟩
  have ht₁ : Tells es (Q.copyVector vs).2 l := ht.kept Queue.events_copyIn
  by_cases hbad : vs.any SqVec.invalid = true
  · simp only [hbad, if_true] at hcase ⊢
    rw [if_pos (by omega)]
    exact wp_pure.2 ⟨rfl, ht₁, H₁, hS₁, fun h => absurd rfl h⟩
  · simp only [hbad, Bool.false_eq_true, if_false] at hcase ⊢
    obtain ⟨hbal, hit, h₁₆₄, hlt⟩ := hcase
    rw [if_neg (by omega)]
    refine wp_mono ?_ (hS₁.enqChecked ht₁ hbal.blocks hit h₁₆₄ hlt)
    rintro st v ⟨hst, ht₂, H₂, hS₂, hbal₂⟩
    exact ⟨hst, ht₂, H₂, hS₂, fun _ => ⟨hbal₂.nodes.trans hbal.nodes, hbal₂.blocks, hbal.carved.trans hbal₂.carved⟩⟩

/-! ### The frame of the add functions -/

theorem checkLevel (hS : Sim w H Q) (ht : Tells es Q l) :
    NotedWp tot Noted.checkForLevelEvent (fun _ v => LeavesTold es w H Q.checkLevel v) (w, l) := by
  have hcur := hS.cur
  have hl : w.mem 144 = Q.hdr.level := hS.hdr.level
  have hf : w.mem 9 = Q.hdr.flags := hS.hdr.flags
  have hc : w.mem 7 = Q.hdr.count := hS.hdr.count
  simp (disch := omega) only [Noted.checkForLevelEvent, NotedWp, wp_bind, wp_plain, wp_current, LEVEL, FLAGS, COUNT, wp_load,
    eventDisabled, hl, wp_ite, wp_pure, decide_eq_true_eq, hf, hc, Queue.checkLevel, Queue.raise]
  by_cases hpos : Q.hdr.level ≤ 0
  · rw [if_pos hpos, if_neg (by omega)]
    exact ⟨hS.leaves, ht⟩
  rw [if_neg hpos]
  by_cases hz : Int.land Q.hdr.flags (getEventFlag .level) = 0
  · -- nobody waits for the event
    have hsub : Q.subscribed .level = false := by simp [Queue.subscribed, hz]
    rw [if_pos hz, Queue.addEvent, hsub, if_neg Bool.false_ne_true, ite_self]
    exact ⟨hS.leaves, ht⟩
  rw [if_neg hz]
  by_cases hge : Q.hdr.count ≥ Q.hdr.level
  · rw [if_pos hge, if_pos ⟨by omega, hge⟩]
    refine wp_mono ?_ (hS.noteEvent ht (e := .level) (by decide))
    rintro r ⟨w', l'⟩ ⟨hl, ht'⟩
    split
    · obtain ⟨H', hS', hh, hc'⟩ := hl
      rw [wp_plain]
      refine wp_mono (fun _ w'' h => ⟨Leaves.trans hS.inv.wf hh hc' h, ht'⟩) ?_
      exact (Mute.signalRegistered (by decide) (by decide)).idle w' H' _ hS'
    · exact ⟨hl, ht'⟩
  · rw [if_neg hge, if_neg (by omega)]
    exact ⟨hS.leaves, ht⟩

/-- **The frame of the add functions**, around a function that queues an item. -/
theorem addThrough (hS : Sim w H Q) (ht : Tells es Q l) {g : Gate} {p : NotedM Status} {f : Queue → Status × Queue} (hg : g ≠ .timed none)
    (hsome : tot → (Q.add g f).isSome)
    (hp : ∀ w H Q l, Sim w H Q → Tells es Q l → NotedWp tot p (fun st v => st = (f Q).1 ∧ Tells es (f Q).2 v.2 ∧
      ∃ H', Sim v.1 H' (f Q).2 ∧ (st ≠ .errArg → Retains H H')) (w, l)) :
    NotedWp tot (Noted.addThrough (LibShr.enqGate g) p) (fun st v => ∃ r, Q.add g f = some r ∧ st = r.1 ∧ Tells es r.2 v.2 ∧
      ∃ H', Sim v.1 H' r.2 ∧ (st ≠ .errArg → Retains H H')) (w, l) := by
  rw [Noted.addThrough]
  refine hS.notedGuarded fun w₁ hS₁ => ?_
  rw [NotedWp, wp_bind, wp_plain]
  refine wp_mono ?_ (hS₁.enqGate hg fun h => by simpa [Queue.add] using hsome h)
  rintro st w₂ ⟨b, Q₂, hpass, rfl, H₂, hS₂, hh₂, -⟩
  have ht₂ : Tells es Q₂ l := ht.kept (Queue.events_pass hpass)
  cases b with
  | false => exact hS₂.notedUnguarded fun w₃ hS₃ => ⟨_, by rw [Queue.add, hpass]; rfl, rfl, ht₂, _, hS₃, fun _ => hh₂.toRetains⟩
  | true =>
    have hadd : Q.add g f = some (Queue.added (f Q₂)) := by rw [Queue.add, hpass]; rfl
    rw [hadd]
    simp only [if_true, ne_eq, not_true_eq_false, if_false]
    rw [wp_bind]
    refine wp_mono ?_ (hp w₂ H₂ Q₂ l hS₂ ht₂)
    rintro st ⟨w₃, l₃⟩ ⟨rfl, ht₃, H₃, hS₃, hbal⟩
    by_cases hok : (f Q₂).1 = .ok
    · simp only [hok, not_true_eq_false, if_false]
      rw [wp_bind, wp_plain]
      refine wp_mono ?_ (hS₃.releaseGate .deq)
      rintro st w₄ ⟨rfl, hS₄, -⟩
      simp only [not_true_eq_false, if_false]
      rw [wp_bind]
      refine wp_mono ?_ (hS₄.checkLevel (ht₃.kept Queue.events_up))
      rintro _ ⟨w₅, l₅⟩ ⟨⟨H₅, hS₅, hh₅, -⟩, ht₅⟩
      have hadded : Queue.added (f Q₂) = (.ok, ((f Q₂).2.up .deq).checkLevel) := if_pos hok
      rw [hadded]
      exact hS₅.notedUnguarded fun w₆ hS₆ =>
        ⟨_, rfl, rfl, ht₅, H₅, hS₆, fun _ => (hh₂.toRetains.trans (hbal (by simp [hok]))).trans hh₅.toRetains⟩
    · simp only [hok, not_false_eq_true, if_true]
      rw [wp_bind, wp_plain]
      refine wp_mono ?_ (hS₃.releaseGate .enq)
      rintro st w₄ ⟨-, hS₄, -⟩
      have hadded : Queue.added (f Q₂) = ((f Q₂).1, (f Q₂).2.up .enq) := if_neg hok
      rw [hadded]
      exact hS₄.notedUnguarded fun w₅ hS₅ => ⟨_, rfl, rfl, ht₃.kept Queue.events_up, H₃, hS₅, fun hne => hh₂.toRetains.trans (hbal hne)⟩

end Sim

end

end LibShr
