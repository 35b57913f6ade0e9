import LibShr.Runs.History
import LibShr.Seq.Writes

/-!
# The vector codec

What `copy_vector` writes and `copy_to_buffer` reads, for any elements a caller may add: the elements
come back, and the reported length is compared with the records it should delimit.
-/

namespace LibShr

open Prog

/-- An element that may be added: it has a type and at least one byte, and its bytes can be read. -/
structure SqVec.Addable (v : SqVec) : Prop where
  type_pos : 0 < v.type
  type_lt : v.type < 2 ^ 32
  len_pos : 1 ≤ v.len
  readable : ∃ bytes, v.base = some bytes ∧ v.len ≤ bytes.length

def SqVec.bytes (v : SqVec) : List UInt8 := (v.base.getD []).take v.len.toNat

/-- The item hands out the elements `vs`: as many, and each with its type, its length and its bytes. -/
structure SqItem.Returns (i : SqItem) (vs : List SqVec) : Prop where
  count : i.vcount = vs.length
  elems : ∃ bytes, i.buffer = some bytes ∧ List.Forall₂ (fun view v => view.type = v.type ∧ view.len = v.len ∧
    (bytes.drop view.base.toNat).take v.len.toNat = v.bytes) i.vector vs

/-! ## Slots -/

/-- The slots `copy_vector` advances while it writes an element (`shared_q.c:344-354`). -/
def SqVec.stride (v : SqVec) : ℤ := if v.len % 8 ≠ 0 then 2 + v.len / 8 + 1 else 2 + v.len / 8

/-- The slots `copy_vector` advances in all. -/
def advance (vs : List SqVec) : ℤ := (vs.map SqVec.stride).sum

/-- The `long` at byte `o` of a buffer. -/
def longAt (bytes : List UInt8) (o : ℤ) : ℤ := Words.ofBytes ((bytes.drop o.toNat).take 8)

/-- The byte reached behind `n` records of type, length and data padded to whole words, from byte `o` on. -/
def walk (bytes : List UInt8) : ℕ → ℤ → ℤ
  | 0, o => o
  | n + 1, o => walk bytes n (o + 16 + (longAt bytes (o + 8) + 7) / 8 * 8)

/-- Walking the records of the item from `value` on consumes `length` bytes. -/
def SqItem.Delimited (i : SqItem) : Prop :=
  ∃ bytes value, i.buffer = some bytes ∧ i.value = some value ∧ walk bytes i.vcount.toNat value = value + i.length

section
variable {v : SqVec} {vs us : List SqVec} {m : ℤ → ℤ} {a s e : ℤ} {p : Payload} {j n : ℕ}

theorem SqVec.Addable.valid (h : v.Addable) : v.invalid = false := by
  obtain ⟨bytes, hb, -⟩ := h.readable
  have h₁ := h.type_pos
  have h₂ := h.len_pos
  unfold SqVec.invalid
  rw [hb]
  simp
  omega

theorem SqVec.Addable.reads (h : v.Addable) : v.Readable := by
  obtain ⟨bytes, hb, hle⟩ := h.readable
  intro _
  rw [hb]
  exact hle

theorem SqVec.Addable.length_elem (h : v.Addable) : ((v.elem.2.length : ℕ) : ℤ) = v.len := by
  obtain ⟨bytes, hb, hle⟩ := h.readable
  have hpos := h.len_pos
  unfold SqVec.elem
  rw [hb, Option.getD_some, List.length_take]
  omega

/-- After the elements `us` the loop of `copy_vector` goes on `advance us` slots further. -/
theorem copyElems_append : copyElems a s (us ++ vs) =
    (copyElems a s us >>= fun ok => if ok then copyElems a (s + advance us) vs else pure false) := by
  induction us generalizing s with
  | nil => simp [copyElems, advance]
  | cons u us ih =>
    have hnext : (if u.len % 8 ≠ 0 then s + 2 + u.len / 8 + 1 else s + 2 + u.len / 8) = s + u.stride := by
      unfold SqVec.stride
      split <;> ring
    have hsum : s + advance (u :: us) = s + u.stride + advance us := by
      unfold advance
      rw [List.map_cons, List.sum_cons, add_assoc]
    rw [List.cons_append, copyElems, copyElems, hsum]
    dsimp only
    rw [hnext]
    by_cases hu : u.invalid = true
    · simp [hu]
    · simp [hu, ih]

/-- A remainder is given a slot more than it takes. -/
theorem vectorElemSlots_eq : vectorElemSlots v = v.stride + if v.len % 8 ≠ 0 then 1 else 0 := by
  unfold vectorElemSlots SqVec.stride
  dsimp only
  split <;> ring

/-- The slots are as many as are advanced, and one more for each length with a remainder. -/
theorem vectorSlots_eq : vectorSlots vs = advance vs + (vs.countP fun v => v.len % 8 ≠ 0) := by
  induction vs with
  | nil => rfl
  | cons v vs ih =>
    unfold vectorSlots advance at *
    rw [List.map_cons, List.sum_cons, List.map_cons, List.sum_cons, ih, vectorElemSlots_eq, List.countP_cons]
    push_cast
    by_cases hv : v.len % 8 = 0
    · simp [hv]
      ring
    · simp [hv]
      ring

theorem vectorSlots_eq_advance : vectorSlots vs = advance vs ↔ ∀ v ∈ vs, v.len % 8 = 0 := by
  rw [vectorSlots_eq, add_eq_left, Nat.cast_eq_zero, List.countP_eq_zero]
  simp

/-- The sum is kept modulo 2^64, which matters to no vector whose count is an `int`. -/
theorem calcVectorSlots_eq_advance (hcnt : vs.length < 2 ^ 31) (hv : ∀ v ∈ vs, v.Addable) :
    calcVectorSlots vs = DATA_HDR + advance vs ↔ (∀ v ∈ vs, v.len % 8 = 0) ∧ DATA_HDR + vectorSlots vs < 2 ^ 63 := by
  have hge := vectorSlots_ge fun v hv' => (by decide : (0 : ℤ) ≤ 1).trans (hv v hv').len_pos
  have hcount := (List.countP_le_length (p := fun v : SqVec => decide (v.len % 8 ≠ 0)) (l := vs)).trans_lt hcnt
  have hsum : vectorSlots vs = _ := vectorSlots_eq
  rw [← vectorSlots_eq_advance, calcVectorSlots, foldl_vectorElemSlots]
  constructor
  · intro h
    have hlt := Int.bmod_lt (x := DATA_HDR + vectorSlots vs) (m := 2 ^ 64) (by decide)
    have hdvd : (DATA_HDR + vectorSlots vs - (DATA_HDR + advance vs)) % 2 ^ 64 = 0 := by
      have := Int.bmod_emod (x := DATA_HDR + vectorSlots vs) (m := 2 ^ 64)
      rw [h] at this
      omega
    have hmax : (((2 ^ 64 : ℕ) : ℤ) + 1) / 2 = 2 ^ 63 := by decide
    rw [h, hmax] at hlt
    simp only [DATA_HDR] at *
    omega
  · rintro ⟨h, hlt⟩
    rw [← h]
    simp only [DATA_HDR] at *
    exact Int.bmod_eq_of_le (by omega) (by omega)

/-! ## Walking -/

theorem longAt_bytesAt (hj : j < n) (h : -2 ^ 63 ≤ m (s + j)) (h' : m (s + j) < 2 ^ 63) :
    longAt (bytesAt m s n) (j * 8 : ℕ) = m (s + j) := by
  obtain ⟨k, hk⟩ := Nat.exists_eq_add_of_le (show 1 ≤ n - j by omega)
  rw [longAt, Int.toNat_natCast, drop_bytesAt m s hj.le, hk, Nat.add_comm 1 k, bytesAt, List.take_left' (Words.length_toBytes _),
    Words.ofBytes_toBytes h h']

/-- The records end where the elements do. -/
theorem Elems.walk (h : Elems m (s + j) p e) (hle : e ≤ s + n) (hn : n * 8 < 2 ^ 63) :
    walk (bytesAt m s n) p.length (j * 8 : ℕ) = (e - s) * 8 := by
  induction p generalizing j with
  | nil =>
    have he : s + j = e := h
    rw [List.length_nil, LibShr.walk, ← he]
    push_cast
    ring
  | cons x p ih =>
    obtain ⟨-, h₁, -, h₃⟩ := h
    have hlast := h₃.le
    have hlen : x.2.length ≤ slotsFor x.2.length * 8 := by
      unfold slotsFor
      omega
    have e₁ : s + (j : ℤ) + 1 = s + ((j + 1 : ℕ) : ℤ) := by push_cast; ring
    have e₃ : s + (j : ℤ) + 2 + slotsFor x.2.length = s + ((j + 2 + slotsFor x.2.length : ℕ) : ℤ) := by push_cast; ring
    rw [e₁] at h₁
    rw [e₃] at h₃
    have o₁ : ((j * 8 : ℕ) : ℤ) + 8 = (((j + 1) * 8 : ℕ) : ℤ) := by push_cast; ring
    have hlong : longAt (bytesAt m s n) (((j * 8 : ℕ) : ℤ) + 8) = x.2.length := by
      rw [o₁, longAt_bytesAt (by omega) (by omega) (by omega), h₁]
    have hnext : ((j * 8 : ℕ) : ℤ) + 16 + ((x.2.length : ℤ) + 7) / 8 * 8 = (((j + 2 + slotsFor x.2.length) * 8 : ℕ) : ℤ) := by
      unfold slotsFor
      omega
    rw [List.length_cons, LibShr.walk, hlong, hnext, ih h₃]

/-- The elements end as far behind their first slot as `copy_vector` advances. -/
theorem Elems.end_eq (h : Elems m s (vs.map SqVec.elem) e) (hv : ∀ v ∈ vs, v.Addable) : e = s + advance vs := by
  induction vs generalizing s with
  | nil =>
    have he : s = e := h
    rw [← he]
    simp [advance]
  | cons v vs ih =>
    obtain ⟨-, -, -, h₃⟩ := h
    have hlen := (hv v (by simp)).length_elem
    have hstride : (slotsFor v.elem.2.length : ℤ) + 2 = v.stride := by
      unfold slotsFor SqVec.stride
      split <;> omega
    rw [ih h₃ fun v' hv' => hv v' (by simp [hv']), advance, advance, List.map_cons, List.sum_cons, ← hstride]
    ring

/-- The length `copy_vector` reports. -/
theorem Queue.copyVector_length (Q : Queue) : (Q.copyVector vs).1.words DATA_LENGTH = vectorSlots vs * 8 := by
  unfold Queue.copyVector Queue.copyIn vectorWords
  dsimp only
  rw [Queue.elemsStored_ne (by decide)]
  exact setSlot_same _ _ _

end

/-! ## Reading back -/

section
variable {w w' w₀ : World} {H : Heap} {Q : Queue} {es : List Made} {depth b : ℤ} {p : Caller} {it : Item} {v : SqVec} {vs : List SqVec}
  {item : SqItem} {u : UserBuffer}

/-- What is shown of the elements `vs` is what they are. -/
theorem SqItem.Delivers.returns {i : SqItem} (h : i.Delivers (vs.map SqVec.elem)) (hv : ∀ v ∈ vs, v.Addable) : i.Returns vs := by
  obtain ⟨hc, -, bytes, hb, hshow⟩ := h
  refine ⟨by rw [hc, List.length_map], bytes, hb, ?_⟩
  rw [List.forall₂_map_right_iff] at hshow
  have hboth := ((List.forall₂_and_left _ _).2 ⟨hv, hshow.flip⟩).flip
  refine hboth.imp ?_
  rintro view v ⟨ha, htype, hlen, -, -, hbytes⟩
  have hl := ha.length_elem
  have hnat : v.elem.2.length = v.len.toNat := by omega
  exact ⟨htype, hlen.trans hl, hnat ▸ hbytes⟩

/-- `safely_copy_data` of a block that holds the elements `vs`. -/
theorem Sim.readBack (hS : Sim w H Q) (hb : b ∈ H.live) (hit : ItemAt H.word b it) (hpay : it.payload = vs.map SqVec.elem)
    (hv : ∀ v ∈ vs, v.Addable) (item : SqItem) (u : UserBuffer) :
    ∃ i u' w', Runs seq (LibShr.safelyCopyData b item u) w (true, i, u') w' ∧ i.Returns vs ∧ i.Delivers it.payload ∧
      i.buffer = some it.bytes ∧ i.length = it.words DATA_LENGTH := by
  obtain ⟨⟨ok, i, u'⟩, w', hr, rfl, hshow, -, -, -, hlen⟩ :=
    (wp_iff_runs trivial).1 (hS.safelyCopyData hb hit (u := u))
  have hslots := hit.stores.size hit.wf.1
  have hwords : w.mem (b + DATA_LENGTH) = it.words DATA_LENGTH := by
    have hsz := hit.size
    rw [hS.mem_block hb (by simp only [DATA_LENGTH]; omega) (by simp only [DATA_LENGTH]; omega)]
    exact hit.words _ (by decide) (by simp only [DATA_LENGTH]; omega)
  exact ⟨i, u', w', hr, (hpay ▸ hshow.delivers).returns hv, hshow.delivers, hshow.buffer, hlen.trans hwords⟩

/-- The records of a vector that was read back end where the reported length says if nothing was reserved
beyond what was written. -/
theorem Sim.delimited_iff (hS : Sim w H Q) (hb : b ∈ H.live) (hit : ItemAt H.word b it) (h₂ : 2 ≤ vs.length)
    (hpay : it.payload = vs.map SqVec.elem) (hv : ∀ v ∈ vs, v.Addable) {i : SqItem} (hdel : i.Delivers it.payload)
    (hbuf : i.buffer = some it.bytes) (hlen : i.length = vectorSlots vs * 8) : i.Delimited ↔ ∀ v ∈ vs, v.len % 8 = 0 := by
  have hbb := hS.inv.wf.live_bounds hb
  have hsmall : H.word b ≤ 2 ^ 30 := hS.inv.small trivial _ (hS.inv.wf.header b hb)
  have hmem : w.mem b = H.word b := hS.mem_block hb (le_refl _) (by omega)
  obtain ⟨e, he, hle⟩ : ∃ e, Elems H.word (b + 7) (vs.map SqVec.elem) e ∧ e ≤ b + H.word b := by
    have hst := hit.stores
    rw [hpay] at hst
    match vs, h₂ with
    | _ :: _ :: _, _ => exact hst.2
  have hend := he.end_eq hv
  have hge := he.le
  obtain ⟨n, hn⟩ : ∃ n : ℕ, H.word b = n + 1 := ⟨(H.word b - 1).toNat, by omega⟩
  have hnat : (w.mem b - 1).toNat = n := by omega
  have hbytes : it.bytes = bytesAt w.mem (b + 1) n := by rw [← hS.blockBytes hb hit, hnat]
  have helems : Elems w.mem (b + 1 + ((6 : ℕ) : ℤ)) (vs.map SqVec.elem) e := by
    have h₇ : b + 1 + ((6 : ℕ) : ℤ) = b + 7 := by push_cast; ring
    rw [h₇]
    exact he.congr fun a ha => hS.mem_block hb (by omega) (by omega)
  have hwalk := helems.walk (n := n) (by omega) (by omega)
  obtain ⟨hcount, hvalue, -⟩ := hdel
  have hcnt : i.vcount.toNat = (vs.map SqVec.elem).length := by
    rw [hcount, hpay]
    rfl
  rw [← vectorSlots_eq_advance]
  constructor
  · rintro ⟨bytes, value, hb', hv', hw⟩
    rw [hbuf] at hb'
    rw [hvalue] at hv'
    cases hb'
    cases hv'
    rw [hbytes, hcnt] at hw
    have hd : (DATA_HDR - 1) * 8 = ((6 * 8 : ℕ) : ℤ) := by decide
    rw [hd, hwalk, hlen] at hw
    omega
  · intro hadv
    refine ⟨_, _, hbuf, hvalue, ?_⟩
    have hd : (DATA_HDR - 1) * 8 = ((6 * 8 : ℕ) : ℤ) := by decide
    rw [hbytes, hcnt, hd, hwalk, hlen]
    omega

/-- A vector is copied in and read back. -/
theorem Represents.vector_back (hR : Represents w Q) (hp : p.Ok w) (h₂ : 2 ≤ vs.length) (hv : ∀ v ∈ vs, v.Addable)
    (hsz : DATA_HDR + vectorSlots vs ≤ 2 ^ 30) (item : SqItem) (u : UserBuffer) :
    ∃ b w' i u' w'', Runs seq (copyVector (some vs)) (p.enter w) b w' ∧ WritesInside w.mem w'.mem b ∧
      Runs seq (safelyCopyData b item u) w' (true, i, u') w'' ∧ i.Returns vs ∧ (i.Delimited ↔ ∀ v ∈ vs, v.len % 8 = 0) := by
  obtain ⟨H, hS⟩ := hR
  have hlen : ∀ v ∈ vs, 0 ≤ v.len := fun v h => (by decide : (0 : ℤ) ≤ 1).trans (hv v h).len_pos
  have hty : ∀ v ∈ vs, -2 ^ 31 ≤ v.type ∧ v.type < 2 ^ 32 := fun v h => ⟨by have := (hv v h).type_pos; omega, (hv v h).type_lt⟩
  have hvalid : vs.any SqVec.invalid = false := by
    rw [List.any_eq_false]
    intro v h
    simp [(hv v h).valid]
  have hboth : Wp True (LibShr.copyVector vs) _ (p.enter w) := wp_and ((hS.enter hp).copyVector h₂ hlen (fun v h => (hv v h).reads) hsz hty)
    (copyVector_writes (hS.enter hp).inv h₂ hlen (fun v h => (hv v h).valid) (fun v h => (hv v h).reads) hsz)
  obtain ⟨b, w', hr, ⟨H', hS', hcase⟩, hin⟩ := (wp_iff_runs trivial).1 hboth
  rw [hvalid, if_neg (by decide)] at hcase
  obtain ⟨hbal, hit, -, -⟩ := hcase
  have hb : b ∈ H'.live := Heap.mem_live_block (by simp [hbal.blocks])
  obtain ⟨i, u', w'', hr', hret, hdel, hbuf, hl⟩ := hS'.readBack hb hit rfl hv item u
  rw [Queue.copyVector_length] at hl
  exact ⟨b, w', i, u', w'', hr, hin, hr', hret, hS'.delimited_iff hb hit h₂ rfl hv hdel hbuf hl⟩

/-- A single element goes through `enq` and is read back. -/
theorem Represents.value_back (hR : Represents w Q) (hp : p.Ok w) (hv : v.Addable) (hsz : calcDataSlots v.len ≤ 2 ^ 30)
    (item : SqItem) (u : UserBuffer) :
    ∃ b w' i u' w'', Runs seq (copyValue v.base (toLong v.len) v.type) (p.enter w) b w' ∧
      Runs seq (safelyCopyData b item u) w' (true, i, u') w'' ∧ i.Returns [v] := by
  obtain ⟨H, hS⟩ := hR
  obtain ⟨bytes, hbase, hread⟩ := hv.readable
  have hpos := hv.len_pos
  obtain ⟨n, hn⟩ : ∃ n : ℕ, v.len = n := ⟨v.len.toNat, by omega⟩
  rw [hn, calcDataSlots_eq] at hsz
  have hlong : toLong v.len = n := by
    unfold toLong
    unfold slotsFor at hsz
    rw [hn, if_pos (by omega)]
  have hspec : Wp True (copyValue (some bytes) n v.type) _ (p.enter w) := (hS.enter hp).copyValue (by omega) (by omega) (by omega)
    ⟨by have := hv.type_pos; omega, hv.type_lt⟩
  obtain ⟨b, w', hr, H', hS', hbal, hit, -, -⟩ := (wp_iff_runs trivial).1 hspec
  have hb : b ∈ H'.live := Heap.mem_live_block (by simp [hbal.blocks])
  have hpay : ((({ Q with clock := p.clock } : Queue).copyValue bytes n v.type).1).payload = [v].map SqVec.elem := by
    rw [List.map_singleton, SqVec.elem, hbase, hn]
    rfl
  obtain ⟨i, u', w'', hr', hret, -⟩ := hS'.readBack hb hit hpay (by simpa using hv) item u
  rw [hbase, hlong]
  exact ⟨b, w', i, u', w'', hr, hr', hret⟩

/-- **What goes in comes out**, for several elements through `copy_vector`, which writes inside the block it
allocates, and for one through `enq`. The bound is on the sum that `calc_vector_slots` forms. -/
theorem vector_round_trip (hw : Created depth w₀) (h : Trace Ran w₀ es w) (hp : p.Ok w) (item : SqItem) (u : UserBuffer) :
    (∀ vs : List SqVec, 2 ≤ vs.length → (∀ v ∈ vs, v.Addable) → DATA_HDR + vectorSlots vs ≤ 2 ^ 29 →
      calcVectorSlots vs = DATA_HDR + vectorSlots vs ∧
      ∃ b w' i u' w'', Runs seq (copyVector (some vs)) (p.enter w) b w' ∧ WritesInside w.mem w'.mem b ∧
        Runs seq (safelyCopyData b item u) w' (true, i, u') w'' ∧ i.Returns vs) ∧
    ∀ v : SqVec, v.Addable → calcDataSlots v.len ≤ 2 ^ 29 →
      enqVector [v] = (copyValue v.base (toLong v.len) v.type >>= enqChecked) ∧
      ∃ b w' i u' w'', Runs seq (copyValue v.base (toLong v.len) v.type) (p.enter w) b w' ∧
        Runs seq (safelyCopyData b item u) w' (true, i, u') w'' ∧ i.Returns [v] := by
  obtain ⟨Q, hR, -⟩ := hw.reaches h
  constructor
  · intro vs h₂ hv hsz
    obtain ⟨b, w', i, u', w'', hr, hin, hr', hret, -⟩ := hR.vector_back hp h₂ hv (by omega) item u
    have hcalc := calcVectorSlots_eq (fun v h => (by decide : (0 : ℤ) ≤ 1).trans (hv v h).len_pos) (by
      simp only [DATA_HDR] at hsz
      omega)
    exact ⟨hcalc, b, w', i, u', w'', hr, hin, hr', hret⟩
  · intro v hv hsz
    refine ⟨?_, hR.value_back hp hv (by omega) item u⟩
    obtain ⟨bytes, hbase, -⟩ := hv.readable
    have hpos := hv.len_pos
    have hsome : ¬(v.base = none ∨ v.len ≤ 0) := by
      rw [hbase]
      simp
      omega
    rw [enqVector, enq, if_neg hsome]

theorem vector_round_trip_two : ∃ w₀ w : World, ∃ p : Caller, Created 4 w₀ ∧ p.Ok w ∧
    (∃ b w' i u' w'', Runs seq (copyVector (some [⟨4, 5, some [1, 2, 3, 4, 5]⟩, ⟨1, 9, some [1, 2, 3, 4, 5, 6, 7, 8, 9]⟩])) (p.enter w) b w' ∧
      WritesInside w.mem w'.mem b ∧ Runs seq (safelyCopyData b (SqItem.ofStatus .ok) ⟨false, 0⟩) w' (true, i, u') w'' ∧
      i.Returns [⟨4, 5, some [1, 2, 3, 4, 5]⟩, ⟨1, 9, some [1, 2, 3, 4, 5, 6, 7, 8, 9]⟩]) ∧
    ∃ b w' i u' w'', Runs seq (copyValue (some [7]) (toLong 1) 4) (p.enter w) b w' ∧
      Runs seq (safelyCopyData b (SqItem.ofStatus .ok) ⟨false, 0⟩) w' (true, i, u') w'' ∧ i.Returns [⟨4, 1, some [7]⟩] := by
  obtain ⟨w₀, hw, hR₀⟩ := fresh_represents
  have hp := Caller.page_ok hR₀ ⟨.readwrite⟩ fun _ => ⟨1, 0⟩
  obtain ⟨hmany, hone⟩ := vector_round_trip hw (.nil _) hp (SqItem.ofStatus .ok) ⟨false, 0⟩
  refine ⟨w₀, w₀, _, hw, hp, ?_, ?_⟩
  · refine (hmany _ (by decide) ?_ (by decide)).2
    intro v hv
    rcases List.mem_cons.1 hv with rfl | hv
    · exact ⟨by decide, by decide, by decide, _, rfl, by decide⟩
    · rw [List.mem_singleton.1 hv]
      exact ⟨by decide, by decide, by decide, _, rfl, by decide⟩
  · exact (hone ⟨4, 1, some [7]⟩ ⟨by decide, by decide, by decide, _, rfl, by decide⟩ (by decide)).2

/-- **The slots reserved are those written, and the length reported is that of the records, for elements
of whole words**, and only for these; `calc_data_slots` reserves as little as it can. -/
theorem length_delimits (hw : Created depth w₀) (h : Trace Ran w₀ es w) (hp : p.Ok w) (h₂ : 2 ≤ vs.length)
    (hcnt : vs.length < 2 ^ 31) (hv : ∀ v ∈ vs, v.Addable) (item : SqItem) (u : UserBuffer) :
    (calcVectorSlots vs = DATA_HDR + advance vs ↔ (∀ v ∈ vs, v.len % 8 = 0) ∧ DATA_HDR + vectorSlots vs < 2 ^ 63) ∧
    (DATA_HDR + vectorSlots vs ≤ 2 ^ 30 → ∃ b w' i u' w'', Runs seq (copyVector (some vs)) (p.enter w) b w' ∧
      Runs seq (safelyCopyData b item u) w' (true, i, u') w'' ∧ i.vcount = vs.length ∧ (i.Delimited ↔ ∀ v ∈ vs, v.len % 8 = 0)) ∧
    ∀ n : ℤ, 1 ≤ n → IsLeast {k : ℤ | n ≤ 8 * k} (calcDataSlots n - DATA_HDR) := by
  obtain ⟨Q, hR, -⟩ := hw.reaches h
  refine ⟨calcVectorSlots_eq_advance hcnt hv, ?_, ?_⟩
  · intro hsz
    obtain ⟨b, w', i, u', w'', hr, -, hr', hret, hdel⟩ := hR.vector_back hp h₂ hv hsz item u
    exact ⟨b, w', i, u', w'', hr, hr', hret.count, hdel⟩
  · intro n hn
    unfold calcDataSlots
    constructor
    · show n ≤ 8 * _
      dsimp only [DATA_HDR]
      split <;> omega
    · intro k hk
      have hk' : n ≤ 8 * k := hk
      dsimp only [DATA_HDR]
      split <;> omega

theorem length_delimits_words : ∃ w₀ w : World, ∃ p : Caller, Created 4 w₀ ∧ p.Ok w ∧
    calcVectorSlots [⟨1, 8, some (List.replicate 8 0)⟩, ⟨1, 16, some (List.replicate 16 0)⟩] =
      DATA_HDR + advance [⟨1, 8, some (List.replicate 8 0)⟩, ⟨1, 16, some (List.replicate 16 0)⟩] ∧
    ∃ b w' i u' w'', Runs seq (copyVector (some [⟨1, 8, some (List.replicate 8 0)⟩, ⟨1, 16, some (List.replicate 16 0)⟩])) (p.enter w) b w' ∧
      Runs seq (safelyCopyData b (SqItem.ofStatus .ok) ⟨false, 0⟩) w' (true, i, u') w'' ∧ i.vcount = 2 ∧ i.Delimited := by
  obtain ⟨w₀, hw, hR₀⟩ := fresh_represents
  have hp := Caller.page_ok hR₀ ⟨.readwrite⟩ fun _ => ⟨1, 0⟩
  have hv : ∀ v ∈ [(⟨1, 8, some (List.replicate 8 0)⟩ : SqVec), ⟨1, 16, some (List.replicate 16 0)⟩], v.Addable := by
    intro v hv
    rcases List.mem_cons.1 hv with rfl | hv
    · exact ⟨by decide, by decide, by decide, _, rfl, by decide⟩
    · rw [List.mem_singleton.1 hv]
      exact ⟨by decide, by decide, by decide, _, rfl, by decide⟩
  obtain ⟨hspace, hback, -⟩ := length_delimits hw (.nil _) hp (by decide) (by decide) hv (SqItem.ofStatus .ok) ⟨false, 0⟩
  obtain ⟨b, w', i, u', w'', hr, hr', hc, hdel⟩ := hback (by decide)
  exact ⟨w₀, w₀, _, hw, hp, hspace.2 ⟨by decide, by decide⟩, b, w', i, u', w'', hr, hr', hc, hdel.2 (by decide)⟩

/-- For one byte and eight bytes 14 slots are reserved, and 13 used. -/
theorem reserves_too_much : calcVectorSlots [⟨1, 1, some [65]⟩, ⟨1, 8, some (List.replicate 8 66)⟩] = 14 ∧
    DATA_HDR + advance [⟨1, 1, some [65]⟩, ⟨1, 8, some (List.replicate 8 66)⟩] = 13 := by
  decide

end

end LibShr
