import LibShr.Lib.Bits
import LibShr.Model.Machine

/-!
# `shared_int.c`: extents, flags, lists and the allocators

Each definition is the C function of the same name, statement by statement. `array` is the slot
count of the extent the C pointer points into (see `Machine`), and a C loop is `Prog.iterate`: its
state is what the next round reads, `inl` is another round and `inr` leaves the loop.
-/

namespace LibShr

open Prog (iterate)

/-! ## Machine arithmetic -/

/-- A `long` read as `unsigned long`. -/
def unsigned (x : ℤ) : ℕ := (x % 2 ^ 64).toNat

/-- `__builtin_ctzl`, undefined at 0. -/
def ctzl (x : ℤ) : M ℤ := do
  if unsigned x = 0 then undefined
  return Bits.ctz (unsigned x)

/-- `1 << k` on a 32-bit `int`, undefined unless the result is an `int`. -/
def shl1 (k : ℤ) : M ℤ := do
  if k < 0 ∨ 31 ≤ k then undefined
  return 2 ^ k.toNat

/-! ## Extents -/

/-- `resize_extent` (`shared_int.c:544`). -/
def resizeExtent (extent : ℤ) : M View := do
  let view : View := ⟨.ok, 0, ← current⟩
  -- did another thread change current extent?
  if extent ≠ view.extent then return view
  -- did another process change size of shared object?
  let array := view.extent
  if extent = (← load array SIZE) then return view
  let status ← createExtent (← load array SIZE)
  if status ≠ .ok then return { view with status := status }
  return { view with status := status, extent := ← current }

/-- `calculate_realloc_size` (`shared_int.c:605`). -/
def calculateReallocSize (extent slots : ℤ) : ℤ :=
  let currentPages := extent * 8 / 4096
  let neededPages := slots * 8 / 4096 + 1
  (currentPages + neededPages) * PAGE_SIZE

/-- The `while ( ftruncate( .. ) < 0 )` loop of `expand` (`shared_int.c:664`). -/
def extendObject (array : ℤ) : M Bool :=
  iterate (fun _ => do
    match ← ftruncate (← load array EXPAND_SIZE) with
    | .done => return .inr true
    | .eintr => return .inl ()
    | .failed => return .inr false) ()

/-- `expand` (`shared_int.c:627`). -/
def expand (extent slots : ℤ) : M View := do
  assert (slots > 0)
  if extent ≠ (← current) then return ⟨.ok, 0, ← current⟩
  let array := extent
  if extent ≠ (← load array SIZE) then
    resizeExtent extent
  else
    let size := calculateReallocSize extent slots
    let prev := (← load array SIZE) * 8
    -- attempt to update expansion size
    if size > prev then
      let _ ← cas array EXPAND_SIZE prev size
    -- attempt to extend shared memory
    if !(← extendObject array) then return ⟨.errNomem, 0, extent⟩
    -- attempt to update size with reallocated value
    let _ ← cas array SIZE (prev / 8) ((← load array EXPAND_SIZE) / 8)
    if extent ≠ (← load array SIZE) then
      resizeExtent extent
    else
      return ⟨.ok, 0, extent⟩

/-- `insure_in_range` (`shared_int.c:703`). -/
def insureInRange (slot : ℤ) : M View := do
  assert (slot > 0)
  if slot < (← current) then return ⟨.ok, slot, ← current⟩
  let view ← resizeExtent (← current)
  if view.status = .ok then return { view with slot := slot }
  return view

/-- `insure_fit` (`shared_int.c:744`). -/
def insureFit (start slots : ℤ) : M View := do
  assert (start ≥ BASE)
  assert (slots > 0)
  let view : View := ⟨.ok, 0, ← current⟩
  let last := start + slots
  let view ← iterate (fun view : View => do
    if last ≥ view.extent then
      let view ← expand view.extent slots
      if view.status ≠ .ok then return .inr view
      return .inl view
    else
      return .inr view) view
  if view.status ≠ .ok then return view
  return { view with slot := start, extent := ← current }

/-! ## Flags and the advertised buffer size -/

/-- `set_flag` (`shared_int.c:788`). -/
def setFlag (array indicator : ℤ) : M Bool := do
  let prev ← load array FLAGS
  iterate (fun prev => do
    if Int.land prev indicator = 0 then
      if ← cas array FLAGS prev (Int.lor prev indicator) then return .inr true
      return .inl (← load array FLAGS)
    else
      return .inr false) prev

/-- `clear_flag` (`shared_int.c:827`). -/
def clearFlag (array indicator : ℤ) : M Bool := do
  let mask := Int.lnot indicator
  let prev ← load array FLAGS
  iterate (fun prev => do
    if Int.land prev indicator ≠ 0 then
      if ← cas array FLAGS prev (Int.land prev mask) then return .inr true
      return .inl (← load array FLAGS)
    else
      return .inr false) prev

/-- `update_buffer_size` (`shared_int.c:859`). Shifting a negative `long`, or out of its range, is undefined. -/
def updateBufferSize (array space vecSz : ℤ) : M Unit := do
  let total := space * 8 + vecSz
  if space < 0 ∨ total ≥ 2 ^ 63 then undefined
  let buffSz ← load array BUFFER
  iterate (fun buffSz => do
    if total > buffSz then
      if ← cas array BUFFER buffSz total then return .inr ()
      return .inl (← load array BUFFER)
    else
      return .inr ()) buffSz

/-! ## Lock-free lists -/

/-- `add_end` (`shared_int.c:893`). -/
def addEnd (slot tail : ℤ) : M Unit := do
  let array ← current
  let gen ← afa array ID_CNTR 1
  store array slot slot
  store array (slot + 1) gen
  let nextAfter : DWORD := ⟨slot, gen⟩
  iterate (fun array => do
    let tailBefore ← loadDWORD array tail
    let next := tailBefore.low
    let view ← insureInRange next
    let array := view.extent
    if tailBefore.low = (← load array next) then
      if ← dwcas (.link tail) array next tailBefore nextAfter then
        let _ ← dwcas (.swing tail) array tail tailBefore nextAfter
        return .inr ()
      return .inl array
    else
      let tailAfter ← loadDWORD array next
      let _ ← dwcas (.swing tail) array tail tailBefore tailAfter
      return .inl array) array

/-- `remove_front` (`shared_int.c:948`). -/
def removeFront (ref gen head tail : ℤ) : M ℤ := do
  let array ← current
  if ref ≥ BASE then
    if ref ≠ (← load array tail) then
      let view ← insureInRange ref
      let array := view.extent
      let afterLow ← load array ref
      if ← dwcas (.unlink head) array head ⟨ref, gen⟩ ⟨afterLow, gen + 1⟩ then
        memset0 array ref 2
        return ref
  return 0

/-! ## Node and data allocation -/

/-- `alloc_new_data` (`shared_int.c:993`). -/
def allocNewData (slots : ℤ) : M View := do
  let array ← current
  let nodeAlloc ← load array DATA_ALLOC
  let view ← insureFit nodeAlloc slots
  if view.status ≠ .ok then return view
  iterate (fun (view, nodeAlloc) => do
    let array := view.extent
    let allocEnd := nodeAlloc + slots
    if view.status ≠ .ok then return .inr ⟨.errNomem, 0, 0⟩
    if allocEnd < (← load array SIZE) then
      if ← cas array DATA_ALLOC nodeAlloc allocEnd then
        store array nodeAlloc slots
        return .inr { view with slot := nodeAlloc }
      let array ← current
      let nodeAlloc ← load array DATA_ALLOC
      let view ← insureFit nodeAlloc slots
      return .inl (view, nodeAlloc)
    else
      return .inr ⟨.errNomem, 0, 0⟩) (view, nodeAlloc)

/-- `realloc_pooled_mem` (`shared_int.c:1038`). -/
def reallocPooledMem (slotCount : ℕ) (head headCounter tail : ℤ) : M View := do
  let view : View := ⟨.ok, 0, ← current⟩
  let array := view.extent
  let gen ← load array headCounter
  let nodeAlloc ← load array head
  iterate (fun (gen, nodeAlloc) => do
    if nodeAlloc ≠ (← load array tail) then
      let nodeAlloc ← removeFront nodeAlloc gen head tail
      if nodeAlloc > 0 then
        let view ← insureFit nodeAlloc slotCount
        if view.slot ≠ 0 then memset0 view.extent nodeAlloc slotCount
        return .inr view
      let gen ← load array headCounter
      let nodeAlloc ← load array head
      return .inl (gen, nodeAlloc)
    else
      return .inr view) (gen, nodeAlloc)

/-- `alloc_idx_slots` (`shared_int.c:1086`). -/
def allocIdxSlots : M View := do
  let view ← reallocPooledMem IDX_SIZE FREE_HEAD FREE_HD_CNT FREE_TAIL
  if view.slot ≠ 0 then return view
  allocNewData IDX_SIZE

/-- `free_data_slots` (`shared_int.c:1106`). -/
def freeDataSlots (slot : ℤ) : M Status := do
  let array ← current
  let count ← load array slot
  let index := (← ctzl count) - 2
  let bucket := MEM_BKT_START + index * 2
  iterate (fun _ => do
    -- point current memory at next allocation
    store array (slot + 1) (← load array (bucket + 1))
    store array slot (← load array bucket)
    -- init next bucket value
    let after : DWORD := ⟨slot, (← load array (slot + 1)) + 1⟩
    -- `DWCAS` takes the expected value from the block itself
    let high ← load array (slot + 1)
    let low ← load array slot
    if ← dwcas (.push bucket) array bucket ⟨low, high⟩ after then return .inr ()
    return .inl ()) ()
  return .ok

/-- `find_first_fit` (`shared_int.c:1140`). -/
def findFirstFit (count : ℤ) : M ℤ := do
  if count < 4 then return 0
  let index := (← ctzl count) - 2
  iterate (fun (retries, index) => do
    if retries ≠ 0 ∧ index < MEM_SLOTS then
      let bucket := MEM_BKT_START + 2 * index
      if (← load (← current) bucket) ≠ 0 then return .inr bucket
      return .inl (retries - 1, index + 1)
    else
      return .inr 0) ((3 : ℤ), index)

/-- `lookup_freed_data` (`shared_int.c:1177`). -/
def lookupFreedData (slots : ℤ) : M ℤ := do
  let bucket ← findFirstFit slots
  if bucket = 0 then return 0
  iterate (fun array => do
    let before ← loadDWORD array bucket
    if before.low = 0 then return .inr 0
    let view ← insureInRange before.low
    let array := view.extent
    let after : DWORD := ⟨← load array before.low, before.high + 1⟩
    if ← dwcas (.pop bucket) array bucket before after then
      store array before.low (← shl1 ((bucket - MEM_BKT_START) / 2 + 2))
      return .inr before.low
    return .inl array) (← current)

/-- `realloc_data_slots` (`shared_int.c:1226`). -/
def reallocDataSlots (slots : ℤ) : M View := do
  let view : View := ⟨.ok, 0, ← current⟩
  let allocEnd ← lookupFreedData slots
  if allocEnd > 0 then
    let view ← insureFit allocEnd slots
    if view.slot ≠ 0 then memset0 view.extent (allocEnd + 1) (slots - 1).toNat
    return view
  return view

/-- The rounding at the head of `alloc_data_slots` (`shared_int.c:1269-1274`). -/
def roundSlots (slots : ℤ) : M ℤ :=
  if Bits.popcount (unsigned slots) > 1 then shl1 (64 - Bits.clz (unsigned slots)) else pure slots

/-- `alloc_data_slots` (`shared_int.c:1262`). -/
def allocDataSlots (slots : ℤ) : M View := do
  let slots ← roundSlots slots
  let view ← reallocDataSlots slots
  if view.slot ≠ 0 then return view
  allocNewData slots

/-! ## Creation -/

/-- `prime_list` (`shared_int.c:487`). -/
def primeList (slotCount head headCounter tail tailCounter : ℤ) : M Unit := do
  let array ← current
  let view ← allocNewData slotCount
  store array head view.slot
  store array headCounter (← afa array ID_CNTR 1)
  store array tail view.slot
  store array tailCounter (← load array headCounter)
  -- init item on queue
  store array (← load array head) (← load array tail)
  store array ((← load array head) + 1) (← load array tailCounter)

/-- `init_data_allocator` (`shared_int.c:513`). -/
def initDataAllocator (start : ℤ) : M Unit := do
  let array ← current
  store array DATA_ALLOC start
  primeList IDX_SIZE FREE_HEAD FREE_HD_CNT FREE_TAIL FREE_TL_CNT

/-- The part of `create_base_object` that fills in the fresh object (`shared_int.c:472-477`). -/
def initBaseObject (tag : List UInt8) (version : ℤ) : M Unit := do
  let array ← current
  store array SIZE (← current)
  store array EXPAND_SIZE ((← current) * 8)
  store array DATA_ALLOC BASE
  store array VERSION version
  memcpyTo array TAG tag tag.length

end LibShr
