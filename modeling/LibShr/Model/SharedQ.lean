import LibShr.Model.SharedInt

/-!
# `shared_q.c`: the private functions of the queue

Each definition is the C function of the same name. The queue handle itself is not an argument:
its extents are part of the machine, and the one field of it the public functions read (`mode`)
is an argument there.
-/

namespace LibShr

open Prog (iterate)

/-- An element of a caller's vector (`sq_vec_s`): `base` is `NULL` or points to readable bytes. -/
structure SqVec where
  type : ℤ
  len : ℤ
  base : Option (List UInt8)
deriving DecidableEq

/-- An element of a removed item's vector; `base` is an offset into the item's buffer. -/
structure VecView where
  type : ℤ
  len : ℤ
  base : ℤ
deriving DecidableEq, Repr

/-- `sq_item_s`. Pointers into the buffer are byte offsets. -/
structure SqItem where
  status : Status
  type : ℤ
  length : ℤ
  value : Option ℤ
  timestamp : Option ℤ
  buffer : Option (List UInt8)
  bufSize : ℤ
  vcount : ℤ
  vector : List VecView
deriving DecidableEq

/-- `(sq_item_s) { .status = s }`. -/
def SqItem.ofStatus (s : Status) : SqItem := ⟨s, 0, 0, none, none, none, 0, 0, []⟩

/-- The caller's buffer: whether `*buffer` is not `NULL`, and `*buff_size`. -/
structure UserBuffer where
  present : Bool
  size : ℤ
deriving DecidableEq, Repr

/-- A `struct timespec *` argument: the caller's own value, or two slots of the header. -/
inductive TimespecPtr
  | own (t : Timespec)
  | shared (array slot : ℤ)

def TimespecPtr.tvSec : TimespecPtr → M ℤ
  | .own t => pure t.sec
  | .shared array slot => load array slot

def TimespecPtr.tvNsec : TimespecPtr → M ℤ
  | .own t => pure t.nsec
  | .shared array slot => load array (slot + 1)

/-- `*(struct timespec *) &array[slot]`. -/
def loadTimespec (array slot : ℤ) : M Timespec := do
  let sec ← load array slot
  let nsec ← load array (slot + 1)
  return ⟨sec, nsec⟩

def Timespec.toDWORD (t : Timespec) : DWORD := ⟨t.sec, t.nsec⟩

/-! ## Creation -/

/-- `format_as_queue` (`shared_q.c:159`). -/
def formatAsQueue (maxDepth : ℤ) : M Status := do
  initDataAllocator HDR_END
  let array ← current
  if !(← semInit .deq 0) then return .errNosupport
  let maxDepth := if maxDepth = 0 then SEM_VALUE_MAX else maxDepth
  store array MAX_DEPTH maxDepth
  if !(← semInit .enq maxDepth) then return .errNosupport
  if !(← semInit .evnt 0) then return .errNosupport
  -- init event queue
  primeList NODE_SIZE EVENT_HEAD EVENT_HD_CNT EVENT_TAIL EVENT_TL_CNT
  -- init data queue
  primeList NODE_SIZE HEAD HEAD_CNT TAIL TAIL_CNT
  return .ok

/-! ## Copying values in -/

/-- `calc_data_slots` (`shared_q.c:212`). -/
def calcDataSlots (length : ℤ) : ℤ :=
  let space := DATA_HDR + length / 8
  if length % 8 ≠ 0 then space + 1 else space

/-- The header `copy_value` and `copy_vector` write into a fresh block. -/
def storeDataHeader (array slot : ℤ) (now : Timespec) (type vcnt length : ℤ) : M Unit := do
  store array (slot + TM_SEC) now.sec
  store array (slot + TM_NSEC) now.nsec
  store array (slot + UID) (← afa array ID_CNTR 1)
  store array (slot + TYPE) type
  store array (slot + VEC_CNT) vcnt
  store array (slot + DATA_LENGTH) length

/-- `copy_value` (`shared_q.c:234`). -/
def copyValue (value : Option (List UInt8)) (length type : ℤ) : M ℤ := do
  match value with
  | none => return 0
  | some bytes =>
    if length ≤ 0 then return 0
    let now ← clock
    let space := calcDataSlots length
    updateBufferSize (← current) space SIZEOF_VEC
    let view ← allocDataSlots space
    if view.slot ≥ HDR_END then
      storeDataHeader view.extent view.slot now type 1 length
      memcpyTo view.extent (view.slot + DATA_HDR) bytes length
    return view.slot

/-- One round of the loop of `calc_vector_slots`: type, length, data and remainder. -/
def vectorElemSlots (v : SqVec) : ℤ :=
  let space := 2 + v.len / 8
  if v.len % 8 ≠ 0 then space + 2 else space

/-- `calc_vector_slots` (`shared_q.c:273`); the sum wraps around as a `size_t` and is kept in a `long`. -/
def calcVectorSlots (vector : List SqVec) : ℤ :=
  Int.bmod (vector.foldl (fun space v => space + vectorElemSlots v) DATA_HDR) (2 ^ 64)

/-- The element test of `copy_vector` (`shared_q.c:333`). -/
def SqVec.invalid (v : SqVec) : Bool := v.type ≤ 0 || v.len ≤ 0 || v.base.isNone

/-- The copy loop of `copy_vector` (`shared_q.c:331`); `false` where it returns -1. -/
def copyElems (array : ℤ) : ℤ → List SqVec → M Bool
  | _, [] => return true
  | slot, v :: vs => do
    if v.invalid then
      return false
    else
      store array slot v.type
      store array (slot + 1) v.len
      memcpyTo array (slot + 2) (v.base.getD []) v.len
      let slot := slot + 2 + v.len / 8
      copyElems array (if v.len % 8 ≠ 0 then slot + 1 else slot) vs

/-- `copy_vector` (`shared_q.c:302`). -/
def copyVector (vector : Option (List SqVec)) : M ℤ := do
  match vector with
  | none => return -1
  | some vector =>
    if vector.length < 2 then return -1
    let now ← clock
    let space := calcVectorSlots vector
    updateBufferSize (← current) space (vector.length * SIZEOF_VEC)
    let view ← allocDataSlots space
    if view.slot ≥ HDR_END then
      -- `SH_VECTOR_T` is 0
      storeDataHeader view.extent view.slot now 0 vector.length ((space - DATA_HDR) * 8)
      if !(← copyElems view.extent (view.slot + DATA_HDR) vector) then return -1
    return view.slot

/-! ## Signals -/

/-- `signal_arrival` (`shared_q.c:362`). -/
def signalArrival : M Unit := do
  if (← load (← current) LISTEN_SIGNAL) = 0 then return ()
  if (← load (← current) LISTEN_PID) = 0 then return ()
  let sval ← semGetvalue .deq
  if sval = 0 then
    sigqueue (← load (← current) LISTEN_PID) (← load (← current) LISTEN_SIGNAL) sval

/-- `signal_event` and `signal_call` (`shared_q.c:389`, `:406`) for their pid and signal slots. -/
def signalRegistered (pid signal : ℤ) : M Unit := do
  if (← load (← current) pid) = 0 then return ()
  if (← load (← current) signal) = 0 then return ()
  sigqueue (← load (← current) pid) (← load (← current) signal) 0

/-- `signal_event` (`shared_q.c:389`). -/
def signalEvent : M Unit := signalRegistered NOTIFY_PID NOTIFY_SIGNAL

/-- `signal_call` (`shared_q.c:406`). -/
def signalCall : M Unit := signalRegistered CALL_PID CALL_SIGNAL

/-- `is_monitored` and `is_call_monitored` (`shared_q.c:423`, `:433`). -/
def isRegistered (array signal pid : ℤ) : M Bool := do
  if (← load array signal) = 0 then return false
  return (← load array pid) ≠ 0

/-- `is_monitored` (`shared_q.c:423`). -/
def isMonitored (array : ℤ) : M Bool := isRegistered array NOTIFY_SIGNAL NOTIFY_PID

/-- `is_call_monitored` (`shared_q.c:433`). -/
def isCallMonitored (array : ℤ) : M Bool := isRegistered array CALL_SIGNAL CALL_PID

/-! ## Modes -/

/-- `is_discard_on_expire` (`shared_q.c:443`). -/
def isDiscardOnExpire (array : ℤ) : M Bool := do
  return Int.land (← load array FLAGS) FLAG_DISCARD_EXPIRED ≠ 0

/-- `is_adaptive_lifo` (`shared_q.c:453`). -/
def isAdaptiveLifo (array : ℤ) : M Bool := do
  return Int.land (← load array FLAGS) FLAG_LIFO_ON_LEVEL ≠ 0

/-- One side of the test in `is_codel_active`: either word of a header timespec is set. -/
def isSet (array nsec sec : ℤ) : M Bool := do
  if (← load array nsec) ≠ 0 then return true
  return (← load array sec) ≠ 0

/-- `is_codel_active` (`shared_q.c:463`). -/
def isCodelActive (array : ℤ) : M Bool := do
  if !(← isSet array TARGET_NSEC TARGET_SEC) then return false
  isSet array LIMIT_NSEC LIMIT_SEC

/-- `event_disabled` (`shared_q.c:524`). -/
def eventDisabled (array : ℤ) (event : Event) : M Bool := do
  return Int.land (← load array FLAGS) (getEventFlag event) = 0

/-! ## Adding -/

/-- `add_event` (`shared_q.c:535`). -/
def addEvent (event : Event) : M Bool := do
  let array ← current
  if event = .none then return false
  if ← eventDisabled array event then return false
  -- insure event is a one shot by clearing subscription atomically
  let flag := getEventFlag event
  let prev ← load array FLAGS
  if !(← cas array FLAGS prev (Int.land prev (Int.lnot flag))) then return false
  -- allocate queue node
  let view ← allocIdxSlots
  if view.slot = 0 then return false
  store view.extent (view.slot + EVENT_OFFSET) event.code
  -- append node to end of queue
  addEnd view.slot EVENT_TAIL
  -- release read of event
  let _ ← semPost .evnt
  return true

/-- `update_empty_timestamp` (`shared_q.c:583`). -/
def updateEmptyTimestamp (array : ℤ) : M Unit := do
  let currTime ← clock
  let last ← loadTimespec array EMPTY_SEC
  iterate (fun last => do
    if timespecgt currTime last then
      if ← dwcas .stamp array EMPTY_SEC last.toDWORD currTime.toDWORD then return .inr ()
      return .inl (← loadTimespec array EMPTY_SEC)
    else
      return .inr ()) last

/-- `lifo_add` (`shared_q.c:607`). -/
def lifoAdd (slot : ℤ) : M Unit := do
  let view ← insureInRange slot
  let array := view.extent
  iterate (fun _ => do
    store array slot (← load array STACK_HEAD)
    store array (slot + 1) (← load array STACK_HD_CNT)
    let stackBefore ← loadDWORD array slot
    let stackAfter : DWORD := ⟨slot, stackBefore.high + 1⟩
    if ← dwcas (.push STACK_HEAD) array STACK_HEAD stackBefore stackAfter then return .inr ()
    return .inl ()) ()

/-- `post_process_enq` (`shared_q.c:632`). -/
def postProcessEnq (count : ℤ) (currTime : DWORD) : M Unit := do
  let array ← current
  if count = 0 then updateEmptyTimestamp array
  let activated ←
    if Int.land (← load array FLAGS) FLAG_ACTIVATED = 0 then
      if ← setFlag array FLAG_ACTIVATED then addEvent .init else pure false
    else pure false
  let nonempty ← if count = 0 then addEvent .nonempty else pure false
  let limit ← if count = (← load array MAX_DEPTH) - 1 then addEvent .limit else pure false
  if activated || nonempty || limit then
    if ← isMonitored array then signalEvent
  -- update last add timestamp
  let prevTime ← loadTimespec array TS_SEC
  let _ ← dwcas .stamp array TS_SEC prevTime.toDWORD currTime
  signalArrival

/-- `fifo_add` (`shared_q.c:687`). -/
def fifoAdd (slot : ℤ) : M Unit := addEnd slot TAIL

/-- `enq_data` (`shared_q.c:698`). -/
def enqData (dataSlot : ℤ) : M Status := do
  let array ← current
  let currTime : DWORD := ⟨← load array (dataSlot + TM_SEC), ← load array (dataSlot + TM_NSEC)⟩
  -- allocate queue node
  let view ← allocIdxSlots
  if view.slot = 0 then
    let _ ← freeDataSlots dataSlot
    return .errNomem
  let node := view.slot
  let array := view.extent
  -- point queue node to data slot
  store array (node + VALUE_OFFSET) dataSlot
  let lifo ←
    if ← isAdaptiveLifo array then
      pure (decide ((← load array COUNT) ≥ (← load array LEVEL)))
    else pure false
  if lifo then lifoAdd node else fifoAdd node
  let count ← afa array COUNT 1
  postProcessEnq count currTime
  releasePrevExtents
  return .ok

/-- The end of `enq` and `enqv` (`shared_q.c:761-773`): check the data slot and queue it. -/
def enqChecked (dataSlot : ℤ) : M Status := do
  if dataSlot = 0 then return .errNomem
  if dataSlot < HDR_END then return .errState
  enqData dataSlot

/-- A `size_t` read as `long`. -/
def toLong (x : ℤ) : ℤ := if x < 2 ^ 63 then x else x - 2 ^ 64

/-- `enq` (`shared_q.c:744`). -/
def enq (value : Option (List UInt8)) (length type : ℤ) : M Status := do
  if value = none ∨ length ≤ 0 then return .errArg
  -- allocate space and copy value
  enqChecked (← copyValue value (toLong length) type)

/-- `enqv` (`shared_q.c:777`). -/
def enqv (vector : Option (List SqVec)) : M Status := do
  if vector = none ∨ (vector.getD []).length < 2 then return .errArg
  -- allocate space and copy vector
  let dataSlot ← copyVector vector
  if dataSlot < 0 then return .errArg
  enqChecked dataSlot

/-! ## Expiry -/

/-- `next_item` (`shared_q.c:818`). -/
def nextItem (slot : ℤ) : M ℤ := do
  let view ← insureInRange slot
  if view.slot = 0 then return 0
  let next ← load view.extent slot
  if next = 0 then return 0
  let view ← insureInRange (next + VALUE_OFFSET)
  if view.slot = 0 then return 0
  if next < HDR_END then return 0
  load view.extent (next + VALUE_OFFSET)

/-- `item_exceeds_limit` (`shared_q.c:862`). -/
def itemExceedsLimit (itemSlot : ℤ) (timelimit : TimespecPtr) (currTime : Timespec) : M Bool := do
  if itemSlot < HDR_END then return false
  if (← timelimit.tvSec) = 0 then
    if (← timelimit.tvNsec) = 0 then return false
  let view ← insureInRange itemSlot
  if view.slot ≠ itemSlot then return false
  let item ← loadTimespec view.extent (itemSlot + TM_SEC)
  let diff := timespecsub currTime item
  return timespecgt diff ⟨← timelimit.tvSec, ← timelimit.tvNsec⟩

/-- `item_exceeds_delay` (`shared_q.c:897`). -/
def itemExceedsDelay (itemSlot array : ℤ) : M Bool := do
  if itemSlot < HDR_END then return false
  let now ← clock
  if ← isCodelActive array then
    let last ← loadTimespec array EMPTY_SEC
    if last.sec = 0 then
      itemExceedsLimit itemSlot (.shared array LIMIT_SEC) now
    else
      let intrvl := timespecsub now (← loadTimespec array LIMIT_SEC)
      if timespecgt intrvl last then
        itemExceedsLimit itemSlot (.shared array TARGET_SEC) now
      else
        itemExceedsLimit itemSlot (.shared array LIMIT_SEC) now
  else
    itemExceedsLimit itemSlot (.shared array LIMIT_SEC) now

/-- `clear_empty_timestamp` (`shared_q.c:940`). -/
def clearEmptyTimestamp (array : ℤ) : M Unit := do
  let last ← loadTimespec array EMPTY_SEC
  iterate (fun last => do
    if ← dwcas .stamp array EMPTY_SEC last.toDWORD ⟨0, 0⟩ then return .inr ()
    return .inl (← loadTimespec array EMPTY_SEC)) last

/-! ## Copying items out -/

/-- `resize_buffer` (`shared_q.c:960`): the resulting buffer, or `none` for `SH_ERR_NOMEM`. -/
def resizeBuffer (array dataSlot : ℤ) (buffer : UserBuffer) (size : ℤ) : M (Option UserBuffer) := do
  let total := size + (← load array (dataSlot + VEC_CNT)) * SIZEOF_VEC
  if buffer.present ∧ ¬ buffer.size < total then
    return some buffer
  else if ← malloc total then
    return some ⟨true, total⟩
  else
    return none

/-- `*(long *) current` inside a buffer; outside it the read is undefined. -/
def readLong (buffer : List UInt8) (offset : ℤ) : M ℤ := do
  if offset < 0 ∨ offset + 8 > buffer.length then undefined
  return Words.ofBytes ((buffer.drop offset.toNat).take 8)

/-- `initialize_item_vector` (`shared_q.c:997`), `n` elements from `current` on. -/
def initializeItemVector (buffer : List UInt8) : ℤ → ℕ → M (List VecView)
  | _, 0 => return []
  | current, n + 1 => do
    let type ← readLong buffer current
    let len ← readLong buffer (current + 8)
    let base := current + 16
    -- `len` is a `size_t`
    let len : ℤ := unsigned len
    let next := if len ≤ 8 then base + 8 else if len % 8 ≠ 0 then base + len / 8 * 8 + 8 else base + len / 8 * 8
    let views ← initializeItemVector buffer next n
    return ⟨type, len, base⟩ :: views

/-- `copy_to_buffer` (`shared_q.c:1031`); the item is unchanged but for its status on failure. -/
def copyToBuffer (array dataSlot : ℤ) (item : SqItem) (buffer : UserBuffer) : M (SqItem × UserBuffer) := do
  let size := (← load array (dataSlot + DATA_SLOTS)) * 8 - 8
  match ← resizeBuffer array dataSlot buffer size with
  | none => return ({ item with status := .errNomem }, ⟨false, 0⟩)
  | some buffer =>
    if size < 0 then undefined
    let bytes ← memcpyFrom array (dataSlot + 1) (size / 8).toNat
    let type ← load array (dataSlot + TYPE)
    let length ← load array (dataSlot + DATA_LENGTH)
    let vcount ← load array (dataSlot + VEC_CNT)
    let value := (DATA_HDR - 1) * 8
    let vector ←
      if vcount = 1 then
        pure [⟨← load array (dataSlot + TYPE), length, value⟩]
      else initializeItemVector bytes value vcount.toNat
    return (⟨item.status, type, length, some value, some 0, some bytes, size, vcount, vector⟩, buffer)

/-! ## Removing -/

/-- `remove_top` (`shared_q.c:1074`). -/
def removeTop (top gen : ℤ) : M ℤ := do
  let array ← current
  if top ≥ HDR_END then
    if top = (← load array STACK_HEAD) then
      if gen = (← load array STACK_HD_CNT) then
        let view ← insureInRange top
        let array := view.extent
        let afterLow ← load array top
        if ← dwcas (.pop STACK_HEAD) array STACK_HEAD ⟨top, gen⟩ ⟨afterLow, gen + 1⟩ then
          memset0 array top 2
          return top
  return 0

/-- `lifo_remove` (`shared_q.c:1109`). -/
def lifoRemove : M ℤ := do
  let array ← current
  let gen ← load array STACK_HD_CNT
  let top ← load array STACK_HEAD
  let view ← insureInRange top
  let dataSlot ← load view.extent (top + VALUE_OFFSET)
  if dataSlot = 0 then return 0
  if (← removeTop top gen) = 0 then return 0
  -- free queue node
  addEnd top FREE_TAIL
  return dataSlot

/-- `fifo_remove` (`shared_q.c:1141`). -/
def fifoRemove : M ℤ := do
  let array ← current
  let gen ← load array HEAD_CNT
  let head ← load array HEAD
  if head = (← load array TAIL) then return 0
  let _ ← insureInRange head
  let dataSlot ← nextItem head
  if dataSlot = 0 then return 0
  if (← removeFront head gen HEAD TAIL) = 0 then return 0
  -- free queue node
  addEnd head FREE_TAIL
  return dataSlot

/-- `safely_copy_data` (`shared_q.c:1179`). -/
def safelyCopyData (dataSlot : ℤ) (item : SqItem) (buffer : UserBuffer) : M (Bool × SqItem × UserBuffer) := do
  -- insure data is accessible
  let view ← insureInRange dataSlot
  if view.slot = 0 then return (false, item, buffer)
  let endSlot := dataSlot + (← load view.extent (dataSlot + DATA_SLOTS)) - 1
  let view ← insureInRange endSlot
  if view.slot = 0 then return (false, item, buffer)
  let (item, buffer) ← copyToBuffer view.extent dataSlot item buffer
  return (true, item, buffer)

/-- `post_process_deq` (`shared_q.c:1214`). -/
def postProcessDeq (dataSlot : ℤ) (item : SqItem) : M SqItem := do
  let array ← current
  let count ← afa array COUNT (-1)
  if ← isCodelActive array then
    if count = 1 then clearEmptyTimestamp array
  let expired ← if ← isDiscardOnExpire array then itemExceedsDelay dataSlot array else pure false
  let empty ← if count = 1 then addEvent .empty else pure false
  let time ← if expired then addEvent .time else pure false
  let drop ← if expired then isDiscardOnExpire array else pure false
  let item ←
    if drop then do
      let _ ← freeDataSlots dataSlot
      pure (SqItem.ofStatus .errExist)
    else do
      let status ← freeDataSlots dataSlot
      pure { item with status := status }
  if empty || time then
    if ← isMonitored array then signalEvent
  return item

/-- `deq` (`shared_q.c:1269`). -/
def deq (buffer : UserBuffer) : M (SqItem × UserBuffer) := do
  let array ← current
  let item := SqItem.ofStatus .errEmpty
  let dataSlot ← iterate (fun _ => do
    let dataSlot ←
      if (← load array STACK_HEAD) = 0 then do
        let head ← load array HEAD
        if head = (← load array TAIL) then pure none else some <$> fifoRemove
      else some <$> lifoRemove
    match dataSlot with
    | none => return .inr none
    | some slot => if slot = 0 then return .inl () else return .inr (some slot)) ()
  match dataSlot with
  | none =>
    -- queue empty
    releasePrevExtents
    return (item, buffer)
  | some dataSlot =>
    let (copied, item, buffer) ← safelyCopyData dataSlot item buffer
    let item ← if copied then postProcessDeq dataSlot item else pure item
    releasePrevExtents
    return (item, buffer)

/-! ## Events -/

/-- `next_event` (`shared_q.c:1314`). -/
def nextEvent (slot : ℤ) : M Event := do
  let view ← insureInRange slot
  if view.slot = 0 then return .none
  let next ← load view.extent slot
  let view ← insureInRange next
  if view.slot = 0 then return .none
  return Event.ofCode (← load view.extent (next + EVENT_OFFSET))

/-- `check_for_level_event` (`shared_q.c:1343`). -/
def checkForLevelEvent : M Unit := do
  let array ← current
  let level ← load array LEVEL
  if level ≤ 0 then return ()
  if ← eventDisabled array .level then return ()
  if (← load array COUNT) ≥ level then
    if ← addEvent .level then signalEvent

/-! ## Gates -/

/-- `deq_gate_try` (`shared_q.c:1458`). -/
def deqGateTry : M Status :=
  iterate (fun _ => do
    match ← semTrywait .deq with
    | none => return .inr .ok
    | some .eagain =>
      if ← isCallMonitored (← current) then signalCall
      return .inr .errEmpty
    | some .einval => return .inr .errState
    | some _ => return .inl ()) ()

/-- `deq_gate_blk` (`shared_q.c:1489`). -/
def deqGateBlk : M Status := do
  let _ ← afa (← current) CALL_BLOCKS 1
  if ← isCallMonitored (← current) then signalCall
  iterate (fun _ => do
    match ← semWait .deq with
    | none =>
      let _ ← afa (← current) CALL_UNBLOCKS 1
      return .inr .ok
    | some .einval =>
      let _ ← afa (← current) CALL_UNBLOCKS 1
      return .inr .errState
    | some _ => return .inl ()) ()

/-- `deq_gate_tm` (`shared_q.c:1516`). -/
def deqGateTm (timeout : Timespec) : M Status := do
  let _ ← afa (← current) CALL_BLOCKS 1
  if ← isCallMonitored (← current) then signalCall
  let ts := timespecadd (← clock) timeout
  iterate (fun _ => do
    match ← semTimedwait .deq ts with
    | none =>
      let _ ← afa (← current) CALL_UNBLOCKS 1
      return .inr .ok
    | some .etimedout =>
      let _ ← afa (← current) CALL_UNBLOCKS 1
      return .inr .errEmpty
    | some .einval =>
      let _ ← afa (← current) CALL_UNBLOCKS 1
      return .inr .errState
    | some _ => return .inl ()) ()

/-- `enq_gate_try` (`shared_q.c:1558`). -/
def enqGateTry : M Status :=
  iterate (fun _ => do
    match ← semTrywait .enq with
    | none => return .inr .ok
    | some .eagain => return .inr .errLimit
    | some .einval => return .inr .errState
    | some _ => return .inl ()) ()

/-- `enq_gate_blk` (`shared_q.c:1583`). -/
def enqGateBlk : M Status :=
  iterate (fun _ => do
    match ← semWait .enq with
    | none => return .inr .ok
    | some .einval => return .inr .errState
    | some _ => return .inl ()) ()

/-- `enq_gate_tm` (`shared_q.c:1602`). -/
def enqGateTm (timeout : Timespec) : M Status := do
  let ts := timespecadd (← clock) timeout
  iterate (fun _ => do
    match ← semTimedwait .enq ts with
    | none => return .inr .ok
    | some .etimedout => return .inr .errLimit
    | some .einval => return .inr .errState
    | some _ => return .inl ()) ()

/-- `deq_release_gate` and `enq_release_gate` (`shared_q.c:1633`, `:1652`) for their semaphore. -/
def releaseGate (s : Sem) : M Status :=
  iterate (fun _ => do
    match ← semPost s with
    | none => return .inr .ok
    | some .einval => return .inr .errState
    | some _ => return .inl ()) ()

/-- `deq_release_gate` (`shared_q.c:1633`). -/
def deqReleaseGate : M Status := releaseGate .deq

/-- `enq_release_gate` (`shared_q.c:1652`). -/
def enqReleaseGate : M Status := releaseGate .enq

end LibShr
