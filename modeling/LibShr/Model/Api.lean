import LibShr.Model.SharedQ

/-!
# The public functions of the queue

A handle `shr_q_s *q` is `none` for `NULL`, otherwise it carries the one field these functions
read, `mode`. The six add functions share their frame, and so do the three remove functions: each
keeps its own argument test and gate.
-/

namespace LibShr

open Prog (iterate)

/-- `struct shr_q`, as far as the public functions read it. -/
structure ShrQ where
  mode : Mode
deriving DecidableEq, Repr

/-! ## Creation -/

/-- `SHRQ`. -/
def SHRQ : List UInt8 := [115, 104, 114, 113]

/-- What `shr_q_create` does to the fresh object once it exists and is mapped
(`shared_int.c:472-477` and `shared_q.c:1760`). -/
def initQueue (maxDepth : ℤ) : M Status := do
  initBaseObject SHRQ QVERSION
  formatAsQueue maxDepth

/-! ## Adding -/

/-- The common frame of the add functions (`shared_q.c:2103-2138`). -/
def addThrough (gate enqueue : M Status) : M Status := do
  guardQMemory
  let status ← gate
  if status ≠ .ok then
    unguardQMemory
    return status
  let status ← enqueue
  if status ≠ .ok then
    let _ ← enqReleaseGate
    unguardQMemory
    return status
  let status ← deqReleaseGate
  if status ≠ .ok then
    unguardQMemory
    return status
  checkForLevelEvent
  unguardQMemory
  return status

/-- `SH_STRM_T`. -/
@[simp] abbrev SH_STRM_T : ℤ := 1

/-- `shr_q_add` (`shared_q.c:2087`). -/
def shrQAdd (q : Option ShrQ) (value : Option (List UInt8)) (length : ℤ) : M Status :=
  match q with
  | none => return .errArg
  | some q =>
    if value = none ∨ length ≤ 0 then return .errArg
    else if !q.mode.canWrite then return .errState
    else addThrough enqGateTry (enq value length SH_STRM_T)

/-- `shr_q_add_wait` (`shared_q.c:2155`). -/
def shrQAddWait (q : Option ShrQ) (value : Option (List UInt8)) (length : ℤ) : M Status :=
  match q with
  | none => return .errArg
  | some q =>
    if value = none ∨ length ≤ 0 then return .errArg
    else if !q.mode.canWrite then return .errState
    else addThrough enqGateBlk (enq value length SH_STRM_T)

/-- `shr_q_add_timedwait` (`shared_q.c:2226`). -/
def shrQAddTimedwait (q : Option ShrQ) (value : Option (List UInt8)) (length : ℤ)
    (timeout : Option Timespec) : M Status :=
  match q, timeout with
  | some q, some timeout =>
    if value = none ∨ length ≤ 0 then return .errArg
    else if !q.mode.canWrite then return .errState
    else addThrough (enqGateTm timeout) (enq value length SH_STRM_T)
  | _, _ => return .errArg

/-- The choice between `enq` and `enqv` made by the vector functions (`shared_q.c:2321-2329`). -/
def enqVector : List SqVec → M Status
  | [v] => enq v.base v.len v.type
  | vector => enqv (some vector)

/-- `shr_q_addv` (`shared_q.c:2293`); `vcnt` is the length of the vector. -/
def shrQAddv (q : Option ShrQ) (vector : Option (List SqVec)) : M Status :=
  match q, vector with
  | some q, some vector =>
    if vector.length < 1 then return .errArg
    else if !q.mode.canWrite then return .errState
    else addThrough enqGateTry (enqVector vector)
  | _, _ => return .errArg

/-- `shr_q_addv_wait` (`shared_q.c:2368`). -/
def shrQAddvWait (q : Option ShrQ) (vector : Option (List SqVec)) : M Status :=
  match q, vector with
  | some q, some vector =>
    if vector.length < 1 then return .errArg
    else if !q.mode.canWrite then return .errState
    else addThrough enqGateBlk (enqVector vector)
  | _, _ => return .errArg

/-- `shr_q_addv_timedwait` (`shared_q.c:2448`). -/
def shrQAddvTimedwait (q : Option ShrQ) (vector : Option (List SqVec)) (timeout : Option Timespec) :
    M Status :=
  match q, vector, timeout with
  | some q, some vector, some timeout =>
    if vector.length < 1 then return .errArg
    else if !q.mode.canWrite then return .errState
    else addThrough (enqGateTm timeout) (enqVector vector)
  | _, _, _ => return .errArg

/-! ## Removing -/

/-- The loop of the remove functions (`shared_q.c:2561-2591`). -/
def removeThrough (gate : M Status) (buffer : UserBuffer) : M (SqItem × UserBuffer) := do
  guardQMemory
  let result ← iterate (fun buffer => do
    let status ← gate
    if status ≠ .ok then
      return .inr (SqItem.ofStatus status, buffer)
    else
      let (item, buffer) ← deq buffer
      if item.status ≠ .errExist then
        if item.status ≠ .ok then
          let _ ← deqReleaseGate
          return .inr (item, buffer)
        else
          let status ← enqReleaseGate
          return .inr ({ item with status := status }, buffer)
      else
        let _ ← enqReleaseGate
        return .inl buffer) buffer
  unguardQMemory
  return result

/-- The argument tests of the remove functions: `buffer` and `buff_size` are `none` when either
pointer is `NULL`. -/
def removeWith (q : Option ShrQ) (buffer : Option UserBuffer) (gate : M Status) :
    M (SqItem × UserBuffer) :=
  match q, buffer with
  | some q, some buffer =>
    if buffer.present ∧ buffer.size ≤ 0 then return (SqItem.ofStatus .errArg, buffer)
    else if !q.mode.canRead then return (SqItem.ofStatus .errState, buffer)
    else removeThrough gate buffer
  | _, _ => return (SqItem.ofStatus .errArg, buffer.getD ⟨false, 0⟩)

/-- `shr_q_remove` (`shared_q.c:2536`). -/
def shrQRemove (q : Option ShrQ) (buffer : Option UserBuffer) : M (SqItem × UserBuffer) :=
  removeWith q buffer deqGateTry

/-- `shr_q_remove_wait` (`shared_q.c:2623`). -/
def shrQRemoveWait (q : Option ShrQ) (buffer : Option UserBuffer) : M (SqItem × UserBuffer) :=
  removeWith q buffer deqGateBlk

/-- `shr_q_remove_timedwait` (`shared_q.c:2712`). -/
def shrQRemoveTimedwait (q : Option ShrQ) (buffer : Option UserBuffer) (timeout : Option Timespec) :
    M (SqItem × UserBuffer) :=
  match timeout with
  | none => return (SqItem.ofStatus .errArg, buffer.getD ⟨false, 0⟩)
  | some timeout => removeWith q buffer (deqGateTm timeout)

/-! ## Events -/

/-- The search of `shr_q_event` (`shared_q.c:2806-2824`). -/
def takeEvent (array : ℤ) : M Event := do
  let gen ← load array EVENT_HD_CNT
  let head ← load array EVENT_HEAD
  iterate (fun (gen, head) => do
    if head ≠ (← load array EVENT_TAIL) then
      let event ← nextEvent head
      if (← removeFront head gen EVENT_HEAD EVENT_TAIL) ≠ 0 then
        -- free queue node
        addEnd head FREE_TAIL
        return .inr event
      let gen ← load array EVENT_HD_CNT
      let head ← load array EVENT_HEAD
      return .inl (gen, head)
    else
      return .inr .none) (gen, head)

/-- `shr_q_event` (`shared_q.c:2781`). -/
def shrQEvent (q : Option ShrQ) : M Event := do
  if q = none then return .none
  guardQMemory
  let array ← current
  match ← semTrywait .evnt with
  | some _ =>
    unguardQMemory
    return .none
  | none =>
    let event ← takeEvent array
    releasePrevExtents
    unguardQMemory
    return event

/-! ## Cleaning -/

/-- One turn of the loop of `shr_q_clean` after the gate (`shared_q.c:3160-3213`): `none` is a
`break`, `some status` the result of `enq_release_gate` after a removal. -/
def cleanFront (timelimit : Timespec) : M (Option Status) := do
  let array ← current
  let gen ← load array HEAD_CNT
  let head ← load array HEAD
  if head = (← load array TAIL) then return none
  let view ← insureInRange head
  let array := view.extent
  let dataSlot ← nextItem head
  if dataSlot = 0 then return none
  -- insure data is accessible
  let view ← insureInRange dataSlot
  if view.slot = 0 then return none
  let currTime ← clock
  if !(← itemExceedsLimit dataSlot (.own timelimit) currTime) then return none
  if (← removeFront head gen HEAD TAIL) = 0 then return none
  let _ ← afa array COUNT (-1)
  -- free queue node
  addEnd head FREE_TAIL
  let _ ← freeDataSlots dataSlot
  some <$> enqReleaseGate

/-- The loop of `shr_q_clean`: `inl` is its `break`, `inr` a return from inside it. -/
def cleanLoop (timelimit : Timespec) : M (Unit ⊕ Status) :=
  iterate (fun _ => do
    let status ← deqGateTry
    if status ≠ .ok then
      return .inr (.inr (if status = .errEmpty then .ok else status))
    else
      match ← cleanFront timelimit with
      | none => return .inr (.inl ())
      | some .ok => return .inl ()
      | some status => return .inr (.inr status)) ()

/-- `shr_q_clean` (`shared_q.c:3119`). -/
def shrQClean (q : Option ShrQ) (timelimit : Option Timespec) : M Status :=
  match q, timelimit with
  | some q, some timelimit =>
    if !q.mode.canRead then return .errState
    else do
      guardQMemory
      match ← cleanLoop timelimit with
      | .inr status =>
        unguardQMemory
        return status
      | .inl _ =>
        let status ← deqReleaseGate
        unguardQMemory
        return status
  | _, _ => return .errArg

/-! ## Settings -/

/-- `shr_q_exceeds_idle_time` (`shared_q.c:2921`). -/
def shrQExceedsIdleTime (q : Option ShrQ) (limSecs limNsecs : ℤ) : M Bool := do
  if q = none then return false
  guardQMemory
  let array ← current
  let currTime ← clock
  if currTime.sec - (← load array TS_SEC) > limSecs then
    unguardQMemory
    return true
  if currTime.sec - (← load array TS_SEC) < limSecs then
    unguardQMemory
    return false
  if currTime.nsec - (← load array TS_NSEC) > limNsecs then
    unguardQMemory
    return true
  if currTime.nsec - (← load array TS_NSEC) < limNsecs then
    unguardQMemory
    return false
  unguardQMemory
  return true

/-- `shr_q_count` (`shared_q.c:2978`). -/
def shrQCount (q : Option ShrQ) : M ℤ := do
  if q = none then return -1
  guardQMemory
  let result ← load (← current) COUNT
  unguardQMemory
  return result

/-- `shr_q_buffer` (`shared_q.c:3001`). -/
def shrQBuffer (q : Option ShrQ) : M ℤ := do
  if q = none then return 0
  guardQMemory
  let result ← load (← current) BUFFER
  unguardQMemory
  return result

/-- `shr_q_level` (`shared_q.c:3038`). -/
def shrQLevel (q : Option ShrQ) (level : ℤ) : M Status := do
  if q = none ∨ level ≤ 0 then return .errArg
  guardQMemory
  let array ← current
  let prev ← load array LEVEL
  let _ ← cas array LEVEL prev level
  unguardQMemory
  return .ok

/-- The `do .. while` loop that stores two header slots (`shared_q.c:3087-3092`, `:3596-3601`). -/
def storeTimespec (slot : ℤ) (t : Timespec) : M Unit := do
  let array ← current
  iterate (fun _ => do
    let prev ← loadTimespec array slot
    if ← dwcas .stamp array slot prev.toDWORD t.toDWORD then return .inr ()
    return .inl ()) ()

/-- `shr_q_timelimit` (`shared_q.c:3063`). -/
def shrQTimelimit (q : Option ShrQ) (seconds nanoseconds : ℤ) : M Status := do
  if q = none then return .errArg
  guardQMemory
  storeTimespec LIMIT_SEC ⟨seconds, nanoseconds⟩
  unguardQMemory
  return .ok

/-- Switching one mode bit (`shared_q.c:3283-3297`, `:3357-3371`). -/
def switchFlag (q : Option ShrQ) (indicator : ℤ) (flag : Bool) : M Status := do
  if q = none then return .errArg
  guardQMemory
  if flag then
    let _ ← setFlag (← current) indicator
  else
    let _ ← clearFlag (← current) indicator
  unguardQMemory
  return .ok

/-- `shr_q_discard` (`shared_q.c:3272`). -/
def shrQDiscard (q : Option ShrQ) (flag : Bool) : M Status := switchFlag q FLAG_DISCARD_EXPIRED flag

/-- `shr_q_limit_lifo` (`shared_q.c:3346`). -/
def shrQLimitLifo (q : Option ShrQ) (flag : Bool) : M Status := switchFlag q FLAG_LIFO_ON_LEVEL flag

/-- `shr_q_target_delay` (`shared_q.c:3576`). -/
def shrQTargetDelay (q : Option ShrQ) (seconds nanoseconds : ℤ) : M Status := do
  if q = none then return .errArg
  guardQMemory
  storeTimespec TARGET_SEC ⟨seconds, nanoseconds⟩
  unguardQMemory
  shrQDiscard q true

/-- `shr_q_subscribe` (`shared_q.c:3410`): no event constant has flag 0. -/
def shrQSubscribe (q : Option ShrQ) (event : Event) : M Status :=
  switchFlag q (getEventFlag event) true

/-- `shr_q_unsubscribe` (`shared_q.c:3444`). -/
def shrQUnsubscribe (q : Option ShrQ) (event : Event) : M Status :=
  switchFlag q (getEventFlag event) false

/-- `shr_q_is_subscribed` (`shared_q.c:3480`). -/
def shrQIsSubscribed (q : Option ShrQ) (event : Event) : M Bool := do
  if q = none ∨ event = .none then return false
  guardQMemory
  let disabled ← eventDisabled (← current) event
  unguardQMemory
  return !disabled

/-- `shr_q_prod` (`shared_q.c:3512`). -/
def shrQProd (q : Option ShrQ) : M Status := do
  if q = none then return .errArg
  guardQMemory
  let status ← releaseGate .deq
  unguardQMemory
  return status

/-! ## Registration -/

/-- The text `shr_q_monitor`, `shr_q_listen` and `shr_q_call` share, for their own two slots; `self` is
what `getpid` returns. -/
def register (q : Option ShrQ) (self signal pidSlot signalSlot : ℤ) : M Status := do
  if q = none ∨ signal < 0 then return .errArg
  guardQMemory
  let prev ← load (← current) pidSlot
  let pid := if signal = 0 then 0 else self
  if ← cas (← current) pidSlot prev pid then
    store (← current) signalSlot signal
    unguardQMemory
    return .ok
  unguardQMemory
  return .errState

/-- `shr_q_monitor` (`shared_q.c:1929`). -/
def shrQMonitor (q : Option ShrQ) (self signal : ℤ) : M Status := register q self signal NOTIFY_PID NOTIFY_SIGNAL

/-- `shr_q_listen` (`shared_q.c:1983`). -/
def shrQListen (q : Option ShrQ) (self signal : ℤ) : M Status := register q self signal LISTEN_PID LISTEN_SIGNAL

/-- `shr_q_call` (`shared_q.c:2036`). -/
def shrQCall (q : Option ShrQ) (self signal : ℤ) : M Status := register q self signal CALL_PID CALL_SIGNAL

end LibShr
