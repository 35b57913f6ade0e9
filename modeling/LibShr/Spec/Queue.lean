import LibShr.Model.Api
import LibShr.Seq.Payload

/-!
# What a queue does: the abstract machine

The queue without its memory: the items of the FIFO and of the adaptive-LIFO stack, the pending events,
the free data blocks by class, the counters and settings of the header, the semaphores, and the clock
readings to come. Of a data block only its class and content are kept, not where it lies; of a call only
what it does to these. Old extents, mappings, nodes and signals do not occur: they never change a result.

`Queue.step` is one call, `none` where it would have to wait for another process.
-/

namespace LibShr

/-- An item: the class of its data block, the block's slots behind the first by offset, and the
elements it was added with. -/
structure Item where
  cls : ℕ
  words : ℤ → ℤ
  payload : Payload

namespace Item

variable (it : Item)

/-- Slots of the block. -/
def slots : ℤ := 2 ^ (it.cls + 2)

/-- When the item was added. -/
def stamp : Timespec := ⟨it.words TM_SEC, it.words TM_NSEC⟩

/-- Bytes `resize_buffer` asks for. -/
def bufferSize : ℤ := it.slots * 8 - 8 + it.payload.length * SIZEOF_VEC

/-- The bytes a reader receives. -/
def bytes : List UInt8 := bytesAt it.words 1 (it.slots - 1).toNat

/-- The item is older than `t`, which is a limit unless it is 0. -/
def exceeds (t now : Timespec) : Bool :=
  if t.sec = 0 ∧ t.nsec = 0 then false else timespecgt (timespecsub now it.stamp) t

end Item

/-- The settings of the header. -/
structure Header where
  count : ℤ
  buffer : ℤ
  flags : ℤ
  level : ℤ
  depth : ℤ
  limit : Timespec
  target : Timespec
  empty : Timespec

/-- A queue. `free k` are the free blocks of class `k`, last freed first. -/
structure Queue where
  fifo : List Item
  stack : List Item
  events : List Event
  free : ℕ → List (ℤ → ℤ)
  ids : ℤ
  hdr : Header
  sem : Sem → ℤ
  clock : ℕ → Timespec

/-- How a call passes the semaphore that guards it: not at all, by waiting, or by waiting for so long
(`none` is `NULL`). -/
inductive Gate
  | poll | wait | timed (timeout : Option Timespec)
deriving DecidableEq

/-- The calls of the interface. -/
inductive Call
  | add (gate : Gate) (value : Option (List UInt8)) (length : ℤ)
  | addv (gate : Gate) (vector : Option (List SqVec))
  | remove (gate : Gate) (buffer : Option UserBuffer)
  | event
  | clean (timelimit : Option Timespec)
  | count
  | buffer
  | level (level : ℤ)
  | timelimit (seconds nanoseconds : ℤ)
  | targetDelay (seconds nanoseconds : ℤ)
  | discard (flag : Bool)
  | limitLifo (flag : Bool)
  | subscribe (event : Event)
  | unsubscribe (event : Event)
  | isSubscribed (event : Event)
  | prod
  | monitor (signal : ℤ)
  | listen (signal : ℤ)
  | call (signal : ℤ)

/-- What a call answers; for a removal also what becomes of the caller's buffer. -/
inductive Answer
  | status (status : Status)
  | item (item : Item) (buffer : UserBuffer)
  | noItem (status : Status) (buffer : UserBuffer)
  | event (event : Event)
  | number (n : ℤ)
  | flag (b : Bool)

namespace Queue

variable (Q : Queue)

def items : List Item := Q.stack ++ Q.fifo

def now : Timespec := Q.clock 0

/-- A clock reading is used up. -/
def tick : Queue := { Q with clock := rest Q.clock }

def up (s : Sem) : Queue := { Q with sem := Function.update Q.sem s (Q.sem s + 1) }

def down (s : Sem) : Queue := { Q with sem := Function.update Q.sem s (Q.sem s - 1) }

def setHdr (h : Header) : Queue := { Q with hdr := h }

def setFlag (f : ℤ) : Queue :=
  if Int.land Q.hdr.flags f = 0 then Q.setHdr { Q.hdr with flags := Int.lor Q.hdr.flags f } else Q

def clearFlag (f : ℤ) : Queue :=
  if Int.land Q.hdr.flags f = 0 then Q else Q.setHdr { Q.hdr with flags := Int.land Q.hdr.flags (Int.lnot f) }

/-! ## Events -/

def subscribed (e : Event) : Bool := Int.land Q.hdr.flags (getEventFlag e) ≠ 0

/-- An event is raised once for each subscription. -/
def addEvent (e : Event) : Queue :=
  if Q.subscribed e then
    { Q with
      events := Q.events ++ [e]
      ids := Q.ids + 1
      hdr := { Q.hdr with flags := Int.land Q.hdr.flags (Int.lnot (getEventFlag e)) }
      sem := Function.update Q.sem .evnt (Q.sem .evnt + 1) }
  else Q

def raise (c : Prop) [Decidable c] (e : Event) : Queue := if c then Q.addEvent e else Q

def takeEvent : Event × Queue :=
  if 0 < Q.sem .evnt then
    match Q.events with
    | [] => (.none, Q.down .evnt)
    | e :: l => (e, { Q.down .evnt with events := l, ids := Q.ids + 1 })
  else (.none, Q)

/-! ## Data blocks -/

/-- A block for a request of class `k`: its class and its content, cleared as far as was asked for. -/
def takeBlock (k : ℕ) : ℕ × (ℤ → ℤ) × Queue :=
  match firstFit (fun j => Q.free j = []) k 3 with
  | none => (k, fun _ => 0, Q)
  | some j =>
    (j, fun i => if i < 2 ^ (k + 2) then 0 else (Q.free j).headD (fun _ => 0) i,
      { Q with free := Function.update Q.free j (Q.free j).tail })

def putBlock (it : Item) : Queue :=
  { Q with free := Function.update Q.free it.cls (it.words :: Q.free it.cls) }

/-! ## Adding -/

/-- An item of `n` slots is made; `fill` writes over the block's content, given the time and the
item's number. -/
def copyIn (n : ℕ) (vecSz : ℤ) (fill : (ℤ → ℤ) → Timespec → ℤ → ℤ → ℤ) (p : Payload) : Item × Queue :=
  let b := takeBlock (Q.tick.setHdr { Q.hdr with buffer := max Q.hdr.buffer (n * 8 + vecSz) }) (classOf n)
  (⟨b.1, fill b.2.1 Q.now Q.ids, p⟩, { b.2.2 with ids := Q.ids + 1 })

def copyValue (value : List UInt8) (length : ℕ) (type : ℤ) : Item × Queue :=
  Q.copyIn (7 + slotsFor length) SIZEOF_VEC (fun f now uid => valueWords f now uid type (value.take length))
    [(type, value.take length)]

def copyVector (vs : List SqVec) : Item × Queue :=
  Q.copyIn (7 + vectorSlots vs).toNat (vs.length * SIZEOF_VEC) (fun f now uid => vectorWords f now uid vs)
    (vs.map SqVec.elem)

/-- Is a new item stacked? -/
def onStack : Bool := Int.land Q.hdr.flags FLAG_LIFO_ON_LEVEL ≠ 0 && Q.hdr.count ≥ Q.hdr.level

def link (it : Item) : Queue :=
  if Q.onStack then { Q with stack := it :: Q.stack } else { Q with fifo := Q.fifo ++ [it], ids := Q.ids + 1 }

/-- The queue was found empty. -/
def updateEmpty : Queue :=
  if timespecgt Q.now Q.hdr.empty then Q.tick.setHdr { Q.hdr with empty := Q.now } else Q.tick

/-- The first item ever added. -/
def activate : Queue :=
  if Int.land Q.hdr.flags FLAG_ACTIVATED = 0 then (Q.setFlag FLAG_ACTIVATED).addEvent .init else Q

/-- After an item was added to `count` others. -/
def postEnq (count : ℤ) : Queue :=
  let Q := (if count = 0 then Q.updateEmpty else Q).activate.raise (count = 0) .nonempty
  Q.raise (count = Q.hdr.depth - 1) .limit

def enqData (it : Item) : Queue :=
  ((Q.link it).setHdr { Q.hdr with count := Q.hdr.count + 1 }).postEnq Q.hdr.count

def enq (value : Option (List UInt8)) (length type : ℤ) : Status × Queue :=
  match value with
  | none => (.errArg, Q)
  | some value =>
    if length ≤ 0 then (.errArg, Q)
    else
      let c := Q.copyValue value length.toNat type
      (.ok, c.2.enqData c.1)

/-- Several elements. Where one is invalid the block that was filled so far is lost. -/
def enqv (vs : List SqVec) : Status × Queue :=
  if vs.length < 2 then (.errArg, Q)
  else
    let c := Q.copyVector vs
    if vs.any SqVec.invalid then (.errArg, c.2) else (.ok, c.2.enqData c.1)

def enqVector : List SqVec → Status × Queue
  | [v] => Q.enq v.base v.len v.type
  | vs => Q.enqv vs

def checkLevel : Queue := Q.raise (0 < Q.hdr.level ∧ Q.hdr.level ≤ Q.hdr.count) .level

/-- Passing the gate of semaphore `s`: `none` would wait for ever, `false` is a refusal. -/
def pass (s : Sem) : Gate → Option (Bool × Queue)
  | .poll => if 0 < Q.sem s then some (true, Q.down s) else some (false, Q)
  | .wait => if 0 < Q.sem s then some (true, Q.down s) else none
  | .timed _ => if 0 < Q.sem s then some (true, Q.tick.down s) else some (false, Q.tick)

/-- What follows on passing the gate. -/
def added (r : Status × Queue) : Status × Queue :=
  if r.1 = .ok then (.ok, (r.2.up .deq).checkLevel) else (r.1, r.2.up .enq)

def add (gate : Gate) (enqueue : Queue → Status × Queue) : Option (Status × Queue) :=
  (Q.pass .enq gate).map fun r => if r.1 then added (enqueue r.2) else (.errLimit, r.2)

/-! ## Removing -/

/-- The next item in the order of service. -/
def takeItem : Option (Item × Queue) :=
  match Q.stack, Q.fifo with
  | it :: l, _ => some (it, { Q with stack := l, ids := Q.ids + 1 })
  | [], it :: l => some (it, { Q with fifo := l, ids := Q.ids + 1 })
  | [], [] => none

def discards : Bool := Int.land Q.hdr.flags FLAG_DISCARD_EXPIRED ≠ 0

/-- Both times are set. -/
def codel : Bool :=
  (Q.hdr.target.sec ≠ 0 || Q.hdr.target.nsec ≠ 0) && (Q.hdr.limit.sec ≠ 0 || Q.hdr.limit.nsec ≠ 0)

/-- The age an item may have at `now`. -/
def ageLimit (now : Timespec) : Timespec :=
  if Q.codel && Q.hdr.empty.sec ≠ 0 && timespecgt (timespecsub now Q.hdr.limit) Q.hdr.empty then Q.hdr.target
  else Q.hdr.limit

/-- Is the item just taken too old? -/
def expired (it : Item) : Bool × Queue :=
  if Q.discards then (it.exceeds (Q.ageLimit Q.now) Q.now, Q.tick) else (false, Q)

def clearEmpty : Queue := if Q.codel then Q.setHdr { Q.hdr with empty := ⟨0, 0⟩ } else Q

/-- After an item was taken and copied: is it dropped? -/
def postDeq (it : Item) : Bool × Queue :=
  let count := Q.hdr.count
  let Q := Q.setHdr { Q.hdr with count := count - 1 }
  let r := (if count = 1 then Q.clearEmpty else Q).expired it
  (r.1, ((r.2.raise (count = 1) .empty).raise (r.1 = true) .time).putBlock it)

/-- Removing with at most `n` attempts: `none` for the item where there was none left. -/
def removeLoop (gate : Gate) : ℕ → UserBuffer → Queue → Option (Option Item × UserBuffer × Queue)
  | 0, _, _ => none
  | n + 1, u, Q =>
    match Q.pass .deq gate with
    | none => none
    | some (false, Q) => some (none, u, Q)
    | some (true, Q) =>
      match Q.takeItem with
      | none => some (none, u, Q.up .deq)
      | some (it, Q) =>
        let r := Q.postDeq it
        if r.1 then removeLoop gate n (u.resized it.bufferSize) (r.2.up .enq)
        else some (some it, u.resized it.bufferSize, r.2.up .enq)

def remove (gate : Gate) (u : UserBuffer) : Option (Option Item × UserBuffer × Queue) :=
  removeLoop gate (Q.items.length + 1) u Q

/-! ## Cleaning -/

/-- Dropping the front item of the FIFO. -/
def drop (it : Item) (l : List Item) : Queue :=
  (putBlock { Q with fifo := l, ids := Q.ids + 1, hdr := { Q.hdr with count := Q.hdr.count - 1 } } it).up .enq

def cleanLoop (t : Timespec) : ℕ → Queue → Queue
  | 0, Q => Q
  | n + 1, Q =>
    if 0 < Q.sem .deq then
      match Q.fifo with
      | [] => (Q.down .deq).up .deq
      | it :: l =>
        if it.exceeds t Q.now then cleanLoop t n ((Q.down .deq).tick.drop it l) else (Q.down .deq).tick.up .deq
    else Q

def clean (t : Timespec) : Queue := cleanLoop t (Q.fifo.length + 1) Q

/-! ## The calls -/

/-- Argument tests of the add functions: the handle, the call's own arguments, the mode. -/
def addCall (q : Option ShrQ) (gate : Gate) (ok : Bool) (enqueue : Queue → Status × Queue) : Option (Answer × Queue) :=
  match q with
  | none => some (.status .errArg, Q)
  | some q =>
    if gate = .timed none ∨ ok = false then some (.status .errArg, Q)
    else if q.mode.canWrite then (Q.add gate enqueue).map fun r => (.status r.1, r.2)
    else some (.status .errState, Q)

def removeCall (q : Option ShrQ) (gate : Gate) (buffer : Option UserBuffer) : Option (Answer × Queue) :=
  match q, buffer with
  | some q, some u =>
    if gate = .timed none ∨ u.present = true ∧ u.size ≤ 0 then some (.noItem .errArg u, Q)
    else if q.mode.canRead then
      (Q.remove gate u).map fun r => (r.1.elim (.noItem .errEmpty r.2.1) fun it => .item it r.2.1, r.2.2)
    else some (.noItem .errState u, Q)
  | _, _ => some (.noItem .errArg (buffer.getD ⟨false, 0⟩), Q)

/-- A call that only needs a handle. -/
def handled (q : Option ShrQ) (ok : Bool) (Q' : Queue) : Option (Answer × Queue) :=
  if q.isSome && ok then some (.status .ok, Q') else some (.status .errArg, Q)

def step (q : Option ShrQ) : Call → Option (Answer × Queue)
  | .add gate value length => Q.addCall q gate (value.isSome && 0 < length) fun Q => Q.enq value length SH_STRM_T
  | .addv gate vector => Q.addCall q gate (vector.any fun vs => vs ≠ []) fun Q => Q.enqVector (vector.getD [])
  | .remove gate buffer => Q.removeCall q gate buffer
  | .event => some (if q.isSome then (.event Q.takeEvent.1, Q.takeEvent.2) else (.event .none, Q))
  | .clean timelimit =>
    match q, timelimit with
    | some q, some t => some (if q.mode.canRead then (.status .ok, Q.clean t) else (.status .errState, Q))
    | _, _ => some (.status .errArg, Q)
  | .count => some (.number (if q.isSome then Q.hdr.count else -1), Q)
  | .buffer => some (.number (if q.isSome then Q.hdr.buffer else 0), Q)
  | .level n => Q.handled q (0 < n) (Q.setHdr { Q.hdr with level := n })
  | .timelimit s n => Q.handled q true (Q.setHdr { Q.hdr with limit := ⟨s, n⟩ })
  | .targetDelay s n => Q.handled q true ((Q.setHdr { Q.hdr with target := ⟨s, n⟩ }).setFlag FLAG_DISCARD_EXPIRED)
  | .discard b => Q.handled q true (if b then Q.setFlag FLAG_DISCARD_EXPIRED else Q.clearFlag FLAG_DISCARD_EXPIRED)
  | .limitLifo b => Q.handled q true (if b then Q.setFlag FLAG_LIFO_ON_LEVEL else Q.clearFlag FLAG_LIFO_ON_LEVEL)
  | .subscribe e => Q.handled q true (Q.setFlag (getEventFlag e))
  | .unsubscribe e => Q.handled q true (Q.clearFlag (getEventFlag e))
  | .isSubscribed e => some (.flag (q.isSome && e ≠ .none && Q.subscribed e), Q)
  | .prod => Q.handled q true (Q.up .deq)
  | .monitor s => Q.handled q (0 ≤ s) Q
  | .listen s => Q.handled q (0 ≤ s) Q
  | .call s => Q.handled q (0 ≤ s) Q

/-! ## What the parts of a call keep -/

section
variable {Q Q' : Queue} {it : Item} {g : Gate} {s : Sem} {b : Bool} {e : Event}

@[simp] theorem items_up : (Q.up s).items = Q.items := rfl
@[simp] theorem items_down : (Q.down s).items = Q.items := rfl
@[simp] theorem items_tick : Q.tick.items = Q.items := rfl
@[simp] theorem items_setHdr {h : Header} : (Q.setHdr h).items = Q.items := rfl
@[simp] theorem items_putBlock : (Q.putBlock it).items = Q.items := rfl

@[simp] theorem events_up : (Q.up s).events = Q.events := rfl
@[simp] theorem events_down : (Q.down s).events = Q.events := rfl
@[simp] theorem events_tick : Q.tick.events = Q.events := rfl
@[simp] theorem events_setHdr {h : Header} : (Q.setHdr h).events = Q.events := rfl
@[simp] theorem events_putBlock : (Q.putBlock it).events = Q.events := rfl

@[simp] theorem items_addEvent : (Q.addEvent e).items = Q.items := by
  rw [addEvent]
  split <;> rfl

@[simp] theorem items_raise {c : Prop} [Decidable c] : (Q.raise c e).items = Q.items := by
  rw [raise]
  split
  · exact items_addEvent
  · rfl

theorem items_pass (h : Q.pass s g = some (b, Q')) : Q'.items = Q.items := by
  cases g <;> rw [pass] at h <;> split at h <;> cases h <;> rfl

theorem events_pass (h : Q.pass s g = some (b, Q')) : Q'.events = Q.events := by
  cases g <;> rw [pass] at h <;> split at h <;> cases h <;> rfl

@[simp] theorem events_setFlag {f : ℤ} : (Q.setFlag f).events = Q.events := by
  rw [setFlag]
  split <;> rfl

@[simp] theorem events_updateEmpty : Q.updateEmpty.events = Q.events := by
  rw [updateEmpty]
  split <;> rfl

@[simp] theorem events_link : (Q.link it).events = Q.events := by
  rw [link]
  split <;> rfl

@[simp] theorem events_copyIn {n : ℕ} {vecSz : ℤ} {fill : (ℤ → ℤ) → Timespec → ℤ → ℤ → ℤ} {p : Payload} :
    (Q.copyIn n vecSz fill p).2.events = Q.events := by
  simp only [copyIn, takeBlock]
  split <;> rfl

/-- Items leave in the order of service. -/
theorem items_takeItem (h : Q.takeItem = some (it, Q')) : Q.items = it :: Q'.items := by
  obtain ⟨fifo, stack, events, free, ids, hdr, sem, clock⟩ := Q
  cases stack with
  | cons x l => cases h; rfl
  | nil =>
    cases fifo with
    | cons x l => cases h; rfl
    | nil => cases h

theorem events_takeItem (h : Q.takeItem = some (it, Q')) : Q'.events = Q.events := by
  obtain ⟨fifo, stack, events, free, ids, hdr, sem, clock⟩ := Q
  cases stack with
  | cons x l => cases h; rfl
  | nil =>
    cases fifo with
    | cons x l => cases h; rfl
    | nil => cases h

theorem takeItem_none (h : Q.takeItem = none) : Q.items = [] := by
  obtain ⟨fifo, stack, events, free, ids, hdr, sem, clock⟩ := Q
  cases stack with
  | cons x l => cases h
  | nil =>
    cases fifo with
    | cons x l => cases h
    | nil => rfl

@[simp] theorem items_clearEmpty : Q.clearEmpty.items = Q.items := by
  rw [clearEmpty]
  split <;> rfl

@[simp] theorem items_expired : (Q.expired it).2.items = Q.items := by
  rw [expired]
  split <;> rfl

@[simp] theorem events_clearEmpty : Q.clearEmpty.events = Q.events := by
  rw [clearEmpty]
  split <;> rfl

@[simp] theorem events_expired : (Q.expired it).2.events = Q.events := by
  rw [expired]
  split <;> rfl

@[simp] theorem items_postDeq : (Q.postDeq it).2.items = Q.items := by
  simp only [postDeq, items_putBlock, items_raise, items_expired]
  split
  · rw [items_clearEmpty, items_setHdr]
  · rw [items_setHdr]

end

end Queue

end LibShr
