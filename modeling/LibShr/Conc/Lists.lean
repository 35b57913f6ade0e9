import LibShr.Conc.Processes
import LibShr.Lib.Fifo
import LibShr.Lib.Outline
import LibShr.Seq.Heap

/-!
# The lock-free lists

Any number of threads, of any number of processes, that put items and events into their lists and take them
out, with the free list the nodes come from and go back to. Each load, each store, each `CAS`, `DWCAS` and
`AFA` is a step of its own; two words that are read or initialised together are two steps.

A list runs from its head word to its tail word; its first node is a dummy, and the last one leads to
itself. A link is stamped with a number that `AFA` gives out once, and a node carries the stamp of the link
it leads to. Beside the object are kept who has a node (`custody`), who has a stamp (`stamps`), and the
links, removals and new blocks in their order (`log`).

| here | there |
| --- | --- |
| `Call.addItem`    | the node of an item, from `alloc_idx_slots` to `fifo_add` (`shared_q.c:709-733`) |
| `Call.removeItem` | `fifo_remove` (`shared_q.c:1141`) |
| `Call.addEvent`   | the node of an event, from `alloc_idx_slots` to `add_end` (`shared_q.c:562-575`) |
| `Call.takeEvent`  | the search of `shr_q_event` (`shared_q.c:2806-2824`) |
| `Call.carve`      | `alloc_new_data` (`shared_int.c:993`) for a data block |

The stack of adaptive LIFO is not in use here, and nobody writes to a data block beyond its first slot.
-/

namespace LibShr

/-- The slot of a node with what the list is for. -/
def QId.payload : QId → ℤ
  | .event => EVENT_OFFSET
  | _ => VALUE_OFFSET

abbrev QId.place (i : QId) : Fifo.Place := ⟨i.head, i.tail, i.payload⟩

namespace Lists

open Prog Fifo

/-! ## The object -/

/-- Who has a node. -/
inductive Custody (T : Type)
  | nowhere
  | hand (t : T)
  | list (i : QId)
deriving DecidableEq

/-- Who has a stamp; in the end it is a link's. -/
inductive Stamp (T : Type)
  | unborn
  | hand (t : T)
  | link (i : QId)
deriving DecidableEq

inductive Call
  | addItem (dataSlot : ℤ)
  | removeItem
  | addEvent (event : Event)
  | takeEvent
  | carve (slots : ℕ)
deriving DecidableEq

/-- What happens: a call begins; a block is carved out; an entry is linked; the dummy `slot` is removed and the entry
`e` takes its place, which so is taken out. -/
inductive Deed
  | begin (c : Call)
  | carve (slot size : ℤ)
  | link (i : QId) (e : Entry)
  | unlink (i : QId) (slot : ℤ) (e : Entry)
deriving DecidableEq

/-- The processes on the object, and what is kept beside it. -/
structure Yard (Pr T : Type) where
  site : Site Pr
  custody : ℤ → Custody T
  stamps : ℤ → Stamp T
  log : List (T × Deed)

section
variable {Pr T : Type}

abbrev Yard.mem (w : Yard Pr T) : ℤ → ℤ := w.site.mem

/-- The entry linked to the list `i`. -/
def Deed.linked (i : QId) : Deed → Option Entry
  | .link j e => if j = i then some e else none
  | _ => none

/-- The entry taken out of the list `i`. -/
def Deed.unlinked (i : QId) : Deed → Option Entry
  | .unlink j _ e => if j = i then some e else none
  | _ => none

def Yard.links (w : Yard Pr T) (i : QId) : List Entry := w.log.filterMap fun d => d.2.linked i

/-- The entries taken out of it, in the order of their `DWCAS`. -/
def Yard.unlinks (w : Yard Pr T) (i : QId) : List Entry := w.log.filterMap fun d => d.2.unlinked i

/-- What a thread has done in its call, after one more thing has happened. -/
def during [DecidableEq T] (t : T) (l : List Deed) (d : T × Deed) : List Deed :=
  if d.1 = t then
    match d.2 with
    | .begin c => [.begin c]
    | d => l ++ [d]
  else l

/-- What the thread `t` has done since it began its call. -/
def Yard.deeds [DecidableEq T] (w : Yard Pr T) (t : T) : List Deed := w.log.foldl (during t) []

end

/-! ## The texts -/

/-- What the threads do: operations of the machine. The beginning of a call is kept in the log. -/
inductive ListOp
  | machine (o : Op)
  | begin (c : Call)

@[reducible] def ListOp.Res : ListOp → Type
  | .machine o => o.Res
  | .begin _ => Unit

/-- A function of the library, operation by operation. -/
def machine {α : Type} (p : M α) : Prog ListOp ListOp.Res α := p.subst fun o => op (ListOp.machine o)

/-- What a call returns: the node, or 0; what was taken out; the block, or 0. -/
inductive Answer
  | node (slot : ℤ)
  | item (dataSlot : ℤ)
  | event (e : LibShr.Event)
  | block (slot : ℤ)
deriving DecidableEq

/-- `enq_data` from line 709 to 733, without adaptive LIFO. -/
def addItem (dataSlot : ℤ) : M ℤ := do
  let view ← allocIdxSlots
  if view.slot = 0 then return 0
  let node := view.slot
  -- point queue node to data slot
  store view.extent (node + VALUE_OFFSET) dataSlot
  fifoAdd node
  return node

/-- `add_event` from line 562 to 575. -/
def addEvent (event : LibShr.Event) : M ℤ := do
  let view ← allocIdxSlots
  if view.slot = 0 then return 0
  store view.extent (view.slot + EVENT_OFFSET) event.code
  -- append node to end of queue
  addEnd view.slot EVENT_TAIL
  return view.slot

def text {T : Type} (_ : T) (c : Call) : Prog ListOp ListOp.Res Answer := do
  op (ListOp.begin c)
  match c with
  | .addItem dataSlot => return .node (← machine (addItem dataSlot))
  | .removeItem => return .item (← machine fifoRemove)
  | .addEvent event => return .node (← machine (addEvent event))
  | .takeEvent => return .event (← machine (do LibShr.takeEvent (← current)))
  | .carve slots => return .block (← machine (allocNewData (max slots IDX_SIZE))).slot

/-! ## The steps -/

/-- The list with this tail word. -/
def ofTail (tail : ℤ) : QId := if tail = TAIL then .item else if tail = EVENT_TAIL then .event else .free

/-- The list with this head word. -/
def ofHead (head : ℤ) : QId := if head = HEAD then .item else if head = EVENT_HEAD then .event else .free

section
variable {Pr T : Type} [DecidableEq Pr] [DecidableEq T]

/-- What a successful `CAS`, `DWCAS` or `AFA` does to what is kept beside the object. -/
def Yard.after (w : Yard Pr T) (t : T) (site : Site Pr) : (o : Op) → o.Res → Yard Pr T
  | .dwcas (.link tail) _ _ _ new, true =>
    let i := ofTail tail
    ⟨site, Function.update w.custody new.low (.list i), Function.update w.stamps new.high (.link i),
      w.log ++ [(t, .link i ⟨new.low, new.high, w.mem (new.low + i.payload)⟩)]⟩
  | .dwcas (.unlink head) _ _ old new, true =>
    let i := ofHead head
    ⟨site, Function.update w.custody old.low (.hand t), w.stamps,
      w.log ++ [(t, .unlink i old.low ⟨new.low, w.mem (old.low + 1), w.mem (new.low + i.payload)⟩)]⟩
  | .cas _ slot old new, true =>
    if slot = DATA_ALLOC then
      ⟨site, Function.update w.custody old (.hand t), w.stamps, w.log ++ [(t, .carve old (new - old))]⟩
    else ⟨site, w.custody, w.stamps, w.log⟩
  | .afa _ slot _, r =>
    if slot = ID_CNTR then ⟨site, w.custody, Function.update w.stamps r (.hand t), w.log⟩
    else ⟨site, w.custody, w.stamps, w.log⟩
  | _, _ => ⟨site, w.custody, w.stamps, w.log⟩

/-- The operations of the thread `t`, which belongs to the process `proc t`. -/
def stage (proc : T → Pr) (t : T) : Handler ListOp ListOp.Res (Yard Pr T)
  | .machine o, w => (shared (proc t) o w.site).map fun r => (r.1, w.after t r.2 o r.1)
  | .begin c, w => some ((), { w with log := w.log ++ [(t, .begin c)] })

abbrev Threads (Pr T : Type) := Pool ListOp ListOp.Res (Yard Pr T) T Answer

def Step (proc : T → Pr) (S : Threads Pr T) (l : T × Move Call) (S' : Threads Pr T) : Prop := Pool.Step (stage proc) text S l S'

end

/-- `add_event` clears the subscription before, and posts the semaphore after. -/
theorem addEvent_eq (event : LibShr.Event) : LibShr.addEvent event = do
    let array ← current
    if event = .none then return false
    if ← eventDisabled array event then return false
    let prev ← load array FLAGS
    if !(← cas array FLAGS prev (Int.land prev (Int.lnot (getEventFlag event)))) then return false
    let node ← addEvent event
    if node = 0 then return false
    let _ ← semPost .evnt
    return true := by
  have hrest : (do
      let view ← allocIdxSlots
      if view.slot = 0 then return false
      store view.extent (view.slot + EVENT_OFFSET) event.code
      addEnd view.slot EVENT_TAIL
      let _ ← semPost .evnt
      return true : M Bool) = do
        let node ← addEvent event
        if node = 0 then return false
        let _ ← semPost .evnt
        return true := by
    simp only [addEvent, LawfulMonad.bind_assoc]
    congr 1
    funext view
    by_cases hz : view.slot = 0
    · simp only [hz, if_true, LawfulMonad.pure_bind]
    · simp only [hz, if_false, LawfulMonad.bind_assoc, LawfulMonad.pure_bind]
  unfold LibShr.addEvent
  simp only [hrest]

end Lists

end LibShr
