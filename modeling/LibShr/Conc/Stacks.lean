import LibShr.Conc.Processes
import LibShr.Lib.Lifo
import LibShr.Lib.Links
import LibShr.Lib.Outline

/-!
# The tagged stacks

Any number of threads, of any number of processes, in `free_data_slots`, `lookup_freed_data`, `lifo_add`
and `lifo_remove`. Each load, each store and each `DWCAS` is a step of its own; the head of a stack and the
counter beside it are read by two loads.

A block is pushed by a caller that has it: it takes the block before `free_data_slots` or `lifo_add`, and
whatever was popped is given back. Who has a block at any time is kept beside the object (`custody`), and
so are the calls and the successful `DWCAS` (`log`). A block that is in no stack and in no call may be
overwritten with anything.

| here | there |
| --- | --- |
| `Call.freeDataSlots`   | `free_data_slots` (`shared_int.c:1106`) |
| `Call.lookupFreedData` | `lookup_freed_data` (`shared_int.c:1177`); `alloc_data_slots` asks for powers of two only |
| `Call.lifoAdd`         | `lifo_add` (`shared_q.c:607`) |
| `Call.lifoRemove`      | `lifo_remove` (`shared_q.c:1109`) with `remove_top` (`:1074`) |
| `StackOp.release`      | the node goes to the free list (`shared_q.c:1136`) |
| `Call.write`           | a store to a block by whoever has it |
-/

namespace LibShr.Stacks

open Prog Links

/-! ## The object -/

/-- The heads of the stacks: the buckets, and the adaptive-LIFO stack. -/
def IsHead (hd : ℤ) : Prop := hd % 2 = 0 ∧ (MEM_BKT_START ≤ hd ∧ hd < BASE ∨ hd = STACK_HEAD)

/-- Where the blocks lie: `size s` is the number of slots of the block that starts at `s`, 0 if there is none. -/
structure Ground where
  size : ℤ → ℤ
  start : ∀ {s}, 0 < size s → HDR_END ≤ s ∧ IDX_SIZE ≤ size s
  apart : ∀ {s s'}, 0 < size s → 0 < size s' → s ≠ s' → s + size s ≤ s' ∨ s' + size s' ≤ s

/-- Who has a block. -/
inductive Custody (T : Type)
  | nowhere
  | loose
  | hand (t : T)
  | stack (hd : ℤ)
deriving DecidableEq

inductive Call
  | freeDataSlots (slot : ℤ)
  | lookupFreedData (k : ℕ)
  | lifoAdd (node : ℤ)
  | lifoRemove
  | write (slot off v : ℤ)

/-- What happens: a call begins; a `DWCAS` pushes a block or pops one, with the value in its fourth slot. -/
inductive Event
  | begin (c : Call)
  | push (hd slot value : ℤ)
  | pop (hd slot value : ℤ)

/-- What happens to the stack `hd`. -/
def Event.moveAt (hd : ℤ) : Event → Option (Lifo.Move (ℤ × ℤ))
  | .begin _ => none
  | .push hd' slot value => if hd' = hd then some (.push (slot, value)) else none
  | .pop hd' slot value => if hd' = hd then some (.pop (slot, value)) else none

/-- The processes on the object, and beside them who has which block and what has happened. -/
structure Yard (Pr T : Type) where
  site : Site Pr
  custody : ℤ → Custody T
  log : List (T × Event)

section
variable {Pr T : Type}

abbrev Yard.mem (w : Yard Pr T) : ℤ → ℤ := w.site.mem

/-- The history of the stack `hd`. -/
def Yard.moves (w : Yard Pr T) (hd : ℤ) : List (Lifo.Move (ℤ × ℤ)) := w.log.filterMap fun e => e.2.moveAt hd

end

/-! ## The texts -/

/-- What the threads do: operations of the machine, and taking and giving blocks. -/
inductive StackOp
  | machine (o : Op)
  | begin (c : Call)
  | take (slot : ℤ) (sized : Bool)
  | give (slot : ℤ)
  | release (node : ℤ)

@[reducible] def StackOp.Res : StackOp → Type
  | .machine o => o.Res
  | .begin _ | .take .. | .give _ | .release _ => Unit

/-- The text of an operation. -/
def StackOp.text : (o : StackOp) → M o.Res
  | .machine o => atomic o
  | .release node => addEnd node FREE_TAIL
  | .begin _ | .take .. | .give _ => pure ()

/-- A function of the library, operation by operation. -/
def machine {α : Type} (p : M α) : Prog StackOp StackOp.Res α := p.subst fun o => op (StackOp.machine o)

/-- `lifo_remove` (`shared_q.c:1109`). -/
def lifoRemoveText : Prog StackOp StackOp.Res ℤ := do
  let array ← machine current
  let gen ← machine (load array STACK_HD_CNT)
  let top ← machine (load array STACK_HEAD)
  let view ← machine (insureInRange top)
  let dataSlot ← machine (load view.extent (top + VALUE_OFFSET))
  if dataSlot = 0 then return 0
  if (← machine (removeTop top gen)) = 0 then return 0
  -- free queue node
  op (StackOp.release top)
  return dataSlot

inductive Answer
  | void
  | pushed (slot : ℤ)
  | block (slot : ℤ)
  | data (dataSlot : ℤ)

def text {T : Type} (G : Ground) (_ : T) (c : Call) : Prog StackOp StackOp.Res Answer := do
  op (StackOp.begin c)
  match c with
  | .freeDataSlots slot =>
    op (StackOp.take slot true)
    let _ ← machine (freeDataSlots slot)
    return .pushed slot
  | .lookupFreedData k =>
    let slot ← machine (lookupFreedData (2 ^ k))
    if slot ≠ 0 then op (StackOp.give slot)
    return .block slot
  | .lifoAdd node =>
    op (StackOp.take node false)
    machine (lifoAdd node)
    return .pushed node
  | .lifoRemove => return .data (← lifoRemoveText)
  | .write slot off v =>
    if 0 ≤ off ∧ off < G.size slot then
      op (StackOp.take slot false)
      machine (do store (← current) (slot + off) v)
      op (StackOp.give slot)
    return .void

/-! ## The steps -/

section
variable {Pr T : Type} [DecidableEq Pr] [DecidableEq T]

/-- A slot count with a bucket of its own. -/
def isSize (n : ℤ) : Bool := (List.range 48).any fun k => n = 2 ^ (k + 2)

/-- The blocks go where a successful `DWCAS` moves them. -/
def Yard.after (w : Yard Pr T) (t : T) (site : Site Pr) : (o : Op) → o.Res → Yard Pr T
  | .dwcas (.push hd) _ _ _ new, true =>
    ⟨site, Function.update w.custody new.low (.stack hd), w.log ++ [(t, .push hd new.low (w.mem (new.low + VALUE_OFFSET)))]⟩
  | .dwcas (.pop hd) _ _ old _, true =>
    ⟨site, Function.update w.custody old.low (.hand t), w.log ++ [(t, .pop hd old.low (w.mem (old.low + VALUE_OFFSET)))]⟩
  | _, _ => ⟨site, w.custody, w.log⟩

/-- The operations of the thread `t`, which belongs to the process `proc t`. -/
def stage (proc : T → Pr) (t : T) : Handler StackOp StackOp.Res (Yard Pr T)
  | .machine o, w => (shared (proc t) o w.site).map fun r => (r.1, w.after t r.2 o r.1)
  | .begin c, w => some ((), { w with log := w.log ++ [(t, .begin c)] })
  | .take slot sized, w =>
    if w.custody slot = .loose ∧ (sized = true → isSize (w.mem slot) = true) then
      some ((), { w with custody := Function.update w.custody slot (.hand t) })
    else none
  | .give slot, w | .release slot, w => some ((), { w with custody := Function.update w.custody slot .loose })

abbrev Threads (Pr T : Type) := Pool StackOp StackOp.Res (Yard Pr T) T Answer

def Step (G : Ground) (proc : T → Pr) (S : Threads Pr T) (l : T × Move Call) (S' : Threads Pr T) : Prop :=
  Pool.Step (stage proc) (text G) S l S'

/-- All stacks are empty, and no call is in progress. -/
structure Start (G : Ground) (S : Threads Pr T) : Prop where
  empty : ∀ hd, IsHead hd → S.world.mem hd = 0
  custody : ∀ s, S.world.custody s = if 0 < G.size s then .loose else .nowhere
  log : S.world.log = []
  idle : ∀ t, S.task t = none

/-- The last thing the thread `t` did. -/
def Yard.last (w : Yard Pr T) (t : T) : Option Event := ((w.log.filter fun e => e.1 = t).getLast?).map Prod.snd

end

/-- With the free list for what it gives back, this is `lifo_remove`. -/
theorem lifoRemove_eq_subst : lifoRemove = lifoRemoveText.subst StackOp.text := by
  have hmachine : ∀ {α : Type} (p : M α), (machine p).subst StackOp.text = p := by
    intro α p
    unfold machine
    induction p with
    | ret a => rfl
    | act o k ih =>
      change (Prog.act o fun r => ((k r).subst fun o => op (StackOp.machine o)).subst StackOp.text) = _
      congr 1
      funext r
      exact ih r
    | loop body s k ihb ihk =>
      change Prog.loop (fun s => ((body s).subst fun o => op (StackOp.machine o)).subst StackOp.text) s
        (fun b => ((k b).subst fun o => op (StackOp.machine o)).subst StackOp.text) = _
      congr 1
      · funext s
        exact ihb s
      · funext b
        exact ihk b
  simp only [lifoRemove, lifoRemoveText, subst_bind, subst_ite, subst_pure, subst_op, hmachine]
  rfl

end LibShr.Stacks
