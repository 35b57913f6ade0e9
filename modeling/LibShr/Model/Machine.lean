import LibShr.Lib.Seq
import LibShr.Lib.Words
import LibShr.Model.Layout

/-!
# The machine: atomic operations, and one process running alone

A C function is a program `M α` over the operations `Op`: single-slot loads and stores of the
shared array, the atomic instructions, the three semaphores, and the calls into the system.

A pointer `long *array` is the slot count of the extent it points into, so `array[i]` is
`load array i` and an index outside the mapping is visible. `World` is what one process sees when
no other process runs: the shared object, its own handle (`q->current`, older extents that are
still mapped, `accessors`) and the outcomes the system will give to its calls. An `ftruncate` that
is interrupted (`EINTR`) changes nothing and is repeated, so it is not an outcome here.

| here | there |
| --- | --- |
| `DWORD`, `cas`, `dwcas`, `afa` | `shared_int.h:95-100`, `:173-236` (`AFS` of `v` is `afa` of `-v`) |
| `View`                | `view_s` (`shared_int.h:135`) |
| `createExtent`        | `create_extent` and the two `CAS` that make it `base->current` (`shared_int.c:378`, `:578-594`) |
| `current`             | reading `base->current` |
| `releasePrevExtents`  | `release_prev_extents` (`shared_int.c:1290`) |
-/

namespace LibShr

/-- A double word. -/
structure DWORD where
  low : ℤ
  high : ℤ
deriving DecidableEq, Repr

/-- The three semaphores of the queue header. -/
inductive Sem
  | deq | enq | evnt
deriving DecidableEq, Repr

/-- `errno` after a failed semaphore call. -/
inductive Errno
  | eagain | einval | etimedout | eintr
deriving DecidableEq, Repr

/-- Outcome of one `ftruncate` call: done, interrupted by a signal (`EINTR`), or failed. -/
inductive Trunc
  | done | eintr | failed
deriving DecidableEq, Repr

/-- What a `DWCAS` is for. The label does not change what the instruction does; it lets a
history of the successful ones say which list or stack was moved. -/
inductive Role
  | link (tail : ℤ) | swing (tail : ℤ) | unlink (head : ℤ) | push (head : ℤ) | pop (head : ℤ) | stamp
deriving DecidableEq, Repr

/-- The atomic operations. -/
inductive Op
  | load (array slot : ℤ)
  | store (array slot value : ℤ)
  | storeBytes (array slot : ℤ) (bytes : List UInt8)
  | cas (array slot old new : ℤ)
  | dwcas (role : Role) (array slot : ℤ) (old new : DWORD)
  | afa (array slot v : ℤ)
  | semInit (s : Sem) (value : ℤ)
  | semTrywait (s : Sem)
  | semWait (s : Sem)
  | semTimedwait (s : Sem) (deadline : Timespec)
  | semPost (s : Sem)
  | semGetvalue (s : Sem)
  | assert (c : Bool)
  | undefined
  | current
  | createExtent (slots : ℤ)
  | ftruncate (length : ℤ)
  | releasePrev
  | addAccessors (d : ℤ)
  | malloc (size : ℤ)
  | clock
  | sigqueue (pid signal value : ℤ)
deriving DecidableEq

/-- The answer to an operation. -/
@[reducible] def Op.Res : Op → Type
  | .load .. | .afa .. | .current | .semGetvalue _ => ℤ
  | .cas .. | .dwcas .. | .malloc _ => Bool
  | .semTrywait _ | .semWait _ | .semTimedwait .. | .semPost _ => Option Errno
  | .semInit .. => Bool
  | .createExtent _ => Status
  | .ftruncate _ => Trunc
  | .clock => Timespec
  | .store .. | .storeBytes .. | .assert _ | .undefined | .releasePrev | .addAccessors _ | .sigqueue .. => Unit

/-- Programs of the library. -/
abbrev M := Prog Op Op.Res

/-! ## The operations as program text -/

def atomic (o : Op) : M o.Res := Prog.op o

def load (array slot : ℤ) : M ℤ := atomic (.load array slot)
def store (array slot value : ℤ) : M Unit := atomic (.store array slot value)
def storeBytes (array slot : ℤ) (bytes : List UInt8) : M Unit := atomic (.storeBytes array slot bytes)
def cas (array slot old new : ℤ) : M Bool := atomic (.cas array slot old new)
def dwcas (role : Role) (array slot : ℤ) (old new : DWORD) : M Bool := atomic (.dwcas role array slot old new)
def afa (array slot v : ℤ) : M ℤ := atomic (.afa array slot v)
def semInit (s : Sem) (value : ℤ) : M Bool := atomic (.semInit s value)
def semTrywait (s : Sem) : M (Option Errno) := atomic (.semTrywait s)
def semWait (s : Sem) : M (Option Errno) := atomic (.semWait s)
def semTimedwait (s : Sem) (deadline : Timespec) : M (Option Errno) := atomic (.semTimedwait s deadline)
def semPost (s : Sem) : M (Option Errno) := atomic (.semPost s)
def semGetvalue (s : Sem) : M ℤ := atomic (.semGetvalue s)
def assert (c : Prop) [Decidable c] : M Unit := atomic (.assert (decide c))
/-- C leaves the behaviour undefined. -/
def undefined : M Unit := atomic .undefined
def current : M ℤ := atomic .current
def createExtent (slots : ℤ) : M Status := atomic (.createExtent slots)
def ftruncate (length : ℤ) : M Trunc := atomic (.ftruncate length)
def releasePrevExtents : M Unit := atomic .releasePrev
/-- `guard_q_memory` (`shared_q.c:1670`). -/
def guardQMemory : M Unit := atomic (.addAccessors 1)
/-- `unguard_q_memory` (`shared_q.c:1679`). -/
def unguardQMemory : M Unit := atomic (.addAccessors (-1))
def malloc (size : ℤ) : M Bool := atomic (.malloc size)
def clock : M Timespec := atomic .clock
def sigqueue (pid signal value : ℤ) : M Unit := atomic (.sigqueue pid signal value)

/-- `*(DWORD * volatile) &array[slot]`: two loads. -/
def loadDWORD (array slot : ℤ) : M DWORD := do
  let low ← load array slot
  let high ← load array (slot + 1)
  return ⟨low, high⟩

/-- `memset(&array[slot], 0, n << SZ_SHIFT)`. -/
def memset0 (array slot : ℤ) : ℕ → M Unit
  | 0 => pure ()
  | n + 1 => do
    store array slot 0
    memset0 array (slot + 1) n

/-- The stores of a `memcpy` into the array, one word (or what is left of it) at a time. -/
def storeChunks (array slot : ℤ) : List (List UInt8) → M Unit
  | [] => pure ()
  | c :: cs => do
    storeBytes array slot c
    storeChunks array (slot + 1) cs

/-- `memcpy(&array[slot], src, length)`; reading past the end of `src` is undefined. -/
def memcpyTo (array slot : ℤ) (src : List UInt8) (length : ℤ) : M Unit := do
  if length > src.length then undefined
  storeChunks array slot (Words.chunks (src.take length.toNat))

/-- The loads of a `memcpy` of `n` words out of the array. -/
def memcpyFrom (array slot : ℤ) : ℕ → M (List UInt8)
  | 0 => pure []
  | n + 1 => do
    let x ← load array slot
    let bytes ← memcpyFrom array (slot + 1) n
    return Words.toBytes x ++ bytes

/-- `view_s`. -/
structure View where
  status : Status
  slot : ℤ
  extent : ℤ
deriving DecidableEq, Repr

/-! ## One process running alone -/

/-- A queued signal. -/
structure Signal where
  pid : ℤ
  signal : ℤ
  value : ℤ
deriving DecidableEq, Repr

/-- How much of the object exists and is mapped: the handle's current extent and the older ones
not yet released, the length of the object's file, and the outcomes of the coming calls
(`map n slots`: `calloc` and `mmap` in `create_extent` for an extent of `slots`). -/
structure Mapping where
  cur : ℤ
  old : List ℤ
  length : ℤ
  map : ℕ → ℤ → Status
  trunc : ℕ → Bool

/-- The shared object as seen by one process, with the outcomes of its coming system calls. -/
structure World where
  mem : ℤ → ℤ
  sem : Sem → ℤ
  ext : Mapping
  accessors : ℤ
  clock : ℕ → Timespec
  malloc : ℕ → Bool
  signals : List Signal

/-- `array[slot]` is inside the mapping `array` points to. -/
def InExtent (array slot : ℤ) : Prop := 0 ≤ slot ∧ slot < array

instance (array slot : ℤ) : Decidable (InExtent array slot) := inferInstanceAs (Decidable (_ ∧ _))

/-- Overwrite one slot. -/
def setSlot (m : ℤ → ℤ) (slot v : ℤ) : ℤ → ℤ := fun i => if i = slot then v else m i

/-- The first unused outcome of a stream is used up. -/
def rest {α : Type} (s : ℕ → α) : ℕ → α := fun n => s (n + 1)

/-- Sequential meaning of the operations; `none` where the call does not come back (a fault, a
failed assertion, undefined behaviour, or a wait that nobody can end). -/
def seq : Prog.Handler Op Op.Res World
  | .load array slot, w => if InExtent array slot then some (w.mem slot, w) else none
  | .store array slot v, w =>
    if InExtent array slot then some ((), { w with mem := setSlot w.mem slot v }) else none
  | .storeBytes array slot bytes, w =>
    if InExtent array slot then
      some ((), { w with mem := setSlot w.mem slot (Words.patch (w.mem slot) bytes) })
    else none
  | .cas array slot old new, w =>
    if InExtent array slot then
      if w.mem slot = old then some (true, { w with mem := setSlot w.mem slot new }) else some (false, w)
    else none
  | .dwcas _ array slot old new, w =>
    -- `cmpxchg16b` faults on an operand that is not 16-byte aligned
    if InExtent array slot ∧ InExtent array (slot + 1) ∧ slot % 2 = 0 then
      if w.mem slot = old.low ∧ w.mem (slot + 1) = old.high then
        some (true, { w with mem := setSlot (setSlot w.mem slot new.low) (slot + 1) new.high })
      else some (false, w)
    else none
  | .afa array slot v, w =>
    if InExtent array slot then some (w.mem slot, { w with mem := setSlot w.mem slot (w.mem slot + v) })
    else none
  | .semInit s v, w => some (true, { w with sem := Function.update w.sem s v })
  | .semTrywait s, w =>
    if 0 < w.sem s then some (none, { w with sem := Function.update w.sem s (w.sem s - 1) })
    else some (some .eagain, w)
  | .semWait s, w =>
    if 0 < w.sem s then some (none, { w with sem := Function.update w.sem s (w.sem s - 1) }) else none
  | .semTimedwait s _, w =>
    if 0 < w.sem s then some (none, { w with sem := Function.update w.sem s (w.sem s - 1) })
    else some (some .etimedout, w)
  | .semPost s, w => some (none, { w with sem := Function.update w.sem s (w.sem s + 1) })
  | .semGetvalue s, w => some (w.sem s, w)
  | .assert c, w => if c then some ((), w) else none
  | .undefined, _ => none
  | .current, w => some (w.ext.cur, w)
  | .createExtent slots, w =>
    if w.ext.map 0 slots = .ok then
      some (.ok, { w with ext := { w.ext with cur := slots, old := w.ext.old ++ [w.ext.cur], map := rest w.ext.map } })
    else some (w.ext.map 0 slots, { w with ext := { w.ext with map := rest w.ext.map } })
  | .ftruncate length, w =>
    if w.ext.trunc 0 then
      some (.done, { w with ext := { w.ext with length := length, trunc := rest w.ext.trunc } })
    else some (.failed, { w with ext := { w.ext with trunc := rest w.ext.trunc } })
  | .releasePrev, w => some ((), if w.accessors > 1 then w else { w with ext := { w.ext with old := [] } })
  | .addAccessors d, w => some ((), { w with accessors := w.accessors + d })
  | .malloc _, w => some (w.malloc 0, { w with malloc := rest w.malloc })
  | .clock, w => some (w.clock 0, { w with clock := rest w.clock })
  | .sigqueue pid signal value, w => some ((), { w with signals := w.signals ++ [⟨pid, signal, value⟩] })

/-- Correctness of a library function called by a process that runs alone; total if `tot`. -/
abbrev Wp {α : Type} (tot : Prop) (p : M α) (Q : α → World → Prop) (w : World) : Prop :=
  Prog.wp seq tot p Q w

end LibShr
