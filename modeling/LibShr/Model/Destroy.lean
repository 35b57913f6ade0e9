import LibShr.Model.Objects

/-!
# Shared memory objects: destroying a queue

`shr_q_destroy` gives up the semaphores, the mapping and the name. `EndM` adds to the calls of `HostM` the
two whose outcome it looks at: `sem_destroy`, and a `shm_unlink` that may fail.

| here | there |
| --- | --- |
| `releaseSemaphores`   | `release_semaphores` (`shared_q.c:1427`) |
| `releaseMappedMemory` | `release_mapped_memory` (`shared_int.c:1339`) of a handle with one extent |
| `shrQDestroy`         | `shr_q_destroy` (`shared_q.c:1881`) |
-/

namespace LibShr

open Prog (op)

/-- The calls of `HostM`, `sem_destroy`, and `shm_unlink` with its outcome. -/
inductive EndOp
  | host (o : HostOp)
  | semDestroy (s : Sem)
  | shmUnlink (name : CString)
deriving DecidableEq

/-- The answers; `sem_destroy` answers whether it got through. -/
@[reducible] def EndOp.Res : EndOp → Type
  | .host o => o.Res
  | .semDestroy _ => Bool
  | .shmUnlink _ => Option SysErrno

abbrev EndM := Prog EndOp EndOp.Res

/-- A function that needs no more than `HostM`. -/
def onHost {α : Type} (p : HostM α) : EndM α := p.subst fun o => op (EndOp.host o)

def semDestroy (s : Sem) : EndM Bool := op (EndOp.semDestroy s)
def shmUnlink (name : CString) : EndM (Option SysErrno) := op (EndOp.shmUnlink name)

/-- `release_semaphores`: it stops at the first that cannot be destroyed. -/
def releaseSemaphores : EndM Status := do
  if !(← semDestroy .deq) then return .errSys
  if !(← semDestroy .enq) then return .errSys
  if !(← semDestroy .evnt) then return .errSys
  return .ok

/-- `release_mapped_memory`, of a handle with this name and an extent of `size` bytes. -/
def releaseMappedMemory (name : CString) (size : ℕ) : EndM Status := do
  onHost (closeBase size)
  match ← shmUnlink name with
  | some _ => return .errSys
  | none => return .ok

/-- `shr_q_destroy`, of a handle with the name it was made with. Where a semaphore cannot be destroyed the handle is
freed, and the object keeps its name. -/
def shrQDestroy (q : Option (CString × Handle)) : EndM Status := do
  match q with
  | none => return .errArg
  | some (name, q) =>
    let status ← releaseSemaphores
    if status ≠ .ok then return status
    releaseMappedMemory name q.size

/-- The system, with the outcomes of these two calls. -/
structure Ending where
  host : Host
  semDestroy : Sem → Bool
  unlinkErr : Option SysErrno

/-- The operations as they happen. -/
def ending : Prog.Handler EndOp EndOp.Res Ending
  | .host o, s => (LibShr.host o s.host).map fun r => (r.1, { s with host := r.2 })
  | .semDestroy sem, s => some (s.semDestroy sem, s)
  | .shmUnlink name, s =>
    match s.unlinkErr with
    | some e => some (some e, s)
    | none =>
      match s.host.objects (objectName name) with
      | none => some (some .enoent, s)
      | some _ => some (none, { s with host := s.host.put (objectName name) none })

end LibShr
