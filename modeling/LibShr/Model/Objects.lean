import LibShr.Lib.Layers
import LibShr.Model.Api

/-!
# Shared memory objects: creating, opening and testing a queue by its name

A process that calls these functions runs alone. `HostM` is a program over calls to the system, the
loads from a mapping and, once the object is mapped, the operations of `Machine`. `Host` is what the
process sees of the system: the objects by their names, the descriptor it holds, what it has mapped, and
the outcomes of its coming calls. `none` for a handle is `NULL`, or a pointer that was not touched.

| here | there |
| --- | --- |
| `convertToStatus`         | `convert_to_status` (`shared_int.c:77`) |
| `validateName`, `validateExistence` | the functions of that name (`shared_int.c:131`, `:219`) |
| `buildFilePath`           | `build_file_path` (`shared_int.c:165`) |
| `createBaseObject`        | `create_base_object` (`shared_int.c:424`) and what it calls (`:283`, `:329`, `:378`) |
| `mapSharedMemory`         | `map_shared_memory` (`shared_int.c:1380`) |
| `closeBase`               | `close_base` (`shared_int.c:1433`) of a handle with one extent |
| `shrQCreate`, `shrQOpen`, `shrQClose`, `shrQIsValid` | the public functions (`shared_q.c:1724`, `:1789`, `:1847`, `:3612`) |
-/

namespace LibShr

open Prog (op iterate)

/-! ## What the system answers -/

/-- A C string without its terminating 0. -/
abbrev CString := List UInt8

/-- `errno` after a failed call. -/
inductive SysErrno
  | einval | eperm | eacces | eexist | enoent | enomem | ebadf | eloop | enotdir | enametoolong | enfile | emfile | eio | eintr | other
deriving DecidableEq, Repr

/-- `convert_to_status`. -/
def convertToStatus : SysErrno → Status
  | .einval => .errArg
  | .eperm | .eacces => .errAccess
  | .eexist | .enoent => .errExist
  | .enomem => .errNomem
  | .ebadf | .eloop | .enotdir | .enametoolong => .errPath
  | .enfile | .emfile | .eio => .errSys
  | .eintr | .other => .errState

/-- `struct stat`, as far as it is read: `st_size` and `S_ISREG( st_mode )`. -/
structure Stat where
  size : ℕ
  regular : Bool
deriving DecidableEq, Repr

/-- The flags of `shm_open`. -/
inductive OpenFlag
  | createExclusive | readWrite | readOnly
deriving DecidableEq, Repr

/-- Calls to the system, loads from a mapping of `size` bytes, and the operations on the object that is
mapped. `alloc` is `calloc` or `strdup`. -/
inductive HostOp
  | alloc
  | stat (path : CString)
  | shmOpen (name : CString) (flag : OpenFlag)
  | shmUnlink (name : CString)
  | ftruncate (length : ℕ)
  | mmap (size : ℕ)
  | munmap (size : ℕ)
  | close
  | load (size : ℕ) (slot : ℤ)
  | machine (o : Op)
deriving DecidableEq

/-- The answers; a call that may fail answers its `errno`. -/
@[reducible] def HostOp.Res : HostOp → Type
  | .alloc => Bool
  | .stat _ => Except SysErrno Stat
  | .shmOpen .. | .ftruncate _ | .mmap _ => Option SysErrno
  | .shmUnlink _ | .munmap _ | .close => Unit
  | .load .. => ℤ
  | .machine o => o.Res

abbrev HostM := Prog HostOp HostOp.Res

namespace Os

def alloc : HostM Bool := op HostOp.alloc
def stat (path : CString) : HostM (Except SysErrno Stat) := op (HostOp.stat path)
def shmOpen (name : CString) (flag : OpenFlag) : HostM (Option SysErrno) := op (HostOp.shmOpen name flag)
def shmUnlink (name : CString) : HostM Unit := op (HostOp.shmUnlink name)
def ftruncate (length : ℕ) : HostM (Option SysErrno) := op (HostOp.ftruncate length)
def mmap (size : ℕ) : HostM (Option SysErrno) := op (HostOp.mmap size)
def munmap (size : ℕ) : HostM Unit := op (HostOp.munmap size)
def close : HostM Unit := op HostOp.close
def load (size : ℕ) (slot : ℤ) : HostM ℤ := op (HostOp.load size slot)

end Os

/-- A function of the library that acts on the object that is mapped. -/
def onObject {α : Type} (p : M α) : HostM α := p.subst fun o => op (HostOp.machine o)

/-- A handle: its mode, and the length of its extent. -/
structure Handle where
  mode : Mode
  size : ℕ
deriving DecidableEq, Repr

/-- `SHR_OBJ_DIR`, that is `/dev/shm/`. -/
def SHR_OBJ_DIR : CString := [47, 100, 101, 118, 47, 115, 104, 109, 47]

@[simp] abbrev PATH_MAX : ℕ := 4096

/-! ## Names -/

/-- `validate_name`. -/
def validateName : Option CString → Status
  | none => .errPath
  | some name => if name.length = 0 then .errPath else if name.length > PATH_MAX then .errPath else .ok

/-- `build_file_path`: a leading `/` of the name takes the place of the last one of the directory. -/
def buildFilePath (name : CString) : CString :=
  let index := SHR_OBJ_DIR.length
  let index := if name.head? = some 47 then index - 1 else index
  SHR_OBJ_DIR.take index ++ name

/-- `validate_existence`, with what it leaves in `*size` if `size` is not `NULL`. -/
def validateExistence (name : Option CString) (size : Bool) : HostM (Status × ℕ) := do
  match name with
  | none => return (.errArg, 0)
  | some name =>
    match ← Os.stat (buildFilePath name) with
    | .error e => return (convertToStatus e, 0)
    | .ok statbuf =>
      if size = false ∨ statbuf.regular = false then return (.errState, 0)
      if statbuf.size < 4096 ∨ statbuf.size % 4096 ≠ 0 then return (.errState, statbuf.size)
      return (.ok, statbuf.size)

/-- `perform_name_validations` (`shared_int.c:1320`). -/
def performNameValidations (name : Option CString) (size : Bool) : HostM (Status × ℕ) := do
  let status := validateName name
  if status ≠ .ok then return (status, 0)
  validateExistence name size

/-! ## Creation -/

/-- `init_base_struct` (`shared_int.c:283`). -/
def initBaseStruct : HostM Status := do
  if !(← Os.alloc) then return .errNomem
  -- the copy of the name
  if !(← Os.alloc) then return .errNomem
  return .ok

/-- `allocate_shared_memory` (`shared_int.c:329`). -/
def allocateSharedMemory (name : CString) (size : ℕ) : HostM Status := do
  match ← Os.shmOpen name .createExclusive with
  | some e => if e = .einval then return .errPath else return convertToStatus e
  | none =>
    -- set initial size
    match ← Os.ftruncate size with
    | some e =>
      Os.shmUnlink name
      return convertToStatus e
    | none => return .ok

/-- `create_extent` (`shared_int.c:378`) for the first extent of a handle. -/
def firstExtent (slots : ℕ) : HostM Status := do
  if !(← Os.alloc) then return .errNomem
  match ← Os.mmap (slots * 8) with
  | some e => return convertToStatus e
  | none => return .ok

/-- `create_base_object`. -/
def createBaseObject (name tag : CString) (version : ℤ) : HostM Status := do
  if tag.length ≤ 0 then return .errArg
  let status ← initBaseStruct
  if status ≠ .ok then return status
  let status ← allocateSharedMemory name 4096
  if status ≠ .ok then return status
  let status ← firstExtent (4096 / 8)
  if status ≠ .ok then return status
  -- initialize base shared memory object
  onObject (initBaseObject tag version)
  return .ok

/-- `shr_q_create`; `q` tells whether the pointer to the handle is not `NULL`. -/
def shrQCreate (q : Bool) (name : Option CString) (maxDepth : ℤ) (mode : Mode) : HostM (Status × Option Handle) := do
  match q, name with
  | true, some name =>
    if maxDepth > SEM_VALUE_MAX then return (.errArg, none)
    let (status, _) ← performNameValidations (some name) false
    if status = .errState then return (.errExist, none)
    if status ≠ .errExist then return (status, none)
    let status ← createBaseObject name SHRQ QVERSION
    if status ≠ .ok then return (status, none)
    let status ← onObject (formatAsQueue maxDepth)
    if status ≠ .ok then return (status, none)
    return (status, some ⟨mode, 4096⟩)
  | _, _ => return (.errArg, none)

/-! ## Opening -/

/-- `array[ SIZE ] << SZ_SHIFT`, as a `size_t`. -/
def sizeBytes (x : ℤ) : ℕ := unsigned (x * 8)

/-- `initialize_q_struct` (`shared_q.c:1374`). -/
def initializeQStruct : HostM Status := do
  if !(← Os.alloc) then return .errNomem
  -- the extent
  if !(← Os.alloc) then return .errNomem
  return .ok

/-- A round of the loop of `map_shared_memory`: the object is mapped with the size it is taken to have, which is
compared with the size its header gives; that one is read again for the next round. -/
def mapRound (size : ℕ) : HostM (ℕ ⊕ Status × ℕ) := do
  match ← Os.mmap size with
  | some e => return .inr (convertToStatus e, 0)
  | none =>
    if size = sizeBytes (← Os.load size SIZE) then return .inr (.ok, size)
    let altSize := sizeBytes (← Os.load size SIZE)
    Os.munmap size
    return .inl altSize

/-- `map_shared_memory`, with the length of the extent. -/
def mapSharedMemory (name : CString) (size : ℕ) : HostM (Status × ℕ) := do
  -- `shm_open` of `NULL` where the name could not be copied
  if !(← Os.alloc) then onObject undefined
  match ← Os.shmOpen name .readWrite with
  | some e => return (convertToStatus e, 0)
  | none => iterate mapRound size

/-- `is_valid_queue` (`shared_q.c:1405`) of an extent of `size` bytes. -/
def isValidQueue (size : ℕ) : HostM Bool := do
  if (Words.toBytes (← Os.load size TAG)).take SHRQ.length ≠ SHRQ then return false
  if (← Os.load size VERSION) ≠ QVERSION then return false
  return true

/-- `close_base`. -/
def closeBase (size : ℕ) : HostM Unit := do
  Os.munmap size
  Os.close

/-- `shr_q_close`. -/
def shrQClose (q : Option Handle) : HostM Status := do
  match q with
  | none => return .errArg
  | some q =>
    closeBase q.size
    return .ok

/-- `shr_q_open`. -/
def shrQOpen (q : Bool) (name : Option CString) (mode : Mode) : HostM (Status × Option Handle) := do
  match q, name with
  | true, some name =>
    let (status, size) ← performNameValidations (some name) true
    if status ≠ .ok then return (status, none)
    let status ← initializeQStruct
    if status ≠ .ok then return (status, none)
    let (status, size) ← mapSharedMemory name size
    if status ≠ .ok then return (status, none)
    if ← isValidQueue size then return (.ok, some ⟨mode, size⟩)
    let _ ← shrQClose (some ⟨mode, size⟩)
    return (.errState, none)
  | _, _ => return (.errArg, none)

/-- `shr_q_is_valid`. -/
def shrQIsValid (name : Option CString) : HostM Bool := do
  let (status, size) ← performNameValidations name true
  if status ≠ .ok then return false
  match ← Os.shmOpen (name.getD []) .readOnly with
  | some _ => return false
  | none =>
    match ← Os.mmap size with
    | some _ =>
      Os.close
      return false
    | none =>
      -- tag and version, as in `is_valid_queue`
      let valid ← isValidQueue size
      Os.munmap size
      Os.close
      return valid

/-! ## The system, as one process sees it -/

/-- An object: whether it is a regular file, and what a process sees of it. -/
structure Object where
  regular : Bool
  world : World

/-- The system, as a process that runs alone sees it: the objects by their names, the name its descriptor
was opened with, the lengths of what it has mapped, and how its coming calls will end. No semaphore is
initialised twice. -/
structure Host where
  objects : CString → Option Object
  fd : Option CString
  maps : List ℕ
  alloc : ℕ → Bool
  statErr : ℕ → Option SysErrno
  openErr : ℕ → Option SysErrno
  truncErr : ℕ → Option SysErrno
  mmapErr : ℕ → ℕ → Option SysErrno
  semInit : Sem → Bool

/-- The object a name stands for: leading slashes do not count. -/
def objectName (name : CString) : CString := name.dropWhile (· = 47)

/-- An object that was just created. -/
def World.blank : World where
  mem := fun _ => 0
  sem := fun _ => 0
  ext := ⟨0, [], 0, fun _ _ => .ok, fun _ => true⟩
  accessors := 0
  clock := fun _ => ⟨0, 0⟩
  malloc := fun _ => true
  signals := []

namespace Host

variable (h : Host)

/-- An object comes, goes or changes. -/
def put (name : CString) (x : Option Object) : Host := { h with objects := Function.update h.objects name x }

/-- The object behind the descriptor. -/
def opened : Option (CString × Object) := h.fd.bind fun name => (h.objects name).map fun x => (name, x)

/-- An operation on the object behind the descriptor. -/
def act (o : Op) : Option (o.Res × Host) :=
  h.opened.bind fun x => (seq o x.2.world).map fun r => (r.1, h.put x.1 (some { x.2 with world := r.2 }))

/-- A change to what the process sees of that object. -/
def setExt (f : Mapping → Mapping) : Host :=
  match h.opened with
  | none => h
  | some x => h.put x.1 (some { x.2 with world := { x.2.world with ext := f x.2.world.ext } })

/-- What `stat` answers if it gets through. -/
def status (path : CString) : Except SysErrno Stat :=
  match h.objects (objectName (path.drop (SHR_OBJ_DIR.length - 1))) with
  | none => .error .enoent
  | some x => .ok ⟨x.world.ext.length.toNat, x.regular⟩

/-- The names of the objects there are. -/
def names : Set CString := { name | (h.objects name).isSome }

end Host

/-- Pages are 4096 bytes, and a load reaches to the end of the last page of the mapping and of the object. -/
def InPages (bytes : ℤ) (slot : ℤ) : Prop := 0 ≤ slot ∧ slot * 8 < (bytes + 4095) / 4096 * 4096

instance (bytes slot : ℤ) : Decidable (InPages bytes slot) := inferInstanceAs (Decidable (_ ∧ _))

/-- The operations as they happen. A call of `mmap` makes the first extent of the handle. -/
def host : Prog.Handler HostOp HostOp.Res Host
  | .alloc, h => some (h.alloc 0, { h with alloc := rest h.alloc })
  | .stat path, h =>
    let h' := { h with statErr := rest h.statErr }
    match h.statErr 0 with
    | some e => some (.error e, h')
    | none => some (h.status path, h')
  | .shmOpen name flag, h =>
    let h' := { h with openErr := rest h.openErr }
    match h.openErr 0 with
    | some e => some (some e, h')
    | none =>
      match h.objects (objectName name) with
      | some _ =>
        if flag = .createExclusive then some (some .eexist, h') else some (none, { h' with fd := some (objectName name) })
      | none =>
        if flag = .createExclusive then
          some (none, { h'.put (objectName name) (some ⟨true, .blank⟩) with fd := some (objectName name) })
        else some (some .enoent, h')
  | .shmUnlink name, h => some ((), h.put (objectName name) none)
  | .ftruncate length, h =>
    let h' := { h with truncErr := rest h.truncErr }
    match h.truncErr 0 with
    | some e => some (some e, h')
    | none => some (none, h'.setExt fun e => { e with length := length })
  | .mmap size, h =>
    let h' := { h with mmapErr := rest h.mmapErr }
    match h.mmapErr 0 size with
    | some e => some (some e, h')
    | none => some (none, { h'.setExt fun e => { e with cur := size / 8, old := [] } with maps := size :: h.maps })
  | .munmap size, h => some ((), { h with maps := h.maps.erase size })
  | .close, h => some ((), { h with fd := none })
  | .load size slot, h =>
    match h.opened with
    | none => none
    | some x => if InPages size slot ∧ InPages x.2.world.ext.length slot then some (x.2.world.mem slot, h) else none
  | .machine (.semInit s v), h => if h.semInit s then h.act (.semInit s v) else some (false, h)
  | .machine o, h => h.act o

end LibShr
