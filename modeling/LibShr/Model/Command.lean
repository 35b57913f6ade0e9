import LibShr.Model.Objects

/-!
# The `sharedq` command: `create`, and `add` from the standard input

The command runs alone. `CliM` is a program over output, input, `shr_q_add` on the queue that was opened,
and the calls the library makes to the system. A pointer into a string is what is left of the string, and
a 0 follows it. Memory for a line that is read is always there.

| here | there |
| --- | --- |
| `sharedqAtol`    | `sharedq_atol` (`main.c:280`); `skipByte` and `readDigits` are its loops |
| `containsParam`, `parseModifiers` | `contains_param` (`main.c:306`), `parse_modifiers` (`main.c:320`) |
| `sharedqCreate`  | `sharedq_create` (`main.c:366`) |
| `queueString`    | `queue_string` (`main.c:515`) |
| `readline`       | `readline` (`main.c:580`) |
| `queueFromStdin` | `queue_from_stdin` (`main.c:615`) |
-/

namespace LibShr

open Prog (op iterate)

/-- Output, input, `shr_q_add`, and what the library asks of the system. -/
inductive CliOp
  | printf (format : String) (args : List CString)
  | fgets (size : ℕ)
  | add (value : CString) (length : ℕ)
  | host (o : HostOp)
deriving DecidableEq

@[reducible] def CliOp.Res : CliOp → Type
  | .printf .. => Unit
  | .fgets _ => Option CString
  | .add .. => Status
  | .host o => o.Res

abbrev CliM := Prog CliOp CliOp.Res

/-- Output of a text, with what its `%s` stand for. -/
def printf (format : String) (args : List CString) : CliM Unit := op (CliOp.printf format args)

/-- `fgets` from the standard input; `none` is `NULL`. -/
def fgets (size : ℕ) : CliM (Option CString) := op (CliOp.fgets size)

/-- A function of the library. -/
def onLibrary {α : Type} (p : HostM α) : CliM α := p.subst fun o => op (CliOp.host o)

/-- C leaves the behaviour undefined. -/
def cliUndefined : CliM Unit := onLibrary (onObject undefined)

/-- `(long) x`, of 64 bits. -/
def long (x : ℤ) : ℤ := Int.bmod x (2 ^ 64)

/-- `(int) x`, of 32 bits. -/
def int (x : ℤ) : ℤ := Int.bmod x (2 ^ 32)

/-! ## `sharedq create` -/

/-- `while (array[i] == c && i < length) i++`, with what is left of the array and of the length. -/
def skipByte (c : UInt8) : CString → ℤ → CString × ℤ
  | [], left => ([], left)
  | b :: s, left => if b = c ∧ 0 < left then skipByte c s (left - 1) else (b :: s, left)

/-- `array[i] >= '0' && array[i] <= '9'`. -/
def IsDigit (b : UInt8) : Prop := 48 ≤ b ∧ b ≤ 57

instance (b : UInt8) : Decidable (IsDigit b) := inferInstanceAs (Decidable (_ ∧ _))

/-- The loop over the digits, with the result and what is left of the length. -/
def readDigits (result : ℤ) : CString → ℤ → ℤ × ℤ
  | [], left => (result, left)
  | b :: s, left =>
    if 0 < left ∧ IsDigit b then readDigits (long (long (result * 10) + (b.toNat - 48))) s (left - 1) else (result, left)

/-- `sharedq_atol`. -/
def sharedqAtol (array : CString) (length : ℤ) : ℤ :=
  let (s, left) := skipByte 32 array length
  let (s, left) := skipByte 48 s left
  let (result, left) := match s with
    | [] => (0, left)
    | b :: s' => if 0 < left ∧ IsDigit b then readDigits (0 + (b.toNat - 48)) s' (left - 1) else (0, left)
  if 0 < left then -1 else result

/-- `contains_param`. -/
def containsParam (string : CString) (c : UInt8) : Bool := string.reverse.any (· == c)

/-- `modifiers_s`. -/
structure Modifiers where
  block : Bool := false
  help : Bool := false
  hex : Bool := false
  verbose : Bool := false
deriving DecidableEq, Repr

/-- `PERMIT`, that is `bhvx`. -/
def PERMIT : CString := [98, 104, 118, 120]

/-- `parse_modifiers`; `none` after `exit(1)`. -/
def parseModifiers (argv : List CString) (index : ℕ) (pattern : CString) : CliM (Option Modifiers) :=
  iterate (fun (s : ℕ × Modifiers) => do
    let (i, result) := s
    if index ≤ i then return .inr (some result)
    let param := argv.getD i []
    if param.getD 0 0 ≠ 45 then
      printf "invalid modifier %s\n" [param]
      return .inr none
    if !containsParam PERMIT (param.getD 1 0) then
      printf "error: unrecognized modifier %s\n" [param]
      return .inr none
    if !containsParam pattern (param.getD 1 0) then
      printf "warning: invalid modifier %s will be ignored\n\n" [param]
      return .inl (i + 1, result)
    match param.getD 1 0 with
    | 98 => return .inl (i + 1, { result with block := true })
    | 104 => return .inl (i + 1, { result with help := true })
    | 118 => return .inl (i + 1, { result with verbose := true })
    | 120 => return .inl (i + 1, { result with hex := true })
    | _ =>
      printf "unrecognized modifier or parameter\n" []
      return .inr none) (1, {})

/-- `sharedq_help_create` (`main.c:109`). -/
def sharedqHelpCreate : CliM Unit := do
  printf "sharedq [modifiers] create <name> [<maxdepth>]\n" []
  printf "\n  --creates a named queue in shared memory\n" []
  printf "\n  where:\n" []
  printf "  <name>\t\tname of queue\n" []
  printf "  <maxdepth>\t\toptional maximum depth, defaults to largest possible value\n" []
  printf "\n   modifiers\t\t effects\n" []
  printf "  -----------\t\t---------\n" []
  printf "  -h\t\t\tprints help for the specified command\n" []

/-- What `sharedq_create` says of a status; nothing of the others. -/
def createMessage : Status → Option String
  | .errArg => some "sharedq:  invalid argument for create function\n"
  | .errAccess => some "sharedq:  permission error for queue name\n"
  | .errExist => some "sharedq:  queue name already exists\n"
  | .errPath => some "sharedq:  error in queue name path\n"
  | .errSys => some "sharedq:  system call error\n"
  | _ => none

/-- What it says of a depth it does not take. -/
def INVALID_MAXSIZE : String := "sharedq:  invalid queue maxsize argument\n"

/-- `sharedq_create`. The depth becomes an `unsigned int` in the call of `shr_q_create`. -/
def sharedqCreate (argv : List CString) (index : ℕ) : CliM Unit := do
  let argc : ℤ := argv.length
  if argc - index + 1 < 3 ∨ 4 < argc - index + 1 then
    sharedqHelpCreate
    return
  match ← parseModifiers argv index [104] with
  | none => return
  | some param =>
    if param.help then
      sharedqHelpCreate
      return
    let arg := argv.getD (index + 2) []
    let maxsize := if argc - index + 1 = 4 then sharedqAtol arg (int arg.length) else 0
    if maxsize < 0 then
      printf INVALID_MAXSIZE []
      return
    let (status, _) ← onLibrary (shrQCreate true argv[index + 1]? (maxsize % 2 ^ 32) .immutable)
    match createMessage status with
    | some message => printf message []
    | none => return

/-! ## `sharedq add` -/

/-- `BUFFSIZE`. -/
@[simp] abbrev BUFFSIZE : ℕ := 256

/-- Allocated memory of a size, with the string it holds. -/
structure Buffer where
  size : ℕ
  text : CString
deriving DecidableEq, Repr

/-- `strcat`. -/
def strcat (str : Buffer) (line : CString) : CliM Buffer := do
  if str.size < str.text.length + line.length + 1 then cliUndefined
  return { str with text := str.text ++ line }

/-- `readline`; `none` is `NULL`. -/
def readline (str : Option Buffer) : CliM (Option Buffer) := do
  let str := str.getD ⟨BUFFSIZE, []⟩
  -- memset
  let str := { str with text := [] }
  iterate (fun (s : Buffer × Bool) => do
    let (str, nobreak) := s
    -- the line is complete
    if !nobreak then return .inr (some str)
    match ← fgets BUFFSIZE with
    | none => return .inr none
    | some buffer =>
      let line := buffer.takeWhile (· ≠ 0)
      -- `line[len - 1]`
      if line.length = 0 then cliUndefined
      let (line, nobreak) := if line.getLast? = some 10 then (line.dropLast, false) else (line, true)
      if line.length = 0 then return .inr (some str)
      -- realloc
      let str := { str with size := str.text.length + line.length + 1 }
      let str ← strcat str line
      return .inl (str, nobreak)) (str, true)

/-- What `queue_string` says of a status. -/
def addMessage : Status → Option String
  | .errArg => some "sharedq:  invalid argument for add function\n"
  | .errLimit => some "sharedq:  queue at depth limit\n"
  | .errNomem => some "sharedq:  not enough memory to complete add\n"
  | _ => none

/-- `queue_string`. -/
def queueString (string : CString) : CliM Status := do
  let status ← op (CliOp.add string string.length)
  match addMessage status with
  | some message => printf message []
  | none => pure ()
  return status

/-- `queue_from_stdin`. -/
def queueFromStdin : CliM Unit := do
  printf "<--" []
  iterate (fun (line : Option Buffer) => do
    match ← readline line with
    | none => return .inr ()
    | some line =>
      if line.text.length = 0 then return .inr ()
      let status ← queueString line.text
      if status ≠ .ok then return .inr ()
      printf "<--" []
      return .inl (some line)) none

/-! ## The surroundings of the command -/

/-- The system, what was printed, what is left of the standard input, how `shr_q_add` will answer, and
what it has queued. -/
structure Cli where
  host : Host
  printed : List (String × List CString)
  stdin : List UInt8
  adds : ℕ → Status
  queued : List CString

/-- What `fgets` reads: up to the newline, the end of the input, or the size less one. -/
def chunk (size : ℕ) (s : List UInt8) : List UInt8 := s.take (min (size - 1) ((s.takeWhile (· ≠ 10)).length + 1))

/-- The operations as they happen. -/
def cli : Prog.Handler CliOp CliOp.Res Cli
  | .printf format args, c => some ((), { c with printed := c.printed ++ [(format, args)] })
  | .fgets size, c =>
    match c.stdin with
    | [] => some (none, c)
    | s => some (some (chunk size s), { c with stdin := s.drop (chunk size s).length })
  | .add value length, c =>
    some (c.adds 0, { c with
      adds := rest c.adds
      queued := if c.adds 0 = .ok then c.queued ++ [value.take length] else c.queued })
  | .host o, c => (host o c.host).map fun r => (r.1, { c with host := r.2 })

end LibShr
