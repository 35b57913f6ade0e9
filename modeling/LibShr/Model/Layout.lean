import Mathlib.Data.Int.Bitwise

/-!
# Constants, status codes and flags

| here | there |
| --- | --- |
| `TAG` .. `BASE`          | `enum shr_base_disp` (`shared_int.h:45`), 64-bit layout |
| `EVENT_TAIL` .. `HDR_END`| `enum shr_q_disp` (`shared_q.c:107`) |
| `DATA_SLOTS` .. `DATA_HDR` | `enum shr_q_data` (`shared_q.c:91`) |
| `Status`                 | `sh_status_e` (`include/shared.h:62`) |
| `Event`                  | `sq_event_e` (`include/shared_q.h:14`) |
| `FLAG_*`                 | `shared_q.c:58-66` |

Slots are numbered in `long` units, so a slot number is an `ℤ`. `SZ_SHIFT` is 3 throughout (the
`__x86_64__` build); `x << SZ_SHIFT` is written `x * 8`, `x >> SZ_SHIFT` is `x / 8` and
`x & REM` is `x % 8`.
-/

namespace LibShr

/-! ## Base header (`shared_int.h:45-67`) -/

@[simp] abbrev PAGE_SIZE : ℤ := 4096
@[simp] abbrev MEM_SLOTS : ℤ := 48
@[simp] abbrev IDX_SIZE : ℕ := 4

@[simp] abbrev TAG : ℤ := 0
@[simp] abbrev VERSION : ℤ := 1
@[simp] abbrev SIZE : ℤ := 2
@[simp] abbrev EXPAND_SIZE : ℤ := 3
@[simp] abbrev FREE_HEAD : ℤ := 4
@[simp] abbrev FREE_HD_CNT : ℤ := 5
@[simp] abbrev DATA_ALLOC : ℤ := 6
@[simp] abbrev COUNT : ℤ := 7
@[simp] abbrev BUFFER : ℤ := 8
@[simp] abbrev FLAGS : ℤ := 9
@[simp] abbrev ID_CNTR : ℤ := 10
@[simp] abbrev FREE_TAIL : ℤ := 12
@[simp] abbrev FREE_TL_CNT : ℤ := 13
@[simp] abbrev MEM_BKT_START : ℤ := 14
@[simp] abbrev BASE : ℤ := 110

/-! ## Queue header (`shared_q.c:107-144`) -/

@[simp] abbrev EVENT_TAIL : ℤ := 110
@[simp] abbrev EVENT_TL_CNT : ℤ := 111
@[simp] abbrev TAIL : ℤ := 112
@[simp] abbrev TAIL_CNT : ℤ := 113
@[simp] abbrev TS_SEC : ℤ := 114
@[simp] abbrev TS_NSEC : ℤ := 115
@[simp] abbrev LISTEN_PID : ℤ := 116
@[simp] abbrev LISTEN_SIGNAL : ℤ := 117
@[simp] abbrev LIMIT_SEC : ℤ := 118
@[simp] abbrev LIMIT_NSEC : ℤ := 119
@[simp] abbrev EVENT_HEAD : ℤ := 120
@[simp] abbrev EVENT_HD_CNT : ℤ := 121
@[simp] abbrev NOTIFY_PID : ℤ := 122
@[simp] abbrev NOTIFY_SIGNAL : ℤ := 123
@[simp] abbrev HEAD : ℤ := 124
@[simp] abbrev HEAD_CNT : ℤ := 125
@[simp] abbrev EMPTY_SEC : ℤ := 126
@[simp] abbrev EMPTY_NSEC : ℤ := 127
@[simp] abbrev CALL_PID : ℤ := 136
@[simp] abbrev CALL_SIGNAL : ℤ := 137
@[simp] abbrev CALL_BLOCKS : ℤ := 138
@[simp] abbrev CALL_UNBLOCKS : ℤ := 139
@[simp] abbrev TARGET_SEC : ℤ := 140
@[simp] abbrev TARGET_NSEC : ℤ := 141
@[simp] abbrev STACK_HEAD : ℤ := 142
@[simp] abbrev STACK_HD_CNT : ℤ := 143
@[simp] abbrev LEVEL : ℤ := 144
@[simp] abbrev MAX_DEPTH : ℤ := 145
@[simp] abbrev HDR_END : ℤ := 164

/-! ## Nodes and data blocks (`shared_q.c:73-104`) -/

@[simp] abbrev QVERSION : ℤ := 3
@[simp] abbrev NODE_SIZE : ℤ := 4
@[simp] abbrev EVENT_OFFSET : ℤ := 2
@[simp] abbrev VALUE_OFFSET : ℤ := 3

@[simp] abbrev DATA_SLOTS : ℤ := 0
@[simp] abbrev TM_SEC : ℤ := 1
@[simp] abbrev TM_NSEC : ℤ := 2
@[simp] abbrev UID : ℤ := 3
@[simp] abbrev TYPE : ℤ := 4
@[simp] abbrev VEC_CNT : ℤ := 5
@[simp] abbrev DATA_LENGTH : ℤ := 6
@[simp] abbrev DATA_HDR : ℤ := 7

/-- `sizeof(sq_vec_s)`: pad and type, length, base pointer. -/
@[simp] abbrev SIZEOF_VEC : ℤ := 24

/-- `SEM_VALUE_MAX` of Linux. -/
@[simp] abbrev SEM_VALUE_MAX : ℤ := 2 ^ 31 - 1

/-! ## Enumerations -/

/-- `sh_status_e`. -/
inductive Status
  | ok | retry | errEmpty | errLimit | errArg | errNomem | errAccess | errExist | errState
  | errPath | errNosupport | errSys | errConflict | errNoMatch
deriving DecidableEq, Repr

/-- `sq_event_e`. The header gives `SQ_EVNT_ALL` and `SQ_EVNT_NONE` the same value 0. -/
inductive Event
  | none | init | limit | time | level | empty | nonempty
deriving DecidableEq, Repr

/-- `SQ_EVNT_ALL` is the constant `SQ_EVNT_NONE`. -/
@[match_pattern] abbrev Event.all : Event := .none

/-- The integer an event is stored as in a node. -/
def Event.code : Event → ℤ
  | .none => 0 | .init => 1 | .limit => 2 | .time => 3 | .level => 4 | .empty => 5 | .nonempty => 6

def Event.ofCode (n : ℤ) : Event :=
  if n = 1 then .init else if n = 2 then .limit else if n = 3 then .time else if n = 4 then .level
  else if n = 5 then .empty else if n = 6 then .nonempty else .none

theorem Event.ofCode_code (e : Event) : Event.ofCode e.code = e := by cases e <;> rfl

/-- `sq_mode_e`. -/
inductive Mode
  | immutable | readOnly | writeOnly | readwrite
deriving DecidableEq, Repr

/-- `mode & SQ_READ_ONLY`. -/
def Mode.canRead : Mode → Bool
  | .readOnly | .readwrite => true
  | _ => false

/-- `mode & SQ_WRITE_ONLY`. -/
def Mode.canWrite : Mode → Bool
  | .writeOnly | .readwrite => true
  | _ => false

@[simp] abbrev FLAG_ACTIVATED : ℤ := 1
@[simp] abbrev FLAG_DISCARD_EXPIRED : ℤ := 2
@[simp] abbrev FLAG_LIFO_ON_LEVEL : ℤ := 4
@[simp] abbrev FLAG_EVNT_INIT : ℤ := 8
@[simp] abbrev FLAG_EVNT_LIMIT : ℤ := 16
@[simp] abbrev FLAG_EVNT_TIME : ℤ := 32
@[simp] abbrev FLAG_EVNT_LEVEL : ℤ := 64
@[simp] abbrev FLAG_EVNT_EMPTY : ℤ := 128
@[simp] abbrev FLAG_EVNT_NONEMPTY : ℤ := 256

/-- `get_event_flag` (`shared_q.c:478`). -/
def getEventFlag : Event → ℤ
  | .all => 504
  | .init => FLAG_EVNT_INIT
  | .limit => FLAG_EVNT_LIMIT
  | .empty => FLAG_EVNT_EMPTY
  | .level => FLAG_EVNT_LEVEL
  | .nonempty => FLAG_EVNT_NONEMPTY
  | .time => FLAG_EVNT_TIME

/-- `struct timespec`. -/
structure Timespec where
  sec : ℤ
  nsec : ℤ
deriving DecidableEq, Repr

/-- `timespecadd` (`include/shared.h:34`). -/
def timespecadd (a b : Timespec) : Timespec :=
  let r : Timespec := ⟨a.sec + b.sec, a.nsec + b.nsec⟩
  if r.nsec ≥ 1000000000 then ⟨r.sec + 1, r.nsec - 1000000000⟩ else r

/-- `timespecsub` (`include/shared.h:44`). -/
def timespecsub (a b : Timespec) : Timespec :=
  let r : Timespec := ⟨a.sec - b.sec, a.nsec - b.nsec⟩
  if r.nsec < 0 then ⟨r.sec - 1, r.nsec + 1000000000⟩ else r

/-- `timespeccmp(a, b, >)` (`include/shared.h:54`); `timespeccmp(a, b, <)` is this with the
arguments exchanged. -/
def timespecgt (a b : Timespec) : Bool :=
  if a.sec = b.sec then a.nsec > b.nsec else a.sec > b.sec

end LibShr
