import LibShr.Conc.Tokens
import LibShr.Model.Api

/-!
# Many threads on one queue: the depth bound

Any number of threads in the six add functions, the three remove functions and `shr_q_clean`. Each
semaphore operation, each read that a call decides on, each successful link or unlink of an item and each
change of `COUNT` is one step.

| here | there |
| --- | --- |
| `Call.enter`                       | the argument and mode tests each call begins with |
| `Pos.enqGate`                      | `enq_gate_try`, `enq_gate_blk`, `enq_gate_tm` (`shared_q.c:1558-1630`) |
| `Pos.enqueue`, `refused`           | `enq`, `enqv` (`:744-815`): copy the vector in, or return an error |
| `Pos.choose` .. `Pos.countUp`      | `enq_data` (`:698`) |
| `Pos.postDeq`, `Pos.enqBack`       | the end of the add functions (`:2119-2135`) |
| `Pos.deqGate`                      | `deq_gate_try`, `deq_gate_blk`, `deq_gate_tm` (`:1458-1555`) |
| `Pos.look` .. `Pos.pop`            | the loop of `deq` (`:1281`), `fifo_remove` (`:1141`), `lifo_remove` (`:1109`) |
| `Pos.countDown`, `Pos.judge`       | `post_process_deq` (`:1214`) |
| `Pos.postEnq`, `Pos.deqBack`       | the loop of the remove functions (`:2561-2591`) |
| `Pos.tryGate` .. `Pos.cleanBack`   | `shr_q_clean` (`:3143-3218`) |

An item is the vector that was added; `shr_q_add` adds a vector of one. No `shr_q_prod` is called;
allocation and mapping succeed.
-/

namespace LibShr.Conservation

open Tokens (Config)

/-- How a call passes its gate: with `sem_trywait`, `sem_wait` or `sem_timedwait`. -/
inductive Gate
  | trywait
  | wait
  | timedwait (timeout : Option Timespec)

/-- The timeout of a timed call is `NULL`. -/
def Gate.isNull : Gate → Bool
  | .timedwait none => true
  | _ => false

/-- A call with its arguments; `none` is `NULL`. -/
inductive Call
  | add (gate : Gate) (q : Option ShrQ) (value : Option (List UInt8)) (length : ℤ)
  | addv (gate : Gate) (q : Option ShrQ) (vector : Option (List SqVec))
  | remove (gate : Gate) (q : Option ShrQ) (buffer : Option UserBuffer)
  | clean (q : Option ShrQ) (timelimit : Option Timespec)

/-- Where a thread is, and the item it is about to link. -/
inductive Pos
  | idle
  -- the add functions
  | enqGate (gate : Gate) (vector : List SqVec)
  | enqueue (vector : List SqVec)
  | choose (vector : List SqVec)
  | link (vector : List SqVec) (lifo : Bool)
  | countUp
  | postDeq
  | enqBack
  -- the remove functions
  | deqGate (gate : Gate)
  | look (gate : Gate)
  | compare (gate : Gate)
  | recheck (gate : Gate)
  | unlink (gate : Gate)
  | pop (gate : Gate)
  | countDown (gate : Gate)
  | judge (gate : Gate)
  | postEnq (gate : Gate) (again : Bool)
  | deqBack
  -- `shr_q_clean`
  | tryGate
  | cleanCompare
  | cleanUnlink
  | cleanCount
  | cleanPost
  | cleanBack

/-- The call a thread makes, or what decides its next step: `retry` when another thread was faster, `timeout`
when a gate gives up, and the verdict on an item's age. -/
inductive Choice
  | call (c : Call) | go | retry | timeout | expired | fresh

/-- The shared state: the two semaphores, `COUNT`, the items of the list and those of the stack. -/
structure Shared where
  enq : ℕ
  deq : ℕ
  count : ℤ
  fifo : List (List SqVec)
  stack : List (List SqVec)

/-- The number of items linked. -/
def Shared.items (q : Shared) : ℕ := q.fifo.length + q.stack.length

/-- The tests a call begins with. A call that fails one returns without touching the queue. -/
def Call.enter : Call → Pos
  | .add gate (some q) (some value) length =>
    if length ≤ 0 || gate.isNull || !q.mode.canWrite then .idle
    else .enqGate gate [⟨SH_STRM_T, length, some value⟩]
  | .addv gate (some q) (some vector) =>
    if vector.length < 1 || gate.isNull || !q.mode.canWrite then .idle else .enqGate gate vector
  | .remove gate (some q) (some buffer) =>
    if buffer.present && buffer.size ≤ 0 || gate.isNull || !q.mode.canRead then .idle else .deqGate gate
  | .clean (some q) (some _) => if q.mode.canRead then .tryGate else .idle
  | _ => .idle

/-- A vector that `enq` or `enqv` returns an error for, with memory to be had: no value, no length, or a length
that is negative as a `long`; of several elements, any that `copy_vector` refuses. -/
def refused : List SqVec → Bool
  | [v] => v.base.isNone || v.len ≤ 0 || toLong v.len ≤ 0
  | vector => vector.any SqVec.invalid

def Pos.step (c : Config) (q : Shared) : Pos → Choice → Option (Shared × Pos)
  | .idle, .call call => some (q, call.enter)
  -- without a token the non-blocking call returns `SH_ERR_LIMIT`, the timed one once its time is up
  | .enqGate gate vector, .go =>
    if 0 < q.enq then some ({ q with enq := q.enq - 1 }, .enqueue vector)
    else match gate with
      | .trywait => some (q, .idle)
      | _ => none
  | .enqGate (.timedwait _) _, .timeout => some (q, .idle)
  | .enqueue vector, .go => some (q, if refused vector then .enqBack else .choose vector)
  -- `enq_release_gate` when the vector was not queued
  | .enqBack, .go => some ({ q with enq := q.enq + 1 }, .idle)
  | .choose vector, .go => some (q, .link vector (c.lifoOnLevel && q.count ≥ c.level))
  | .link vector lifo, .go =>
    some (if lifo then { q with stack := vector :: q.stack } else { q with fifo := q.fifo ++ [vector] }, .countUp)
  | .countUp, .go => some ({ q with count := q.count + 1 }, .postDeq)
  | .postDeq, .go => some ({ q with deq := q.deq + 1 }, .idle)
  -- without a token: `SH_ERR_EMPTY`
  | .deqGate gate, .go =>
    if 0 < q.deq then some ({ q with deq := q.deq - 1 }, .look gate)
    else match gate with
      | .trywait => some (q, .idle)
      | _ => none
  | .deqGate (.timedwait _), .timeout => some (q, .idle)
  -- `array[ STACK_HEAD ] == 0`
  | .look gate, .go => some (q, if q.stack = [] then .compare gate else .pop gate)
  -- `head == array[ TAIL ]`: `deq` returns `SH_ERR_EMPTY`
  | .compare gate, .go => some (q, if q.fifo = [] then .deqBack else .recheck gate)
  -- `fifo_remove` compares once more, and then returns 0
  | .recheck gate, .go => some (q, if q.fifo = [] then .look gate else .unlink gate)
  | .unlink gate, .go =>
    match q.fifo with
    | _ :: fifo => some ({ q with fifo := fifo }, .countDown gate)
    | [] => none
  | .unlink gate, .retry => some (q, .look gate)
  | .pop gate, .go =>
    match q.stack with
    | _ :: stack => some ({ q with stack := stack }, .countDown gate)
    | [] => none
  | .pop gate, .retry => some (q, .look gate)
  | .countDown gate, .go => some ({ q with count := q.count - 1 }, .judge gate)
  | .judge gate, .expired => some (q, .postEnq gate true)
  | .judge gate, .fresh => some (q, .postEnq gate false)
  | .postEnq gate again, .go => some ({ q with enq := q.enq + 1 }, if again then .deqGate gate else .idle)
  -- `deq_release_gate`
  | .deqBack, .go => some ({ q with deq := q.deq + 1 }, .idle)
  | .tryGate, .go => if 0 < q.deq then some ({ q with deq := q.deq - 1 }, .cleanCompare) else some (q, .idle)
  | .cleanCompare, .go => some (q, if q.fifo = [] then .cleanBack else .cleanUnlink)
  | .cleanUnlink, .expired =>
    match q.fifo with
    | _ :: fifo => some ({ q with fifo := fifo }, .cleanCount)
    | [] => none
  -- the item is not expired, or another thread was faster
  | .cleanUnlink, .fresh => some (q, .cleanBack)
  | .cleanUnlink, .retry => some (q, .cleanBack)
  | .cleanCount, .go => some ({ q with count := q.count - 1 }, .cleanPost)
  | .cleanPost, .go => some ({ q with enq := q.enq + 1 }, .tryGate)
  | .cleanBack, .go => some ({ q with deq := q.deq + 1 }, .idle)
  | _, _ => none

/-- The queue with the threads that use it. -/
structure Queue (T : Type) where
  shared : Shared
  pos : T → Pos

def created {T : Type} (depth : ℕ) : Queue T := ⟨⟨depth, 0, 0, [], []⟩, fun _ => .idle⟩

/-! ## Who holds a token -/

/-- A producer that has passed its gate and not linked its item. -/
def Pos.held : Pos → ℕ
  | .enqueue _ | .choose _ | .link _ _ | .enqBack => 1
  | _ => 0

/-- A consumer that has unlinked an item and not posted its token. -/
def Pos.owed : Pos → ℕ
  | .countDown _ | .judge _ | .postEnq _ _ | .cleanCount | .cleanPost => 1
  | _ => 0

/-- A producer that has linked its item and not counted it. -/
def Pos.uncounted : Pos → ℕ
  | .countUp => 1
  | _ => 0

/-- A consumer that has unlinked an item that is still counted. -/
def Pos.overcounted : Pos → ℕ
  | .countDown _ | .cleanCount => 1
  | _ => 0

/-- A thread with a token for a counted item: a producer that has not posted it, or a consumer that has taken it
and not counted its item off. -/
def Pos.pending : Pos → ℕ
  | .postDeq | .look _ | .compare _ | .recheck _ | .unlink _ | .pop _ | .countDown _ | .deqBack
  | .cleanCompare | .cleanUnlink | .cleanCount | .cleanBack => 1
  | _ => 0

theorem Pos.overcounted_le_owed (p : Pos) : p.overcounted ≤ p.owed := by
  cases p <;> simp [overcounted, owed]

section
variable {T : Type} [DecidableEq T]

def Queue.step (c : Config) (q : Queue T) (l : T × Choice) : Option (Queue T) :=
  ((q.pos l.1).step c q.shared l.2).map fun r => ⟨r.1, Function.update q.pos l.1 r.2⟩

def Step (c : Config) (q : Queue T) (l : T × Choice) (q' : Queue T) : Prop := q.step c l = some q'

/-- What holds at any time: every place of the queue is free, taken by an item, or in the hands of a thread; `COUNT`
is the number of items but for the threads that are about to change it; and `DEQ_SEM` is `COUNT` but for the
tokens that threads hold. -/
structure Inv (depth : ℕ) (q : Queue T) : Prop where
  room : ∃ held owed, Census Pos.held q.pos held ∧ Census Pos.owed q.pos owed ∧
    q.shared.enq + q.shared.items + held + owed = depth
  count : ∃ n m, Census Pos.uncounted q.pos n ∧ Census Pos.overcounted q.pos m ∧
    q.shared.count + n = q.shared.items + m
  tokens : ∃ n, Census Pos.pending q.pos n ∧ q.shared.count = q.shared.deq + n

end

/-! ## One thread -/

section
variable {c : Config} {q q' : Shared} {p p' : Pos} {ch : Choice}

/-- Arguments are tested before the gate: a call begins with nothing in hand. -/
theorem Call.enter_empty (call : Call) :
    call.enter.held = 0 ∧ call.enter.owed = 0 ∧ call.enter.uncounted = 0 ∧ call.enter.overcounted = 0 ∧
      call.enter.pending = 0 := by
  fun_cases Call.enter call <;> exact ⟨rfl, rfl, rfl, rfl, rfl⟩

theorem Pos.step_room (h : p.step c q ch = some (q', p')) :
    q'.enq + q'.items + p'.held + p'.owed = q.enq + q.items + p.held + p.owed := by
  revert h
  fun_cases Pos.step c q p ch
  case case1 call =>
    rintro ⟨⟩
    obtain ⟨hheld, howed, -, -, -⟩ := call.enter_empty
    rw [hheld, howed]
    rfl
  all_goals
    intro h
    simp only [Option.some.injEq, Prod.mk.injEq, reduceCtorEq] at h
  all_goals try obtain ⟨rfl, rfl⟩ := h
  all_goals simp only [Pos.held, Pos.owed, Shared.items]
  all_goals grind

/-- `COUNT` follows the items. -/
theorem Pos.step_count (h : p.step c q ch = some (q', p')) :
    q'.count + p'.uncounted + q.items + p.overcounted = q.count + p.uncounted + q'.items + p'.overcounted := by
  revert h
  fun_cases Pos.step c q p ch
  case case1 call =>
    rintro ⟨⟩
    obtain ⟨-, -, hun, hover, -⟩ := call.enter_empty
    rw [hun, hover]
    rfl
  all_goals
    intro h
    simp only [Option.some.injEq, Prod.mk.injEq, reduceCtorEq] at h
  all_goals try obtain ⟨rfl, rfl⟩ := h
  all_goals simp only [Pos.uncounted, Pos.overcounted, Shared.items]
  all_goals grind

/-- `DEQ_SEM` follows `COUNT`. -/
theorem Pos.step_tokens (h : p.step c q ch = some (q', p')) :
    q'.count + q.deq + p.pending = q.count + q'.deq + p'.pending := by
  revert h
  fun_cases Pos.step c q p ch
  case case1 call =>
    rintro ⟨⟩
    obtain ⟨-, -, -, -, hpend⟩ := call.enter_empty
    rw [hpend]
    rfl
  all_goals
    intro h
    simp only [Option.some.injEq, Prod.mk.injEq, reduceCtorEq] at h
  all_goals try obtain ⟨rfl, rfl⟩ := h
  all_goals simp only [Pos.pending]
  all_goals grind

end

/-! ## All threads -/

section
variable {T : Type} [DecidableEq T] {c : Config} {depth : ℕ} {q q' : Queue T} {l : T × Choice}

omit [DecidableEq T] in
theorem Inv.created (depth : ℕ) : Inv depth (created depth : Queue T) where
  room := ⟨0, 0, .zero fun _ => rfl, .zero fun _ => rfl, rfl⟩
  count := ⟨0, 0, .zero fun _ => rfl, .zero fun _ => rfl, rfl⟩
  tokens := ⟨0, .zero fun _ => rfl, rfl⟩

/-- **A step** of any thread keeps the balance. -/
theorem Inv.step (hI : Inv depth q) (hs : Step c q l q') : Inv depth q' := by
  obtain ⟨t, ch⟩ := l
  obtain ⟨⟨s', p'⟩, hp, rfl⟩ := Option.map_eq_some_iff.1 hs
  obtain ⟨⟨held, owed, hheld, howed, hroom⟩, ⟨n, m, hn, hm, hcount⟩, ⟨k, hk, htok⟩⟩ := hI
  -- the thread that moves is counted in each sum
  have hheldt := hheld.le_of_place t
  have howedt := howed.le_of_place t
  have hnt := hn.le_of_place t
  have hmt := hm.le_of_place t
  have hkt := hk.le_of_place t
  refine ⟨⟨held + p'.held - (q.pos t).held, owed + p'.owed - (q.pos t).owed, hheld.update t p' (by omega),
      howed.update t p' (by omega), ?_⟩,
    ⟨n + p'.uncounted - (q.pos t).uncounted, m + p'.overcounted - (q.pos t).overcounted, hn.update t p' (by omega),
      hm.update t p' (by omega), ?_⟩,
    ⟨k + p'.pending - (q.pos t).pending, hk.update t p' (by omega), ?_⟩⟩
  · have := Pos.step_room hp
    simp only at this hroom ⊢
    omega
  · have := Pos.step_count hp
    simp only at this hcount ⊢
    omega
  · have := Pos.step_tokens hp
    simp only at this htok ⊢
    omega

omit [DecidableEq T] in
/-- There are never more items than places. -/
theorem Inv.items_le (hI : Inv depth q) : q.shared.items ≤ depth := by
  obtain ⟨held, owed, -, -, hroom⟩ := hI.room
  omega

omit [DecidableEq T] in
/-- `COUNT` is not negative: every counted item has its token. -/
theorem Inv.count_nonneg (hI : Inv depth q) : 0 ≤ q.shared.count := by
  obtain ⟨n, -, htok⟩ := hI.tokens
  omega

/-- `COUNT` is bounded: who has unlinked an item that is still counted owes its token. -/
theorem Inv.count_le (hI : Inv depth q) : q.shared.count ≤ depth := by
  obtain ⟨held, owed, -, howed, hroom⟩ := hI.room
  obtain ⟨n, m, -, hm, hcount⟩ := hI.count
  have := hm.mono howed Pos.overcounted_le_owed
  omega

/-- With no call in progress nobody holds a token. -/
theorem Inv.quiet (hI : Inv depth q) (hidle : ∀ t, q.pos t = .idle) :
    (q.shared.deq : ℤ) = q.shared.count ∧ q.shared.count = q.shared.items ∧ (q.shared.enq : ℤ) = depth - q.shared.count := by
  have hzero : ∀ {w : Pos → ℕ} {n : ℕ}, w .idle = 0 → Census w q.pos n → n = 0 := fun hw hn =>
    hn.unique (.zero fun t => by rw [hidle t, hw])
  obtain ⟨⟨held, owed, hheld, howed, hroom⟩, ⟨n, m, hn, hm, hcount⟩, ⟨k, hk, htok⟩⟩ := hI
  have hheld0 := hzero rfl hheld
  have howed0 := hzero rfl howed
  have hn0 := hzero rfl hn
  have hm0 := hzero rfl hm
  have hk0 := hzero rfl hk
  omega

/-- **Depth bound and token conservation.** In every run of adds, removes and cleans by any number of threads:
the free places, the items linked, the places held by producers that have not linked yet and those owed by
consumers that have unlinked make up the depth; items and `COUNT` stay within it; and with no call in progress
both semaphores agree with `COUNT`, and `COUNT` with the items. -/
theorem tokens_conserved {ls : List (T × Choice)} (h : Trace (Step c) (created depth) ls q) :
    (∃ held owed, Census Pos.held q.pos held ∧ Census Pos.owed q.pos owed ∧
      q.shared.enq + q.shared.items + held + owed = depth) ∧
    q.shared.items ≤ depth ∧ 0 ≤ q.shared.count ∧ q.shared.count ≤ depth ∧
    ((∀ t, q.pos t = .idle) → (q.shared.deq : ℤ) = q.shared.count ∧ q.shared.count = q.shared.items ∧
      (q.shared.enq : ℤ) = depth - q.shared.count) := by
  have hI : Inv depth q := h.invariant (Inv depth) (fun _ _ _ hI hs => hI.step hs) (.created depth)
  exact ⟨hI.room, hI.items_le, hI.count_nonneg, hI.count_le, hI.quiet⟩

end

/-! ## Three threads -/

/-- A handle that may read and write. -/
def handle : ShrQ := ⟨.readwrite⟩

/-- Thread 0 adds a value of one byte; thread 1 is refused a vector with an empty element, and finds a queue of
depth 1 full; thread 2 drops the item, which has expired, and then finds the queue empty. -/
def addRefuseDrop : List (ℕ × Choice) :=
  [(1, .call (.addv .wait (some handle) (some [⟨1, 1, some [7]⟩, ⟨1, 0, none⟩]))), (1, .go), (1, .go), (1, .go),
   (0, .call (.add .trywait (some handle) (some [5]) 1)), (0, .go), (0, .go), (0, .go), (0, .go), (0, .go),
   (1, .call (.add .trywait (some handle) (some [6]) 1)), (1, .go), (0, .go),
   (2, .call (.remove .trywait (some handle) (some ⟨false, 0⟩))), (2, .go), (2, .go), (2, .go), (2, .go), (2, .go),
   (2, .go), (2, .expired), (2, .go), (2, .go)]

/-- The queue is empty again, and its one place free. -/
theorem tokens_conserved_dropped : ∃ q, addRefuseDrop.foldlM (Queue.step ⟨false, 0⟩) (created 1) = some q ∧
    (∀ t, q.pos t = .idle) ∧ q.shared.items = 0 ∧ (q.shared.enq : ℤ) = (1 : ℕ) - q.shared.items := by
  have hrun : ∃ q, addRefuseDrop.foldlM (Queue.step ⟨false, 0⟩) (created 1) = some q ∧ (∀ t, q.pos t = .idle) ∧
      q.shared.items = 0 := ⟨_, rfl, fun | 0 => rfl | 1 => rfl | 2 => rfl | _ + 3 => rfl, rfl⟩
  obtain ⟨q, hq, hidle, hitems⟩ := hrun
  obtain ⟨-, -, -, -, hquiet⟩ := tokens_conserved (Trace.of_foldlM (fun _ _ _ h => h) hq)
  obtain ⟨-, hcount, henq⟩ := hquiet hidle
  exact ⟨q, hq, hidle, hitems, hcount ▸ henq⟩

end LibShr.Conservation
