import LibShr.Lib.Census
import LibShr.Lib.Trace
import Mathlib.Data.Int.Notation
import Mathlib.Data.Fintype.Fin

/-!
# Many threads on one queue: tokens and items

Any number of threads in `shr_q_add`, `shr_q_remove_wait` and `shr_q_clean`. Each semaphore operation,
each read of the stack head, each comparison of head and tail, each successful link or unlink of an
item and each change of `COUNT` is one step; an attempt to unlink that loses its race is a step back.

| here | there |
| --- | --- |
| `Pos.choose` .. `Pos.postDeq`      | `shr_q_add` behind its gate (`shared_q.c:2103-2138`), `enq_data` (`:698`) |
| `Pos.waitGate` .. `Pos.giveBack`   | `shr_q_remove_wait` (`:2648-2680`), `deq` (`:1269`) |
| `Pos.tryGate` .. `Pos.cleanBack`   | `shr_q_clean` (`:3143-3218`) |
| `Choice.expired`, `Choice.fresh`   | the verdict on an item's age: in `deq`, whether it is dropped; in `shr_q_clean`, whether it is removed |
| `Choice.retry`                     | `fifo_remove` or `lifo_remove` returned 0 because another thread was faster |

Data slots stand for items. No `shr_q_prod` is called; allocation and mapping succeed.
-/

namespace LibShr.Tokens

/-- Where a thread is, and the item it carries. -/
inductive Pos
  | idle
  -- `shr_q_add`
  | choose (dataSlot : ℤ)
  | link (dataSlot : ℤ) (lifo : Bool)
  | countUp
  | postDeq
  -- `shr_q_remove_wait`
  | waitGate
  | look
  | compare
  | recheck
  | unlink
  | pop
  | countDown
  | judge
  | postEnq (again : Bool)
  | giveBack
  -- `shr_q_clean`
  | tryGate
  | cleanCompare
  | cleanUnlink
  | cleanCount
  | cleanPost
  | cleanBack
deriving DecidableEq

/-- The call a thread makes, or what decides its next step. -/
inductive Choice
  | add (dataSlot : ℤ) | remove | clean
  | go | retry | expired | fresh
deriving DecidableEq

/-- The shared state: the two semaphores, `COUNT`, the items of the list and those of the stack. -/
structure Shared where
  enq : ℕ
  deq : ℕ
  count : ℤ
  fifo : List ℤ
  stack : List ℤ

/-- The settings adaptive LIFO depends on. -/
structure Config where
  lifoOnLevel : Bool
  level : ℤ

def Pos.step (c : Config) (q : Shared) : Pos → Choice → Option (Shared × Pos)
  -- `enq_gate_try`; without a token the call returns `SH_ERR_LIMIT`
  | .idle, .add slot => if 0 < q.enq then some ({ q with enq := q.enq - 1 }, .choose slot) else some (q, .idle)
  | .choose slot, .go => some (q, .link slot (c.lifoOnLevel && q.count ≥ c.level))
  | .link slot lifo, .go =>
    some (if lifo then { q with stack := slot :: q.stack } else { q with fifo := q.fifo ++ [slot] }, .countUp)
  | .countUp, .go => some ({ q with count := q.count + 1 }, .postDeq)
  | .postDeq, .go => some ({ q with deq := q.deq + 1 }, .idle)
  | .idle, .remove => some (q, .waitGate)
  -- `deq_gate_blk`
  | .waitGate, .go => if 0 < q.deq then some ({ q with deq := q.deq - 1 }, .look) else none
  -- `array[ STACK_HEAD ] == 0`
  | .look, .go => some (q, if q.stack = [] then .compare else .pop)
  -- `head == array[ TAIL ]`: `deq` returns `SH_ERR_EMPTY`
  | .compare, .go => some (q, if q.fifo = [] then .giveBack else .recheck)
  -- `fifo_remove` compares once more, and then returns 0
  | .recheck, .go => some (q, if q.fifo = [] then .look else .unlink)
  | .unlink, .go =>
    match q.fifo with
    | _ :: fifo => some ({ q with fifo := fifo }, .countDown)
    | [] => none
  | .unlink, .retry => some (q, .look)
  | .pop, .go =>
    match q.stack with
    | _ :: stack => some ({ q with stack := stack }, .countDown)
    | [] => none
  | .pop, .retry => some (q, .look)
  | .countDown, .go => some ({ q with count := q.count - 1 }, .judge)
  | .judge, .expired => some (q, .postEnq true)
  | .judge, .fresh => some (q, .postEnq false)
  | .postEnq again, .go => some ({ q with enq := q.enq + 1 }, if again then .waitGate else .idle)
  -- `deq_release_gate`
  | .giveBack, .go => some ({ q with deq := q.deq + 1 }, .idle)
  | .idle, .clean => some (q, .tryGate)
  | .tryGate, .go => if 0 < q.deq then some ({ q with deq := q.deq - 1 }, .cleanCompare) else some (q, .idle)
  | .cleanCompare, .go => some (q, if q.fifo = [] then .cleanBack else .cleanUnlink)
  | .cleanUnlink, .expired =>
    match q.fifo with
    | _ :: fifo => some ({ q with fifo := fifo }, .cleanCount)
    | [] => none
  -- the item is not expired, or another thread was faster
  | .cleanUnlink, .fresh => some (q, .cleanBack)
  | .cleanCount, .go => some ({ q with count := q.count - 1 }, .cleanPost)
  | .cleanPost, .go => some ({ q with enq := q.enq + 1 }, .tryGate)
  | .cleanBack, .go => some ({ q with deq := q.deq + 1 }, .idle)
  | _, _ => none

/-- The queue with the threads that use it. -/
structure Queue (T : Type) where
  shared : Shared
  pos : T → Pos

def created {T : Type} (depth : ℕ) : Queue T := ⟨⟨depth, 0, 0, [], []⟩, fun _ => .idle⟩

/-! ## Who holds a token -/

/-- A token was taken and not used, or an item was linked and its token not yet posted. -/
def Pos.token : Pos → ℕ
  | .countUp | .postDeq | .look | .compare | .recheck | .unlink | .pop | .giveBack | .cleanCompare | .cleanUnlink
  | .cleanBack => 1
  | _ => 0

/-- A remover that found the stack empty and has not yet unlinked an item or looked again. -/
def Pos.committed : Pos → ℕ
  | .compare | .recheck | .unlink => 1
  | _ => 0

theorem Pos.committed_le_token (p : Pos) : p.committed ≤ p.token := by
  cases p <;> simp [committed, token]

section
variable {T : Type} [DecidableEq T]

def Queue.step (c : Config) (q : Queue T) (l : T × Choice) : Option (Queue T) :=
  ((q.pos l.1).step c q.shared l.2).map fun r => ⟨r.1, Function.update q.pos l.1 r.2⟩

def Step (c : Config) (q : Queue T) (l : T × Choice) (q' : Queue T) : Prop := q.step c l = some q'

/-- An item that `shr_q_clean` unlinks while some remover is between finding the stack empty and comparing
head and tail is not one that a remover needs: the list holds more items than there are removers that
found the stack empty and have not yet unlinked an item. -/
def SparesRemovers (q : Queue T) (l : T × Choice) : Prop :=
  q.pos l.1 = .cleanUnlink → l.2 = .expired → (∃ t, q.pos t = .compare) →
    ∀ n, Census Pos.committed q.pos n → n < q.shared.fifo.length

def SparingStep (c : Config) (q : Queue T) (l : T × Choice) (q' : Queue T) : Prop := SparesRemovers q l ∧ Step c q l q'

/-- What holds at any time: every linked item is answered by a token; as long as a remover is about to
compare head and tail, there is an item in the list for each remover that relies on one; and no remover
has found the queue empty. -/
structure Inv (q : Queue T) : Prop where
  tokens : ∃ n, Census Pos.token q.pos n ∧ q.shared.fifo.length + q.shared.stack.length = q.shared.deq + n
  spare : (∃ t, q.pos t = .compare) → ∃ n, Census Pos.committed q.pos n ∧ n ≤ q.shared.fifo.length
  found : ∀ t, q.pos t ≠ .giveBack

end

/-! ## One thread -/

section
variable {c : Config} {q q' : Shared} {p p' : Pos} {ch : Choice}

/-- Tokens are neither made nor lost. -/
theorem Pos.step_tokens (h : p.step c q ch = some (q', p')) :
    q'.fifo.length + q'.stack.length + p.token + q.deq = q.fifo.length + q.stack.length + p'.token + q'.deq := by
  revert h
  fun_cases Pos.step c q p ch
  all_goals
    intro h
    simp only [Option.some.injEq, Prod.mk.injEq, reduceCtorEq] at h
  all_goals try obtain ⟨rfl, rfl⟩ := h
  all_goals simp only [Pos.token]
  all_goals grind

/-- A remover is about to compare head and tail only right after it has found the stack empty. -/
theorem Pos.step_compare (h : p.step c q ch = some (q', .compare)) : q.stack = [] ∧ q' = q := by
  revert h
  fun_cases Pos.step c q p ch
  all_goals grind

/-- `deq` returns `SH_ERR_EMPTY` only to a remover that has just found head and tail equal. -/
theorem Pos.step_giveBack (h : p.step c q ch = some (q', .giveBack)) : p = .compare ∧ q.fifo = [] := by
  revert h
  fun_cases Pos.step c q p ch
  all_goals grind

/-- The list loses an item only to a remover that relied on it, or to `shr_q_clean`. -/
theorem Pos.step_fifo (h : p.step c q ch = some (q', p')) (hp : p' ≠ .compare) :
    q.fifo.length + p'.committed ≤ q'.fifo.length + p.committed ∨
      p = .cleanUnlink ∧ ch = .expired ∧ q.fifo.length = q'.fifo.length + 1 ∧ p'.committed = 0 := by
  revert h
  fun_cases Pos.step c q p ch
  all_goals
    intro h
    simp only [Option.some.injEq, Prod.mk.injEq, reduceCtorEq] at h
  all_goals try obtain ⟨rfl, rfl⟩ := h
  all_goals simp only [Pos.committed]
  all_goals grind

end

/-! ## All threads -/

section
variable {T : Type} [DecidableEq T] {c : Config} {q q' : Queue T} {l : T × Choice}

omit [DecidableEq T] in
theorem Inv.created (depth : ℕ) : Inv (created depth : Queue T) where
  tokens := ⟨0, .zero fun _ => rfl, rfl⟩
  spare := fun ⟨_, h⟩ => by cases h
  found := fun _ h => by cases h

/-- **A sparing step** keeps the invariant. -/
theorem Inv.step (hI : Inv q) (hs : SparingStep c q l q') : Inv q' := by
  obtain ⟨t, ch⟩ := l
  obtain ⟨hcond, hs⟩ := hs
  obtain ⟨⟨q₁, p'⟩, hp, rfl⟩ := Option.map_eq_some_iff.1 hs
  obtain ⟨n, hn, htok⟩ := hI.tokens
  have hstep := Pos.step_tokens hp
  have hle := hn.le_of_place t
  have hn' : Census Pos.token (Function.update q.pos t p') (n + p'.token - (q.pos t).token) := hn.update t p' (by omega)
  obtain ⟨k, hk⟩ := hn.exists_of_le Pos.committed_le_token
  have hkt := hk.le_of_place t
  have hk' : Census Pos.committed (Function.update q.pos t p') (k + p'.committed - (q.pos t).committed) :=
    hk.update t p' (by omega)
  refine ⟨⟨_, hn', by simp only at hstep htok ⊢; omega⟩, fun hcmp => ⟨_, hk', ?_⟩, fun u hu => ?_⟩
  · by_cases hpc : p' = .compare
    · -- the stack was empty just now, so all tokens stand for items of the list
      subst hpc
      obtain ⟨hst, rfl⟩ := Pos.step_compare hp
      have hmono := hk'.mono hn' Pos.committed_le_token
      simp only [hst, List.length_nil] at hstep htok ⊢
      omega
    · have hold : ∃ u, q.pos u = .compare := by
        obtain ⟨u, hu⟩ := hcmp
        by_cases hut : u = t
        · rw [hut] at hu
          simp only [Function.update_self] at hu
          exact absurd hu hpc
        · simp only [Function.update_of_ne hut] at hu
          exact ⟨u, hu⟩
      obtain ⟨k₁, hk₁, hle₁⟩ := hI.spare hold
      obtain rfl := hk.unique hk₁
      rcases Pos.step_fifo hp hpc with h | ⟨hpos, rfl, hlen, hcom⟩
      · simp only at h ⊢
        omega
      · have := hcond hpos rfl hold k hk
        simp only at hlen ⊢
        omega
  · by_cases hut : u = t
    · rw [hut] at hu
      simp only [Function.update_self] at hu
      subst hu
      -- a remover about to compare is counted, so the list is not empty
      obtain ⟨hpos, hfifo⟩ := Pos.step_giveBack hp
      obtain ⟨k₁, hk₁, hle₁⟩ := hI.spare ⟨t, hpos⟩
      have := hk₁.le_of_place t
      rw [hpos, hfifo] at *
      simp [Pos.committed] at this hle₁
      omega
    · simp only [Function.update_of_ne hut] at hu
      exact hI.found u hu

/-- **No spurious empty.** In every run of adds, blocking removes and cleans by any number of threads
whose steps all meet the condition, `deq` returns `SH_ERR_EMPTY` to nobody who passed the gate. -/
theorem remove_wait_never_empty {depth : ℕ} {ls : List (T × Choice)} (h : Trace (SparingStep c) (created depth) ls q) :
    ∀ t, q.pos t ≠ .giveBack :=
  (h.invariant Inv (fun _ _ _ hI hs => hI.step hs) (.created depth)).found

/-- Without adaptive LIFO nothing is ever pushed on the stack. -/
theorem Pos.step_fifo_only {c : Config} {q q' : Shared} {p p' : Pos} {ch : Choice} (hc : c.lifoOnLevel = false)
    (hst : q.stack = []) (hp : ∀ slot, p ≠ .link slot true) (h : p.step c q ch = some (q', p')) :
    q'.stack = [] ∧ ∀ slot, p' ≠ .link slot true := by
  revert h
  fun_cases Pos.step c q p ch
  all_goals grind

/-- Then every step meets the condition: the token `shr_q_clean` holds stands for an item of the list too. -/
theorem remove_wait_never_empty_fifo {depth : ℕ} {ls : List (T × Choice)} (hc : c.lifoOnLevel = false)
    (h : Trace (Step c) (created depth) ls q) : ∀ t, q.pos t ≠ .giveBack := by
  have hinv : Inv q ∧ q.shared.stack = [] ∧ ∀ t slot, q.pos t ≠ .link slot true := by
    refine h.invariant (fun q => Inv q ∧ q.shared.stack = [] ∧ ∀ t slot, q.pos t ≠ .link slot true) ?_
      ⟨.created depth, rfl, fun t slot ht => by cases ht⟩
    rintro q ⟨t, ch⟩ q' ⟨hI, hst, hlink⟩ hs
    have hcond : SparesRemovers q (t, ch) := by
      intro hpos _ _ k hk
      obtain ⟨n, hn, htok⟩ := hI.tokens
      have := hk.mono_lt hn Pos.committed_le_token (t := t) (by rw [show q.pos t = .cleanUnlink from hpos]; decide)
      rw [hst, List.length_nil] at htok
      omega
    obtain ⟨⟨q₁, p'⟩, hp, hq⟩ := Option.map_eq_some_iff.1 hs
    obtain ⟨hst', hlink'⟩ := Pos.step_fifo_only hc hst (hlink t) hp
    refine ⟨hI.step ⟨hcond, hs⟩, by rw [← hq]; exact hst', fun u slot => ?_⟩
    rw [← hq]
    by_cases hut : u = t
    · simp only [hut, Function.update_self]
      exact hlink' slot
    · simp only [Function.update_of_ne hut]
      exact hlink u slot
  exact hinv.1.found

end

/-! ## Three threads -/

/-- Thread 0 adds an item. -/
def addItem (slot : ℤ) : List (Fin 3 × Choice) := [(0, .add slot), (0, .go), (0, .go), (0, .go), (0, .go)]

/-- Thread 1 passes the gate and finds the stack empty. -/
def passAndLook : List (Fin 3 × Choice) := [(1, .remove), (1, .go), (1, .go)]

/-- Thread 2 cleans one expired item away. -/
def cleanOne : List (Fin 3 × Choice) := [(2, .clean), (2, .go), (2, .go), (2, .expired)]

/-- Two items are in the list when thread 2 takes one; thread 1 takes the other. -/
def cleanSpared : List (Fin 3 × Choice) :=
  addItem 200 ++ addItem 216 ++ passAndLook ++ cleanOne ++ [(1, .go), (1, .go), (1, .go)]

/-- One item is in the list and one on the stack when thread 2 takes the first. -/
def cleanTaken : List (Fin 3 × Choice) := addItem 200 ++ passAndLook ++ addItem 216 ++ cleanOne ++ [(1, .go)]

def Queue.sparing (c : Config) (q : Queue (Fin 3)) (l : Fin 3 × Choice) : Option (Queue (Fin 3)) :=
  if q.pos l.1 = .cleanUnlink ∧ l.2 = .expired ∧ (∃ t, q.pos t = .compare) ∧
      q.shared.fifo.length ≤ ∑ t, (q.pos t).committed then none
  else q.step c l

theorem Queue.sparing_step {c : Config} {q q' : Queue (Fin 3)} {l : Fin 3 × Choice} (h : q.sparing c l = some q') :
    SparingStep c q l q' := by
  unfold sparing at h
  split at h
  · cases h
  · rename_i hcond
    refine ⟨fun h₁ h₂ h₃ n hn => ?_, h⟩
    have hsum : Census Pos.committed q.pos (∑ t, (q.pos t).committed) := ⟨Finset.univ, by simp, rfl⟩
    rw [hn.unique hsum]
    by_contra hlt
    exact hcond ⟨h₁, h₂, h₃, not_lt.1 hlt⟩

/-- With two items in the list, one may be cleaned away under a remover's eyes: it takes the other. -/
theorem remove_wait_never_empty_clean : ∃ q, cleanSpared.foldlM (Queue.sparing ⟨true, 5⟩) (created 8) = some q ∧
    q.pos 1 = .countDown ∧ ∀ t, q.pos t ≠ .giveBack := by
  have hrun : ∃ q, cleanSpared.foldlM (Queue.sparing ⟨true, 5⟩) (created 8) = some q ∧ q.pos 1 = .countDown :=
    ⟨_, rfl, rfl⟩
  obtain ⟨q, hq, hpos⟩ := hrun
  exact ⟨q, hq, hpos, remove_wait_never_empty (Trace.of_foldlM (fun _ _ _ => Queue.sparing_step) hq)⟩

/-- **The hole.** The second item is pushed on the stack after the remover has looked there, and the first one
is cleaned away before it looks into the list: it is told that the queue is empty, with an item queued. -/
theorem remove_wait_finds_empty : ¬∀ (c : Config) (depth : ℕ) (ls : List (Fin 3 × Choice)) (q : Queue (Fin 3)),
    Trace (Step c) (created depth) ls q → ∀ t, q.pos t ≠ .giveBack := by
  intro h
  have hrun : ∃ q, cleanTaken.foldlM (Queue.step ⟨true, 1⟩) (created 8) = some q ∧ q.pos 1 = .giveBack ∧
      q.shared.stack = [216] := ⟨_, rfl, rfl, rfl⟩
  obtain ⟨q, hq, hpos, -⟩ := hrun
  exact h _ _ _ q (Trace.of_foldlM (fun _ _ _ h => h) hq) 1 hpos

end LibShr.Tokens
