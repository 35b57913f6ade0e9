import LibShr.Refine.Add
import LibShr.Refine.Clean

/-!
# The calls of the interface

Each call of the library does what `Queue.step` says, when nobody else is in a call: whatever part of
the object the caller has mapped, it returns what the abstract queue answers.

| here | there |
| --- | --- |
| `Call.run`      | the public functions of `shared_q.c`, by the abstract call |
| `Reply`         | what they return |
| `Call.Valid`    | what a caller promises: readable arguments, at most 2^30 slots for an item |
| `Caller`        | a process: its handle, its mapping, and what the system answers it |
-/

namespace LibShr

open Prog

/-- What a call returns; for a removal with the caller's buffer. -/
inductive Reply
  | status (status : Status)
  | item (item : SqItem) (buffer : UserBuffer)
  | event (event : Event)
  | number (n : ℤ)
  | flag (b : Bool)
deriving DecidableEq

/-- The function behind a call; `pid` is what `getpid` returns. -/
def Call.run (q : Option ShrQ) (pid : ℤ) : Call → M Reply
  | .add .poll value length => .status <$> shrQAdd q value length
  | .add .wait value length => .status <$> shrQAddWait q value length
  | .add (.timed t) value length => .status <$> shrQAddTimedwait q value length t
  | .addv .poll vector => .status <$> shrQAddv q vector
  | .addv .wait vector => .status <$> shrQAddvWait q vector
  | .addv (.timed t) vector => .status <$> shrQAddvTimedwait q vector t
  | .remove .poll u => (fun r => .item r.1 r.2) <$> shrQRemove q u
  | .remove .wait u => (fun r => .item r.1 r.2) <$> shrQRemoveWait q u
  | .remove (.timed t) u => (fun r => .item r.1 r.2) <$> shrQRemoveTimedwait q u t
  | .event => .event <$> shrQEvent q
  | .clean t => .status <$> shrQClean q t
  | .count => .number <$> shrQCount q
  | .buffer => .number <$> shrQBuffer q
  | .level n => .status <$> shrQLevel q n
  | .timelimit s n => .status <$> shrQTimelimit q s n
  | .targetDelay s n => .status <$> shrQTargetDelay q s n
  | .discard b => .status <$> shrQDiscard q b
  | .limitLifo b => .status <$> shrQLimitLifo q b
  | .subscribe e => .status <$> shrQSubscribe q e
  | .unsubscribe e => .status <$> shrQUnsubscribe q e
  | .isSubscribed e => .flag <$> shrQIsSubscribed q e
  | .prod => .status <$> shrQProd q
  | .monitor s => .status <$> shrQMonitor q pid s
  | .listen s => .status <$> shrQListen q pid s
  | .call s => .status <$> shrQCall q pid s

/-- A type is an `int` or an `unsigned int`, as the compiler has it for `sh_type_e`. -/
def IntRange (x : ℤ) : Prop := -2 ^ 31 ≤ x ∧ x < 2 ^ 32

/-- A vector that `shr_q_addv` may read. -/
def VectorOk : List SqVec → Prop
  | [v] => 0 ≤ v.len ∧ IntRange v.type ∧ (∀ b ∈ v.base, v.len ≤ b.length) ∧ 7 + slotsFor v.len.toNat ≤ 2 ^ 30
  | vs => (∀ v ∈ vs, 0 ≤ v.len ∧ IntRange v.type ∧ v.Readable) ∧ 7 + vectorSlots vs ≤ 2 ^ 30

/-- What the caller promises: what is to be copied can be read, and an item needs at most 2^30 slots. -/
def Call.Valid : Call → Prop
  | .add _ value length => ∀ v ∈ value, length ≤ v.length ∧ 7 + slotsFor length.toNat ≤ 2 ^ 30
  | .addv _ vector => ∀ vs ∈ vector, VectorOk vs
  | _ => True

/-- What the abstract queue answers is what the call returns. -/
def Answer.Matches : Answer → Reply → Prop
  | .status s, .status s' => s' = s
  | .item it u, .item i u' => i.Shows it .ok ∧ u' = u
  | .noItem s u, .item i u' => i = SqItem.ofStatus s ∧ u' = u
  | .event e, .event e' => e' = e
  | .number n, .number n' => n' = n
  | .flag b, .flag b' => b' = b
  | _, _ => False

/-- A process that makes a call: its handle and pid, what it has mapped of the object, the number of
its threads inside the library, and the clock readings it will get. -/
structure Caller where
  q : Option ShrQ
  pid : ℤ
  ext : Mapping
  accessors : ℤ
  clock : ℕ → Timespec

/-- Its mapping is an earlier size of the object, and no call to the system fails. -/
structure Caller.Ok (c : Caller) (w : World) : Prop where
  cur_mod : c.ext.cur % 512 = 0
  cur_pos : 512 ≤ c.ext.cur
  cur_le : c.ext.cur ≤ w.mem SIZE
  map_ok : ∀ n s, c.ext.map n s = .ok
  trunc_ok : ∀ n, c.ext.trunc n = true

/-- The object as the caller sees it. -/
def Caller.enter (c : Caller) (w : World) : World :=
  { w with ext := { c.ext with length := w.ext.length }, accessors := c.accessors, clock := c.clock, malloc := fun _ => true }

/-- What a call does: the abstract queue makes the step, and the reply is its answer. -/
def Does (q : Option ShrQ) (Q : Queue) (call : Call) (r : Reply) (w' : World) : Prop :=
  ∃ a, Q.step q call = some a ∧ a.1.Matches r ∧ ∃ H', Sim w' H' a.2

/-- What a call does to the heap: only an add function that refuses its arguments may lose a block. -/
def Accounted (c : Call) (r : Reply) (H H' : Heap) : Prop :=
  match c with
  | .add .. | .addv .. => r ≠ .status .errArg → Retains H H'
  | .remove .. => ∃ l, Took l H H'
  | _ => Retains H H'

/-- The abstract queue makes the step, and the heap is settled. -/
def Accounts (H : Heap) (q : Option ShrQ) (Q : Queue) (call : Call) (r : Reply) (w' : World) : Prop :=
  ∃ a, Q.step q call = some a ∧ a.1.Matches r ∧ ∃ H', Sim w' H' a.2 ∧ Accounted call r H H'

/-- The same, and the notes tell which events were raised. -/
def AccountsTold (es : List Event) (H : Heap) (q : Option ShrQ) (Q : Queue) (call : Call) (r : Reply) (v : World × List EventNote) : Prop :=
  ∃ a, Q.step q call = some a ∧ a.1.Matches r ∧ Tells es a.2 v.2 ∧ ∃ H', Sim v.1 H' a.2 ∧ Accounted call r H H'

/-- The argument tests the add functions share. -/
def addFrame (q : Option ShrQ) (gate : Gate) (ok : Bool) (enqueue : M Status) : M Status :=
  match q with
  | none => pure .errArg
  | some q =>
    if gate = .timed none ∨ ok = false then pure .errArg
    else if q.mode.canWrite then addThrough (enqGate gate) enqueue else pure .errState

/-- The argument tests the remove functions share. -/
def removeFrame (q : Option ShrQ) (gate : Gate) (buffer : Option UserBuffer) : M (SqItem × UserBuffer) :=
  match q, buffer with
  | some q, some u =>
    if gate = .timed none ∨ u.present = true ∧ u.size ≤ 0 then pure (SqItem.ofStatus .errArg, u)
    else if q.mode.canRead then removeThrough (deqGate gate) u else pure (SqItem.ofStatus .errState, u)
  | _, _ => pure (SqItem.ofStatus .errArg, buffer.getD ⟨false, 0⟩)

/-- `addFrame`, with the answers of `add_event` noted. -/
def Noted.addFrame (q : Option ShrQ) (gate : Gate) (ok : Bool) (enqueue : NotedM Status) : NotedM Status :=
  match q with
  | none => pure .errArg
  | some q =>
    if gate = .timed none ∨ ok = false then pure .errArg
    else if q.mode.canWrite then Noted.addThrough (enqGate gate) enqueue else pure .errState

/-- `removeFrame`, with the answers of `add_event` noted. -/
def Noted.removeFrame (q : Option ShrQ) (gate : Gate) (buffer : Option UserBuffer) : NotedM (SqItem × UserBuffer) :=
  match q, buffer with
  | some q, some u =>
    if gate = .timed none ∨ u.present = true ∧ u.size ≤ 0 then pure (SqItem.ofStatus .errArg, u)
    else if q.mode.canRead then Noted.removeThrough (deqGate gate) u else pure (SqItem.ofStatus .errState, u)
  | _, _ => pure (SqItem.ofStatus .errArg, buffer.getD ⟨false, 0⟩)

/-- The function behind a call, with the answers of `add_event` noted. Only the add and the remove functions come to it. -/
def Call.noted (q : Option ShrQ) (pid : ℤ) : Call → NotedM Reply
  | .add g value n => Reply.status <$> Noted.addFrame q g (value.isSome && decide (0 < n)) (Noted.enq value n SH_STRM_T)
  | .addv g vector => Reply.status <$> Noted.addFrame q g (vector.any fun vs => vs ≠ []) (Noted.enqVector (vector.getD []))
  | .remove g u => (fun r => Reply.item r.1 r.2) <$> Noted.removeFrame q g u
  | c => plain (c.run q pid)

section
variable {q : Option ShrQ} {pid : ℤ} {g : Gate}

@[simp] theorem erase_addFrame (ok : Bool) (p : NotedM Status) : (Noted.addFrame q g ok p).erase = addFrame q g ok p.erase := by
  cases q with
  | none => rfl
  | some q => simp only [Noted.addFrame, addFrame, erase_ite, erase_pure, erase_addThrough]

@[simp] theorem erase_removeFrame (buffer : Option UserBuffer) : (Noted.removeFrame q g buffer).erase = removeFrame q g buffer := by
  cases q with
  | none => cases buffer <;> rfl
  | some q =>
    cases buffer with
    | none => rfl
    | some u => simp only [Noted.removeFrame, removeFrame, erase_ite, erase_pure, erase_removeThrough]

theorem run_add (value : Option (List UInt8)) (n : ℤ) : Call.run q pid (.add g value n) =
    Reply.status <$> addFrame q g (value.isSome && decide (0 < n)) (enq value n SH_STRM_T) := by
  have hok : (value.isSome && decide (0 < n)) = false ↔ value = none ∨ n ≤ 0 := by
    cases value <;> simp
  cases q with
  | none => rcases g with - | - | _ | t <;> rfl
  | some q =>
    rcases g with - | - | _ | t
    · cases hm : q.mode.canWrite <;> simp only [Call.run, shrQAdd, addFrame, enqGate, hm, hok, reduceCtorEq, false_or] <;> rfl
    · cases hm : q.mode.canWrite <;> simp only [Call.run, shrQAddWait, addFrame, enqGate, hm, hok, reduceCtorEq, false_or] <;> rfl
    · simp only [Call.run, shrQAddTimedwait, addFrame, true_or, if_true]
    · cases hm : q.mode.canWrite <;>
        simp only [Call.run, shrQAddTimedwait, addFrame, enqGate, hm, hok, reduceCtorEq, false_or, Gate.timed.injEq] <;> rfl

theorem run_addv (vector : Option (List SqVec)) : Call.run q pid (.addv g vector) =
    Reply.status <$> addFrame q g (vector.any fun vs => vs ≠ []) (enqVector (vector.getD [])) := by
  cases q with
  | none => cases vector <;> rcases g with - | - | _ | t <;> rfl
  | some q =>
    cases vector with
    | none => rcases g with - | - | _ | t <;> rfl
    | some vs =>
      have hok : (Option.any (fun vs => decide (vs ≠ [])) (some vs)) = false ↔ vs.length < 1 := by
        cases vs <;> simp
      rcases g with - | - | _ | t
      · cases hm : q.mode.canWrite <;> simp only [Call.run, shrQAddv, addFrame, enqGate, hm, hok, reduceCtorEq, false_or] <;> rfl
      · cases hm : q.mode.canWrite <;> simp only [Call.run, shrQAddvWait, addFrame, enqGate, hm, hok, reduceCtorEq, false_or] <;> rfl
      · simp only [Call.run, shrQAddvTimedwait, addFrame, true_or, if_true]
      · cases hm : q.mode.canWrite <;>
          simp only [Call.run, shrQAddvTimedwait, addFrame, enqGate, hm, hok, reduceCtorEq, false_or, Gate.timed.injEq] <;> rfl

theorem run_remove (buffer : Option UserBuffer) : Call.run q pid (.remove g buffer) =
    (fun r => Reply.item r.1 r.2) <$> removeFrame q g buffer := by
  cases q with
  | none => cases buffer <;> rcases g with - | - | _ | t <;> rfl
  | some q =>
    cases buffer with
    | none => rcases g with - | - | _ | t <;> rfl
    | some u =>
      rcases g with - | - | _ | t
      · cases hm : q.mode.canRead <;> simp only [Call.run, shrQRemove, removeWith, removeFrame, deqGate, hm, reduceCtorEq, false_or] <;> rfl
      · cases hm : q.mode.canRead <;> simp only [Call.run, shrQRemoveWait, removeWith, removeFrame, deqGate, hm, reduceCtorEq, false_or] <;> rfl
      · simp only [Call.run, shrQRemoveTimedwait, removeFrame, true_or, if_true]
        rfl
      · cases hm : q.mode.canRead <;>
          simp only [Call.run, shrQRemoveTimedwait, removeWith, removeFrame, deqGate, hm, reduceCtorEq, false_or, Gate.timed.injEq] <;> rfl

/-- **Without the notes it is the function behind the call.** -/
theorem Call.erase_noted (c : Call) : (c.noted q pid).erase = c.run q pid := by
  cases c with
  | add g value n => rw [run_add, Call.noted, erase_map, erase_addFrame, erase_enq]
  | addv g vector => rw [run_addv, Call.noted, erase_map, erase_addFrame, erase_enqVector]
  | remove g u => rw [run_remove, Call.noted, erase_map, erase_removeFrame]
  | _ => exact erase_plain _

namespace Sim

variable {tot : Prop} {w w' : World} {H H' : Heap} {Q Q' : Queue} {a : ℤ} {es : List Event} {ns : List EventNote}

/-! ## The frames -/

theorem addFrame (hS : Sim w H Q) (ht : Tells es Q ns) {ok : Bool} {p : NotedM Status} {f : Queue → Status × Queue}
    (hsome : tot → (Q.addCall q g ok f).isSome)
    (hp : ok = true → ∀ w H Q ns, Sim w H Q → Tells es Q ns → NotedWp tot p (fun st v => st = (f Q).1 ∧ Tells es (f Q).2 v.2 ∧
      ∃ H', Sim v.1 H' (f Q).2 ∧ (st ≠ .errArg → Retains H H')) (w, ns)) :
    NotedWp tot (Noted.addFrame q g ok p) (fun st v => ∃ a, Q.addCall q g ok f = some a ∧ a.1.Matches (.status st) ∧ Tells es a.2 v.2 ∧
      ∃ H', Sim v.1 H' a.2 ∧ (st ≠ .errArg → Retains H H')) (w, ns) := by
  cases q with
  | none => exact wp_pure.2 ⟨_, rfl, rfl, ht, H, hS, fun _ => .refl⟩
  | some q =>
    rw [Noted.addFrame, Queue.addCall]
    rw [Queue.addCall] at hsome
    by_cases hbad : g = .timed none ∨ ok = false
    · rw [if_pos hbad]
      exact wp_pure.2 ⟨_, if_pos hbad, rfl, ht, H, hS, fun _ => .refl⟩
    simp only [hbad, if_false] at hsome ⊢
    obtain ⟨hg, hok⟩ := not_or.1 hbad
    by_cases hm : q.mode.canWrite = true
    · simp only [hm, if_true] at hsome ⊢
      refine wp_mono ?_ (hS.addThrough ht hg (by simpa using hsome) (hp (by simpa using hok)))
      rintro st v ⟨r, hr, rfl, h⟩
      rw [hr]
      exact ⟨_, rfl, rfl, h⟩
    · simp only [hm, Bool.false_eq_true, if_false]
      exact wp_pure.2 ⟨_, rfl, rfl, ht, H, hS, fun _ => .refl⟩

theorem removeFrame (hS : Sim w H Q) (ht : Tells es Q ns) {u : Option UserBuffer} (hsome : tot → (Q.removeCall q g u).isSome) :
    NotedWp tot (Noted.removeFrame q g u) (fun r v => ∃ a, Q.removeCall q g u = some a ∧ a.1.Matches (.item r.1 r.2) ∧ Tells es a.2 v.2 ∧
      ∃ H' l, Sim v.1 H' a.2 ∧ Took l H H') (w, ns) := by
  cases q with
  | none => cases u <;> exact wp_pure.2 ⟨_, rfl, ⟨rfl, rfl⟩, ht, H, _, hS, Held.refl.took⟩
  | some q =>
    cases u with
    | none => exact wp_pure.2 ⟨_, rfl, ⟨rfl, rfl⟩, ht, H, _, hS, Held.refl.took⟩
    | some u =>
      rw [Noted.removeFrame, Queue.removeCall]
      rw [Queue.removeCall] at hsome
      by_cases hbad : g = .timed none ∨ u.present = true ∧ u.size ≤ 0
      · rw [if_pos hbad]
        exact wp_pure.2 ⟨_, if_pos hbad, ⟨rfl, rfl⟩, ht, H, _, hS, Held.refl.took⟩
      simp only [hbad, if_false] at hsome ⊢
      by_cases hm : q.mode.canRead = true
      · simp only [hm, if_true] at hsome ⊢
        refine wp_mono ?_ (hS.removeThrough ht (fun h => hbad (.inl h)) (by simpa using hsome))
        rintro ⟨i, u'⟩ v ⟨⟨it, x, Q'⟩, hr, ⟨hi, rfl, h⟩, ht'⟩
        rw [hr]
        cases it with
        | none => exact ⟨_, rfl, ⟨hi, rfl⟩, ht', h⟩
        | some it => exact ⟨_, rfl, ⟨hi, rfl⟩, ht', h⟩
      · simp only [hm, Bool.false_eq_true, if_false]
        exact wp_pure.2 ⟨_, rfl, ⟨rfl, rfl⟩, ht, H, _, hS, Held.refl.took⟩

theorem enqVector (hS : Sim w H Q) (ht : Tells es Q ns) {vs : List SqVec} (hv : VectorOk vs) :
    NotedWp tot (Noted.enqVector vs) (fun st v => st = (Q.enqVector vs).1 ∧ Tells es (Q.enqVector vs).2 v.2 ∧
      ∃ H', Sim v.1 H' (Q.enqVector vs).2 ∧ (st ≠ .errArg → Retains H H')) (w, ns) := by
  have hmany : ∀ vs : List SqVec, (∀ v ∈ vs, 0 ≤ v.len ∧ IntRange v.type ∧ v.Readable) ∧ 7 + vectorSlots vs ≤ 2 ^ 30 →
      NotedWp tot (Noted.enqv (some vs)) (fun st v => st = (Q.enqv vs).1 ∧ Tells es (Q.enqv vs).2 v.2 ∧ ∃ H', Sim v.1 H' (Q.enqv vs).2 ∧
        (st ≠ .errArg → Retains H H')) (w, ns) := fun vs h =>
    hS.enqv ht (fun v hv => (h.1 v hv).1) (fun v hv => (h.1 v hv).2.2) h.2 fun v hv => (h.1 v hv).2.1
  match vs, hv with
  | [], hv => exact hmany _ hv
  | [v], hv =>
    exact wp_mono (fun _ _ ⟨hst, ht', H', hS', hbal⟩ => ⟨hst, ht', H', hS', fun _ => hbal⟩) (hS.enq ht hv.2.2.1 hv.2.2.2 hv.2.1)
  | v :: v' :: vs, hv => exact hmany _ hv

/-! ## The calls that come to `add_event` -/

theorem addNoted (hS : Sim w H Q) (ht : Tells es Q ns) {value : Option (List UInt8)} {n : ℤ} (hv : (Call.add g value n).Valid)
    (hsome : tot → (Q.step q (.add g value n)).isSome) :
    NotedWp tot ((Call.add g value n).noted q pid) (fun r v => AccountsTold es H q Q (.add g value n) r v) (w, ns) := by
  rw [Call.noted, NotedWp, wp_map]
  refine wp_mono ?_ (hS.addFrame ht hsome fun hok w H Q ns hS ht => ?_)
  · rintro st v ⟨a, ha, hm, ht', H', hS', hbal⟩
    exact ⟨a, ha, hm, ht', H', hS', fun hne => hbal fun h => hne (congrArg _ h)⟩
  · have hsmall : 7 + slotsFor n.toNat ≤ 2 ^ 30 := by
      cases value with
      | none => cases hok
      | some v => exact (hv v rfl).2
    refine wp_mono ?_ (hS.enq ht (fun v h => (hv v h).1) hsmall (by decide))
    rintro st v ⟨hst, ht', H', hS', hbal⟩
    exact ⟨hst, ht', H', hS', fun _ => hbal⟩

theorem addvNoted (hS : Sim w H Q) (ht : Tells es Q ns) {vector : Option (List SqVec)} (hv : (Call.addv g vector).Valid)
    (hsome : tot → (Q.step q (.addv g vector)).isSome) :
    NotedWp tot ((Call.addv g vector).noted q pid) (fun r v => AccountsTold es H q Q (.addv g vector) r v) (w, ns) := by
  rw [Call.noted, NotedWp, wp_map]
  refine wp_mono ?_ (hS.addFrame ht hsome fun hok w H Q ns hS ht => ?_)
  · rintro st v ⟨a, ha, hm, ht', H', hS', hbal⟩
    exact ⟨a, ha, hm, ht', H', hS', fun hne => hbal fun h => hne (congrArg _ h)⟩
  · cases vector with
    | none => cases hok
    | some vs => exact hS.enqVector ht (hv vs rfl)

theorem removeNoted (hS : Sim w H Q) (ht : Tells es Q ns) {u : Option UserBuffer} (hsome : tot → (Q.step q (.remove g u)).isSome) :
    NotedWp tot ((Call.remove g u).noted q pid) (fun r v => AccountsTold es H q Q (.remove g u) r v) (w, ns) := by
  rw [Call.noted, NotedWp, wp_map]
  refine wp_mono ?_ (hS.removeFrame ht hsome)
  rintro r v ⟨a, ha, hm, ht', H', l, hS', htook⟩
  exact ⟨a, ha, hm, ht', H', hS', l, htook⟩

/-- What holds of the text with notes holds of the call. -/
theorem accounts_of_noted {c : Call} (h : NotedWp tot (c.noted q pid) (fun r v => AccountsTold es H q Q c r v) (w, ns)) :
    Wp tot (c.run q pid) (Accounts H q Q c) w := by
  have herased := wp_erase h
  rw [Call.erase_noted] at herased
  refine wp_mono ?_ herased
  rintro r w' ⟨l', a, ha, hm, -, h⟩
  exact ⟨a, ha, hm, h⟩

/-! ## Settings -/

theorem storeTimespec (hS : Sim w H Q) {s : ℤ} {t : Timespec} {h : Header} (hs : s ∈ LibShr.settings ∧ s + 1 ∈ LibShr.settings)
    (h₂ : s % 2 = 0) (hh : ∀ m, HeaderAt m Q.hdr → HeaderAt (setSlot (setSlot m s t.sec) (s + 1) t.nsec) h) :
    Wp tot (LibShr.storeTimespec s t) (fun _ w' => Leaves w H (Q.setHdr h) w') w := by
  have hcur := hS.cur
  have hlt : ∀ s ∈ LibShr.settings, 0 ≤ s ∧ s < 512 := by decide
  have := hlt s hs.1
  have := hlt _ hs.2
  rw [LibShr.storeTimespec, Wp, wp_bind]
  refine wp_current.2 ?_
  rw [wp_iterate]
  simp (disch := omega) only [loadTimespec, wp_bind, wp_load, wp_pure, wp_dwcas, Timespec.toDWORD, and_self, if_true, Sum.elim_inr]
  exact hS.setTwo hs.1 hs.2 (hh _ hS.hdr)

/-- Switching a mode or a subscription. -/
theorem switchFlag (hS : Sim w H Q) {f : ℤ} {b : Bool} : Wp tot (LibShr.switchFlag q f b) (fun r w' =>
    ∃ a, Q.handled q true (if b then Q.setFlag f else Q.clearFlag f) = some a ∧ a.1.Matches (.status r) ∧ ∃ H', Sim w' H' a.2 ∧
      Retains H H') w := by
  cases q with
  | none => exact wp_pure.2 ⟨_, rfl, rfl, H, hS, .refl⟩
  | some q =>
    simp only [LibShr.switchFlag, reduceCtorEq, if_false]
    refine hS.guarded fun w₁ hS₁ => ?_
    cases b with
    | false =>
      simp only [Bool.false_eq_true, if_false, Wp, wp_bind]
      refine wp_current.2 ?_
      refine wp_mono ?_ (hS₁.wp_clearFlag (f := f) hS₁.cur)
      rintro _ w₂ ⟨H₂, hS₂, hh₂, -⟩
      rw [← wp_bind]
      exact hS₂.unguarded fun w₃ hS₃ => ⟨_, rfl, rfl, _, hS₃, hh₂.toRetains⟩
    | true =>
      simp only [if_true, Wp, wp_bind]
      refine wp_current.2 ?_
      refine wp_mono ?_ (hS₁.wp_setFlag (f := f) hS₁.cur)
      rintro _ w₂ ⟨-, H₂, hS₂, hh₂, -⟩
      rw [← wp_bind]
      exact hS₂.unguarded fun w₃ hS₃ => ⟨_, rfl, rfl, _, hS₃, hh₂.toRetains⟩

theorem register (hS : Sim w H Q) {self signal p s : ℤ} (hp : p ∈ LibShr.settings ∧ p ∉ shown) (hs : s ∈ LibShr.settings ∧ s ∉ shown) :
    Wp tot (LibShr.register q self signal p s) (fun r w' => ∃ a, Q.handled q (0 ≤ signal) Q = some a ∧
      a.1.Matches (.status r) ∧ ∃ H', Sim w' H' a.2 ∧ Retains H H') w := by
  cases q with
  | none => exact wp_pure.2 ⟨_, rfl, rfl, H, hS, .refl⟩
  | some q =>
    by_cases hneg : signal < 0
    · have h : ¬0 ≤ signal := by omega
      simp only [LibShr.register, hneg, or_true, if_true, Queue.handled, h, decide_false, Bool.and_false, Bool.false_eq_true, if_false]
      exact wp_pure.2 ⟨_, rfl, rfl, H, hS, .refl⟩
    have h : 0 ≤ signal := by omega
    have hlt : ∀ s ∈ LibShr.settings, 0 ≤ s ∧ s < 512 := by decide
    have := hlt p hp.1
    have := hlt s hs.1
    simp only [LibShr.register, hneg, or_false, reduceCtorEq, if_false, Queue.handled, h, decide_true, Option.isSome_some,
      Bool.and_self, if_true]
    refine hS.guarded fun w₁ hS₁ => ?_
    have hcur := hS₁.cur
    simp (disch := omega) only [Wp, wp_bind, wp_current, wp_load, wp_cas, if_true]
    obtain ⟨H₂, hS₂, hh₂, hle⟩ := hS₁.setHiddenOne (v := if signal = 0 then 0 else self) hp.1 hp.2
    refine (wp_store (by omega) (by omega)).2 ?_
    obtain ⟨H₃, hS₃, hh₃, -⟩ := hS₂.setHiddenOne (v := signal) hs.1 hs.2
    rw [← wp_bind]
    exact hS₃.unguarded fun w₄ hS₄ => ⟨_, rfl, rfl, _, hS₄, hh₂.toRetains.trans hh₃.toRetains⟩

/-! ## Every call -/

/-- A call does what the abstract queue does, and settles the heap. -/
theorem callAccounts (hS : Sim w H Q) {c : Call} (hv : c.Valid) (ht : tot → (Q.step q c).isSome) :
    Wp tot (c.run q pid) (Accounts H q Q c) w := by
  have hcur := hS.cur
  cases c with
  | add g value n => exact accounts_of_noted (hS.addNoted (tells_nil Q) hv ht)
  | addv g vector => exact accounts_of_noted (hS.addvNoted (tells_nil Q) hv ht)
  | remove g u => exact accounts_of_noted (hS.removeNoted (tells_nil Q) ht)
  | event =>
    rw [Call.run, Wp, wp_map]
    cases q with
    | none => exact wp_pure.2 ⟨_, rfl, rfl, H, hS, .refl⟩
    | some q =>
      simp only [shrQEvent, reduceCtorEq, if_false]
      refine hS.guarded fun w₁ hS₁ => ?_
      have hs : w₁.sem .evnt = Q.sem .evnt := congrFun hS₁.sem _
      rw [Wp, wp_bind]
      refine wp_current.2 ?_
      rw [wp_bind]
      refine wp_semTrywait.2 ?_
      rw [hs]
      by_cases hpos : 0 < Q.sem .evnt
      · rw [if_pos hpos, wp_bind]
        have hS₂ := hS₁.takeToken .evnt
        rw [hs] at hS₂
        refine wp_mono ?_ (hS₂.takeEvent hS₂.cur)
        rintro e w₃ ⟨rfl, H₃, hS₃, hh₃⟩
        rw [wp_bind]
        refine wp_mono ?_ (Idle.releasePrevExtents w₃ H₃ _ hS₃)
        rintro _ w₄ ⟨H₄, hS₄, hh₄, -⟩
        refine hS₄.unguarded fun w₅ hS₅ => ⟨_, rfl, ?_, H₄, ?_, hh₃.toRetains.trans hh₄.toRetains⟩
        · simp only [Option.isSome_some, if_true, Queue.takeEvent, hpos]
          cases hev : Q.events <;> simp [Queue.down, hev, Answer.Matches]
        · simp only [Option.isSome_some, if_true, Queue.takeEvent, hpos]
          cases hev : Q.events <;> simpa [Queue.down, hev] using hS₅
      · rw [if_neg hpos]
        refine hS₁.unguarded fun w₂ hS₂ => ⟨_, rfl, ?_, H, ?_, .refl⟩
        · simp only [Option.isSome_some, if_true, Queue.takeEvent, hpos, if_false, Answer.Matches]
        · simpa only [Option.isSome_some, if_true, Queue.takeEvent, hpos, if_false] using hS₂
  | clean t =>
    rw [Call.run, Wp, wp_map]
    cases q with
    | none => exact wp_pure.2 ⟨_, rfl, rfl, H, hS, .refl⟩
    | some q =>
      cases t with
      | none => exact wp_pure.2 ⟨_, rfl, rfl, H, hS, .refl⟩
      | some t =>
        by_cases hm : q.mode.canRead = true
        swap
        · rw [Bool.not_eq_true] at hm
          simp only [shrQClean, hm, Bool.not_false, if_true]
          exact wp_pure.2 ⟨_, rfl, by simp [hm, Answer.Matches], H, by simpa [hm] using hS, .refl⟩
        refine wp_mono ?_ (hS.clean hm)
        rintro st w' ⟨rfl, n, H', hS', -, hbal⟩
        exact ⟨_, rfl, by simp [hm, Answer.Matches], H', by simpa [hm] using hS', hbal⟩
  | count =>
    rw [Call.run, Wp, wp_map]
    cases q with
    | none => exact wp_pure.2 ⟨_, rfl, rfl, H, hS, .refl⟩
    | some q =>
      simp only [shrQCount, reduceCtorEq, if_false]
      refine hS.guarded fun w₁ hS₁ => ?_
      have hc : w₁.mem 7 = Q.hdr.count := hS₁.hdr.count
      have := hS₁.cur
      simp (disch := omega) only [Wp, wp_bind, wp_current, COUNT, wp_load, hc]
      rw [← wp_bind]
      exact hS₁.unguarded fun w₂ hS₂ => ⟨_, rfl, rfl, _, hS₂, .refl⟩
  | buffer =>
    rw [Call.run, Wp, wp_map]
    cases q with
    | none => exact wp_pure.2 ⟨_, rfl, rfl, H, hS, .refl⟩
    | some q =>
      simp only [shrQBuffer, reduceCtorEq, if_false]
      refine hS.guarded fun w₁ hS₁ => ?_
      have hc : w₁.mem 8 = Q.hdr.buffer := hS₁.hdr.buffer
      have := hS₁.cur
      simp (disch := omega) only [Wp, wp_bind, wp_current, BUFFER, wp_load, hc]
      rw [← wp_bind]
      exact hS₁.unguarded fun w₂ hS₂ => ⟨_, rfl, rfl, _, hS₂, .refl⟩
  | level n =>
    rw [Call.run, Wp, wp_map]
    cases q with
    | none => exact wp_pure.2 ⟨_, rfl, rfl, H, hS, .refl⟩
    | some q =>
      by_cases hn : n ≤ 0
      · have h : ¬0 < n := by omega
        simp only [shrQLevel, hn, or_true, if_true]
        exact wp_pure.2 ⟨(.status .errArg, Q), by simp [Queue.step, Queue.handled, h], rfl, H, hS, .refl⟩
      · have h : 0 < n := by omega
        simp only [shrQLevel, hn, reduceCtorEq, or_false, if_false]
        refine hS.guarded fun w₁ hS₁ => ?_
        have := hS₁.cur
        simp (disch := omega) only [Wp, wp_bind, wp_current, LEVEL, wp_load, wp_cas, if_true]
        obtain ⟨H₂, hS₂, hh₂, -⟩ := hS₁.setOne (s := 144) (by decide) (hS₁.hdr.setLevel n)
        rw [← wp_bind]
        exact hS₂.unguarded fun w₃ hS₃ => ⟨(.status .ok, Q.setHdr _), by simp [Queue.step, Queue.handled, h], rfl, _, hS₃, hh₂.toRetains⟩
  | timelimit s n =>
    rw [Call.run, Wp, wp_map]
    cases q with
    | none => exact wp_pure.2 ⟨_, rfl, rfl, H, hS, .refl⟩
    | some q =>
      simp only [shrQTimelimit, reduceCtorEq, if_false]
      refine hS.guarded fun w₁ hS₁ => ?_
      rw [Wp, wp_bind]
      refine wp_mono ?_ (hS₁.storeTimespec (t := ⟨s, n⟩) (by decide) (by decide) fun m h => h.setLimit ⟨s, n⟩)
      rintro _ w₂ ⟨H₂, hS₂, hh₂, -⟩
      exact hS₂.unguarded fun w₃ hS₃ => ⟨_, rfl, rfl, _, hS₃, hh₂.toRetains⟩
  | targetDelay s n =>
    rw [Call.run, Wp, wp_map]
    cases q with
    | none => exact wp_pure.2 ⟨_, rfl, rfl, H, hS, .refl⟩
    | some q =>
      simp only [shrQTargetDelay, reduceCtorEq, if_false]
      refine hS.guarded fun w₁ hS₁ => ?_
      rw [Wp, wp_bind]
      refine wp_mono ?_ (hS₁.storeTimespec (t := ⟨s, n⟩) (by decide) (by decide) fun m h => h.setTarget ⟨s, n⟩)
      rintro _ w₂ ⟨H₂, hS₂, hh₂, -⟩
      rw [wp_bind]
      refine wp_mono ?_ (Mute.unguardQMemory w₂ hS₂.cur)
      intro _ w₃ hw₃
      refine wp_mono ?_ ((hS₂.still hw₃).switchFlag (q := some q) (f := FLAG_DISCARD_EXPIRED) (b := true))
      rintro r w₄ ⟨a, ha, hm, H₄, hS₄, hbal⟩
      exact ⟨a, ha, hm, H₄, hS₄, hh₂.toRetains.trans hbal⟩
  | discard b =>
    rw [Call.run, Wp, wp_map]
    exact hS.switchFlag
  | limitLifo b =>
    rw [Call.run, Wp, wp_map]
    exact hS.switchFlag
  | subscribe e =>
    rw [Call.run, Wp, wp_map]
    exact hS.switchFlag (b := true)
  | unsubscribe e =>
    rw [Call.run, Wp, wp_map]
    exact hS.switchFlag (b := false)
  | isSubscribed e =>
    rw [Call.run, Wp, wp_map]
    by_cases hbad : q = none ∨ e = .none
    · simp only [shrQIsSubscribed, hbad, if_true]
      refine wp_pure.2 ⟨_, rfl, ?_, H, hS, .refl⟩
      rcases hbad with rfl | rfl <;> simp [Answer.Matches]
    · simp only [shrQIsSubscribed, hbad, if_false]
      obtain ⟨hq, he⟩ := not_or.1 hbad
      refine hS.guarded fun w₁ hS₁ => ?_
      have hf : w₁.mem 9 = Q.hdr.flags := hS₁.hdr.flags
      have := hS₁.cur
      simp (disch := omega) only [Wp, wp_bind, wp_current, eventDisabled, FLAGS, wp_load, wp_pure, hf]
      refine wp_mono ?_ (Mute.unguardQMemory w₁ hS₁.cur)
      intro _ w₂ hw₂
      refine ⟨_, rfl, ?_, H, hS₁.still hw₂, .refl⟩
      simp [Answer.Matches, Option.isSome_iff_ne_none.2 hq, he, Queue.subscribed]
  | prod =>
    rw [Call.run, Wp, wp_map]
    cases q with
    | none => exact wp_pure.2 ⟨_, rfl, rfl, H, hS, .refl⟩
    | some q =>
      simp only [shrQProd, reduceCtorEq, if_false]
      refine hS.guarded fun w₁ hS₁ => ?_
      rw [Wp, wp_bind]
      refine wp_mono ?_ (hS₁.releaseGate .deq)
      rintro st w₂ ⟨rfl, hS₂, -⟩
      exact hS₂.unguarded fun w₃ hS₃ => ⟨_, rfl, rfl, _, hS₃, .refl⟩
  | monitor s =>
    rw [Call.run, Wp, wp_map]
    exact hS.register (by decide) (by decide)
  | listen s =>
    rw [Call.run, Wp, wp_map]
    exact hS.register (by decide) (by decide)
  | call s =>
    rw [Call.run, Wp, wp_map]
    exact hS.register (by decide) (by decide)

/-- **A call does what the abstract queue does.** -/
theorem call (hS : Sim w H Q) {c : Call} (hv : c.Valid) (ht : tot → (Q.step q c).isSome) :
    Wp tot (c.run q pid) (Does q Q c) w := by
  refine wp_mono ?_ (hS.callAccounts hv ht)
  rintro r w' ⟨a, ha, hm, H', hS', -⟩
  exact ⟨a, ha, hm, H', hS'⟩

/-- Entering the library: any earlier size of the object may be mapped. -/
theorem enter (hS : Sim w H Q) {c : Caller} (hc : c.Ok w) : Sim (c.enter w) H { Q with clock := c.clock } where
  inv :=
    { geo :=
        { hS.inv.geo with
          cur_mod := hc.cur_mod
          cur_pos := hc.cur_pos
          cur_le := hc.cur_le
          map_ok := fun _ => hc.map_ok
          trunc_ok := fun _ => hc.trunc_ok
          map_lim := fun _ _ _ => .inl trivial
          cur_lim := .inl trivial }
      wf := hS.inv.wf
      rep := hS.inv.rep
      room := hS.inv.room
      small := hS.inv.small }
  malloc := fun _ => rfl
  clock := rfl
  sem := hS.sem
  ids := hS.ids
  hdr := hS.hdr
  fifo := hS.fifo
  stack := hS.stack
  events := hS.events
  free := hS.free
  zero := hS.zero

end Sim

end

end LibShr
