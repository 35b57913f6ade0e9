import LibShr.Conc.Conservation

/-!
# Many threads on one queue: coming to rest

The threads of `Conservation`, once no new call is made. But for attempts that fail, every call then ends or waits at a
blocking gate, however the threads take turns, and those that wait all wait for the same thing: producers for room in a queue
that is full, or consumers for an item in one that is empty.

An attempt to link or to unlink an item may fail, and is made again; whether it must succeed in the end is not said
here. `add_end` may fail for ever where a node of its list carries the stamp 0, and in `lifo_remove` the assertion `slot > 0` of
`insure_in_range` fails when the stack became empty after `deq` looked at it. The runs are those in which no assertion fails.

The bound on the steps is a sum. A thread adds to it the steps it needs at most until it has unlinked an item or is
done, and each item that is linked or may yet be, the steps that its removal brings about: the round that the remover
begins, and for each other remover, which may find the list empty when it compares again, one look more.
-/

namespace LibShr.Conservation

open Tokens (Config)

/-- A thread in a call. -/
def Pos.busy : Pos → ℕ
  | .idle => 0
  | _ => 1

/-- A producer that may still link its vector. -/
def Pos.linking : Pos → ℕ
  | .enqGate _ _ | .enqueue _ | .choose _ | .link _ _ => 1
  | _ => 0

/-- The steps a thread makes at most until it has unlinked an item, waits or is done, if it is not too slow for another
and, unless `empty`, the list does not become empty. -/
def Pos.ahead (empty : Bool) : Pos → ℕ
  | .idle => 0
  | .enqGate _ _ => 6
  | .enqueue _ => 5
  | .choose _ => 4
  | .link _ _ => 3
  | .countUp => 2
  | .postDeq | .enqBack => 1
  | .deqGate _ => 5
  | .look _ => 4
  | .compare _ => 3
  | .recheck _ => if empty then 5 else 2
  | .unlink _ | .pop _ => 1
  | .countDown _ => 8
  | .judge _ => 7
  | .postEnq _ _ => 6
  | .deqBack => 1
  | .tryGate => 4
  | .cleanCompare => 3
  | .cleanUnlink => 2
  | .cleanCount => 6
  | .cleanPost => 5
  | .cleanBack => 1

theorem Pos.ahead_le (empty : Bool) (p : Pos) : p.ahead empty ≤ 8 := by
  cases p <;> cases empty <;> simp [ahead]

theorem Pos.ahead_filled (empty : Bool) (p : Pos) : p.ahead false ≤ p.ahead empty := by
  cases p <;> cases empty <;> simp [ahead]

theorem Pos.ahead_emptied (empty : Bool) (p : Pos) : p.ahead true ≤ p.ahead empty + 3 * p.busy := by
  cases p <;> cases empty <;> simp [ahead, busy]

def Choice.late : Choice → Bool
  | .retry => true
  | _ => false

/-- No new call is made. -/
def Choice.Going (ch : Choice) : Prop := ∀ call, ch ≠ .call call

/-! ## One thread -/

section
variable {c : Config} {q q' : Shared} {p p' : Pos} {ch : Choice}

theorem Pos.step_busy (h : p.step c q ch = some (q', p')) (hch : ch.Going) : p'.busy ≤ p.busy := by
  revert h
  fun_cases Pos.step c q p ch
  case case1 call => exact absurd rfl (hch call)
  all_goals
    intro h
    simp only [Option.some.injEq, Prod.mk.injEq, reduceCtorEq] at h
  all_goals try obtain ⟨rfl, rfl⟩ := h
  all_goals simp only [Pos.busy]
  all_goals grind

/-- A step takes an item off the queue, or it brings the thread nearer to that or to the end. Only a producer that
links its vector adds an item. -/
theorem Pos.step_ahead (h : p.step c q ch = some (q', p')) (hch : ch.Going) :
    q'.items + 1 = q.items ∧ p'.linking = p.linking ∨
      q'.items + p'.linking ≤ q.items + p.linking ∧ (q'.fifo = [] → q.fifo = []) ∧
        p'.ahead q.fifo.isEmpty + 1 ≤ p.ahead q.fifo.isEmpty + 4 * ch.late.toNat := by
  revert h
  fun_cases Pos.step c q p ch
  case case1 call => exact absurd rfl (hch call)
  all_goals
    intro h
    simp only [Option.some.injEq, Prod.mk.injEq, reduceCtorEq] at h
  all_goals try obtain ⟨rfl, rfl⟩ := h
  all_goals simp only [Pos.linking, Pos.ahead, Shared.items, Choice.late]
  all_goals grind

/-- A thread that cannot move waits at a blocking gate for a token. -/
theorem Pos.waits (h : ∀ ch, ch.Going → p.step c q ch = none) :
    p = .idle ∨ (∃ vector, p = .enqGate .wait vector) ∧ q.enq = 0 ∨ p = .deqGate .wait ∧ q.deq = 0 := by
  have hgo := h .go (by rintro call ⟨⟩)
  have hretry := h .retry (by rintro call ⟨⟩)
  have htimeout := h .timeout (by rintro call ⟨⟩)
  have hfresh := h .fresh (by rintro call ⟨⟩)
  cases p with
  | idle => exact .inl rfl
  | enqGate gate vector =>
    simp only [Pos.step] at hgo
    split at hgo
    · cases hgo
    · next hno =>
      cases gate with
      | wait => exact .inr (.inl ⟨⟨vector, rfl⟩, Nat.eq_zero_of_not_pos hno⟩)
      | trywait => cases hgo
      | timedwait timeout => cases htimeout
  | deqGate gate =>
    simp only [Pos.step] at hgo
    split at hgo
    · cases hgo
    · next hno =>
      cases gate with
      | wait => exact .inr (.inr ⟨rfl, Nat.eq_zero_of_not_pos hno⟩)
      | trywait => cases hgo
      | timedwait timeout => cases htimeout
  | unlink | pop | cleanUnlink => cases hretry
  | judge => cases hfresh
  | tryGate =>
    simp only [Pos.step] at hgo
    split at hgo <;> cases hgo
  | _ => cases hgo

end

/-! ## All threads -/

section
variable {T : Type} [DecidableEq T] {c : Config} {depth n : ℕ} {q q' : Queue T} {l : T × Choice} {ls : List (T × Choice)}

/-- The thread tries to link its item and fails: the `DWCAS` in the loop of `add_end` or `lifo_add`. -/
def Failing (q : Queue T) (l : T × Choice) : Prop := l.2 = .retry ∧ ∃ vector lifo, q.pos l.1 = .link vector lifo

/-- A step of a thread in a call, or an attempt to link that changes nothing. -/
def GoingStep (c : Config) (q : Queue T) (l : T × Choice) (q' : Queue T) : Prop := l.2.Going ∧ (Step c q l q' ∨ Failing q l ∧ q' = q)

def Resting (c : Config) (q : Queue T) : Prop := ∀ l q', ¬GoingStep c q l q'

/-- The steps that are ahead of all, where no more than `busy` threads are in calls. -/
def Ahead (busy : ℕ) (q : Queue T) (n : ℕ) : Prop :=
  ∃ k linking ahead, Census Pos.busy q.pos k ∧ k ≤ busy ∧ Census Pos.linking q.pos linking ∧
    Census (Pos.ahead q.shared.fifo.isEmpty) q.pos ahead ∧ n = (3 * busy + 9) * (q.shared.items + linking) + ahead

/-- **Every step uses up** some of what is ahead, unless it is an attempt that fails. -/
theorem Ahead.step {busy : ℕ} (hA : Ahead busy q n) (hs : GoingStep c q l q') :
    ∃ n', Ahead busy q' n' ∧ n' + 1 ≤ n + 4 * l.2.late.toNat := by
  obtain ⟨t, ch⟩ := l
  obtain ⟨hch, hs | ⟨⟨hlate, -⟩, rfl⟩⟩ := hs
  swap
  · have hlate : ch = .retry := hlate
    subst hlate
    exact ⟨n, hA, by simp [Choice.late]⟩
  obtain ⟨⟨s', p'⟩, hp, rfl⟩ := Option.map_eq_some_iff.1 hs
  dsimp only at hch hp ⊢
  obtain ⟨k, linking, ahead, hk, hle, hlinking, hahead, rfl⟩ := hA
  have hbusy := Pos.step_busy hp hch
  have hkt := hk.le_of_place t
  have hlt := hlinking.le_of_place t
  have hat := hahead.le_of_place t
  have hk' : Census Pos.busy (Function.update q.pos t p') (k + p'.busy - (q.pos t).busy) := hk.update t p' (by omega)
  have hlinking' : Census Pos.linking (Function.update q.pos t p') (linking + p'.linking - (q.pos t).linking) :=
    hlinking.update t p' (by omega)
  have hahead' : Census (Pos.ahead q.shared.fifo.isEmpty) (Function.update q.pos t p')
      (ahead + p'.ahead q.shared.fifo.isEmpty - (q.pos t).ahead q.shared.fifo.isEmpty) := hahead.update t p' (by omega)
  rcases Pos.step_ahead hp hch with ⟨hitems, hsame⟩ | ⟨hitems, hempty, hless⟩
  · -- an item less pays for what the others may have to do again
    obtain ⟨m, hm, hmle⟩ := hahead'.exists_le_add hk' (v := Pos.ahead s'.fifo.isEmpty) 3 fun p => by
      have := p.ahead_emptied q.shared.fifo.isEmpty
      cases s'.fifo.isEmpty
      · exact (p.ahead_filled true).trans this
      · exact this
    refine ⟨_, ⟨_, _, m, hk', by omega, hlinking', hm, rfl⟩, ?_⟩
    have := Pos.ahead_le q.shared.fifo.isEmpty p'
    have hone : (3 * busy + 9) * (q.shared.items + linking) = (3 * busy + 9) * (s'.items + linking) + (3 * busy + 9) := by
      rw [← hitems]
      ring
    simp only at hone ⊢
    rw [hone, show linking + p'.linking - (q.pos t).linking = linking by omega]
    omega
  · have hfilled : ∀ p : Pos, p.ahead s'.fifo.isEmpty ≤ p.ahead q.shared.fifo.isEmpty := fun p => by
      cases he : s'.fifo.isEmpty
      · exact p.ahead_filled _
      · rw [List.isEmpty_iff.2 (hempty (List.isEmpty_iff.1 he))]
    obtain ⟨m, hm⟩ := hahead'.exists_of_le hfilled
    have hmle := hm.mono hahead' hfilled
    refine ⟨_, ⟨_, _, m, hk', by omega, hlinking', hm, rfl⟩, ?_⟩
    have hmul := Nat.mul_le_mul_left (3 * busy + 9) (show s'.items + (linking + p'.linking - (q.pos t).linking) ≤ q.shared.items + linking by omega)
    simp only at hmul ⊢
    omega

/-- In every run only finitely many threads are in calls. -/
theorem exists_ahead (h : Trace (Step c) (created depth) ls q) : ∃ busy n, Ahead busy q n := by
  have hbusy : ∃ k, Census Pos.busy q.pos k := by
    refine h.invariant (fun q => ∃ k, Census Pos.busy q.pos k) ?_ ⟨0, .zero fun _ => rfl⟩
    rintro q ⟨t, ch⟩ q' ⟨k, hk⟩ hs
    obtain ⟨⟨s', p'⟩, -, rfl⟩ := Option.map_eq_some_iff.1 hs
    have hkt := hk.le_of_place t
    exact ⟨k + p'.busy - (q.pos t).busy, hk.update t p' (by omega)⟩
  obtain ⟨k, hk⟩ := hbusy
  obtain ⟨linking, hlinking⟩ := hk.exists_of_le (w := Pos.linking) fun p => by
    cases p <;> simp [Pos.linking, Pos.busy]
  obtain ⟨ahead, hahead, -⟩ := hk.exists_le_add hk (v := Pos.ahead q.shared.fifo.isEmpty) 8 fun p => by
    cases p <;> cases q.shared.fifo.isEmpty <;> simp [Pos.ahead, Pos.busy]
  exact ⟨k, _, k, linking, ahead, hk, le_rfl, hlinking, hahead, rfl⟩

/-- Who cannot move waits for a token. -/
theorem Resting.waits (hR : Resting c q) (t : T) : q.pos t = .idle ∨
    (∃ vector, q.pos t = .enqGate .wait vector) ∧ q.shared.enq = 0 ∨ q.pos t = .deqGate .wait ∧ q.shared.deq = 0 := by
  refine Pos.waits (c := c) fun ch hch => ?_
  cases hs : (q.pos t).step c q.shared ch with
  | none => rfl
  | some r => exact absurd ⟨hch, .inl (congrArg (Option.map _) hs)⟩ (hR (t, ch) ⟨r.1, Function.update q.pos t r.2⟩)

/-- At rest nobody holds a token. -/
theorem Resting.settled (hR : Resting c q) (hI : Inv depth q) : q.shared.enq + q.shared.items = depth ∧ q.shared.deq = q.shared.items ∧
    q.shared.count = q.shared.items := by
  have hzero : ∀ {w : Pos → ℕ} {n : ℕ}, w .idle = 0 → (∀ vector, w (.enqGate .wait vector) = 0) → w (.deqGate .wait) = 0 →
      Census w q.pos n → n = 0 := by
    intro w n hidle henq hdeq hn
    refine hn.unique (.zero fun t => ?_)
    rcases hR.waits t with h | ⟨⟨vector, h⟩, -⟩ | ⟨h, -⟩
    · rw [h, hidle]
    · rw [h, henq]
    · rw [h, hdeq]
  obtain ⟨⟨held, owed, hheld, howed, hroom⟩, ⟨n, m, hn, hm, hcount⟩, ⟨k, hk, htok⟩⟩ := hI
  have hheld0 := hzero rfl (fun _ => rfl) rfl hheld
  have howed0 := hzero rfl (fun _ => rfl) rfl howed
  have hn0 := hzero rfl (fun _ => rfl) rfl hn
  have hm0 := hzero rfl (fun _ => rfl) rfl hm
  have hk0 := hzero rfl (fun _ => rfl) rfl hk
  omega

/-- **No deadlock.** From any state of any run on: once no new call is made, the number of steps is bounded, but for the
attempts to link or to unlink an item that fail. When no thread can move any more, either all that have not
returned are producers that wait for room, and the queue is full, or all are consumers that wait for an item,
and the queue is empty. -/
theorem comes_to_rest (hdepth : 0 < depth) (h : Trace (Step c) (created depth) ls q) :
    ∃ n, ∀ ls' q', Trace (GoingStep c) q ls' q' → ls'.length ≤ n + (ls'.map fun l => 4 * l.2.late.toNat).sum ∧
      (Resting c q' →
        (∀ t, q'.pos t = .idle ∨ (∃ vector, q'.pos t = .enqGate .wait vector) ∧ q'.shared.items = depth) ∨
        (∀ t, q'.pos t = .idle ∨ q'.pos t = .deqGate .wait ∧ q'.shared.items = 0)) := by
  obtain ⟨busy, n, hA⟩ := exists_ahead h
  refine ⟨n, fun ls' q' h' => ⟨h'.length_le (Ahead busy) (fun _ _ _ _ hA hs => hA.step hs) hA, fun hR => ?_⟩⟩
  have hI : Inv depth q := h.invariant (Inv depth) (fun _ _ _ hI hs => hI.step hs) (.created depth)
  have hI : Inv depth q' := by
    refine h'.invariant (Inv depth) (fun r l r' hI hs => ?_) hI
    rcases hs.2 with hs | ⟨-, rfl⟩
    · exact hI.step hs
    · exact hI
  obtain ⟨hroom, hdeq, -⟩ := hR.settled hI
  rcases Nat.eq_zero_or_pos q'.shared.items with hnone | hsome
  · refine .inr fun t => ?_
    rcases hR.waits t with ht | ⟨-, henq⟩ | ⟨ht, -⟩
    · exact .inl ht
    · omega
    · exact .inr ⟨ht, hnone⟩
  · refine .inl fun t => ?_
    rcases hR.waits t with ht | ⟨ht, henq⟩ | ⟨-, hempty⟩
    · exact .inl ht
    · exact .inr ⟨ht, by omega⟩
    · omega

end

/-! ## Two producers -/

def Queue.going (c : Config) (q : Queue ℕ) (l : ℕ × Choice) : Option (Queue ℕ) :=
  match l.2, q.pos l.1 with
  | .call _, _ => none
  | .retry, .link _ _ => some q
  | _, _ => q.step c l

theorem Queue.going_step {c : Config} {q q' : Queue ℕ} {l : ℕ × Choice} (h : q.going c l = some q') : GoingStep c q l q' := by
  obtain ⟨t, ch⟩ := l
  unfold going at h
  split at h
  · cases h
  · next hch hpos =>
    obtain rfl := Option.some.inj h
    refine ⟨fun call hc => ?_, .inr ⟨⟨hch, _, _, hpos⟩, rfl⟩⟩
    rw [hch] at hc
    cases hc
  · next hno _ => exact ⟨fun call hc => hno call hc, .inl h⟩

/-- Two threads want the one place there is, and thread 1 is faster. -/
def bothAdd : List (ℕ × Choice) :=
  [(0, .call (.add .wait (some handle) (some [5]) 1)), (1, .call (.add .wait (some handle) (some [6]) 1)), (1, .go)]

/-- It queues its item, at the second attempt, and is done. -/
def oneDone : List (ℕ × Choice) := [(1, .go), (1, .go), (1, .retry), (1, .go), (1, .go), (1, .go)]

/-- The other one waits, as the queue is full. -/
theorem comes_to_rest_full : ∃ q q', bothAdd.foldlM (Queue.step ⟨false, 0⟩) (created 1) = some q ∧
    oneDone.foldlM (Queue.going ⟨false, 0⟩) q = some q' ∧ Resting ⟨false, 0⟩ q' ∧ q'.pos 0 ≠ .idle ∧ q'.shared.items = 1 := by
  have hrun : ∃ q q', bothAdd.foldlM (Queue.step ⟨false, 0⟩) (created 1) = some q ∧ oneDone.foldlM (Queue.going ⟨false, 0⟩) q = some q' ∧
      q'.shared.enq = 0 ∧ (∃ vector, q'.pos 0 = .enqGate .wait vector) ∧ ∀ t, t ≠ 0 → q'.pos t = .idle := by
    refine ⟨_, _, rfl, rfl, rfl, ⟨_, rfl⟩, fun t ht => ?_⟩
    obtain ⟨t, rfl⟩ := Nat.exists_eq_succ_of_ne_zero ht
    cases t <;> rfl
  obtain ⟨q, q', hq, hq', henq, ⟨vector, hzero⟩, hothers⟩ := hrun
  have hrest : Resting ⟨false, 0⟩ q' := by
    rintro ⟨t, ch⟩ q'' ⟨hch, hs | ⟨⟨-, v, lifo, hpos⟩, -⟩⟩
    swap
    · by_cases ht : t = 0
      · subst ht
        rw [hzero] at hpos
        cases hpos
      · rw [hothers t ht] at hpos
        cases hpos
    obtain ⟨⟨s', p'⟩, hp, -⟩ := Option.map_eq_some_iff.1 hs
    dsimp only at hch hp
    by_cases ht : t = 0
    · subst ht
      rw [hzero] at hp
      cases ch <;> simp [Pos.step, henq] at hp
    · rw [hothers t ht] at hp
      cases ch with
      | call c => exact hch c rfl
      | _ => cases hp
  obtain ⟨n, hn⟩ := comes_to_rest Nat.one_pos (Trace.of_foldlM (fun _ _ _ h => h) hq)
  have hends := (hn oneDone q' (Trace.of_foldlM (fun _ _ _ => Queue.going_step) hq')).2 hrest
  refine ⟨q, q', hq, hq', hrest, by rw [hzero]; simp, ?_⟩
  rcases hends with h | h
  · rcases h 0 with hidle | ⟨-, hfull⟩
    · rw [hzero] at hidle
      cases hidle
    · exact hfull
  · rcases h 0 with hidle | ⟨hdeq, -⟩
    · rw [hzero] at hidle
      cases hidle
    · rw [hzero] at hdeq
      cases hdeq

end LibShr.Conservation
