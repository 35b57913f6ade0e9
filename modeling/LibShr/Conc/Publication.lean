import LibShr.Lib.Pool
import LibShr.Seq.Create

/-!
# Opening a queue that is being created

One process in `shr_q_create` and one in `shr_q_open`, on the same name. The object comes into being
and is filled in operation by operation; whoever opens it looks at its length, its size, its tag and its
version.

| here | there |
| --- | --- |
| `shrQCreate`   | `shr_q_create` (`shared_q.c:1726`), `create_base_object` (`shared_int.c:424`) |
| `shrQOpen`     | `shr_q_open` (`shared_q.c:1789`), `validate_existence` (`shared_int.c:219`) |
| `mapRound`     | the loop of `map_shared_memory` (`shared_int.c:1400-1423`) |
| `isValidQueue` | `is_valid_queue` (`shared_q.c:1405`) |

The name is a valid one and both processes have the rights they need; no call to the system fails for
want of memory.
-/

namespace LibShr.Publication

open Prog

/-! ## The texts -/

/-- Calls to the system about a name, and the operations on the object once it is mapped. -/
inductive SysOp
  | stat
  | shmCreate
  | shmOpen
  | shmUnlink
  | mapFirst (slots : ℤ)
  | mmap (size : ℤ)
  | machine (o : Op)

@[reducible] def SysOp.Res : SysOp → Type
  | .stat => Option ℤ
  | .shmCreate | .shmOpen | .mapFirst _ | .mmap _ => Bool
  | .shmUnlink => Unit
  | .machine o => o.Res

abbrev Sys := Prog SysOp SysOp.Res

/-- `shr_q_create`. -/
def shrQCreate (maxDepth : ℤ) : Sys Status := do
  if maxDepth > SEM_VALUE_MAX then return .errArg
  if (← op SysOp.stat).isSome then return .errExist
  -- allocate_shared_memory
  if !(← op SysOp.shmCreate) then return .errExist
  if (← op (SysOp.machine (.ftruncate PAGE_SIZE))) ≠ Trunc.done then
    op SysOp.shmUnlink
    return .errSys
  -- create_extent
  if !(← op (SysOp.mapFirst (PAGE_SIZE / 8))) then return .errNomem
  (initQueue maxDepth).subst fun o => op (SysOp.machine o)

/-- A round of the loop: the object is mapped with the size it is taken to have, which is then compared with the
size it says it has; that is read once more for the next round. -/
def mapRound (size : ℤ) : Sys (ℤ ⊕ Option ℤ) := do
  if !(← op (SysOp.mmap size)) then return .inr none
  if size = (← op (SysOp.machine (.load (size / 8) SIZE))) * 8 then return .inr (some (size / 8))
  return .inl ((← op (SysOp.machine (.load (size / 8) SIZE))) * 8)

def isValidQueue (array : ℤ) : Sys Bool := do
  let tag ← op (SysOp.machine (.load array TAG))
  if (Words.toBytes tag).take 4 ≠ SHRQ then return false
  return (← op (SysOp.machine (.load array VERSION))) = QVERSION

/-- The end of `shr_q_open`; nothing is mapped if `mmap` refused a size of 0. -/
def afterMap : Option ℤ → Sys Status
  | none => return .errArg
  | some array => do
    if ← isValidQueue array then return .ok
    return .errState

/-- `shr_q_open` behind the validation of the name. -/
def openSized (size : ℤ) : Sys Status := do
  if !(← op SysOp.shmOpen) then return .errExist
  afterMap (← iterate mapRound size)

/-- `shr_q_open`. -/
def shrQOpen : Sys Status := do
  match ← op SysOp.stat with
  | none => return .errExist
  | some size =>
    if size < PAGE_SIZE ∨ size % PAGE_SIZE ≠ 0 then return .errState
    openSized size

/-! ## The steps -/

/-- The name, and the object as its creator sees it. -/
structure Shm where
  present : Bool
  world : World

/-- The operations as they happen. -/
def sys : Handler SysOp SysOp.Res Shm
  | .stat, s => some (if s.present then some s.world.ext.length else none, s)
  | .shmCreate, s =>
    if s.present then some (false, s)
    else some (true, ⟨true, { s.world with ext := { s.world.ext with length := 0 } }⟩)
  | .shmOpen, s => some (s.present, s)
  | .shmUnlink, s => some ((), { s with present := false })
  | .mapFirst slots, s => some (true, { s with world := { s.world with ext := { s.world.ext with cur := slots, old := [] } } })
  | .mmap size, s => some (decide (0 < size), s)
  | .machine o, s => (seq o s.world).map fun r => (r.1, { s with world := r.2 })

/-- The two processes. -/
inductive Party
  | creator | opener
deriving DecidableEq

/-- The processes with the name. They were both called at the start, and make no other call. -/
abbrev Procs := Pool SysOp SysOp.Res Shm Party Status

def noCall (_ : Party) (c : Empty) : Sys Status := c.elim

def Step (s : Procs) (l : Party × Move Empty) (s' : Procs) : Prop := Pool.Step (fun _ => sys) noCall s l s'

/-- The creator has made its last step. -/
def Finished (s : Procs) : Prop := s.task .creator = none ∨ ∃ st, s.task .creator = some (.ret st)

/-- The opener reads the version only when the creator has made its last step. -/
def LateStep (s : Procs) (l : Party × Move Empty) (s' : Procs) : Prop :=
  (∀ array, l.1 = .opener → (s.task .opener).bind head? = some (.machine (.load array VERSION)) → Finished s) ∧ Step s l s'

/-- Nothing goes by the name yet, and the system will refuse nothing. -/
structure Absent (s : Shm) : Prop where
  absent : s.present = false
  zero : ∀ a, s.world.mem a = 0
  map_ok : ∀ n slots, s.world.ext.map n slots = .ok
  trunc_ok : ∀ n, s.world.ext.trunc n = true

/-- The three lists are primed, the depth is set, and the semaphores are initialised. -/
structure Complete (maxDepth : ℤ) (w : World) : Prop where
  lists : ∀ i : QId, ∃ node, HDR_END ≤ node ∧ Links.QueueAt w.mem i.head i.tail [node]
  depth : w.mem MAX_DEPTH = if maxDepth = 0 then SEM_VALUE_MAX else maxDepth
  deq : w.sem .deq = 0
  enq : w.sem .enq = if maxDepth = 0 then SEM_VALUE_MAX else maxDepth
  evnt : w.sem .evnt = 0

/-! ## The creator alone -/

section
variable {s s₀ s' : Shm} {maxDepth : ℤ} {st : Status}

/-- What filling in the object leaves. -/
theorem initQueue_complete (hf : Fresh True s.world) (hr : Runs sys ((initQueue maxDepth).subst fun o => op (SysOp.machine o)) s st s') :
    Complete maxDepth s'.world := by
  have hrun : Runs seq (initQueue maxDepth) s.world st s'.world := by
    refine Runs.of_subst Shm.world ?_ hr
    intro o v r v' h
    cases h with
    | act ho hret =>
      cases hret
      obtain ⟨⟨r₁, w₁⟩, hseq, he⟩ := Option.map_eq_some_iff.1 ho
      cases he
      exact hseq
  have hspec : Wp False (initQueue maxDepth) _ _ := initQueue_spec hf maxDepth
  obtain ⟨-, hI, -, -, hdeq, hevnt, henq, hmax, -⟩ := hspec.1 _ _ hrun
  refine ⟨fun i => ?_, hmax, hdeq, henq, hevnt⟩
  have hq := hI.rep.queue i
  cases i with
  | free => exact ⟨164, by decide, hq⟩
  | event => exact ⟨168, by decide, hq⟩
  | item => exact ⟨172, by decide, hq⟩

/-- **The creator** leaves a complete queue, or nothing that has a version. -/
theorem create_complete (h₀ : Absent s₀) (hr : Runs sys (shrQCreate maxDepth) s₀ st s) :
    Complete maxDepth s.world ∨ s.world.mem VERSION = 0 := by
  have hspec : wp sys False (shrQCreate maxDepth) (fun _ s => Complete maxDepth s.world ∨ s.world.mem VERSION = 0) s₀ := by
    obtain ⟨habsent, hzero, hmap, htrunc⟩ := h₀
    have htrunc₀ := htrunc 0
    unfold shrQCreate
    split
    · exact wp_pure.2 (.inr (hzero _))
    -- the object comes into being, gets its size and is mapped
    rw [wp_bind]
    refine (wp_op_some (r := none) (by simp only [sys, habsent]; rfl)).2 ?_
    simp only [Option.isSome_none, Bool.false_eq_true, if_false, wp_bind]
    refine (wp_op_some (by simp only [sys, habsent, Bool.false_eq_true, if_false]; rfl)).2 ?_
    simp only [Bool.not_true, Bool.false_eq_true, if_false, wp_bind]
    refine (wp_op_some (by simp only [sys, seq, htrunc₀, if_true]; rfl)).2 ?_
    simp only [ne_eq, not_true_eq_false, if_false, wp_bind]
    refine (wp_op_some rfl).2 ?_
    simp only [Bool.not_true, Bool.false_eq_true, if_false]
    refine ⟨fun st s hr => .inl (initQueue_complete ?_ hr), fun h => h.elim⟩
    exact ⟨hzero, show (4096 / 8 : ℤ) % 512 = 0 by decide, show (512 : ℤ) ≤ 4096 / 8 by decide, fun _ => hmap, fun _ n => htrunc (n + 1), fun _ _ _ => .inl trivial, .inl trivial⟩
  exact hspec.1 _ _ hr

end

/-! ## The control flow of the opener -/

/-- The places of `shr_q_open`. -/
inductive Place
  | stat
  | openFd (size : ℤ)
  | enter (size : ℤ)
  | map (size : ℤ)
  | compare (size : ℤ)
  | reload (size : ℤ)
  | tag (array : ℤ)
  | version (array : ℤ)
  | done (st : Status)

def reloadText (size : ℤ) : Sys (ℤ ⊕ Option ℤ) := do
  return .inl ((← op (SysOp.machine (.load (size / 8) SIZE))) * 8)

def compareText (size : ℤ) : Sys (ℤ ⊕ Option ℤ) := do
  if size = (← op (SysOp.machine (.load (size / 8) SIZE))) * 8 then return .inr (some (size / 8))
  reloadText size

def versionText (array : ℤ) : Sys Status := do
  if decide ((← op (SysOp.machine (.load array VERSION))) = QVERSION) then return .ok
  return .errState

def Place.text : Place → Sys Status
  | stat => shrQOpen
  | openFd size => openSized size
  | enter size => .loop mapRound size afterMap
  | map size => unroll mapRound size afterMap
  | compare size => (compareText size).bind (resume mapRound afterMap)
  | reload size => (reloadText size).bind (resume mapRound afterMap)
  | tag array => afterMap (some array)
  | version array => versionText array
  | done st => return st

/-- Where a step leads. The opener changes nothing. -/
def Place.next (s : Shm) : Place → Option Place
  | stat => some <|
    if s.present then
      if s.world.ext.length < PAGE_SIZE ∨ s.world.ext.length % PAGE_SIZE ≠ 0 then done .errState else openFd s.world.ext.length
    else done .errExist
  | openFd size => some (if s.present then enter size else done .errExist)
  | enter size => some (map size)
  | map size => some (if 0 < size then compare size else done .errArg)
  | compare size =>
    if InExtent (size / 8) SIZE then some (if size = s.world.mem SIZE * 8 then tag (size / 8) else reload size) else none
  | reload size => if InExtent (size / 8) SIZE then some (enter (s.world.mem SIZE * 8)) else none
  | tag array =>
    if InExtent array TAG then some (if (Words.toBytes (s.world.mem TAG)).take 4 ≠ SHRQ then done .errState else version array) else none
  | version array => if InExtent array VERSION then some (done (if s.world.mem VERSION = QVERSION then .ok else .errState)) else none
  | done _ => none

theorem Place.step_eq (p : Place) (s : Shm) : p.text.step sys s = (p.next s).map fun p' => (p'.text, s) := by
  obtain ⟨present, w⟩ := s
  cases p with
  | stat =>
    cases present with
    | false => rfl
    | true =>
      change some ((if w.ext.length < PAGE_SIZE ∨ w.ext.length % PAGE_SIZE ≠ 0 then return .errState else openSized w.ext.length : Sys Status), _) = _
      simp only [Place.next, if_true, Option.map_some]
      split <;> rfl
  | openFd size => cases present <;> rfl
  | enter size => rfl
  | map size =>
    simp only [Place.next, Option.map_some]
    by_cases h : 0 < size
    · rw [if_pos h]
      change some (((if !decide (0 < size) then return .inr none else compareText size : Sys (ℤ ⊕ Option ℤ)).bind (resume mapRound afterMap)), _) = _
      rw [decide_eq_true h]
      rfl
    · rw [if_neg h]
      change some (((if !decide (0 < size) then return .inr none else compareText size : Sys (ℤ ⊕ Option ℤ)).bind (resume mapRound afterMap)), _) = _
      rw [decide_eq_false h]
      rfl
  | compare size =>
    change ((seq (.load (size / 8) SIZE) w).map _).map _ = _
    unfold Place.next seq
    dsimp only
    split
    · change some (((if size = w.mem SIZE * 8 then return .inr (some (size / 8)) else reloadText size : Sys (ℤ ⊕ Option ℤ)).bind
        (resume mapRound afterMap)), _) = _
      simp only [Option.map_some]
      split <;> rfl
    · rfl
  | reload size =>
    change ((seq (.load (size / 8) SIZE) w).map _).map _ = _
    unfold Place.next seq
    dsimp only
    split <;> rfl
  | tag array =>
    change ((seq (.load array TAG) w).map _).map _ = _
    unfold Place.next seq
    dsimp only
    split
    · change some (((if (Words.toBytes (w.mem TAG)).take 4 ≠ SHRQ then return false else do
        return (← op (SysOp.machine (.load array VERSION))) = QVERSION : Sys Bool).bind fun b => if b then return Status.ok else return Status.errState), _) = _
      simp only [Option.map_some]
      split <;> rfl
    · rfl
  | version array =>
    change ((seq (.load array VERSION) w).map _).map _ = _
    unfold Place.next seq
    dsimp only
    split
    · change some ((if decide (w.mem VERSION = QVERSION) then return .ok else return .errState : Sys Status), _) = _
      simp only [Option.map_some, decide_eq_true_eq]
      split <;> rfl
    · rfl
  | done st => rfl

/-! ## Both together -/

/-- What holds at any time: what the creator has still to run leads where its whole run leads; once it is through, the
queue is complete or has no version; the opener is at one of its places, and returns `SH_OK` only from a complete queue. -/
structure Inv (maxDepth : ℤ) (s₀ : Shm) (s : Procs) : Prop where
  creating : ∀ p, s.task .creator = some p → ∀ st s', Runs sys p s.world st s' → Runs sys (shrQCreate maxDepth) s₀ st s'
  created : s.task .creator = none → Complete maxDepth s.world.world ∨ s.world.world.mem VERSION = 0
  opening : ∀ p, s.task .opener = some p → ∃ q : Place, p = q.text ∧ (q = .done .ok → Complete maxDepth s.world.world ∧ Finished s)

section
variable {s₀ : Shm} {s s' : Procs} {maxDepth : ℤ} {l : Party × Move Empty}

theorem Inv.finished (hI : Inv maxDepth s₀ s) (h₀ : Absent s₀) (hf : Finished s) :
    Complete maxDepth s.world.world ∨ s.world.world.mem VERSION = 0 := by
  rcases hf with hnone | ⟨st, hret⟩
  · exact hI.created hnone
  · exact create_complete h₀ (hI.creating _ hret _ _ (.ret _ _))

theorem Place.next_ok {q q' : Place} {w : Shm} (hn : q.next w = some q') (hok : q' = .done .ok) :
    ∃ array, q = .version array ∧ w.world.mem VERSION = QVERSION := by
  subst hok
  cases q with
  | version array =>
    simp only [Place.next] at hn
    split at hn
    · refine ⟨array, rfl, ?_⟩
      by_contra hne
      rw [if_neg hne] at hn
      cases hn
    · cases hn
  | enter | done => cases hn
  | openFd | map | reload =>
    simp only [Place.next] at hn
    split at hn <;> cases hn
  | stat | compare | tag =>
    simp only [Place.next] at hn
    split at hn
    · simp only [Option.some.injEq] at hn
      split at hn <;> cases hn
    · cases hn

/-- **A step that meets the condition** keeps the invariant. -/
theorem Inv.step (h₀ : Absent s₀) (hI : Inv maxDepth s₀ s) (hs : LateStep s l s') : Inv maxDepth s₀ s' := by
  obtain ⟨t, m⟩ := l
  obtain ⟨hlate, hs⟩ := hs
  cases m with
  | call c => exact c.elim
  | op =>
    obtain ⟨p, p', hp, hstep, htask, hother⟩ := Pool.Step.op hs
    cases t with
    | creator =>
      refine ⟨fun p'' hp'' st s'' hr => ?_, fun hnone => ?_, fun p'' hp'' => ?_⟩
      · rw [htask, Option.some.injEq] at hp''
        subst hp''
        exact hI.creating p hp st s'' (.of_step hstep hr)
      · rw [htask] at hnone
        cases hnone
      · rw [hother _ (by decide)] at hp''
        obtain ⟨q, hq, hok⟩ := hI.opening p'' hp''
        refine ⟨q, hq, fun hdone => ?_⟩
        -- a creator that can make a step has not made its last
        rcases (hok hdone).2 with hnone | ⟨st, hret⟩
        · rw [hnone] at hp
          cases hp
        · rw [hret] at hp
          cases hp
          cases hstep
    | opener =>
      have hcreator : s'.task .creator = s.task .creator := hother _ (by decide)
      obtain ⟨q, rfl, -⟩ := hI.opening p hp
      rw [q.step_eq] at hstep
      obtain ⟨q', hnext, he⟩ := Option.map_eq_some_iff.1 hstep
      obtain ⟨rfl, hw⟩ := Prod.mk.inj he
      refine ⟨fun p'' hp'' => ?_, fun hnone => ?_, fun p'' hp'' => ⟨q', ?_, fun hdone => ?_⟩⟩
      · rw [hcreator] at hp''
        rw [← hw]
        exact hI.creating p'' hp''
      · rw [hcreator] at hnone
        rw [← hw]
        exact hI.created hnone
      · rw [htask, Option.some.injEq] at hp''
        exact hp''.symm
      · obtain ⟨array, rfl, hversion⟩ := Place.next_ok hnext hdone
        have hf : Finished s := hlate array rfl (by rw [hp]; rfl)
        constructor
        · rw [← hw]
          rcases hI.finished h₀ hf with hcomplete | hzero
          · exact hcomplete
          · rw [hzero] at hversion
            cases hversion
        · unfold Finished at *
          rwa [hcreator]
  | ret =>
    obtain ⟨a, ha, hw, htask, hother⟩ := Pool.Step.ret hs
    cases t with
    | creator =>
      refine ⟨fun p hp => ?_, fun _ => ?_, fun p hp => ?_⟩
      · rw [htask] at hp
        cases hp
      · rw [hw]
        exact hI.finished h₀ (.inr ⟨a, ha⟩)
      · rw [hother _ (by decide)] at hp
        obtain ⟨q, hq, hok⟩ := hI.opening p hp
        refine ⟨q, hq, fun hdone => ⟨?_, .inl htask⟩⟩
        rw [hw]
        exact (hok hdone).1
    | opener =>
      have hcreator : s'.task .creator = s.task .creator := hother _ (by decide)
      refine ⟨fun p hp => ?_, fun hnone => ?_, fun p hp => ?_⟩
      · rw [hcreator] at hp
        rw [hw]
        exact hI.creating p hp
      · rw [hcreator] at hnone
        rw [hw]
        exact hI.created hnone
      · rw [htask] at hp
        cases hp

/-- **A queue is opened only when it is complete**, in every run in which the opener reads the version after the
creator has made its last step. -/
theorem open_complete {ls : List (Party × Move Empty)} (h₀ : Absent s.world) (hcreate : s.task .creator = some (shrQCreate maxDepth))
    (hopen : s.task .opener = some shrQOpen) (h : Trace LateStep s ls s') (hret : s'.task .opener = some (.ret .ok)) :
    Complete maxDepth s'.world.world := by
  have hinv := h.invariant (Inv maxDepth s.world) (fun _ _ _ hI hs => hI.step h₀ hs) ?_
  · obtain ⟨q, hq, hcomplete⟩ := hinv.opening _ hret
    cases q with
    | done st =>
      cases hq
      exact (hcomplete rfl).1
    | _ => cases hq
  · refine ⟨fun p hp st s' hr => ?_, fun hnone => ?_, fun p hp => ⟨.stat, ?_, fun h => by cases h⟩⟩
    · rw [hcreate] at hp
      cases hp
      exact hr
    · rw [hcreate] at hnone
      cases hnone
    · rw [hopen] at hp
      exact (Option.some.inj hp).symm

end

/-! ## Two runs -/

/-- A queue for four items is to be created. -/
def both : Procs := ⟨⟨false, .fresh⟩, fun | .creator => some (shrQCreate 4) | .opener => some shrQOpen⟩

theorem both_absent : Absent both.world := ⟨rfl, fun _ => rfl, fun _ _ => rfl, fun _ => rfl⟩

def steps (t : Party) (n : ℕ) : List (Party × Move Empty) := List.replicate n (t, .op)

/-- The opener reads the tag right after it was written, and the version when the creator is through. -/
def late : List (Party × Move Empty) := steps .creator 12 ++ steps .opener 6 ++ steps .creator 79 ++ steps .opener 1

/-- The opener runs right after the tag was written. -/
def early : List (Party × Move Empty) := steps .creator 12 ++ steps .opener 7

def run (s : Procs) (l : Party × Move Empty) : Option Procs := s.step (fun _ => sys) noCall l

def runLate (s : Procs) (l : Party × Move Empty) : Option Procs :=
  if l.1 = .creator ∨ (s.result .creator).isSome then run s l
  else match (s.task .opener).bind head? with
    | some (.machine (.load _ slot)) => if slot = VERSION then none else run s l
    | _ => run s l

theorem runLate_step {s s' : Procs} {l : Party × Move Empty} (h : runLate s l = some s') : LateStep s l s' := by
  unfold runLate at h
  split at h
  · next hfree =>
    refine ⟨fun array hl _ => ?_, h⟩
    rcases hfree with hc | hc
    · rw [hl] at hc
      cases hc
    · obtain ⟨st, hst⟩ := Option.isSome_iff_exists.1 hc
      exact .inr ⟨st, Pool.task_of_result hst⟩
  · split at h
    · next array slot hload =>
      split at h
      · cases h
      · next hne =>
        refine ⟨fun array' _ hv => ?_, h⟩
        rw [hload] at hv
        cases hv
        exact absurd rfl hne
    · next hno => exact ⟨fun array' _ hv => absurd hv (hno _ _), h⟩

theorem open_complete_late : ∃ s, Trace LateStep both late s ∧ s.task .opener = some (.ret .ok) ∧ Complete 4 s.world.world := by
  have hrun : (late.foldlM runLate both).map (Pool.result · .opener) = some (some .ok) := by decide +kernel
  obtain ⟨s, hs, hresult⟩ := Option.map_eq_some_iff.1 hrun
  have htrace : Trace LateStep both late s := Trace.of_foldlM (fun _ _ _ => runLate_step) hs
  exact ⟨s, htrace, Pool.task_of_result hresult, open_complete both_absent rfl rfl htrace (Pool.task_of_result hresult)⟩

/-- A process that opens the queue right after its tag was written gets `SH_OK`, and a queue without a depth. -/
theorem opened_early : ∃ s, Trace Step both early s ∧ s.task .opener = some (.ret .ok) ∧ s.world.world.mem MAX_DEPTH = 0 ∧
    ¬Complete 4 s.world.world := by
  have hrun : (early.foldlM run both).map (fun s => (s.result .opener, s.world.world.mem MAX_DEPTH)) = some (some .ok, 0) := by decide +kernel
  obtain ⟨s, hs, hresult⟩ := Option.map_eq_some_iff.1 hrun
  obtain ⟨hret, hdepth⟩ := Prod.mk.inj hresult
  refine ⟨s, Trace.of_foldlM (fun _ _ _ h => h) hs, Pool.task_of_result hret, hdepth, fun hc => ?_⟩
  have h := hc.depth
  rw [hdepth] at h
  cases h

end LibShr.Publication
