import LibShr.Conc.Processes
import LibShr.Seq.Create

/-!
# Registering for notification

Any number of processes in `shr_q_monitor`, or `shr_q_listen`, or `shr_q_call`. Each runs the text of
the function, one operation at a time: the pid is read, then installed by a `CAS`, and the signal is
stored after that.

| here | there |
| --- | --- |
| `Kind.monitor` | `shr_q_monitor` (`shared_q.c:1929`) |
| `Kind.listen`  | `shr_q_listen` (`shared_q.c:1983`) |
| `Kind.call`    | `shr_q_call` (`shared_q.c:2036`) |
-/

namespace LibShr.Registration

open Prog

/-- The three functions. -/
inductive Kind
  | monitor | listen | call
deriving DecidableEq

namespace Kind

def pidSlot : Kind → ℤ
  | monitor => NOTIFY_PID
  | listen => LISTEN_PID
  | call => CALL_PID

def signalSlot : Kind → ℤ
  | monitor => NOTIFY_SIGNAL
  | listen => LISTEN_SIGNAL
  | call => CALL_SIGNAL

def run : Kind → Option ShrQ → ℤ → ℤ → M Status
  | monitor => shrQMonitor
  | listen => shrQListen
  | call => shrQCall

theorem run_eq (k : Kind) (q : Option ShrQ) (self signal : ℤ) : k.run q self signal = register q self signal k.pidSlot k.signalSlot := by
  cases k <;> rfl

theorem slots_ne (k : Kind) : k.pidSlot ≠ k.signalSlot := by
  cases k <;> decide

end Kind

/-- The pid a call with this signal writes: 0 unregisters. -/
def installs (self signal : ℤ) : ℤ := if signal = 0 then 0 else self

/-- What is known of the running call of a process, or of its last one. -/
structure Note where
  signal : ℤ
  /-- The pid it installed, if its signal is still to be stored. -/
  installed : Option ℤ
  /-- It found its own pid in its `CAS`. -/
  own : Bool
  /-- It changed the registration. -/
  changed : Bool
  /-- The pid that was registered when it read it. -/
  found : ℤ
  /-- The pid another process has installed since then, the last one if several have. -/
  replaced : Option ℤ

def Note.begun (signal : ℤ) : Note := ⟨signal, none, false, false, 0, none⟩

/-- The calls so far, last first, and what is known of each process. -/
structure Log (T : Type) where
  calls : List (T × ℤ)
  note : T → Note

def Log.start {T : Type} : Log T := ⟨[], fun _ => .begun 0⟩

section
variable {T : Type} (k : Kind) (q : T → ShrQ) (pids : T → ℤ)

/-- The processes with the object they share. -/
abbrev Procs (T : Type) := Pool Op Op.Res (Site T) T Status

def text (t : T) (signal : ℤ) : M Status := k.run (some (q t)) (pids t) signal

/-- The stored pair is (0, 0), or that of one registering call. -/
def Consistent (s : Site T) (g : Log T) : Prop :=
  s.mem k.pidSlot = 0 ∧ s.mem k.signalSlot = 0 ∨
    ∃ t signal, (t, signal) ∈ g.calls ∧ 0 < signal ∧ s.mem k.pidSlot = pids t ∧ s.mem k.signalSlot = signal

/-- What an operation shows of its call. -/
def Note.after (pid : ℤ) (o : Option Op) (s s' : Site T) (n : Note) : Note :=
  let changed := n.changed || decide (s'.mem k.pidSlot ≠ s.mem k.pidSlot) || decide (s'.mem k.signalSlot ≠ s.mem k.signalSlot)
  match o with
  | some (.load ..) => { n with changed, found := s.mem k.pidSlot, replaced := none }
  | some (.cas _ _ old new) =>
    { n with installed := if s.mem k.pidSlot = old then some new else n.installed, own := s.mem k.pidSlot = pid, changed }
  | some (.store ..) => { n with installed := none, changed }
  | _ => { n with changed }

/-- What the operation of another process shows. -/
def Note.beside (o : Option Op) (s : Site T) (n : Note) : Note :=
  match o with
  | some (.cas _ _ old new) => if s.mem k.pidSlot = old then { n with replaced := some new } else n
  | _ => n

variable [DecidableEq T]

def Log.set (g : Log T) (t : T) (n : Note) : Log T := ⟨g.calls, Function.update g.note t n⟩

/-- An operation shows something of every call. -/
def Log.tell (g : Log T) (o : Option Op) (s : Site T) : Log T := ⟨g.calls, fun u => (g.note u).beside k o s⟩

/-- What a move adds to the log. -/
def Log.after (s : Procs T) (l : T × Move ℤ) (s' : Site T) (g : Log T) : Log T :=
  match l with
  | (t, .call signal) => Log.set ⟨(t, signal) :: g.calls, g.note⟩ t (.begun signal)
  | (t, .op) =>
    let o := (s.task t).bind head?
    (g.tell k o s.world).set t ((g.note t).after k (pids t) o s.world s')
  | (_, .ret) => g

/-- One move, with the log kept beside the processes. -/
def Step (s : Procs T × Log T) (l : T × Move ℤ) (s' : Procs T × Log T) : Prop :=
  Pool.Step shared (text k q pids) s.1 l s'.1 ∧ s'.2 = s.2.after k pids s.1 l s'.1.world

/-- A signal is stored only where it already is, or while a call that installed the pid in the object has still to
store its own. With `shr_q_listen` and `shr_q_call`, a process unregisters only if it was the registered one when it read
the pid, or if the last `CAS` that another process has made since then has registered a different one. -/
def Orderly (s : Procs T) (g : Log T) (t : T) : Prop :=
  (∀ array v, (s.task t).bind head? = some (.store array k.signalSlot v) →
    v = s.world.mem k.signalSlot ∨ ∃ u, (g.note u).installed = some (s.world.mem k.pidSlot)) ∧
  (∀ array old new, (s.task t).bind head? = some (.cas array k.pidSlot old new) → k ≠ .monitor → (g.note t).signal = 0 →
    (g.note t).found = pids t ∨ ∃ pid, (g.note t).replaced = some pid ∧ pid ≠ (g.note t).found)

def OrderlyStep (s : Procs T × Log T) (l : T × Move ℤ) (s' : Procs T × Log T) : Prop :=
  Orderly k pids s.1 s.2 l.1 ∧ Step k q pids s l s'

end

/-! ## The control flow -/

/-- The places of the text. -/
inductive Place
  | guard (signal : ℤ)
  | find (signal : ℤ)
  | read (signal array : ℤ)
  | claim (signal prev : ℤ)
  | swap (signal prev array : ℤ)
  | publish (signal : ℤ)
  | put (signal array : ℤ)
  | leave (status : Status)
  | done (status : Status)

section
variable {T : Type} (k : Kind) (self : ℤ)

def leaveWith (status : Status) : M Status := do
  unguardQMemory
  return status

def publishText (signal : ℤ) : M Status := do
  store (← current) k.signalSlot signal
  leaveWith .ok

def claimText (signal prev : ℤ) : M Status := do
  if ← cas (← current) k.pidSlot prev (installs self signal) then publishText k signal
  else leaveWith .errState

def Place.text : Place → M Status
  | guard signal => do
    guardQMemory
    let prev ← load (← current) k.pidSlot
    claimText k self signal prev
  | find signal => do
    let prev ← load (← current) k.pidSlot
    claimText k self signal prev
  | read signal array => do
    let prev ← load array k.pidSlot
    claimText k self signal prev
  | claim signal prev => claimText k self signal prev
  | swap signal prev array => do
    if ← cas array k.pidSlot prev (installs self signal) then publishText k signal
    else leaveWith .errState
  | publish signal => publishText k signal
  | put signal array => do
    store array k.signalSlot signal
    leaveWith .ok
  | leave status => leaveWith status
  | done status => return status

def Place.start (signal : ℤ) : Place := if signal < 0 then done .errArg else guard signal

/-- Where an operation leads. -/
def Place.next [DecidableEq T] (t : T) (p : Place) (s : Site T) : Option (Place × Site T) :=
  match p with
  | guard signal => (shared t (.addAccessors 1) s).map fun r => (find signal, r.2)
  | find signal => (shared t .current s).map fun r => (read signal r.1, r.2)
  | read signal array => (shared t (.load array k.pidSlot) s).map fun r => (claim signal r.1, r.2)
  | claim signal prev => (shared t .current s).map fun r => (swap signal prev r.1, r.2)
  | swap signal prev array => (shared t (.cas array k.pidSlot prev (installs self signal)) s).map fun r =>
      (if r.1 then publish signal else leave .errState, r.2)
  | publish signal => (shared t .current s).map fun r => (put signal r.1, r.2)
  | put signal array => (shared t (.store array k.signalSlot signal) s).map fun r => (leave .ok, r.2)
  | leave status => (shared t (.addAccessors (-1)) s).map fun r => (done status, r.2)
  | done _ => none

theorem Place.step_eq [DecidableEq T] (t : T) (p : Place) (s : Site T) :
    (p.text k self).step (shared t) s = (p.next k self t s).map fun r => (r.1.text k self, r.2) := by
  cases p with
  | done status => rfl
  | swap signal prev array =>
    simp only [Place.next, Option.map_map]
    change (shared t _ s).map _ = _
    congr 1
    funext ⟨b, s'⟩
    cases b <;> rfl
  | _ =>
    simp only [Place.next, Option.map_map]
    rfl

end

def flow {T : Type} [DecidableEq T] (k : Kind) (q : T → ShrQ) (pids : T → ℤ) : ControlFlow (shared (T := T)) (text k q pids) Place where
  place := fun t p => p.text k (pids t)
  start := fun _ signal => .start signal
  next := fun t p s => p.next k (pids t) t s
  text_eq := by
    intro t signal
    rw [text, Kind.run_eq, Place.start]
    by_cases h : signal < 0
    · simp only [register, h, or_true, if_true]
      rfl
    · simp only [register, h, or_false, reduceCtorEq, if_false]
      rfl
  step_eq := fun t p s => p.step_eq k (pids t) t s

/-! ## One move -/

section
variable {T : Type} (k : Kind) (pids : T → ℤ)

/-- A call before its `CAS`. -/
structure Begun (g : Log T) (t : T) (signal : ℤ) : Prop where
  called : (t, signal) ∈ g.calls
  nonneg : 0 ≤ signal
  note : (g.note t).signal = signal
  waiting : (g.note t).installed = none
  same : (g.note t).changed = false

/-- A call that has installed its pid, and has still to store its signal. -/
structure Claimed (g : Log T) (t : T) (signal : ℤ) : Prop where
  called : (t, signal) ∈ g.calls
  nonneg : 0 ≤ signal
  note : (g.note t).signal = signal
  pending : (g.note t).installed = some (installs (pids t) signal)
  owned : k ≠ .monitor → signal = 0 → (g.note t).own = true

/-- A call that will return `status`. -/
structure Ended (g : Log T) (t : T) (status : Status) : Prop where
  waiting : (g.note t).installed = none
  refused : k ≠ .monitor → (g.note t).signal = 0 → (g.note t).own = false → status = .errState ∧ (g.note t).changed = false

/-- What is known of a process at its place. -/
def Fits (g : Log T) (t : T) : Option Place → Prop
  | none => (g.note t).installed = none
  | some (.guard signal) | some (.find signal) | some (.read signal _) | some (.claim signal _) | some (.swap signal _ _) => Begun g t signal
  | some (.publish signal) | some (.put signal _) => Claimed k pids g t signal
  | some (.leave status) | some (.done status) => Ended k g t status

/-- The pid is the one that was read, or the last one that others have installed since. -/
def Reads (s : Site T) (n : Note) : Option Place → Prop
  | some (.claim _ prev) | some (.swap _ prev _) => n.found = prev ∧ s.mem k.pidSlot = n.replaced.getD prev
  | _ => True

/-- What holds at any time: each process is where its note says, and the stored pair is consistent unless a call that
installed the pid has still to store its signal. -/
structure Inv (s : Site T) (g : Log T) (pos : T → Option Place) : Prop where
  fits : ∀ t, Fits k pids g t (pos t)
  reads : ∀ t, Reads k s (g.note t) (pos t)
  pair : (∃ u, (g.note u).installed = some (s.mem k.pidSlot)) ∨ Consistent k pids s g

end

section
variable {T : Type} {k : Kind} {pids : T → ℤ} {q : T → ShrQ} {s s' : Site T} {g : Log T} {pos : T → Option Place}
  {t u : T} {p p' : Place} {n : Note} {o : Option Op} {signal pid v : ℤ}

/-- What a call has done is the same by both notes. -/
structure Note.Same (n n' : Note) : Prop where
  signal : n'.signal = n.signal
  installed : n'.installed = n.installed
  own : n'.own = n.own
  changed : n'.changed = n.changed
  found : n'.found = n.found

theorem Note.Same.refl (n : Note) : n.Same n := ⟨rfl, rfl, rfl, rfl, rfl⟩

theorem Note.beside_same (n : Note) : n.Same (n.beside k o s) := by
  unfold Note.beside
  split
  · split <;> exact ⟨rfl, rfl, rfl, rfl, rfl⟩
  · exact .refl n

/-- Operations that leave the memory alone, and neither read it nor are a `CAS`, show nothing. -/
theorem Note.after_quiet (hm : s'.mem = s.mem) (hl : ∀ a i, o ≠ some (.load a i)) (hc : ∀ a i old new, o ≠ some (.cas a i old new))
    (hs : ∀ a i v, o ≠ some (.store a i v)) : n.after k pid o s s' = n := by
  unfold Note.after
  rw [hm]
  simp only [ne_eq, not_true_eq_false, decide_false, Bool.or_false]

/-- Only a `CAS` that finds the old pid shows something of other calls. -/
theorem Log.tell_quiet (hc : ∀ a i old new, o = some (.cas a i old new) → s.mem k.pidSlot ≠ old) : g.tell k o s = g := by
  unfold Log.tell Note.beside
  split
  · next a i old new => simp only [if_neg (hc a i old new rfl)]
  · rfl

theorem Fits.congr {g g' : Log T} {p : Option Place} (h : Fits k pids g u p) (hc : ∀ c ∈ g.calls, c ∈ g'.calls)
    (hn : (g.note u).Same (g'.note u)) : Fits k pids g' u p := by
  have hbegun : ∀ {signal}, Begun g u signal → Begun g' u signal := fun h =>
    ⟨hc _ h.called, h.nonneg, hn.signal ▸ h.note, hn.installed ▸ h.waiting, hn.changed ▸ h.same⟩
  have hclaimed : ∀ {signal}, Claimed k pids g u signal → Claimed k pids g' u signal := fun h =>
    ⟨hc _ h.called, h.nonneg, hn.signal ▸ h.note, hn.installed ▸ h.pending, hn.own ▸ h.owned⟩
  have hended : ∀ {status}, Ended k g u status → Ended k g' u status := fun h =>
    ⟨hn.installed ▸ h.waiting, by rw [hn.signal, hn.own, hn.changed]; exact h.refused⟩
  cases p with
  | none => exact hn.installed.trans h
  | some p =>
    cases p with
    | publish | put => exact hclaimed h
    | leave | done => exact hended h
    | _ => exact hbegun h

theorem Consistent.mono {g g' : Log T} (h : Consistent k pids s g) (hm : s'.mem = s.mem) (hc : ∀ c ∈ g.calls, c ∈ g'.calls) :
    Consistent k pids s' g' := by
  unfold Consistent at *
  rw [hm]
  refine h.imp id ?_
  rintro ⟨t, signal, hmem, h⟩
  exact ⟨t, signal, hc _ hmem, h⟩

theorem Reads.congr {p : Option Place} (h : Reads k s n p) (hm : s'.mem k.pidSlot = s.mem k.pidSlot) : Reads k s' n p := by
  unfold Reads at *
  rwa [hm]

/-- Whoever has read the pid learns which one another process installs. -/
theorem Reads.told {p : Option Place} {old new : ℤ} (array : ℤ) (h : Reads k s n p) (hold : s.mem k.pidSlot = old) (hm : s'.mem k.pidSlot = new) :
    Reads k s' (n.beside k (some (.cas array k.pidSlot old new)) s) p := by
  unfold Reads at *
  simp only [Note.beside, if_pos hold]
  split at h
  · exact ⟨h.1, hm⟩
  · exact ⟨h.1, hm⟩
  · trivial

variable [DecidableEq T]

theorem Log.note_set_self (g : Log T) (t : T) (n : Note) : (g.set t n).note t = n := by
  simp only [Log.set, Function.update_self]

theorem Log.note_set_ne (g : Log T) (n : Note) (hu : u ≠ t) : (g.set t n).note u = g.note u := by
  simp only [Log.set, Function.update_of_ne hu]

theorem Log.set_note (g : Log T) (t : T) : g.set t (g.note t) = g := by
  rw [Log.set, Function.update_eq_self]

namespace Inv

/-- One process is at another place, with another note. -/
theorem moved (hI : Inv k pids s g pos) (hfit : Fits k pids ((g.tell k o s).set t n) t (some p')) (hread : Reads k s' n (some p'))
    (hothers : ∀ u, u ≠ t → Reads k s' ((g.tell k o s).note u) (pos u))
    (hpair : (∃ u, (((g.tell k o s).set t n).note u).installed = some (s'.mem k.pidSlot)) ∨ Consistent k pids s' g) :
    Inv k pids s' ((g.tell k o s).set t n) (Function.update pos t (some p')) := by
  refine ⟨fun u => ?_, fun u => ?_, hpair⟩
  all_goals
    by_cases hu : u = t
    · subst hu
      rw [Function.update_self]
      first | exact hfit | rwa [Log.note_set_self]
    · rw [Function.update_of_ne hu]
      first
        | exact (hI.fits u).congr (fun _ h => h) (by rw [Log.note_set_ne _ _ hu]; exact (g.note u).beside_same)
        | (rw [Log.note_set_ne _ _ hu]; exact hothers u hu)

/-- A process performs an operation that changes no pid. -/
theorem keeps (hI : Inv k pids s g pos) (hm : s'.mem k.pidSlot = s.mem k.pidSlot) (hfit : Fits k pids (g.set t n) t (some p'))
    (hread : Reads k s' n (some p')) (hpair : (∃ u, ((g.set t n).note u).installed = some (s.mem k.pidSlot)) ∨ Consistent k pids s' g) :
    Inv k pids s' (g.set t n) (Function.update pos t (some p')) := by
  have htell : g.tell k none s = g := Log.tell_quiet (by rintro _ _ _ _ ⟨⟩)
  have hmoved : Inv k pids s' ((g.tell k none s).set t n) (Function.update pos t (some p')) :=
    hI.moved (by rwa [htell]) hread (fun u _ => by rw [htell]; exact (hI.reads u).congr hm) (by rwa [htell, hm])
  rwa [htell] at hmoved

theorem quiet (hI : Inv k pids s g pos) (hn : n = g.note t) (hm : s'.mem = s.mem) (hfit : Fits k pids g t (some p'))
    (hread : Reads k s (g.note t) (some p')) : Inv k pids s' (g.set t n) (Function.update pos t (some p')) := by
  subst hn
  refine hI.keeps (congrFun hm _) ?_ (hread.congr (congrFun hm _)) ?_
  · rwa [Log.set_note]
  · rw [Log.set_note]
    exact hI.pair.imp id fun h => h.mono hm fun _ h => h

theorem called (hI : Inv k pids s g pos) (hp : pos t = none) :
    Inv k pids s (Log.set ⟨(t, signal) :: g.calls, g.note⟩ t (.begun signal)) (Function.update pos t (some (.start signal))) := by
  have hcalls : ∀ c ∈ g.calls, c ∈ (Log.set ⟨(t, signal) :: g.calls, g.note⟩ t (.begun signal)).calls :=
    fun _ h => List.mem_cons_of_mem _ h
  refine ⟨fun u => ?_, fun u => ?_, ?_⟩
  · by_cases hu : u = t
    · subst hu
      rw [Function.update_self]
      unfold Place.start
      split
      · next hneg =>
        constructor
        · rw [Log.note_set_self]
          rfl
        · intro _ h₀ _
          rw [Log.note_set_self] at h₀
          exact absurd h₀ hneg.ne
      · next hpos =>
        constructor
        · exact List.mem_cons_self
        · exact not_lt.1 hpos
        all_goals
          rw [Log.note_set_self]
          rfl
    · rw [Function.update_of_ne hu]
      exact (hI.fits u).congr hcalls (by rw [Log.note_set_ne _ _ hu]; exact .refl _)
  · by_cases hu : u = t
    · subst hu
      rw [Function.update_self]
      unfold Place.start
      split <;> trivial
    · rw [Function.update_of_ne hu, Log.note_set_ne _ _ hu]
      exact hI.reads u
  · rcases hI.pair with ⟨u, hu⟩ | hcons
    · -- a process that makes a call has nothing left to store
      have hut : u ≠ t := by
        rintro rfl
        have hfit := hI.fits u
        rw [hp] at hfit
        rw [show (g.note u).installed = none from hfit] at hu
        cases hu
      exact .inl ⟨u, (congrArg Note.installed (Log.note_set_ne _ _ hut)).trans hu⟩
    · exact .inr (hcons.mono rfl hcalls)

theorem read (hI : Inv k pids s g pos) (hb : Begun g t signal) (hm : s'.mem = s.mem) :
    Inv k pids s' (g.set t { g.note t with changed := false, found := s.mem k.pidSlot, replaced := none })
      (Function.update pos t (some (.claim signal (s.mem k.pidSlot)))) := by
  refine hI.keeps (congrFun hm _) ⟨hb.called, hb.nonneg, ?_, ?_, ?_⟩ ⟨rfl, congrFun hm _⟩ ?_
  · rw [Log.note_set_self]
    exact hb.note
  · rw [Log.note_set_self]
    exact hb.waiting
  · rw [Log.note_set_self]
  · rcases hI.pair with ⟨u, hu⟩ | hcons
    · have hut : u ≠ t := by
        rintro rfl
        rw [hb.waiting] at hu
        cases hu
      exact .inl ⟨u, by rwa [Log.note_set_ne _ _ hut]⟩
    · exact .inr (hcons.mono hm fun _ h => h)

theorem swapped {array prev : ℤ} (hI : Inv k pids s g pos) (hb : Begun g t signal)
    (hown : k ≠ .monitor → signal = 0 → s.mem k.pidSlot = pids t) (hold : s.mem k.pidSlot = prev)
    (hm : s'.mem = setSlot s.mem k.pidSlot (installs (pids t) signal)) (hn : n.signal = signal)
    (hinstalled : n.installed = some (installs (pids t) signal)) (hfound : n.own = decide (s.mem k.pidSlot = pids t)) :
    Inv k pids s' ((g.tell k (some (.cas array k.pidSlot prev (installs (pids t) signal))) s).set t n)
      (Function.update pos t (some (.publish signal))) := by
  have hpid : s'.mem k.pidSlot = installs (pids t) signal := by rw [hm, setSlot_same]
  refine hI.moved ⟨hb.called, hb.nonneg, ?_, ?_, fun hk h₀ => ?_⟩ trivial (fun u _ => (hI.reads u).told array hold hpid) (.inl ⟨t, ?_⟩)
  · rwa [Log.note_set_self]
  · rwa [Log.note_set_self]
  · rw [Log.note_set_self, hfound]
    exact decide_eq_true (hown hk h₀)
  · rwa [Log.note_set_self, hpid]

theorem refused (hI : Inv k pids s g pos) (hb : Begun g t signal) (hm : s'.mem = s.mem) (hn : n.installed = none) (hc : n.changed = false) :
    Inv k pids s' (g.set t n) (Function.update pos t (some (.leave .errState))) := by
  refine hI.keeps (congrFun hm _) ⟨?_, fun _ _ _ => ⟨rfl, ?_⟩⟩ trivial ?_
  · rwa [Log.note_set_self]
  · rwa [Log.note_set_self]
  · rcases hI.pair with ⟨u, hu⟩ | hcons
    · have hut : u ≠ t := by
        rintro rfl
        rw [hb.waiting] at hu
        cases hu
      exact .inl ⟨u, by rwa [Log.note_set_ne _ _ hut]⟩
    · exact .inr (hcons.mono hm fun _ h => h)

theorem stored (hI : Inv k pids s g pos) (hc : Claimed k pids g t signal)
    (hord : signal = s.mem k.signalSlot ∨ ∃ u, (g.note u).installed = some (s.mem k.pidSlot))
    (hm : s'.mem = setSlot s.mem k.signalSlot signal) (hn : n.installed = none) (hown : n.own = (g.note t).own) (hcall : n.signal = signal) :
    Inv k pids s' (g.set t n) (Function.update pos t (some (.leave .ok))) := by
  have hpid : s'.mem k.pidSlot = s.mem k.pidSlot := by rw [hm, setSlot_ne _ _ k.slots_ne]
  have hsignal : s'.mem k.signalSlot = signal := by rw [hm, setSlot_same]
  refine hI.keeps hpid ⟨?_, fun hk h₀ hno => ?_⟩ trivial ?_
  · rwa [Log.note_set_self]
  · rw [Log.note_set_self] at h₀ hno
    rw [hown, hc.owned hk (hcall ▸ h₀)] at hno
    cases hno
  · have hcases : (∃ u, (g.note u).installed = some (s.mem k.pidSlot)) ∨ Consistent k pids s' g := by
      rcases hI.pair with hpend | hcons
      · exact .inl hpend
      · rcases hord with hsame | hpend
        · refine .inr ?_
          unfold Consistent at *
          rwa [hpid, hsignal, hsame]
        · exact .inl hpend
    rcases hcases with ⟨u, hu⟩ | hcons
    · by_cases hut : u = t
      · -- the last to install a pid stores its signal
        subst hut
        rw [hc.pending, Option.some.injEq] at hu
        refine .inr ?_
        unfold Consistent
        rw [hpid, hsignal, ← hu, installs]
        by_cases h₀ : signal = 0
        · simp [h₀]
        · have := hc.nonneg
          rw [if_neg h₀]
          exact .inr ⟨u, signal, hc.called, by omega, rfl, rfl⟩
      · exact .inl ⟨u, by rwa [Log.note_set_ne _ _ hut]⟩
    · exact .inr hcons

/-- **A move that meets the condition** keeps the invariant. -/
theorem step {S S' : Procs T} {l : T × Move ℤ} (hI : Inv k pids S.world g pos) (hat : (flow k q pids).At S pos)
    (hord : Orderly k pids S g l.1) (hs : Pool.Step shared (text k q pids) S l S') :
    ∃ pos', (flow k q pids).At S' pos' ∧ Inv k pids S'.world (g.after k pids S l S'.world) pos' := by
  obtain ⟨pos', hat', hmv⟩ := hat.step hs
  refine ⟨pos', hat', ?_⟩
  clear hs hat'
  generalize S'.world = s' at hmv ⊢
  cases hmv with
  | call hp => exact hI.called hp
  | ret hp hret =>
    next t p a =>
    refine ⟨fun u => ?_, fun u => ?_, hI.pair⟩
    · have hfit := hI.fits u
      by_cases hu : u = t
      · subst hu
        rw [Function.update_self]
        rw [hp] at hfit
        cases p with
        | done status => exact hfit.waiting
        | _ => cases hret
      · rwa [Function.update_of_ne hu]
    · by_cases hu : u = t
      · subst hu
        rw [Function.update_self]
        trivial
      · rw [Function.update_of_ne hu]
        exact hI.reads u
  | op hp hnext =>
    next t p p' =>
    have hfit := hI.fits t
    rw [hp] at hfit
    have htask : S.task t = some (p.text k (pids t)) := by
      rw [hat t, hp]
      rfl
    have hread := hI.reads t
    rw [hp] at hread
    obtain ⟨hstore, hcas⟩ := hord
    unfold Log.after
    dsimp only at hstore hcas ⊢
    rw [htask] at hstore hcas ⊢
    change Place.next k (pids t) t p S.world = _ at hnext
    cases p with
    | done status => cases hnext
    | guard signal =>
      simp only [Place.next, Option.map_eq_some_iff] at hnext
      obtain ⟨⟨r, s₁⟩, hr, he⟩ := hnext
      cases he
      have hm := shared_addAccessors hr
      rw [Log.tell_quiet (by rintro _ _ _ _ ⟨⟩)]
      exact hI.quiet (Note.after_quiet hm (by rintro _ _ ⟨⟩) (by rintro _ _ _ _ ⟨⟩) (by rintro _ _ _ ⟨⟩)) hm hfit hread
    | find signal =>
      simp only [Place.next, Option.map_eq_some_iff] at hnext
      obtain ⟨⟨r, s₁⟩, hr, he⟩ := hnext
      cases he
      have hm := shared_current hr
      rw [Log.tell_quiet (by rintro _ _ _ _ ⟨⟩)]
      exact hI.quiet (Note.after_quiet hm (by rintro _ _ ⟨⟩) (by rintro _ _ _ _ ⟨⟩) (by rintro _ _ _ ⟨⟩)) hm hfit hread
    | read signal array =>
      simp only [Place.next, Option.map_eq_some_iff] at hnext
      obtain ⟨⟨r, s₁⟩, hr, he⟩ := hnext
      cases he
      obtain ⟨rfl, hm⟩ := shared_load hr
      have hb : Begun g t signal := hfit
      rw [Log.tell_quiet (by rintro _ _ _ _ ⟨⟩)]
      change Inv k pids s₁ (g.set t (Note.after k (pids t) (some (.load array k.pidSlot)) S.world s₁ (g.note t))) _
      unfold Note.after
      dsimp only
      rw [hm, hb.same]
      simp only [ne_eq, not_true_eq_false, decide_false, Bool.or_false]
      exact hI.read hb hm
    | claim signal prev =>
      simp only [Place.next, Option.map_eq_some_iff] at hnext
      obtain ⟨⟨r, s₁⟩, hr, he⟩ := hnext
      cases he
      have hm := shared_current hr
      rw [Log.tell_quiet (by rintro _ _ _ _ ⟨⟩)]
      exact hI.quiet (Note.after_quiet hm (by rintro _ _ ⟨⟩) (by rintro _ _ _ _ ⟨⟩) (by rintro _ _ _ ⟨⟩)) hm hfit hread
    | swap signal prev array =>
      simp only [Place.next, Option.map_eq_some_iff] at hnext
      obtain ⟨⟨r, s₁⟩, hr, he⟩ := hnext
      cases he
      have hb : Begun g t signal := hfit
      obtain ⟨hfound, hnow⟩ := hread
      have hown := hcas array prev (installs (pids t) signal) rfl
      change Inv k pids s₁ ((g.tell k (some (.cas array k.pidSlot prev (installs (pids t) signal))) S.world).set t
        (Note.after k (pids t) (some (.cas array k.pidSlot prev (installs (pids t) signal))) S.world s₁ (g.note t))) _
      rw [hb.note, hfound] at hown
      rcases shared_cas hr with ⟨rfl, hold, hm⟩ | ⟨rfl, hold, hm⟩
      · refine hI.swapped hb (fun hk h₀ => ?_) hold hm hb.note (if_pos hold) rfl
        rcases hown hk h₀ with hmine | ⟨pid, hreplaced, hne⟩
        · exact hold.trans hmine
        · -- what another has installed since is not the pid that was read
          rw [hreplaced, hold] at hnow
          exact absurd hnow.symm hne
      · rw [Log.tell_quiet (by rintro _ _ _ _ ⟨⟩; exact hold)]
        refine hI.refused hb hm ((if_neg hold).trans hb.waiting) ?_
        change ((g.note t).changed || decide (s₁.mem k.pidSlot ≠ _) || decide (s₁.mem k.signalSlot ≠ _)) = false
        rw [hm, hb.same]
        simp only [ne_eq, not_true_eq_false, decide_false, Bool.or_false]
    | publish signal =>
      simp only [Place.next, Option.map_eq_some_iff] at hnext
      obtain ⟨⟨r, s₁⟩, hr, he⟩ := hnext
      cases he
      have hm := shared_current hr
      rw [Log.tell_quiet (by rintro _ _ _ _ ⟨⟩)]
      exact hI.quiet (Note.after_quiet hm (by rintro _ _ ⟨⟩) (by rintro _ _ _ _ ⟨⟩) (by rintro _ _ _ ⟨⟩)) hm hfit hread
    | put signal array =>
      simp only [Place.next, Option.map_eq_some_iff] at hnext
      obtain ⟨⟨r, s₁⟩, hr, he⟩ := hnext
      cases he
      have hc : Claimed k pids g t signal := hfit
      rw [Log.tell_quiet (by rintro _ _ _ _ ⟨⟩)]
      exact hI.stored hc (hstore array signal rfl) (shared_store hr) rfl rfl hc.note
    | leave status =>
      simp only [Place.next, Option.map_eq_some_iff] at hnext
      obtain ⟨⟨r, s₁⟩, hr, he⟩ := hnext
      cases he
      have hm := shared_addAccessors hr
      rw [Log.tell_quiet (by rintro _ _ _ _ ⟨⟩)]
      exact hI.quiet (Note.after_quiet hm (by rintro _ _ ⟨⟩) (by rintro _ _ _ _ ⟨⟩) (by rintro _ _ _ ⟨⟩)) hm hfit hread

end Inv

/-- **Registration is consistent in orderly runs.** Whenever no call is in progress, the stored pair is (0, 0) or that of one
registering call; and a call to unregister that did not find its own pid returns `SH_ERR_STATE`, with nothing changed. -/
theorem registration_consistent {S₀ S : Procs T} {ls : List (T × Move ℤ)} (hidle : ∀ t, S₀.task t = none)
    (hpid : S₀.world.mem k.pidSlot = 0) (hsignal : S₀.world.mem k.signalSlot = 0)
    (h : Trace (OrderlyStep k q pids) (S₀, .start) ls (S, g)) :
    ((∀ t, S.task t = none) → Consistent k pids S.world g) ∧
      (k ≠ .monitor → ∀ t status, S.task t = some (.ret status) → (g.note t).signal = 0 → (g.note t).own = false →
        status = .errState ∧ (g.note t).changed = false) := by
  have hinv := h.invariant (fun s => ∃ pos, (flow k q pids).At s.1 pos ∧ Inv k pids s.1.world s.2 pos) ?_ ?_
  · obtain ⟨pos, hat, hI⟩ := hinv
    constructor
    · intro hquiet
      rcases hI.pair with ⟨u, hu⟩ | hcons
      · have hfit := hI.fits u
        have hpos : pos u = none := by
          have := hat u
          rw [hquiet u] at this
          exact Option.map_eq_none_iff.1 this.symm
        rw [hpos] at hfit
        rw [show (g.note u).installed = none from hfit] at hu
        cases hu
      · exact hcons
    · intro hk t status hret
      have hfit := hI.fits t
      have htask := hat t
      rw [hret] at htask
      obtain ⟨p, hp, htext⟩ := Option.map_eq_some_iff.1 htask.symm
      rw [hp] at hfit
      cases p with
      | done st =>
        cases htext
        exact hfit.refused hk
      | _ => cases htext
  · rintro ⟨S, g⟩ l ⟨S', g'⟩ ⟨pos, hat, hI⟩ ⟨hord, hs, hlog⟩
    dsimp only at hlog
    subst hlog
    exact hI.step hat hord hs
  · exact ⟨fun _ => none, hidle, fun _ => rfl, fun _ => trivial, .inr (.inl ⟨hpid, hsignal⟩)⟩

end

/-! ## Two processes -/

/-- The two processes on a fresh object. -/
def fresh : Procs (Fin 2) := ⟨⟨fun _ => 0, fun _ => 0, 4096, fun _ => .fresh⟩, fun _ => none⟩

def pair : Fin 2 → ShrQ := fun _ => ⟨.readwrite⟩

def pidOf (t : Fin 2) : ℤ := if t = 0 then 11 else 22

def ops (t : Fin 2) (n : ℕ) : List (Fin 2 × Move ℤ) := List.replicate n (t, .op)

def whole (t : Fin 2) (signal : ℤ) : List (Fin 2 × Move ℤ) := (t, .call signal) :: ops t 8 ++ [(t, .ret)]

/-- Process 1 registers while process 0 is between its `CAS` and its store. -/
def overtaken : List (Fin 2 × Move ℤ) := (0, .call 10) :: ops 0 5 ++ whole 1 12 ++ ops 0 3 ++ [(0, .ret)]

/-- Process 1 unregisters when process 0 is registered. -/
def unregistered : List (Fin 2 × Move ℤ) := whole 0 10 ++ (1, .call 0) :: ops 1 8

/-- Process 1 has read the pid, to unregister, when process 0 registers, and comes to its end. -/
def raced : List (Fin 2 × Move ℤ) := (1, .call 0) :: ops 1 3 ++ whole 0 10 ++ ops 1 3

/-- And its call is over. -/
def settled : List (Fin 2 × Move ℤ) := raced ++ [(1, .ret)]

def run (k : Kind) (s : Procs (Fin 2) × Log (Fin 2)) (l : Fin 2 × Move ℤ) : Option (Procs (Fin 2) × Log (Fin 2)) :=
  (s.1.step shared (text k pair pidOf) l).map fun S' => (S', s.2.after k pidOf s.1 l S'.world)

theorem run_step {k : Kind} {s s' : Procs (Fin 2) × Log (Fin 2)} {l : Fin 2 × Move ℤ} (h : run k s l = some s') : Step k pair pidOf s l s' := by
  obtain ⟨S', hS, rfl⟩ := Option.map_eq_some_iff.1 h
  exact ⟨hS, rfl⟩

def orderly (k : Kind) (s : Procs (Fin 2)) (g : Log (Fin 2)) (t : Fin 2) : Bool :=
  match (s.task t).bind head? with
  | some (.store _ _ v) => v = s.world.mem k.signalSlot || (g.note 0).installed = some (s.world.mem k.pidSlot) ||
      (g.note 1).installed = some (s.world.mem k.pidSlot)
  | some (.cas ..) => (g.note t).signal ≠ 0 || (g.note t).found = pidOf t || (g.note t).replaced.any (· ≠ (g.note t).found)
  | _ => true

theorem orderly_sound {k : Kind} {s : Procs (Fin 2)} {g : Log (Fin 2)} {t : Fin 2} (h : orderly k s g t = true) : Orderly k pidOf s g t := by
  constructor
  · intro array v hv
    simp only [orderly, hv, Bool.or_eq_true, decide_eq_true_eq] at h
    rcases h with (h | h) | h
    · exact .inl h
    · exact .inr ⟨0, h⟩
    · exact .inr ⟨1, h⟩
  · intro array old new hcas _ hsignal
    simp only [orderly, hcas, hsignal, Bool.or_eq_true, decide_eq_true_eq, ne_eq, not_true_eq_false, false_or] at h
    refine h.imp_right fun h => ?_
    obtain ⟨pid, hpid, hne⟩ := (Option.any_eq_true _ _).1 h
    exact ⟨pid, hpid, of_decide_eq_true hne⟩

def runOrderly (k : Kind) (s : Procs (Fin 2) × Log (Fin 2)) (l : Fin 2 × Move ℤ) : Option (Procs (Fin 2) × Log (Fin 2)) :=
  if orderly k s.1 s.2 l.1 then run k s l else none

theorem runOrderly_step {k : Kind} {s s' : Procs (Fin 2) × Log (Fin 2)} {l : Fin 2 × Move ℤ} (h : runOrderly k s l = some s') :
    OrderlyStep k pair pidOf s l s' := by
  unfold runOrderly at h
  split at h
  · next ho => exact ⟨orderly_sound ho, run_step h⟩
  · cases h

/-- The one that was faster is registered, with its own signal, and the other is refused. -/
theorem registration_consistent_raced : ∃ S g, Trace (OrderlyStep .listen pair pidOf) (fresh, .start) raced (S, g) ∧
    (∀ status, S.task 1 = some (.ret status) → status = .errState ∧ (g.note 1).changed = false) ∧
    ∃ S' g', Trace (OrderlyStep .listen pair pidOf) (fresh, .start) settled (S', g') ∧
      S'.world.mem LISTEN_PID = 11 ∧ Consistent .listen pidOf S'.world g' := by
  have hrun : ∃ s, raced.foldlM (runOrderly .listen) (fresh, .start) = some s ∧ (s.2.note 1).signal = 0 ∧ (s.2.note 1).own = false :=
    ⟨_, rfl, rfl, rfl⟩
  have hrun' : ∃ s, settled.foldlM (runOrderly .listen) (fresh, .start) = some s ∧ s.1.task 0 = none ∧ s.1.task 1 = none ∧
      s.1.world.mem 116 = 11 := ⟨_, rfl, rfl, rfl, rfl⟩
  obtain ⟨⟨S, g⟩, hs, hsignal, hown⟩ := hrun
  obtain ⟨⟨S', g'⟩, hs', h₀, h₁, hpid⟩ := hrun'
  have htrace : Trace (OrderlyStep .listen pair pidOf) (fresh, .start) raced (S, g) := Trace.of_foldlM (fun _ _ _ => runOrderly_step) hs
  have htrace' : Trace (OrderlyStep .listen pair pidOf) (fresh, .start) settled (S', g') :=
    Trace.of_foldlM (fun _ _ _ => runOrderly_step) hs'
  have hquiet : ∀ t, S'.task t = none := Fin.forall_fin_two.2 ⟨h₀, h₁⟩
  exact ⟨S, g, htrace, fun status hret => (registration_consistent (fun _ => rfl) rfl rfl htrace).2 (by decide) 1 status hret hsignal hown,
    S', g', htrace', hpid, (registration_consistent (fun _ => rfl) rfl rfl htrace').1 hquiet⟩

/-- The pid of one process is left with the signal of another; and a process unregisters another. -/
theorem pairs_mix : (∃ S g, Trace (Step .listen pair pidOf) (fresh, .start) overtaken (S, g) ∧ (∀ t, S.task t = none) ∧
      S.world.mem LISTEN_PID = 22 ∧ S.world.mem LISTEN_SIGNAL = 10 ∧ ¬Consistent .listen pidOf S.world g) ∧
    ∃ S g, Trace (Step .listen pair pidOf) (fresh, .start) unregistered (S, g) ∧ S.task 1 = some (.ret .ok) ∧
      (g.note 1).signal = 0 ∧ (g.note 1).own = false ∧ (g.note 1).changed = true := by
  constructor
  · have hrun : ∃ s, overtaken.foldlM (run .listen) (fresh, .start) = some s ∧ s.1.task 0 = none ∧ s.1.task 1 = none ∧
        s.1.world.mem 116 = 22 ∧ s.1.world.mem 117 = 10 ∧ s.2.calls = [(1, 12), (0, 10)] := ⟨_, rfl, rfl, rfl, rfl, rfl, rfl⟩
    obtain ⟨⟨S, g⟩, hs, h₀, h₁, hpid, hsignal, hcalls⟩ := hrun
    refine ⟨S, g, Trace.of_foldlM (fun _ _ _ => run_step) hs, Fin.forall_fin_two.2 ⟨h₀, h₁⟩, hpid, hsignal, ?_⟩
    rintro (⟨h, -⟩ | ⟨t, signal, hmem, -, hp, hsig⟩)
    · rw [show S.world.mem Kind.listen.pidSlot = 22 from hpid] at h
      cases h
    · rw [show S.world.mem Kind.listen.pidSlot = 22 from hpid] at hp
      rw [show S.world.mem Kind.listen.signalSlot = 10 from hsignal] at hsig
      rw [hcalls, ← hsig] at hmem
      rcases List.mem_cons.1 hmem with h | h
      · cases h
      · rw [List.mem_singleton] at h
        cases h
        cases hp
  · have hrun : ∃ s, unregistered.foldlM (run .listen) (fresh, .start) = some s ∧ s.1.task 1 = some (.ret .ok) ∧
        (s.2.note 1).signal = 0 ∧ (s.2.note 1).own = false ∧ (s.2.note 1).changed = true := ⟨_, rfl, rfl, rfl, rfl, rfl⟩
    obtain ⟨⟨S, g⟩, hs, h⟩ := hrun
    exact ⟨S, g, Trace.of_foldlM (fun _ _ _ => run_step) hs, h⟩

end LibShr.Registration
