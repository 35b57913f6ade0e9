import LibShr.Lib.Seq
import LibShr.Lib.Trace
import Mathlib.Logic.Function.Basic

/-!
# Many threads, operation by operation

A `Pool` is a world with any number of threads, each of which is idle or has the rest of a program to
run. A thread that is idle may call, one that runs performs its next operation, one whose program has
returned becomes idle again; any thread may be the next to move. The operations of a thread are
answered by its own handler.

A `ControlFlow` is the control flow of the programs: their places, and where each operation leads. The places
of the threads say all there is to say about their programs.
-/

namespace Prog

variable {O O' W W' T C P α β : Type} {R : O → Type} {R' : O' → Type}

/-! ## Replacing operations by texts -/

/-- The program with each operation replaced by the text that performs it. -/
def subst (i : (o : O) → Prog O' R' (R o)) {α : Type} : Prog O R α → Prog O' R' α
  | .ret a => .ret a
  | .act o k => (i o).bind fun r => (k r).subst i
  | .loop body s k => .loop (fun s => (body s).subst i) s fun b => (k b).subst i

section
variable {i : (o : O) → Prog O' R' (R o)}

@[simp] theorem subst_pure (a : α) : (pure a : Prog O R α).subst i = pure a := rfl

@[simp] theorem subst_op (o : O) : (op o : Prog O R (R o)).subst i = i o := bind_ret (i o)

@[simp] theorem subst_bind (p : Prog O R α) (f : α → Prog O R β) : (p >>= f).subst i = p.subst i >>= fun a => (f a).subst i := by
  induction p with
  | ret a => rfl
  | act o k ih =>
    change (i o).bind (fun r => ((k r).bind f).subst i) = ((i o).bind fun r => (k r).subst i).bind fun a => (f a).subst i
    rw [bind_assoc]
    congr 1
    funext r
    exact ih r f
  | loop body s k _ ih =>
    change Prog.loop _ s (fun b => ((k b).bind f).subst i) = Prog.loop _ s fun b => ((k b).subst i).bind fun a => (f a).subst i
    congr 1
    funext b
    exact ih b f

@[simp] theorem subst_ite {c : Prop} [Decidable c] (p q : Prog O R α) :
    (if c then p else q).subst i = if c then p.subst i else q.subst i := by
  split <;> rfl

end

/-! ## Moves -/

/-- The operation a program performs next. -/
def head? : Prog O R α → Option O
  | .act o _ => some o
  | _ => none

/-- The next operation of a program, or the next round of a loop. -/
def step (h : Handler O R W) : Prog O R α → W → Option (Prog O R α × W)
  | .ret _, _ => none
  | .act o k, w => (h o w).map fun r => (k r.1, r.2)
  | .loop body s k, w => some (unroll body s k, w)

section
variable {h : Handler O R W} {h' : Handler O' R' W'} {i : (o : O) → Prog O' R' (R o)} {w w' w'' : W} {a : α}

/-- A program that has made its next step is on a run of its own. -/
theorem Runs.of_step {p p' : Prog O R α} (hs : p.step h w = some (p', w')) (hr : Runs h p' w' a w'') : Runs h p w a w'' := by
  cases p with
  | ret a => cases hs
  | act o k =>
    obtain ⟨⟨r, w₁⟩, ho, he⟩ := Option.map_eq_some_iff.1 hs
    cases he
    exact .act ho hr
  | loop body s k =>
    cases hs
    obtain ⟨x, w₁, hb, hk⟩ := runs_bind.1 hr
    cases x with
    | inl s' => exact .again hb hk
    | inr b => exact .leave hb hk

/-- A run of a loop over texts is matched by one of the loop over the operations, given the same of its body and of what comes after. -/
theorem Runs.simulate_subst_loop {σ : Type} {body : σ → Prog O R (σ ⊕ β)} {k : β → Prog O R α} (S : W' → W → Prop)
    (hbody : ∀ s v u x v', S v u → Runs h' ((body s).subst i) v x v' → ∃ u', Runs h (body s) u x u' ∧ S v' u')
    (hk : ∀ b v u x v', S v u → Runs h' ((k b).subst i) v x v' → ∃ u', Runs h (k b) u x u' ∧ S v' u') {q : Prog O' R' α} {v v' : W'}
    (hr : Runs h' q v a v') :
    ∀ s u, S v u → q = .loop (fun s => (body s).subst i) s (fun b => (k b).subst i) → ∃ u', Runs h (.loop body s k) u a u' ∧ S v' u' := by
  induction hr with
  | ret => intro s u _ hq; cases hq
  | act => intro s u _ hq; cases hq
  | again hb _ _ ih =>
    intro s u hS hq
    cases hq
    obtain ⟨u₁, hb₁, hS₁⟩ := hbody _ _ _ _ _ hS hb
    obtain ⟨u₂, hk₂, hS₂⟩ := ih hk _ _ hS₁ rfl
    exact ⟨u₂, .again hb₁ hk₂, hS₂⟩
  | leave hb hrest =>
    intro s u hS hq
    cases hq
    obtain ⟨u₁, hb₁, hS₁⟩ := hbody _ _ _ _ _ hS hb
    obtain ⟨u₂, hk₂, hS₂⟩ := hk _ _ _ _ _ hS₁ hrest
    exact ⟨u₂, .leave hb₁ hk₂, hS₂⟩

/-- **A run of the texts is matched by a run of the operations**, where each text is matched by its operation. -/
theorem Runs.simulate_subst (S : W' → W → Prop)
    (hi : ∀ o v u r v', S v u → Runs h' (i o) v r v' → ∃ u', h o u = some (r, u') ∧ S v' u') {α : Type} {p : Prog O R α}
    {a : α} {v v' : W'} {u : W} (hr : Runs h' (p.subst i) v a v') (hS : S v u) : ∃ u', Runs h p u a u' ∧ S v' u' := by
  induction p generalizing v v' u with
  | ret b =>
    cases hr
    exact ⟨u, .ret _ _, hS⟩
  | act o k ih =>
    obtain ⟨r, v₁, ho, hk⟩ := runs_bind.1 hr
    obtain ⟨u₁, ho₁, hS₁⟩ := hi _ _ _ _ _ hS ho
    obtain ⟨u₂, hk₂, hS₂⟩ := ih r hk hS₁
    exact ⟨u₂, .act ho₁ hk₂, hS₂⟩
  | loop body s k ihb ihk =>
    exact hr.simulate_subst_loop S (fun s _ _ _ _ hS h => ihb s h hS) (fun b _ _ _ _ hS h => ihk b h hS) s u hS rfl

/-- A run of the texts is a run of the operations, where each text does what its operation does. -/
theorem Runs.of_subst (abs : W' → W) (hi : ∀ o v r v', Runs h' (i o) v r v' → h o (abs v) = some (r, abs v')) {α : Type} {p : Prog O R α}
    {a : α} {v v' : W'} (hr : Runs h' (p.subst i) v a v') : Runs h p (abs v) a (abs v') := by
  obtain ⟨u', hr', rfl⟩ := hr.simulate_subst (fun v u => u = abs v) (fun o v u r v' hS ho => ⟨abs v', hS ▸ hi o v r v' ho, rfl⟩) rfl
  exact hr'

end

end Prog

/-- A thread makes a call, performs an operation, or returns. -/
inductive Move (C : Type)
  | call (c : C)
  | op
  | ret
deriving DecidableEq

/-- The world and what each thread has still to run. -/
structure Pool (O : Type) (R : O → Type) (W T α : Type) where
  world : W
  task : T → Option (Prog O R α)

namespace Pool

open Prog

variable {O W T C P α : Type} {R : O → Type} [DecidableEq T]

/-- One move of one thread. -/
def step (h : T → Handler O R W) (text : T → C → Prog O R α) (s : Pool O R W T α) : T × Move C → Option (Pool O R W T α)
  | (t, .call c) =>
    match s.task t with
    | none => some { s with task := Function.update s.task t (some (text t c)) }
    | some _ => none
  | (t, .op) => (s.task t).bind fun p => (p.step (h t) s.world).map fun r => ⟨r.2, Function.update s.task t (some r.1)⟩
  | (t, .ret) =>
    match s.task t with
    | some (.ret _) => some { s with task := Function.update s.task t none }
    | _ => none

/-- A move as a step of a transition system. -/
def Step (h : T → Handler O R W) (text : T → C → Prog O R α) (s : Pool O R W T α) (l : T × Move C) (s' : Pool O R W T α) : Prop :=
  s.step h text l = some s'

variable {h : T → Handler O R W} {text : T → C → Prog O R α} {s s' : Pool O R W T α} {t : T} {c : C}

theorem Step.call (hs : Step h text s (t, .call c) s') : s.task t = none ∧ s'.world = s.world ∧ s'.task t = some (text t c) ∧
    ∀ u, u ≠ t → s'.task u = s.task u := by
  simp only [Step, step] at hs
  split at hs
  · next hidle =>
    cases hs
    exact ⟨hidle, rfl, Function.update_self _ _ _, fun u hu => Function.update_of_ne hu _ _⟩
  · cases hs

theorem Step.op (hs : Step h text s (t, .op) s') : ∃ p p', s.task t = some p ∧ p.step (h t) s.world = some (p', s'.world) ∧
    s'.task t = some p' ∧ ∀ u, u ≠ t → s'.task u = s.task u := by
  obtain ⟨p, hp, hs⟩ := Option.bind_eq_some_iff.1 hs
  obtain ⟨⟨p', w'⟩, hstep, rfl⟩ := Option.map_eq_some_iff.1 hs
  exact ⟨p, p', hp, hstep, Function.update_self _ _ _, fun u hu => Function.update_of_ne hu _ _⟩

theorem Step.ret (hs : Step h text s (t, .ret) s') : ∃ a, s.task t = some (.ret a) ∧ s'.world = s.world ∧ s'.task t = none ∧
    ∀ u, u ≠ t → s'.task u = s.task u := by
  simp only [Step, step] at hs
  split at hs
  · next a ha =>
    cases hs
    exact ⟨a, ha, rfl, Function.update_self _ _ _, fun u hu => Function.update_of_ne hu _ _⟩
  · cases hs

/-- What the call of a thread is about to return. -/
def result (s : Pool O R W T α) (t : T) : Option α :=
  match s.task t with
  | some (.ret a) => some a
  | _ => none

theorem task_of_result {a : α} (hr : s.result t = some a) : s.task t = some (.ret a) := by
  unfold result at hr
  split at hr
  · next a' ha' =>
    cases hr
    exact ha'
  · cases hr

end Pool

/-- The control flow of the programs the threads may run. -/
structure ControlFlow {O W T C α : Type} {R : O → Type} (h : T → Prog.Handler O R W) (text : T → C → Prog O R α) (P : Type) where
  /-- What is left to run at a place. -/
  place : T → P → Prog O R α
  start : T → C → P
  next : T → P → W → Option (P × W)
  text_eq : ∀ t c, text t c = place t (start t c)
  step_eq : ∀ t p w, (place t p).step (h t) w = (next t p w).map fun r => (place t r.1, r.2)

namespace ControlFlow

open Prog

variable {O W T C P α : Type} {R : O → Type} [DecidableEq T] {h : T → Handler O R W} {text : T → C → Prog O R α}
  (F : ControlFlow h text P) {s s' : Pool O R W T α} {pos : T → Option P} {l : T × Move C}

/-- The threads are at these places. -/
def At (s : Pool O R W T α) (pos : T → Option P) : Prop := ∀ t, s.task t = (pos t).map (F.place t)

/-- A move, as it is seen from the places. -/
inductive Moves (w : W) (pos : T → Option P) : T × Move C → W → (T → Option P) → Prop
  | call {t : T} {c : C} : pos t = none → Moves w pos (t, .call c) w (Function.update pos t (some (F.start t c)))
  | op {t : T} {p p' : P} {w' : W} : pos t = some p → F.next t p w = some (p', w') →
      Moves w pos (t, .op) w' (Function.update pos t (some p'))
  | ret {t : T} {p : P} {a : α} : pos t = some p → F.place t p = .ret a → Moves w pos (t, .ret) w (Function.update pos t none)

variable {F}

theorem At.update (hat : F.At s pos) {t : T} {o : Option P} (ht : s'.task t = o.map (F.place t)) (hother : ∀ u, u ≠ t → s'.task u = s.task u) :
    F.At s' (Function.update pos t o) := by
  intro u
  by_cases hu : u = t
  · subst hu
    rwa [Function.update_self]
  · rw [Function.update_of_ne hu, hother u hu]
    exact hat u

/-- **A move of the pool is a move between places.** -/
theorem At.step (hat : F.At s pos) (hs : Pool.Step h text s l s') : ∃ pos', F.At s' pos' ∧ F.Moves s.world pos l s'.world pos' := by
  obtain ⟨t, m⟩ := l
  have ht := hat t
  cases m with
  | call c =>
    obtain ⟨hidle, hw, htask, hother⟩ := hs.call
    rw [hidle] at ht
    rw [F.text_eq] at htask
    refine ⟨_, hat.update (o := some (F.start t c)) htask hother, ?_⟩
    rw [hw]
    exact .call (Option.map_eq_none_iff.1 ht.symm)
  | op =>
    obtain ⟨q, q', hq, hstep, htask, hother⟩ := hs.op
    rw [hq] at ht
    obtain ⟨p, hp, rfl⟩ := Option.map_eq_some_iff.1 ht.symm
    rw [F.step_eq] at hstep
    obtain ⟨⟨p', w'⟩, hn, he⟩ := Option.map_eq_some_iff.1 hstep
    obtain ⟨rfl, rfl⟩ := Prod.mk.inj he
    exact ⟨_, hat.update (o := some p') htask hother, .op hp hn⟩
  | ret =>
    obtain ⟨a, ha, hw, htask, hother⟩ := hs.ret
    rw [ha] at ht
    obtain ⟨p, hp, hpa⟩ := Option.map_eq_some_iff.1 ht.symm
    refine ⟨_, hat.update (o := none) htask hother, ?_⟩
    rw [hw]
    exact .ret hp hpa

end ControlFlow
