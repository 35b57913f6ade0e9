import Mathlib.Logic.Relation

/-!
# Imperative programs over an abstract set of atomic operations

`Prog O R α` is a program that returns an `α` and acts on the outside world only through
atomic operations `o : O`, each answered by a value of type `R o`. Loops are a constructor of
their own (`loop`), so a program may fail to terminate without being coinductive. One program
text is given two meanings elsewhere: run alone (`Seq`), and interleaved with others operation
by operation (`Pool`).
-/

/-- Programs over the operations `O` with answers `R`. `loop body s k` repeats `body`, which
either asks for another round (`inl`) or leaves with a value for `k` (`inr`). -/
inductive Prog (O : Type) (R : O → Type) : Type → Type 1
  | ret {α : Type} (a : α) : Prog O R α
  | act {α : Type} (o : O) (k : R o → Prog O R α) : Prog O R α
  | loop {σ β α : Type} (body : σ → Prog O R (σ ⊕ β)) (s : σ) (k : β → Prog O R α) : Prog O R α

namespace Prog

variable {O : Type} {R : O → Type} {α β γ σ : Type}

def bind {α β : Type} : Prog O R α → (α → Prog O R β) → Prog O R β
  | .ret a, f => f a
  | .act o k, f => .act o fun r => (k r).bind f
  | .loop b s k, f => .loop b s fun x => (k x).bind f

instance : Monad (Prog O R) where
  pure := .ret
  bind := .bind

theorem bind_ret (p : Prog O R α) : p.bind .ret = p := by
  induction p with
  | ret a => rfl
  | act o k ih => simp [bind, ih]
  | loop b s k _ ih => simp [bind, ih]

theorem bind_assoc (p : Prog O R α) (f : α → Prog O R β) (g : β → Prog O R γ) :
    (p.bind f).bind g = p.bind fun a => (f a).bind g := by
  induction p with
  | ret a => rfl
  | act o k ih => simp [bind, ih]
  | loop b s k _ ih => simp [bind, ih]

instance : LawfulMonad (Prog O R) :=
  LawfulMonad.mk' (Prog O R) (fun p => bind_ret p) (fun _ _ => rfl) fun p f g => bind_assoc p f g

/-- Issue one operation and return its answer. -/
def op (o : O) : Prog O R (R o) := .act o .ret

/-- `while`-style loop whose body decides between another round and leaving. -/
def iterate (body : σ → Prog O R (σ ⊕ β)) (s : σ) : Prog O R β := .loop body s .ret

/-- What remains of `loop body s k` once a round of `body` has returned. -/
def resume (body : σ → Prog O R (σ ⊕ β)) (k : β → Prog O R α) : σ ⊕ β → Prog O R α
  | .inl s => .loop body s k
  | .inr b => k b

/-- One unrolling of a loop. -/
def unroll (body : σ → Prog O R (σ ⊕ β)) (s : σ) (k : β → Prog O R α) : Prog O R α :=
  (body s).bind (resume body k)

@[simp] theorem ret_eq_pure (a : α) : (Prog.ret a : Prog O R α) = pure a := rfl

@[simp] theorem bind_eq (p : Prog O R α) (f : α → Prog O R β) : p.bind f = p >>= f := rfl

end Prog
