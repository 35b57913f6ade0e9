import LibShr.Lib.Pool

/-!
# Programs of one layer run by the next

`p.subst i` runs a program over another set of operations. Where the texts `i` follow the operations
of `p` along a relation between the two worlds, the text of a program follows its runs. A program may
use less than all operations (`Only`), and then only those it uses have to be followed.
-/

namespace Prog

variable {O O' W W' α β σ : Type} {R : O → Type} {R' : O' → Type}

/-- Every operation the program may perform meets `P`. -/
def Only (P : O → Prop) : {α : Type} → Prog O R α → Prop
  | _, .ret _ => True
  | _, .act o k => P o ∧ ∀ r, (k r).Only P
  | _, .loop body _ k => (∀ s, (body s).Only P) ∧ ∀ b, (k b).Only P

section
variable {P : O → Prop}

theorem only_pure {a : α} : (pure a : Prog O R α).Only P := trivial

theorem only_op {o : O} (h : P o) : (op o : Prog O R (R o)).Only P := ⟨h, fun _ => trivial⟩

theorem only_bind {p : Prog O R α} {f : α → Prog O R β} (hp : p.Only P) (hf : ∀ a, (f a).Only P) : (p >>= f).Only P := by
  induction p with
  | ret a => exact hf a
  | act o k ih => exact ⟨hp.1, fun r => ih r (hp.2 r) hf⟩
  | loop body s k _ ih => exact ⟨hp.1, fun b => ih b (hp.2 b) hf⟩

theorem only_iterate {body : σ → Prog O R (σ ⊕ β)} {s : σ} (h : ∀ s, (body s).Only P) : (iterate body s).Only P :=
  ⟨h, fun _ => trivial⟩

theorem only_ite {c : Prop} [Decidable c] {p q : Prog O R α} (hp : p.Only P) (hq : q.Only P) : (if c then p else q).Only P := by
  split
  · exact hp
  · exact hq

/-- A program that may perform anything. -/
theorem only_true (p : Prog O R α) : p.Only fun _ => True := by
  induction p with
  | ret a => trivial
  | act o k ih => exact ⟨trivial, ih⟩
  | loop body s k ihb ihk => exact ⟨ihb, ihk⟩

end

section
variable {h : Handler O R W} {h' : Handler O' R' W'} {i : (o : O) → Prog O' R' (R o)} {P : O → Prop}

/-- **The text of a program follows its runs**, where the text of each operation it uses follows the operation. -/
theorem Runs.subst (S : W → W' → Prop)
    (hi : ∀ o w v r w', P o → S w v → h o w = some (r, w') → ∃ v', Runs h' (i o) v r v' ∧ S w' v')
    {p : Prog O R α} {w w' : W} {a : α} (hr : Runs h p w a w') :
    ∀ {v : W'}, p.Only P → S w v → ∃ v', Runs h' (p.subst i) v a v' ∧ S w' v' := by
  induction hr with
  | ret a w =>
    intro v _ hS
    exact ⟨v, .ret a v, hS⟩
  | act ho _ ih =>
    intro v hp hS
    obtain ⟨v₁, h₁, hS₁⟩ := hi _ _ _ _ _ hp.1 hS ho
    obtain ⟨v', h₂, hS'⟩ := ih (hp.2 _) hS₁
    exact ⟨v', runs_bind.2 ⟨_, v₁, h₁, h₂⟩, hS'⟩
  | again _ _ ihb ihk =>
    intro v hp hS
    obtain ⟨v₁, h₁, hS₁⟩ := ihb (hp.1 _) hS
    obtain ⟨v', h₂, hS'⟩ := ihk hp hS₁
    exact ⟨v', .again h₁ h₂, hS'⟩
  | leave _ _ ihb ihk =>
    intro v hp hS
    obtain ⟨v₁, h₁, hS₁⟩ := ihb (hp.1 _) hS
    obtain ⟨v', h₂, hS'⟩ := ihk (hp.2 _) hS₁
    exact ⟨v', .leave h₁ h₂, hS'⟩

/-- **What the operations keep**, a program that uses no others keeps. -/
theorem Runs.keeps (I : W → Prop) (hI : ∀ o w r w', P o → I w → h o w = some (r, w') → I w') {p : Prog O R α} {w w' : W} {a : α}
    (hr : Runs h p w a w') (hp : p.Only P) (hw : I w) : I w' := by
  induction hr with
  | ret a w => exact hw
  | act ho _ ih => exact ih (hp.2 _) (hI _ _ _ _ hp.1 hw ho)
  | again _ _ ihb ihk => exact ihk hp (ihb (hp.1 _) hw)
  | leave _ _ ihb ihk => exact ihk (hp.2 _) (ihb (hp.1 _) hw)

/-- What is shown of a program holds of its text. -/
theorem wp_subst (S : W → W' → Prop)
    (hi : ∀ o w v r w', P o → S w v → h o w = some (r, w') → ∃ v', Runs h' (i o) v r v' ∧ S w' v')
    {p : Prog O R α} {w : W} {v : W'} {Q : α → W → Prop} {Q' : α → W' → Prop} (hp : p.Only P) (hS : S w v)
    (hw : wp h True p Q w) (hQ : ∀ a w' v', Q a w' → S w' v' → Q' a v') : wp h' True (p.subst i) Q' v := by
  obtain ⟨a, w', hr, ha⟩ := (wp_iff_runs trivial).1 hw
  obtain ⟨v', hr', hS'⟩ := hr.subst S hi hp hS
  exact (wp_iff_runs trivial).2 ⟨a, v', hr', hQ a w' v' ha hS'⟩

end

end Prog
