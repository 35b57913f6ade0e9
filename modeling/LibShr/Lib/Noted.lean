import LibShr.Lib.Pool

/-!
# Notes in a program

What a part of a program answered is forgotten as soon as the program goes on. A program may therefore
carry notes: operations of their own, which do nothing but to be written down. Without them it is the
program it was (`erase`); each run of that program is a run with notes, and each run with notes is one
of it. So what is shown of the notes along a run is shown of the run of the program itself.
-/

namespace Prog

/-- An operation, or a note. -/
inductive Noting (O N : Type)
  | op (o : O)
  | note (n : N)

@[reducible] def Noting.Res {O N : Type} (R : O → Type) : Noting O N → Type
  | .op o => R o
  | .note _ => Unit

/-- Programs with notes. -/
abbrev Noted (O : Type) (R : O → Type) (N : Type) : Type → Type 1 := Prog (Noting O N) (Noting.Res R)

variable {O W N α β σ : Type} {R : O → Type}

def plain (p : Prog O R α) : Noted O R N α := p.subst fun o => Prog.op (Noting.op o)

def note (n : N) : Noted O R N Unit := Prog.op (Noting.note n)

/-- What is left of an operation without the notes. -/
def Noting.text : (x : Noting O N) → Prog O R (x.Res R)
  | .op o => Prog.op o
  | .note _ => pure ()

/-- The program without its notes. -/
def erase (p : Noted O R N α) : Prog O R α := p.subst Noting.text

/-- Notes are written behind those there are. -/
def logging (h : Handler O R W) : Handler (Noting O N) (Noting.Res R) (W × List N)
  | .op o, v => (h o v.1).map fun r => (r.1, r.2, v.2)
  | .note n, v => some ((), v.1, v.2 ++ [n])

/-! ## Leaving the notes out -/

section
variable {p q : Noted O R N α}

@[simp] theorem plain_pure (a : α) : (plain (pure a : Prog O R α) : Noted O R N α) = pure a := rfl

@[simp] theorem erase_pure (a : α) : (pure a : Noted O R N α).erase = pure a := rfl

@[simp] theorem erase_bind (p : Noted O R N α) (f : α → Noted O R N β) : (p >>= f).erase = p.erase >>= fun a => (f a).erase := by
  unfold erase
  exact subst_bind p f

@[simp] theorem erase_map (p : Noted O R N α) (f : α → β) : (f <$> p).erase = f <$> p.erase := by
  rw [map_eq_pure_bind, map_eq_pure_bind, erase_bind]
  rfl

@[simp] theorem erase_ite {c : Prop} [Decidable c] : (if c then p else q).erase = if c then p.erase else q.erase := by
  split <;> rfl

@[simp] theorem erase_note (n : N) : (note n : Noted O R N Unit).erase = pure () := rfl

@[simp] theorem erase_iterate (body : σ → Noted O R N (σ ⊕ β)) (s : σ) :
    (iterate body s).erase = iterate (fun s => (body s).erase) s := rfl

@[simp] theorem erase_plain (p : Prog O R α) : (plain p : Noted O R N α).erase = p := by
  induction p with
  | ret a => rfl
  | act o k ih =>
    show Prog.act o (fun r => (plain (k r)).erase) = Prog.act o k
    rw [funext ih]
  | loop body s k ihb ihk =>
    show Prog.loop (fun s => (plain (body s)).erase) s (fun b => (plain (k b)).erase) = Prog.loop body s k
    rw [funext ihb, funext ihk]

end

/-! ## Runs -/

section
variable {h : Handler O R W} {w w' : W} {v v' : W × List N} {a : α} {l : List N} {tot : Prop}

/-- A run without notes leaves the log alone. -/
theorem Runs.plain {p : Prog O R α} (hr : Runs h p w a w') (l : List N) : Runs (logging h) (plain p) (w, l) a (w', l) := by
  induction hr with
  | ret a w => exact .ret _ _
  | @act _ o k w w' _ r _ ho _ ih =>
    have hop : logging h (Noting.op o) (w, l) = some (r, w', l) := by
      rw [logging, ho]
      rfl
    exact .act hop ih
  | again _ _ ihb ihk => exact .again ihb ihk
  | leave _ _ ihb ihk => exact .leave ihb ihk

/-- A run with notes is a run of the program without them. -/
theorem Runs.erase {p : Noted O R N α} (hr : Runs (logging h) p v a v') : Runs h p.erase v.1 a v'.1 := by
  induction hr with
  | ret a v => exact .ret _ _
  | @act _ o k _ _ _ _ _ ho _ ih =>
    cases o with
    | op o =>
      obtain ⟨⟨r, w₁⟩, hr, he⟩ := Option.map_eq_some_iff.1 ho
      cases he
      exact .act hr ih
    | note n =>
      cases ho
      exact ih
  | again _ _ ihb ihk => exact .again ihb ihk
  | leave _ _ ihb ihk => exact .leave ihb ihk

/-- **Any run of the program can be followed with its notes.** -/
theorem Runs.noted {p : Noted O R N α} (hr : Runs h p.erase w a w') (l : List N) : ∃ l', Runs (logging h) p (w, l) a (w', l') := by
  have hop : ∀ (x : Noting O N) (w : W) (v : W × List N) (r : x.Res R) (w' : W), v.1 = w → Runs h x.text w r w' →
      ∃ v', logging h x v = some (r, v') ∧ v'.1 = w' := by
    rintro (o | n) _ v r w' rfl ho
    · cases ho with
      | act ho hk =>
        cases hk
        exact ⟨(w', v.2), by rw [logging, ho]; rfl, rfl⟩
    · cases ho
      exact ⟨(v.1, v.2 ++ [n]), rfl, rfl⟩
  obtain ⟨⟨_, l'⟩, hr', rfl⟩ := hr.simulate_subst (fun w v => v.1 = w) hop (u := (w, l)) rfl
  exact ⟨l', hr'⟩

/-- Nothing is noted in a program that carries no note. -/
theorem Runs.log_of_plain {p : Prog O R α} {l' : List N} (hr : Runs (logging h) (Prog.plain p) (w, l) a (w', l')) : l' = l := by
  have hp := hr.erase
  rw [erase_plain] at hp
  obtain ⟨-, he⟩ := (hp.plain l).det hr
  exact congrArg Prod.snd he

/-! ## The `wp` rules -/

theorem wp_plain {p : Prog O R α} {Q : α → W × List N → Prop} :
    wp (logging h) tot (plain p) Q (w, l) ↔ wp h tot p (fun a w' => Q a (w', l)) w := by
  constructor
  · rintro ⟨hq, hr⟩
    refine ⟨fun a w' hp => hq a _ (hp.plain l), fun ht => ?_⟩
    obtain ⟨a, v', hp⟩ := hr ht
    have hp' := hp.erase
    rw [erase_plain] at hp'
    exact ⟨a, _, hp'⟩
  · rintro ⟨hq, hr⟩
    refine ⟨fun a v' hp => ?_, fun ht => ?_⟩
    · have hp' := hp.erase
      rw [erase_plain] at hp'
      obtain ⟨-, he⟩ := (hp'.plain l).det hp
      rw [he]
      exact hq a _ hp'
    · obtain ⟨a, w', hp⟩ := hr ht
      exact ⟨a, _, hp.plain l⟩

theorem wp_note {n : N} {Q : Unit → W × List N → Prop} : wp (logging h) tot (note n) Q (w, l) ↔ Q () (w, l ++ [n]) :=
  wp_op_some rfl

/-- What holds of the program with notes holds of the program, with some notes. -/
theorem wp_erase {p : Noted O R N α} {Q : α → W × List N → Prop} (hp : wp (logging h) tot p Q (w, l)) :
    wp h tot p.erase (fun a w' => ∃ l', Q a (w', l')) w := by
  refine ⟨fun a w' hr => ?_, fun ht => ?_⟩
  · obtain ⟨l', hr'⟩ := hr.noted l
    exact ⟨l', hp.1 a _ hr'⟩
  · obtain ⟨a, v', hr⟩ := hp.2 ht
    exact ⟨a, _, hr.erase⟩

end

end Prog
