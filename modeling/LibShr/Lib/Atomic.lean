import LibShr.Lib.Layers

/-!
# Calls that take effect in one step

A `Serial` object answers each call in a single step. Threads that run programs on a shared world behave like
that where every program has one operation at which its call takes effect, and every other one leaves
what the object shows of the world as it is. Which operation that is may depend on what the program has
read so far: it is found along the program, as in a proof outline.
-/

open Prog

/-- What the object is, and for each thread that is in a call the call, or the answer that it has already got. -/
structure Serial (T C A α : Type) where
  obj : A
  phase : T → Option (C ⊕ α)

section
variable {S : Type*} {O W T C A α : Type} {R : O → Type}

/-- What a move shows to the outside: a call, or the answer of one. -/
def shows (answer : T → Option α) : T × Move C → List (T × (C ⊕ α))
  | (t, .call c) => [(t, .inl c)]
  | (_, .op) => []
  | (t, .ret) => (answer t).toList.map fun a => (t, .inr a)

/-- A run and what it shows, in the order in which it happens. -/
inductive Observed (step : S → T × Move C → S → Prop) (answer : S → T → Option α) : S → List (T × (C ⊕ α)) → S → Prop
  | nil (s : S) : Observed step answer s [] s
  | cons {s s' s'' : S} {l : T × Move C} {es : List (T × (C ⊕ α))} : step s l s' → Observed step answer s' es s'' →
      Observed step answer s (shows (answer s) l ++ es) s''

theorem Observed.append {step : S → T × Move C → S → Prop} {answer : S → T → Option α} {s s' s'' : S} {es es' : List (T × (C ⊕ α))}
    (h : Observed step answer s es s') (h' : Observed step answer s' es' s'') : Observed step answer s (es ++ es') s'' := by
  induction h with
  | nil => exact h'
  | @cons s s₁ s₂ l es hs _ ih =>
    rw [List.append_assoc]
    exact .cons hs (ih h')

/-- Run a step function along the moves, with what they show. -/
def observed (f : S → T × Move C → Option S) (answer : S → T → Option α) : S → List (T × Move C) → Option (List (T × (C ⊕ α)) × S)
  | s, [] => some ([], s)
  | s, l :: ls => (f s l).bind fun s' => (observed f answer s' ls).map fun r => (shows (answer s) l ++ r.1, r.2)

theorem Observed.of_observed {step : S → T × Move C → S → Prop} {f : S → T × Move C → Option S} {answer : S → T → Option α}
    (hf : ∀ s l s', f s l = some s' → step s l s') {ls : List (T × Move C)} {s s' : S} {es : List (T × (C ⊕ α))}
    (h : observed f answer s ls = some (es, s')) : Observed step answer s es s' := by
  induction ls generalizing s es with
  | nil =>
    cases h
    exact .nil _
  | cons l ls ih =>
    obtain ⟨s₁, hl, h⟩ := Option.bind_eq_some_iff.1 h
    obtain ⟨⟨es', s₂⟩, hr, he⟩ := Option.map_eq_some_iff.1 h
    cases he
    exact .cons (hf _ _ _ hl) (ih hr)

/-- A thread whose program has come to its end has its answer. -/
def Pool.answer (s : Pool O R W T α) (t : T) : Option α := (s.task t).bind fun p => match p with
  | .ret a => some a
  | _ => none

end

namespace Serial

section
variable {T C A α : Type} [DecidableEq T] (effect : T → C → A → α → A → Prop)

/-- A call is made, takes effect, returns. -/
inductive Step : Serial T C A α → T × Move C → Serial T C A α → Prop
  | call {s : Serial T C A α} {t : T} {c : C} : s.phase t = none →
      Step s (t, .call c) ⟨s.obj, Function.update s.phase t (some (.inl c))⟩
  | op {s : Serial T C A α} {t : T} {c : C} {a : α} {x : A} : s.phase t = some (.inl c) → effect t c s.obj a x →
      Step s (t, .op) ⟨x, Function.update s.phase t (some (.inr a))⟩
  | ret {s : Serial T C A α} {t : T} {a : α} : s.phase t = some (.inr a) →
      Step s (t, .ret) ⟨s.obj, Function.update s.phase t none⟩

end

/-- The answer that a thread has got. -/
def answer (s : Serial T C A α) (t : T) : Option α := (s.phase t).bind fun n => match n with
  | .inl _ => none
  | .inr a => some a

section
variable {O W T C A α β σ : Type} {R : O → Type} (h : T → Handler O R W) (look : W → A) (effect : T → C → A → α → A → Prop) (t : T)

/-- From the phase `n` on the program takes effect at most once, where it is still due, and it returns with a phase that fits. -/
def commits : {β : Type} → Prog O R β → (β → C ⊕ α → Prop) → C ⊕ α → Prop
  | _, .ret b, post, n => post b n
  | _, .act o k, post, n => ∀ w r w', h t o w = some (r, w') →
      (look w' = look w ∧ commits (k r) post n) ∨
        ∃ c a, n = .inl c ∧ effect t c (look w) a (look w') ∧ commits (k r) post (.inr a)
  | _, .loop body s k, post, n => ∃ J : _ → C ⊕ α → Prop, J s n ∧ ∀ s n, J s n →
      commits (body s) (fun x n => x.elim (J · n) fun b => commits (k b) post n) n

variable {h look effect t} {post post' : β → C ⊕ α → Prop} {n : C ⊕ α}

theorem commits_mono {p : Prog O R β} (hp : commits h look effect t p post n) (hpost : ∀ b n, post b n → post' b n) :
    commits h look effect t p post' n := by
  induction p generalizing n with
  | ret b => exact hpost b n hp
  | act o k ih =>
    intro w r w' ho
    rcases hp w r w' ho with ⟨hsame, hk⟩ | ⟨c, a, hn, he, hk⟩
    · exact .inl ⟨hsame, ih r hk hpost⟩
    · exact .inr ⟨c, a, hn, he, ih r hk hpost⟩
  | loop body s k ihb ihk =>
    obtain ⟨J, hJ, hbody⟩ := hp
    refine ⟨J, hJ, fun s n hs => ihb s (hbody s n hs) fun x n hx => ?_⟩
    cases x with
    | inl s' => exact hx
    | inr b => exact ihk b hx hpost

theorem commits_bind {γ : Type} {p : Prog O R γ} {f : γ → Prog O R β}
    (hp : commits h look effect t p (fun b n => commits h look effect t (f b) post n) n) :
    commits h look effect t (p >>= f) post n := by
  induction p generalizing n with
  | ret b => exact hp
  | act o k ih =>
    intro w r w' ho
    rcases hp w r w' ho with ⟨hsame, hk⟩ | ⟨c, a, hn, he, hk⟩
    · exact .inl ⟨hsame, ih r hk⟩
    · exact .inr ⟨c, a, hn, he, ih r hk⟩
  | loop body s k _ ihk =>
    obtain ⟨J, hJ, hbody⟩ := hp
    refine ⟨J, hJ, fun s n hs => commits_mono (hbody s n hs) fun x n hx => ?_⟩
    cases x with
    | inl s' => exact hx
    | inr b => exact ihk b hx

theorem commits_map {γ : Type} {p : Prog O R γ} {f : γ → β} (hp : commits h look effect t p (fun b n => post (f b) n) n) :
    commits h look effect t (f <$> p) post n := by
  rw [map_eq_pure_bind]
  exact commits_bind hp

/-- An operation that leaves alone what the object shows. -/
theorem commits_op {o : O} {post : R o → C ⊕ α → Prop} (hpost : ∀ w r w', h t o w = some (r, w') → look w' = look w ∧ post r n) :
    commits h look effect t (op o) post n := fun w r w' ho => .inl (hpost w r w' ho)

theorem commits_ite {c : Prop} [Decidable c] {p q : Prog O R β} (hp : c → commits h look effect t p post n)
    (hq : ¬c → commits h look effect t q post n) : commits h look effect t (if c then p else q) post n := by
  split
  · next hc => exact hp hc
  · next hc => exact hq hc

/-- The rule of a loop: its invariant is about its state and the phase. -/
theorem commits_iterate {body : σ → Prog O R (σ ⊕ β)} {s : σ} (J : σ → C ⊕ α → Prop) (hJ : J s n)
    (hbody : ∀ s n, J s n → commits h look effect t (body s) (fun x n => x.elim (J · n) (post · n)) n) :
    commits h look effect t (iterate body s) post n := ⟨J, hJ, hbody⟩

end

/-! ## Runs -/

section
variable {O W T C A α : Type} {R : O → Type} [DecidableEq T] (h : T → Handler O R W) (look : W → A) (effect : T → C → A → α → A → Prop)

/-- The object is what is shown of the world, and each thread goes on as its phase demands. -/
structure Follows (s : Pool O R W T α) (x : Serial T C A α) : Prop where
  obj : x.obj = look s.world
  idle : ∀ t, s.task t = none → x.phase t = none
  busy : ∀ t p, s.task t = some p → ∃ n, x.phase t = some n ∧ commits h look effect t p (fun a n => n = .inr a) n

variable {h look effect} {text : T → C → Prog O R α} {s s' : Pool O R W T α} {x : Serial T C A α} {l : T × Move C} {t : T}

omit [DecidableEq T] in
/-- A call that is about to return has its answer. -/
theorem Follows.answered (hF : Follows h look effect s x) {a : α} (ht : s.task t = some (.ret a)) : x.phase t = some (.inr a) := by
  obtain ⟨n, hn, hp⟩ := hF.busy t _ ht
  rw [hn, show n = .inr a from hp]

/-- One thread has moved. -/
theorem Follows.update (hF : Follows h look effect s x) {o : A} {m : Option (C ⊕ α)} (hobj : o = look s'.world)
    (hidle : s'.task t = none → m = none)
    (hbusy : ∀ p, s'.task t = some p → ∃ n, m = some n ∧ commits h look effect t p (fun a n => n = .inr a) n)
    (hothers : ∀ u, u ≠ t → s'.task u = s.task u) : Follows h look effect s' ⟨o, Function.update x.phase t m⟩ := by
  refine ⟨hobj, fun u hu => ?_, fun u p hu => ?_⟩
  all_goals
    dsimp only
    by_cases hut : u = t
    · subst hut
      rw [Function.update_self]
      first | exact hidle hu | exact hbusy p hu
    · rw [Function.update_of_ne hut]
      rw [hothers u hut] at hu
      first | exact hF.idle u hu | exact hF.busy u p hu

omit [DecidableEq T] in
/-- What is left to run after a step of a program: it took effect in that step, or it did not. -/
theorem commits_step {p p' : Prog O R α} {w w' : W} {n : C ⊕ α} {post : α → C ⊕ α → Prop} (hp : commits h look effect t p post n)
    (hs : p.step (h t) w = some (p', w')) : (look w' = look w ∧ commits h look effect t p' post n) ∨
      ∃ c a, n = .inl c ∧ effect t c (look w) a (look w') ∧ commits h look effect t p' post (.inr a) := by
  cases p with
  | ret a => cases hs
  | act o k =>
    obtain ⟨⟨r, w₁⟩, ho, he⟩ := Option.map_eq_some_iff.1 hs
    cases he
    exact hp w r _ ho
  | loop body s k =>
    cases hs
    obtain ⟨J, hJ, hbody⟩ := hp
    refine .inl ⟨rfl, commits_bind (commits_mono (hbody s n hJ) fun x n hx => ?_)⟩
    cases x with
    | inl s' => exact ⟨J, hx, hbody⟩
    | inr b => exact hx

/-- **A move of a thread is at most one of the serial object**, and shows the same. -/
theorem Follows.step (htext : ∀ t c, commits h look effect t (text t c) (fun a n => n = .inr a) (.inl c)) (hF : Follows h look effect s x)
    (hs : Pool.Step h text s l s') : ∃ x', Observed (Step effect) answer x (shows s.answer l) x' ∧ Follows h look effect s' x' := by
  obtain ⟨t, m⟩ := l
  cases m with
  | call c =>
    obtain ⟨hidle, hw, htask, hothers⟩ := hs.call
    refine ⟨_, .cons (Step.call (hF.idle t hidle)) (.nil _), hF.update (hw ▸ hF.obj) (fun hn => ?_) (fun p hp => ?_) hothers⟩
    · rw [htask] at hn
      cases hn
    · rw [htask] at hp
      cases hp
      exact ⟨_, rfl, htext t c⟩
  | op =>
    obtain ⟨p, p', hp, hstep, htask, hothers⟩ := hs.op
    obtain ⟨n, hn, hcommits⟩ := hF.busy t p hp
    rcases commits_step hcommits hstep with ⟨hsame, hrest⟩ | ⟨c, a, rfl, heffect, hrest⟩
    · refine ⟨x, .nil x, ?_⟩
      have hupdate := hF.update (t := t) (o := x.obj) (m := x.phase t) (hsame ▸ hF.obj) (fun hnone => ?_) (fun q hq => ?_) hothers
      · rwa [Function.update_eq_self] at hupdate
      · rw [htask] at hnone
        cases hnone
      · rw [htask] at hq
        cases hq
        exact ⟨n, hn, hrest⟩
    · rw [← hF.obj] at heffect
      refine ⟨_, .cons (Step.op hn heffect) (.nil _), hF.update rfl (fun hnone => ?_) (fun q hq => ?_) hothers⟩
      · rw [htask] at hnone
        cases hnone
      · rw [htask] at hq
        cases hq
        exact ⟨_, rfl, hrest⟩
  | ret =>
    obtain ⟨a, ha, hw, htask, hothers⟩ := hs.ret
    have hphase : x.phase t = some (.inr a) := hF.answered ha
    have hshows : shows s.answer (t, (.ret : Move C)) = shows x.answer (t, .ret) ++ [] := by
      simp only [shows, Pool.answer, answer, ha, hphase, Option.bind_some, List.append_nil]
    rw [hshows]
    refine ⟨_, .cons (Step.ret hphase) (.nil _), hF.update (hw ▸ hF.obj) (fun _ => rfl) (fun p hp => ?_) hothers⟩
    rw [htask] at hp
    cases hp

/-- **Runs.** Whatever the threads do shows the same calls and answers, in the same order, as a run of the serial object. -/
theorem Follows.run (htext : ∀ t c, commits h look effect t (text t c) (fun a n => n = .inr a) (.inl c)) (hF : Follows h look effect s x)
    {es : List (T × (C ⊕ α))} (hr : Observed (Pool.Step h text) Pool.answer s es s') :
    ∃ x', Observed (Step effect) answer x es x' ∧ Follows h look effect s' x' := by
  induction hr generalizing x with
  | nil => exact ⟨x, .nil x, hF⟩
  | cons hs _ ih =>
    obtain ⟨x₁, h₁, hF₁⟩ := hF.step htext hs
    obtain ⟨x₂, h₂, hF₂⟩ := ih hF₁
    exact ⟨x₂, h₁.append h₂, hF₂⟩

end

end Serial
