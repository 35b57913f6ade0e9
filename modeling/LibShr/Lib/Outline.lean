import LibShr.Lib.Layers

/-!
# Proof outlines for threads that interleave

Each thread has a note, which only its own moves change, and the invariant ties the notes of all
threads to the world. What a thread has still to run is then judged by its note alone: `outline P t p post n`
says that from any world in which the invariant holds and the note of the thread `t` is `n`, each
operation of `p` keeps the invariant with some next note, and that `p` returns a value that fits the
note it ends with. Nothing else has to be known of the other threads, since all they do is to keep the
invariant.
-/

open Prog

/-- The answers to the threads, what holds at any time, and the moves that are looked at. -/
structure Protocol (T O : Type) (R : O → Type) (W C N : Type) where
  handler : T → Handler O R W
  inv : W → (T → N) → Prop
  /-- The operations the threads perform. -/
  may : T → O → W → Prop
  /-- The calls the threads make. -/
  mayCall : T → C → W → Prop
  /-- The notes of idle threads. -/
  idle : T → N → Prop

namespace Protocol

variable {T O W C N α β σ : Type} {R : O → Type} [DecidableEq T] (P : Protocol T O R W C N) (t : T)

/-- What is to be shown of the rest of a program. -/
def outline : {α : Type} → Prog O R α → (α → N → Prop) → N → Prop
  | _, .ret a, post, n => post a n
  | _, .act o k, post, n => ∀ w ν, P.inv w ν → ν t = n → P.may t o w → ∀ r w', P.handler t o w = some (r, w') →
      ∃ n', P.inv w' (Function.update ν t n') ∧ outline (k r) post n'
  | _, .loop body s k, post, n => ∃ J : _ → N → Prop, J s n ∧ ∀ s n, J s n →
      outline (body s) (fun x n => x.elim (J · n) fun b => outline (k b) post n) n

def Step (text : T → C → Prog O R α) (s : Pool O R W T α) (l : T × Move C) (s' : Pool O R W T α) : Prop :=
  (∀ o, l.2 = .op → (s.task l.1).bind head? = some o → P.may l.1 o s.world) ∧
    (∀ c, l.2 = .call c → P.mayCall l.1 c s.world) ∧ Pool.Step P.handler text s l s'

/-- The notes fit the world, and each thread is at a place that fits its note. -/
structure Fits (post : T → α → N → Prop) (s : Pool O R W T α) (ν : T → N) : Prop where
  inv : P.inv s.world ν
  rest : ∀ t, s.task t = none → P.idle t (ν t)
  task : ∀ t p, s.task t = some p → P.outline t p (post t) (ν t)

variable {P t} {post post' : α → N → Prop} {n : N}

/-! ## The rules -/

theorem outline_mono {p : Prog O R α} (hp : P.outline t p post n) (h : ∀ a n, post a n → post' a n) : P.outline t p post' n := by
  induction p generalizing n with
  | ret a => exact h a n hp
  | act o k ih =>
    intro w ν hI hn hmay r w' ho
    obtain ⟨n', hI', hk⟩ := hp w ν hI hn hmay r w' ho
    exact ⟨n', hI', ih r hk h⟩
  | loop body s k ihb ihk =>
    obtain ⟨J, hJ, hbody⟩ := hp
    refine ⟨J, hJ, fun s n hs => ihb s (hbody s n hs) fun x n hx => ?_⟩
    cases x with
    | inl s' => exact hx
    | inr b => exact ihk b hx h

theorem outline_bind {p : Prog O R α} {f : α → Prog O R β} {post : β → N → Prop}
    (hp : P.outline t p (fun a n => P.outline t (f a) post n) n) : P.outline t (p >>= f) post n := by
  induction p generalizing n with
  | ret a => exact hp
  | act o k ih =>
    intro w ν hI hn hmay r w' ho
    obtain ⟨n', hI', hk⟩ := hp w ν hI hn hmay r w' ho
    exact ⟨n', hI', ih r hk⟩
  | loop body s k _ ihk =>
    obtain ⟨J, hJ, hbody⟩ := hp
    refine ⟨J, hJ, fun s n hs => outline_mono (hbody s n hs) fun x n hx => ?_⟩
    cases x with
    | inl s' => exact hx
    | inr b => exact ihk b hx

/-- The rule of a loop: its invariant is about the state of the loop and the note. -/
theorem outline_iterate {body : σ → Prog O R (σ ⊕ β)} {s : σ} {post : β → N → Prop} (J : σ → N → Prop) (hJ : J s n)
    (h : ∀ s n, J s n → P.outline t (body s) (fun x n => x.elim (J · n) (post · n)) n) : P.outline t (iterate body s) post n :=
  ⟨J, hJ, h⟩

theorem outline_ite {c : Prop} [Decidable c] {p q : Prog O R α} (hp : c → P.outline t p post n) (hq : ¬c → P.outline t q post n) :
    P.outline t (if c then p else q) post n := by
  split
  · next hc => exact hp hc
  · next hc => exact hq hc

/-- A program made of operations that change no note. -/
theorem outline_only {Q : O → Prop} {p : Prog O R α} (hQ : ∀ o (post : R o → N → Prop), Q o → (∀ r, post r n) → P.outline t (op o) post n)
    (hp : p.Only Q) (hpost : ∀ a, post a n) : P.outline t p post n := by
  induction p with
  | ret a => exact hpost a
  | act o k ih => exact hQ o (fun r n => P.outline t (k r) post n) hp.1 fun r => ih r (hp.2 r) hpost
  | loop body s k ihb ihk =>
    refine ⟨fun _ m => m = n, rfl, ?_⟩
    rintro s _ rfl
    refine ihb s (hp.1 s) fun x => ?_
    cases x with
    | inl s' => exact rfl
    | inr b => exact ihk b (hp.2 b) hpost

/-- The text of a program, where the text of each operation can be judged as the operation. -/
theorem outline_subst {O' C' : Type} {R' : O' → Type} {P' : Protocol T O' R' W C' N} {i : (o : O) → Prog O' R' (R o)}
    (hi : ∀ o (post : R o → N → Prop) n, P.outline t (op o) post n → P'.outline t (i o) post n) {p : Prog O R α}
    (hp : P.outline t p post n) : P'.outline t (p.subst i) post n := by
  induction p generalizing n with
  | ret a => exact hp
  | act o k ih =>
    have hop : P.outline t (op o) (fun r n => P.outline t (k r) post n) n := hp
    exact outline_bind (outline_mono (hi o _ n hop) fun r n hk => ih r hk)
  | loop body s k ihb ihk =>
    obtain ⟨J, hJ, hbody⟩ := hp
    refine ⟨J, hJ, fun s n hs => outline_mono (ihb s (hbody s n hs)) fun x n hx => ?_⟩
    cases x with
    | inl s' => exact hx
    | inr b => exact ihk b hx

/-! ## Runs -/

section
variable {text : T → C → Prog O R α} {post : T → α → N → Prop} {s s' : Pool O R W T α} {l : T × Move C} {ls : List (T × Move C)} {ν : T → N}

/-- What is left to run after a step. -/
theorem outline_step {p p' : Prog O R α} {post : α → N → Prop} {w w' : W} (hI : P.inv w ν) (hp : P.outline t p post (ν t))
    (hmay : ∀ o, head? p = some o → P.may t o w) (hs : p.step (P.handler t) w = some (p', w')) :
    ∃ n', P.inv w' (Function.update ν t n') ∧ P.outline t p' post n' := by
  cases p with
  | ret a => cases hs
  | act o k =>
    obtain ⟨⟨r, w₁⟩, ho, he⟩ := Option.map_eq_some_iff.1 hs
    cases he
    exact hp w ν hI rfl (hmay o rfl) r _ ho
  | loop body s k =>
    cases hs
    obtain ⟨J, hJ, hbody⟩ := hp
    refine ⟨ν t, by rwa [Function.update_eq_self], outline_bind (outline_mono (hbody s _ hJ) fun x n hx => ?_)⟩
    cases x with
    | inl s' => exact ⟨J, hx, hbody⟩
    | inr b => exact hx

/-- One thread has moved. -/
theorem Fits.update {n : N} (hF : P.Fits post s ν) (hI : P.inv s'.world (Function.update ν t n))
    (hrest : s'.task t = none → P.idle t n) (htask : ∀ p, s'.task t = some p → P.outline t p (post t) n)
    (hothers : ∀ u, u ≠ t → s'.task u = s.task u) : P.Fits post s' (Function.update ν t n) := by
  refine ⟨hI, fun u hu => ?_, fun u p hu => ?_⟩
  all_goals
    by_cases hut : u = t
    · subst hut
      rw [Function.update_self]
      first | exact hrest hu | exact htask p hu
    · rw [Function.update_of_ne hut]
      rw [hothers u hut] at hu
      first | exact hF.rest u hu | exact hF.task u p hu

/-- **One move** keeps the notes fitting. -/
theorem Fits.step (hcall : ∀ w ν t c, P.inv w ν → P.idle t (ν t) → P.mayCall t c w →
      ∃ n, P.inv w (Function.update ν t n) ∧ P.outline t (text t c) (post t) n)
    (hret : ∀ t a n, post t a n → P.idle t n) (hF : P.Fits post s ν) (hs : P.Step text s l s') : ∃ ν', P.Fits post s' ν' := by
  obtain ⟨t, m⟩ := l
  obtain ⟨hmay, hmayCall, hs⟩ := hs
  cases m with
  | call c =>
    obtain ⟨hidle, hw, htask, hothers⟩ := hs.call
    obtain ⟨n, hI, hn⟩ := hcall _ ν t c hF.inv (hF.rest t hidle) (hmayCall c rfl)
    refine ⟨_, hF.update (hw ▸ hI) (fun h => ?_) (fun p hp => ?_) hothers⟩
    · rw [htask] at h
      cases h
    · rw [htask] at hp
      cases hp
      exact hn
  | op =>
    obtain ⟨p, p', hp, hstep, htask, hothers⟩ := hs.op
    obtain ⟨n, hI, hn⟩ := outline_step hF.inv (hF.task t p hp) (fun o ho => hmay o rfl (by rw [hp]; exact ho)) hstep
    refine ⟨_, hF.update hI (fun h => ?_) (fun p'' hp'' => ?_) hothers⟩
    · rw [htask] at h
      cases h
    · rw [htask] at hp''
      cases hp''
      exact hn
  | ret =>
    obtain ⟨a, ha, hw, htask, hothers⟩ := hs.ret
    refine ⟨_, hF.update (n := ν t) ?_ (fun _ => hret t a _ (hF.task t _ ha)) (fun p hp => ?_) hothers⟩
    · rw [hw, Function.update_eq_self]
      exact hF.inv
    · rw [htask] at hp
      cases hp

/-- **Runs.** If every call starts with a note that fits it, the notes fit at any time. -/
theorem Fits.run (hcall : ∀ w ν t c, P.inv w ν → P.idle t (ν t) → P.mayCall t c w →
      ∃ n, P.inv w (Function.update ν t n) ∧ P.outline t (text t c) (post t) n)
    (hret : ∀ t a n, post t a n → P.idle t n) (hF : P.Fits post s ν) (h : Trace (P.Step text) s ls s') : ∃ ν', P.Fits post s' ν' :=
  h.invariant (fun s => ∃ ν, P.Fits post s ν) (fun _ _ _ ⟨_, hF⟩ hs => hF.step hcall hret hs) ⟨ν, hF⟩

end

end Protocol
