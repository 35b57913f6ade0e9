import LibShr.Lib.Prog

/-!
# Running a program alone

A handler `h` answers each operation in a world `w` and gives the next world, or `none` where
the operation cannot complete (it faults, aborts or blocks for ever). `Runs h p w a w'` is the
terminating run of `p` from `w`. `wp h tot p Q w` says that this run ends in `Q` if there is one,
and that there is one if `tot`: total correctness for `tot := True`, partial correctness for
`tot := False`, and one proof of both for a variable `tot`. The rules are equivalences, so a run is
computed by rewriting with them.
-/

namespace Prog

variable {O : Type} {R : O → Type} {W : Type} {α β σ : Type}

/-- A sequential meaning of the operations. -/
abbrev Handler (O : Type) (R : O → Type) (W : Type) := (o : O) → W → Option (R o × W)

/-- `p` started in `w` terminates with value `a` in world `w'`. -/
inductive Runs (h : Handler O R W) : {α : Type} → Prog O R α → W → α → W → Prop
  | ret {α : Type} (a : α) (w : W) : Runs h (.ret a) w a w
  | act {α : Type} {o : O} {k : R o → Prog O R α} {w w' w'' : W} {r : R o} {a : α} :
      h o w = some (r, w') → Runs h (k r) w' a w'' → Runs h (.act o k) w a w''
  | again {α β σ : Type} {body : σ → Prog O R (σ ⊕ β)} {s s' : σ} {k : β → Prog O R α}
      {w w' w'' : W} {a : α} :
      Runs h (body s) w (.inl s') w' → Runs h (.loop body s' k) w' a w'' →
        Runs h (.loop body s k) w a w''
  | leave {α β σ : Type} {body : σ → Prog O R (σ ⊕ β)} {s : σ} {k : β → Prog O R α} {b : β}
      {w w' w'' : W} {a : α} :
      Runs h (body s) w (.inr b) w' → Runs h (k b) w' a w'' → Runs h (.loop body s k) w a w''

/-- Every run of `p` from `w` ends in a value and a world satisfying `Q`; if `tot`, there is one. -/
def wp (h : Handler O R W) (tot : Prop) (p : Prog O R α) (Q : α → W → Prop) (w : W) : Prop :=
  (∀ a w', Runs h p w a w' → Q a w') ∧ (tot → ∃ a w', Runs h p w a w')

section
variable {h : Handler O R W}

/-- A run is determined by the program and the world it starts in. -/
theorem Runs.det {p : Prog O R α} {w : W} {a : α} {w' : W} (h₁ : Runs h p w a w') :
    ∀ {b : α} {w'' : W}, Runs h p w b w'' → b = a ∧ w'' = w' := by
  induction h₁ with
  | ret a w => intro b w'' h₂; cases h₂; exact ⟨rfl, rfl⟩
  | act ho _ ih =>
    intro b w'' h₂
    cases h₂ with
    | act ho' hk =>
      rw [ho] at ho'
      obtain ⟨rfl, rfl⟩ := Prod.mk.inj (Option.some.inj ho')
      exact ih hk
  | again _ _ ih₁ ih₂ =>
    intro b w'' h₂
    cases h₂ with
    | again hb hk => obtain ⟨e, rfl⟩ := ih₁ hb; cases e; exact ih₂ hk
    | leave hb hk => obtain ⟨e, _⟩ := ih₁ hb; cases e
  | leave _ _ ih₁ ih₂ =>
    intro b w'' h₂
    cases h₂ with
    | again hb hk => obtain ⟨e, _⟩ := ih₁ hb; cases e
    | leave hb hk => obtain ⟨e, rfl⟩ := ih₁ hb; cases e; exact ih₂ hk

/-- Cutting a run of a loop followed by `f` at the loop's exit, given how to cut after `k`. -/
theorem Runs.cut_loop {α β γ σ : Type} {body : σ → Prog O R (σ ⊕ γ)} {k : γ → Prog O R α}
    {f : α → Prog O R β}
    (hk : ∀ c w b w'', Runs h ((k c).bind f) w b w'' → ∃ a w', Runs h (k c) w a w' ∧ Runs h (f a) w' b w'')
    {q : Prog O R β} {w w'' : W} {b : β} (hr : Runs h q w b w'') :
    ∀ s, q = .loop body s (fun c => (k c).bind f) →
      ∃ a w', Runs h (.loop body s k) w a w' ∧ Runs h (f a) w' b w'' := by
  induction hr with
  | ret => intro s hq; cases hq
  | act => intro s hq; cases hq
  | again hb _ _ ih =>
    intro s hq
    cases hq
    obtain ⟨a, w', h₁, h₂⟩ := ih hk _ rfl
    exact ⟨a, w', .again hb h₁, h₂⟩
  | leave hb hrest =>
    intro s hq
    cases hq
    obtain ⟨a, w', h₁, h₂⟩ := hk _ _ _ _ hrest
    exact ⟨a, w', .leave hb h₁, h₂⟩

/-- A run of `p >>= f` splits into a run of `p` and one of `f`. -/
theorem runs_bind {p : Prog O R α} {f : α → Prog O R β} {w w'' : W} {b : β} :
    Runs h (p.bind f) w b w'' ↔ ∃ a w', Runs h p w a w' ∧ Runs h (f a) w' b w'' := by
  constructor
  · intro hr
    induction p generalizing w w'' b with
    | ret a => exact ⟨a, w, .ret a w, hr⟩
    | act o k ih =>
      cases hr with
      | act ho hk => obtain ⟨a, w', h₁, h₂⟩ := ih _ hk; exact ⟨a, w', .act ho h₁, h₂⟩
    | loop body s k _ ih => exact hr.cut_loop (fun c w b w'' => ih c) s rfl
  · rintro ⟨a, w', h₁, h₂⟩
    induction h₁ with
    | ret => exact h₂
    | act ho _ ih => exact .act ho (ih h₂)
    | again hb _ _ ih => exact .again hb (ih h₂)
    | leave hb _ _ ih => exact .leave hb (ih h₂)

/-! ## The `wp` rules -/

variable {tot : Prop}

/-- Total correctness is the existence of a good run. -/
theorem wp_iff_runs (ht : tot) {p : Prog O R α} {Q : α → W → Prop} {w : W} :
    wp h tot p Q w ↔ ∃ a w', Runs h p w a w' ∧ Q a w' := by
  constructor
  · rintro ⟨hq, hr⟩
    obtain ⟨a, w', hr⟩ := hr ht
    exact ⟨a, w', hr, hq a w' hr⟩
  · rintro ⟨a, w', hr, hq⟩
    refine ⟨fun b w'' hr' => ?_, fun _ => ⟨a, w', hr⟩⟩
    obtain ⟨rfl, rfl⟩ := hr.det hr'
    exact hq

theorem wp_pure {a : α} {Q : α → W → Prop} {w : W} : wp h tot (pure a) Q w ↔ Q a w :=
  ⟨fun hp => hp.1 a w (.ret a w), fun hq => ⟨fun _ _ hr => by cases hr; exact hq, fun _ => ⟨a, w, .ret a w⟩⟩⟩

theorem wp_op {o : O} {Q : R o → W → Prop} {w : W} :
    wp h tot (op o) Q w ↔
      (∀ r w', h o w = some (r, w') → Q r w') ∧ (tot → ∃ r w', h o w = some (r, w')) := by
  constructor
  · rintro ⟨hq, hr⟩
    refine ⟨fun r w' ho => hq r w' (.act ho (.ret _ _)), fun ht => ?_⟩
    obtain ⟨a, w', hr⟩ := hr ht
    cases hr with
    | act ho hk => exact ⟨_, _, ho⟩
  · rintro ⟨hq, hr⟩
    constructor
    · intro a w' hr
      cases hr with
      | act ho hk => cases hk; exact hq _ _ ho
    · intro ht
      obtain ⟨r, w', ho⟩ := hr ht
      exact ⟨r, w', .act ho (.ret _ _)⟩

/-- The rule of an operation that the handler answers. -/
theorem wp_op_some {o : O} {Q : R o → W → Prop} {w w' : W} {r : R o} (ho : h o w = some (r, w')) :
    wp h tot (op o) Q w ↔ Q r w' := by
  rw [wp_op, ho]
  constructor
  · exact fun hq => hq.1 r w' rfl
  · intro hq
    refine ⟨fun r₁ w₁ he => ?_, fun _ => ⟨r, w', rfl⟩⟩
    obtain ⟨rfl, rfl⟩ := Prod.mk.inj (Option.some.inj he)
    exact hq

/-- The rule of an operation that cannot complete. -/
theorem wp_op_none {o : O} {Q : R o → W → Prop} {w : W} (ho : h o w = none) :
    wp h tot (op o) Q w ↔ ¬tot := by
  simp [wp_op, ho]

theorem wp_bind {p : Prog O R α} {f : α → Prog O R β} {Q : β → W → Prop} {w : W} :
    wp h tot (p >>= f) Q w ↔ wp h tot p (fun a w' => wp h tot (f a) Q w') w := by
  constructor
  · rintro ⟨hq, hr⟩
    refine ⟨fun a w' h₁ => ⟨fun b w'' h₂ => hq b w'' (runs_bind.2 ⟨a, w', h₁, h₂⟩), fun ht => ?_⟩,
      fun ht => ?_⟩
    · obtain ⟨b, w'', hr⟩ := hr ht
      obtain ⟨a', w₁, h₁', h₂⟩ := runs_bind.1 hr
      obtain ⟨rfl, rfl⟩ := h₁.det h₁'
      exact ⟨b, w'', h₂⟩
    · obtain ⟨b, w'', hr⟩ := hr ht
      obtain ⟨a, w', h₁, _⟩ := runs_bind.1 hr
      exact ⟨a, w', h₁⟩
  · rintro ⟨hq, hr⟩
    constructor
    · intro b w'' hr'
      obtain ⟨a, w', h₁, h₂⟩ := runs_bind.1 hr'
      exact (hq a w' h₁).1 b w'' h₂
    · intro ht
      obtain ⟨a, w', h₁⟩ := hr ht
      obtain ⟨b, w'', h₂⟩ := (hq a w' h₁).2 ht
      exact ⟨b, w'', runs_bind.2 ⟨a, w', h₁, h₂⟩⟩

theorem wp_mono {p : Prog O R α} {Q Q' : α → W → Prop} {w : W}
    (hQ : ∀ a w', Q a w' → Q' a w') (hp : wp h tot p Q w) : wp h tot p Q' w :=
  ⟨fun a w' hr => hQ a w' (hp.1 a w' hr), hp.2⟩

theorem wp_map {p : Prog O R α} {f : α → β} {Q : β → W → Prop} {w : W} :
    wp h tot (f <$> p) Q w ↔ wp h tot p (fun a w' => Q (f a) w') w := by
  rw [map_eq_pure_bind, wp_bind]
  simp only [wp_pure]

theorem wp_ite {c : Prop} [Decidable c] {p q : Prog O R α} {Q : α → W → Prop} {w : W} :
    wp h tot (if c then p else q) Q w ↔ if c then wp h tot p Q w else wp h tot q Q w := by
  split <;> rfl

/-- One round of a loop; the unrolled loop reappears in the `inl` case. -/
theorem wp_iterate {body : σ → Prog O R (σ ⊕ β)} {s : σ} {Q : β → W → Prop} {w : W} :
    wp h tot (iterate body s) Q w ↔
      wp h tot (body s) (fun x w' => x.elim (fun s' => wp h tot (iterate body s') Q w') (Q · w')) w := by
  constructor
  · rintro ⟨hq, hr⟩
    refine ⟨fun x w' hb => ?_, fun ht => ?_⟩
    · cases x with
      | inl s' =>
        refine ⟨fun b w'' hr' => hq b w'' (.again hb hr'), fun ht => ?_⟩
        obtain ⟨b, w'', hr⟩ := hr ht
        cases hr with
        | again hb' hk => obtain ⟨e, rfl⟩ := hb.det hb'; cases e; exact ⟨b, w'', hk⟩
        | leave hb' hk => obtain ⟨e, _⟩ := hb.det hb'; cases e
      | inr b => exact hq b w' (.leave hb (.ret _ _))
    · obtain ⟨b, w'', hr⟩ := hr ht
      cases hr with
      | again hb _ => exact ⟨_, _, hb⟩
      | leave hb _ => exact ⟨_, _, hb⟩
  · rintro ⟨hq, hr⟩
    constructor
    · intro b w'' hr'
      cases hr' with
      | again hb hk => exact (hq _ _ hb).1 b w'' hk
      | leave hb hk => cases hk; exact hq _ _ hb
    · intro ht
      obtain ⟨x, w', hb⟩ := hr ht
      have hx := hq x w' hb
      cases x with
      | inl s' => obtain ⟨b, w'', hk⟩ := hx.2 ht; exact ⟨b, w'', .again hb hk⟩
      | inr b => exact ⟨b, w', .leave hb (.ret _ _)⟩

/-- The invariant of a loop holds whenever a round starts, so the loop can only leave into `Q`. -/
theorem Runs.iterate_inv {body : σ → Prog O R (σ ⊕ β)} {Q : β → W → Prop} (I : σ → W → Prop)
    (hstep : ∀ s w, I s w → ∀ x w', Runs h (body s) w x w' → x.elim (I · w') (Q · w'))
    {p : Prog O R β} {w w' : W} {b : β} (hr : Runs h p w b w') :
    ∀ s, p = .loop body s .ret → I s w → Q b w' := by
  induction hr with
  | ret => intro s hp; cases hp
  | act => intro s hp; cases hp
  | again hb _ _ ih =>
    intro s hp hI
    cases hp
    exact ih hstep _ rfl (hstep _ _ hI _ _ hb)
  | leave hb hk =>
    intro s hp hI
    cases hp
    cases hk
    exact hstep _ _ hI _ _ hb

/-- **Loop rule.** With an invariant on the loop state and, if the loop has to end, a measure that
every further round decreases, the loop ends in `Q`. -/
theorem wp_iterate_of_variant {body : σ → Prog O R (σ ⊕ β)} {Q : β → W → Prop}
    (I : σ → W → Prop) (μ : σ → W → Nat)
    (hstep : ∀ s w, I s w → wp h tot (body s)
      (fun x w' => x.elim (fun s' => I s' w' ∧ (tot → μ s' w' < μ s w)) (Q · w')) w)
    {s : σ} {w : W} (hI : I s w) : wp h tot (iterate body s) Q w := by
  refine ⟨fun b w' hr => hr.iterate_inv I (fun s w hI x w' hb => ?_) s rfl hI, fun ht => ?_⟩
  · have hx := (hstep s w hI).1 x w' hb
    cases x with
    | inl s' => exact hx.1
    | inr b => exact hx
  · generalize hn : μ s w = n
    induction n using Nat.strongRecOn generalizing s w with
    | _ n ih =>
      obtain ⟨x, w', hb⟩ := (hstep s w hI).2 ht
      have hx := (hstep s w hI).1 x w' hb
      cases x with
      | inl s' =>
        obtain ⟨b, w'', hr⟩ := ih _ (hn ▸ hx.2 ht) hx.1 rfl
        exact ⟨b, w'', .again hb hr⟩
      | inr b => exact ⟨b, w', .leave hb (.ret _ _)⟩

/-- Two facts about the one run there is can be combined. -/
theorem wp_and {p : Prog O R α} {Q Q' : α → W → Prop} {w : W} (h₁ : wp h tot p Q w)
    (h₂ : wp h tot p Q' w) : wp h tot p (fun a w' => Q a w' ∧ Q' a w') w :=
  ⟨fun a w' hr => ⟨h₁.1 a w' hr, h₂.1 a w' hr⟩, h₁.2⟩

/-- The run there is ends as it does. -/
theorem wp_runs {p : Prog O R α} {Q : α → W → Prop} {w : W} (hp : wp h tot p Q w) :
    wp h tot p (fun a w' => Runs h p w a w' ∧ Q a w') w :=
  ⟨fun a w' hr => ⟨hr, hp.1 a w' hr⟩, hp.2⟩

end

/-! ## The operations of a run -/

/-- Run in `w`, the program comes to the operation `o`, in `v`. -/
inductive Issues (h : Handler O R W) : {α : Type} → Prog O R α → W → O → W → Prop
  | here {α : Type} {o : O} {k : R o → Prog O R α} {w : W} : Issues h (.act o k) w o w
  | next {α : Type} {o o' : O} {k : R o → Prog O R α} {r : R o} {w w' v : W} :
      h o w = some (r, w') → Issues h (k r) w' o' v → Issues h (.act o k) w o' v
  | round {σ β α : Type} {body : σ → Prog O R (σ ⊕ β)} {s : σ} {k : β → Prog O R α} {o : O} {w v : W} :
      Issues h (body s) w o v → Issues h (.loop body s k) w o v
  | again {σ β α : Type} {body : σ → Prog O R (σ ⊕ β)} {s s' : σ} {k : β → Prog O R α} {o : O} {w w' v : W} :
      Runs h (body s) w (.inl s') w' → Issues h (.loop body s' k) w' o v → Issues h (.loop body s k) w o v
  | leave {σ β α : Type} {body : σ → Prog O R (σ ⊕ β)} {s : σ} {k : β → Prog O R α} {b : β} {o : O} {w w' v : W} :
      Runs h (body s) w (.inr b) w' → Issues h (k b) w' o v → Issues h (.loop body s k) w o v

/-- In a run that ends, every operation it comes to is answered. -/
theorem Runs.answers {h : Handler O R W} {p : Prog O R α} {w w' : W} {a : α} (hr : Runs h p w a w') :
    ∀ {o : O} {v : W}, Issues h p w o v → ∃ r v', h o v = some (r, v') := by
  induction hr with
  | ret => intro o v hi; cases hi
  | act ho _ ih =>
    intro o v hi
    cases hi with
    | here => exact ⟨_, _, ho⟩
    | next ho' hi' =>
      obtain ⟨rfl, rfl⟩ := Prod.mk.inj (Option.some.inj (ho.symm.trans ho'))
      exact ih hi'
  | again hb _ ihb ihk =>
    intro o v hi
    cases hi with
    | round hi' => exact ihb hi'
    | again hb' hi' =>
      obtain ⟨hs, rfl⟩ := hb.det hb'
      cases hs
      exact ihk hi'
    | leave hb' hi' =>
      obtain ⟨hs, -⟩ := hb.det hb'
      cases hs
  | leave hb _ ihb ihk =>
    intro o v hi
    cases hi with
    | round hi' => exact ihb hi'
    | again hb' hi' =>
      obtain ⟨hs, -⟩ := hb.det hb'
      cases hs
    | leave hb' hi' =>
      obtain ⟨hs, rfl⟩ := hb.det hb'
      cases hs
      exact ihk hi'

/-! ## Evaluation with fuel -/

/-- Executable run, one unit of fuel for each operation and each loop round. -/
def eval (h : Handler O R W) {α : Type} : Nat → Prog O R α → W → Option (α × W)
  | 0, _, _ => none
  | _ + 1, .ret a, w => some (a, w)
  | n + 1, .act o k, w =>
    match h o w with
    | some (r, w') => eval h n (k r) w'
    | none => none
  | n + 1, .loop body s k, w =>
    match eval h n (body s) w with
    | some (.inl s', w') => eval h n (.loop body s' k) w'
    | some (.inr b, w') => eval h n (k b) w'
    | none => none

theorem runs_of_eval (h : Handler O R W) {α : Type} {n : Nat} {p : Prog O R α} {w w' : W} {a : α}
    (he : eval h n p w = some (a, w')) : Runs h p w a w' := by
  induction n generalizing α w w' with
  | zero => simp [eval] at he
  | succ n ih =>
    cases p with
    | ret b => simp only [eval, Option.some.injEq, Prod.mk.injEq] at he; obtain ⟨rfl, rfl⟩ := he; exact .ret _ _
    | act o k =>
      simp only [eval] at he
      split at he
      · rename_i r w₁ ho; exact .act ho (ih he)
      · cases he
    | loop body s k =>
      simp only [eval] at he
      split at he
      · rename_i s' w₁ hb; exact .again (ih hb) (ih he)
      · rename_i b w₁ hb; exact .leave (ih hb) (ih he)
      · cases he

end Prog
