import Mathlib.Algebra.BigOperators.Ring.Finset
import Mathlib.Data.List.Basic

/-!
# Runs of a transition system

`step s l s'` is one step from `s` to `s'` under the label `l`. `Trace step s ls s'` is a finite run
with its labels in order. What every step preserves holds at the end of a run, and a run of one
system whose steps are matched one by one is a run of another.
-/

/-- A finite run. -/
inductive Trace {S L : Type*} (step : S → L → S → Prop) : S → List L → S → Prop
  | nil (s : S) : Trace step s [] s
  | cons {s s' s'' : S} {l : L} {ls : List L} :
      step s l s' → Trace step s' ls s'' → Trace step s (l :: ls) s''

namespace Trace

variable {S L T : Type*} {step : S → L → S → Prop} {s s' s'' : S} {l : L} {ls ls' : List L}

theorem append (h : Trace step s ls s') (h' : Trace step s' ls' s'') : Trace step s (ls ++ ls') s'' := by
  induction h with
  | nil => exact h'
  | cons hs _ ih => exact .cons hs (ih h')

theorem snoc (h : Trace step s ls s') (hs : step s' l s'') : Trace step s (ls ++ [l]) s'' :=
  h.append (.cons hs (.nil _))

/-- A run over a concatenation passes through a state in between. -/
theorem split : ∀ {ls : List L} {s : S}, Trace step s (ls ++ ls') s'' →
    ∃ s', Trace step s ls s' ∧ Trace step s' ls' s''
  | [], _, h => ⟨_, .nil _, h⟩
  | _ :: _, _, .cons hs h => by
    obtain ⟨s', h₁, h₂⟩ := h.split
    exact ⟨s', .cons hs h₁, h₂⟩

/-- **Invariants.** What holds at the start and is preserved by every step holds at the end. -/
theorem invariant (I : S → Prop) (hstep : ∀ s l s', I s → step s l s' → I s') (h : Trace step s ls s')
    (hI : I s) : I s' := by
  induction h with
  | nil => exact hI
  | cons hs _ ih => exact ih (hstep _ _ _ hI hs)

/-- **Invariants of the history.** What holds at the start, and is preserved by every step for the labels so far, holds at the end. -/
theorem history (I : List L → S → Prop) (hstep : ∀ ls s l s', I ls s → step s l s' → I (ls ++ [l]) s') (h : Trace step s ls s')
    (hI : I [] s) : I ls s' := by
  suffices ∀ past, I past s → I (past ++ ls) s' from this [] hI
  clear hI
  induction h with
  | nil =>
    intro past hI
    rwa [List.append_nil]
  | @cons s s' s'' l ls hs _ ih =>
    intro past hI
    rw [← List.singleton_append, ← List.append_assoc]
    exact ih _ (hstep _ _ _ _ hI hs)

/-- **Termination.** Where every step uses up some of what there is, but for what its label brings, a run has an end. -/
theorem length_le {gain : L → ℕ} (I : S → ℕ → Prop)
    (hstep : ∀ s l s' n, I s n → step s l s' → ∃ n', I s' n' ∧ n' + 1 ≤ n + gain l) (h : Trace step s ls s') {n : ℕ} (hn : I s n) :
    ls.length ≤ n + (ls.map gain).sum := by
  induction h generalizing n with
  | nil => exact Nat.zero_le _
  | cons hs _ ih =>
    obtain ⟨n', hn', hle⟩ := hstep _ _ _ n hn hs
    have := ih hn'
    rw [List.length_cons, List.map_cons, List.sum_cons]
    omega

/-- **Simulation.** Where related states can match every step, the whole run is matched. -/
theorem simulate {step' : T → L → T → Prop} (R : S → T → Prop)
    (hstep : ∀ s t l s', R s t → step s l s' → ∃ t', step' t l t' ∧ R s' t') (h : Trace step s ls s') :
    ∀ t, R s t → ∃ t', Trace step' t ls t' ∧ R s' t' := by
  induction h with
  | nil => exact fun t hR => ⟨t, .nil t, hR⟩
  | cons hs _ ih =>
    intro t hR
    obtain ⟨t₁, h₁, hR₁⟩ := hstep _ _ _ _ hR hs
    obtain ⟨t₂, h₂, hR₂⟩ := ih t₁ hR₁
    exact ⟨t₂, .cons h₁ h₂, hR₂⟩

theorem mono {step' : S → L → S → Prop} (hstep : ∀ s l s', step s l s' → step' s l s') (h : Trace step s ls s') :
    Trace step' s ls s' := by
  induction h with
  | nil => exact .nil _
  | cons hs _ ih => exact .cons (hstep _ _ _ hs) ih

/-- Running a step function along the labels. -/
theorem of_foldlM {f : S → L → Option S} (hf : ∀ s l s', f s l = some s' → step s l s') :
    ∀ {ls : List L} {s : S}, ls.foldlM f s = some s' → Trace step s ls s'
  | [], _, h => by
    cases h
    exact .nil _
  | l :: ls, _, h => by
    rw [List.foldlM_cons] at h
    obtain ⟨s₁, hl, hr⟩ := Option.bind_eq_some_iff.1 h
    exact .cons (hf _ _ _ hl) (of_foldlM hf hr)

end Trace
