import Mathlib.Data.List.Count
import Mathlib.Data.List.Induction

/-!
# Histories of a stack

A history of pushes and pops is replayed from the empty stack: a pop must take what is on top. Where
it can be replayed, each push of an element is answered by one pop, or the element is still there.
-/

namespace Lifo

variable {α : Type*}

inductive Move (α : Type*)
  | push (a : α)
  | pop (a : α)
deriving DecidableEq

variable [DecidableEq α] {a : α} {l l' : List α} {m : Move α} {ms : List (Move α)}

def Move.apply : Move α → List α → Option (List α)
  | .push a, l => some (a :: l)
  | .pop _, [] => none
  | .pop a, b :: l => if a = b then some l else none

/-- The stack after a history. -/
def replay (ms : List (Move α)) : Option (List α) := ms.foldlM (fun l m => m.apply l) []

@[simp] theorem replay_nil : replay ([] : List (Move α)) = some [] := rfl

theorem replay_append_singleton : replay (ms ++ [m]) = (replay ms).bind m.apply := by
  unfold replay
  rw [List.foldlM_append]
  cases ms.foldlM (fun l m => m.apply l) ([] : List α) with
  | none => rfl
  | some l =>
    change (m.apply l).bind some = m.apply l
    exact Option.bind_fun_some _

theorem replay_push (h : replay ms = some l) : replay (ms ++ [.push a]) = some (a :: l) := by
  rw [replay_append_singleton, h]
  rfl

theorem replay_pop (h : replay ms = some (a :: l)) : replay (ms ++ [.pop a]) = some l := by
  rw [replay_append_singleton, h]
  exact if_pos rfl

/-- What a move does to the number of times `b` was pushed, popped, and is there. -/
theorem Move.count_apply [BEq α] [LawfulBEq α] (b : α) (h : m.apply l = some l') :
    [m].count (.push b) + l.count b = [m].count (.pop b) + l'.count b := by
  cases m with
  | push a =>
    cases h
    by_cases hab : a = b
    · simp [hab, Nat.add_comm]
    · simp [hab]
  | pop a =>
    cases l with
    | nil => cases h
    | cons c l =>
      obtain ⟨rfl, rfl⟩ : a = c ∧ l = l' := by simpa [apply] using h
      by_cases hab : a = b
      · simp [hab, Nat.add_comm]
      · simp [hab]

/-- **Nothing is lost and nothing is taken twice.** -/
theorem count_replay [BEq α] [LawfulBEq α] (b : α) : ∀ {l}, replay ms = some l → ms.count (.push b) = ms.count (.pop b) + l.count b := by
  induction ms using List.reverseRecOn with
  | nil =>
    intro l h
    cases h
    rfl
  | append_singleton ms m ih =>
    intro l' h
    rw [replay_append_singleton] at h
    obtain ⟨l, hl, hm⟩ := Option.bind_eq_some_iff.1 h
    have hms := ih hl
    have hcount := Move.count_apply b hm
    rw [List.count_append, List.count_append]
    omega

end Lifo
