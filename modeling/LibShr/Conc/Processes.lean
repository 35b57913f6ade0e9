import LibShr.Lib.Pool
import LibShr.Model.Api

/-!
# Processes on one object

The processes share the memory of the object, its semaphores and the length of its file. What else is
in a `World` each has for itself: its handle, and what the system will answer to it. An operation of a
process is the operation of the machine on the world the process sees.
-/

namespace LibShr

open Prog

/-- The object, and beside it what each process has for itself. -/
structure Site (T : Type) where
  mem : ℤ → ℤ
  sem : Sem → ℤ
  length : ℤ
  own : T → World

section
variable {T : Type}

/-- The world as the process `t` sees it. -/
def Site.view (s : Site T) (t : T) : World :=
  { s.own t with mem := s.mem, sem := s.sem, ext := { (s.own t).ext with length := s.length } }

variable [DecidableEq T] {s s' : Site T} {t : T} {a slot v old new d r : ℤ} {b : Bool} {u : Unit}

def Op.Quiet : Op → Prop
  | .load .. | .semGetvalue _ | .assert _ | .undefined | .current | .createExtent _ | .releasePrev | .addAccessors _ | .malloc _ | .clock
  | .sigqueue .. => True
  | _ => False

/-- The process `t` has changed the world it sees. -/
def Site.put (s : Site T) (t : T) (w : World) : Site T := ⟨w.mem, w.sem, w.ext.length, Function.update s.own t w⟩

/-- The operations of the process `t`. -/
def shared (t : T) : Handler Op Op.Res (Site T) := fun o s => (seq o (s.view t)).map fun r => (r.1, s.put t r.2)

/-! ## What the operations do to the object -/

theorem shared_current (h : shared t .current s = some (r, s')) : s'.mem = s.mem := by
  cases h
  rfl

theorem shared_addAccessors (h : shared t (.addAccessors d) s = some (u, s')) : s'.mem = s.mem := by
  cases h
  rfl

theorem shared_load (h : shared t (.load a slot) s = some (r, s')) : r = s.mem slot ∧ s'.mem = s.mem := by
  simp only [shared, seq] at h
  split at h
  · cases h
    exact ⟨rfl, rfl⟩
  · cases h

theorem shared_store (h : shared t (.store a slot v) s = some (u, s')) : s'.mem = setSlot s.mem slot v := by
  simp only [shared, seq] at h
  split at h
  · cases h
    rfl
  · cases h

theorem shared_cas (h : shared t (.cas a slot old new) s = some (b, s')) :
    b = true ∧ s.mem slot = old ∧ s'.mem = setSlot s.mem slot new ∨ b = false ∧ s.mem slot ≠ old ∧ s'.mem = s.mem := by
  simp only [shared, seq] at h
  split at h
  · split at h
    · next heq =>
      cases h
      exact .inl ⟨rfl, heq, rfl⟩
    · next hne =>
      cases h
      exact .inr ⟨rfl, hne, rfl⟩
  · cases h

theorem shared_dwcas {role : Role} {before after : DWORD} (h : shared t (.dwcas role a slot before after) s = some (b, s')) :
    b = true ∧ s.mem slot = before.low ∧ s.mem (slot + 1) = before.high ∧
        s'.mem = setSlot (setSlot s.mem slot after.low) (slot + 1) after.high ∨
      b = false ∧ s'.mem = s.mem := by
  simp only [shared, seq] at h
  split at h
  · split at h
    · next heq =>
      cases h
      exact .inl ⟨rfl, heq.1, heq.2, rfl⟩
    · cases h
      exact .inr ⟨rfl, rfl⟩
  · cases h

theorem shared_quiet {o : Op} {r : o.Res} (hq : o.Quiet) (h : shared t o s = some (r, s')) : s'.mem = s.mem ∧ s'.length = s.length := by
  cases o with
  | load | assert | createExtent =>
    simp only [shared, seq] at h
    split at h <;> cases h <;> exact ⟨rfl, rfl⟩
  | releasePrev =>
    cases h
    dsimp only [Site.put]
    split <;> exact ⟨rfl, rfl⟩
  | undefined => cases h
  | semGetvalue | current | addAccessors | malloc | clock | sigqueue =>
    cases h
    exact ⟨rfl, rfl⟩
  | _ => exact hq.elim

/-- Only `ftruncate` changes the length of the file. -/
theorem shared_length {o : Op} {r : o.Res} (h : shared t o s = some (r, s')) :
    s'.length = s.length ∨ ∃ n, o = .ftruncate n ∧ s'.length = n := by
  cases o with
  | ftruncate n =>
    simp only [shared, seq] at h
    split at h <;> cases h
    · exact .inr ⟨n, rfl, rfl⟩
    · exact .inl rfl
  | load | store | storeBytes | afa | assert | createExtent | semTrywait | semWait | semTimedwait =>
    simp only [shared, seq] at h
    split at h <;> cases h <;> exact .inl rfl
  | cas | dwcas =>
    simp only [shared, seq] at h
    split at h
    · split at h <;> cases h <;> exact .inl rfl
    · cases h
  | releasePrev =>
    cases h
    dsimp only [Site.put]
    split <;> exact .inl rfl
  | undefined => cases h
  | _ =>
    cases h
    exact .inl rfl

theorem shared_ftruncate {n : ℤ} {r : Trunc} (h : shared t (.ftruncate n) s = some (r, s')) :
    s'.mem = s.mem ∧ (r = .done ∧ s'.length = n ∨ r = .failed ∧ s'.length = s.length) := by
  simp only [shared, seq] at h
  split at h <;> cases h
  · exact ⟨rfl, .inl ⟨rfl, rfl⟩⟩
  · exact ⟨rfl, .inr ⟨rfl, rfl⟩⟩

end

end LibShr
