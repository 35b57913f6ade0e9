import LibShr.Model.Machine

/-!
# Rules for the atomic operations of one process

One rewriting rule for each operation of `seq`. The rules of the memory operations carry the range
test as a hypothesis, so that `simp (disch := omega)` executes straight-line code; where a slot may
be outside the mapping, `wp_load_of` leaves the range as a goal for total correctness only.
-/

namespace LibShr

open Prog

/-- The same world with another memory. -/
abbrev World.setMem (w : World) (m : ℤ → ℤ) : World := { w with mem := m }

/-- The same world with other extents. -/
abbrev World.setExt (w : World) (e : Mapping) : World := { w with ext := e }

/-- The same world with other semaphores. -/
abbrev World.setSem (w : World) (s : Sem → ℤ) : World := { w with sem := s }

section
variable (w : World) (m m' : ℤ → ℤ) (e e' : Mapping) (s s' : Sem → ℤ)

@[simp] theorem World.mem_setMem : (w.setMem m).mem = m := rfl
@[simp] theorem World.ext_setMem : (w.setMem m).ext = w.ext := rfl
@[simp] theorem World.sem_setMem : (w.setMem m).sem = w.sem := rfl
@[simp] theorem World.mem_setExt : (w.setExt e).mem = w.mem := rfl
@[simp] theorem World.ext_setExt : (w.setExt e).ext = e := rfl
@[simp] theorem World.sem_setExt : (w.setExt e).sem = w.sem := rfl
@[simp] theorem World.mem_setSem : (w.setSem s).mem = w.mem := rfl
@[simp] theorem World.ext_setSem : (w.setSem s).ext = w.ext := rfl
@[simp] theorem World.sem_setSem : (w.setSem s).sem = s := rfl
@[simp] theorem World.setMem_setMem : (w.setMem m).setMem m' = w.setMem m' := rfl
@[simp] theorem World.setExt_setExt : (w.setExt e).setExt e' = w.setExt e' := rfl
@[simp] theorem World.setSem_setSem : (w.setSem s).setSem s' = w.setSem s' := rfl
@[simp] theorem World.setMem_mem : w.setMem w.mem = w := rfl
@[simp] theorem World.setExt_ext : w.setExt w.ext = w := rfl

end

theorem setSlot_same (m : ℤ → ℤ) (a v : ℤ) : setSlot m a v a = v := if_pos rfl

theorem setSlot_ne (m : ℤ → ℤ) {a b : ℤ} (v : ℤ) (h : b ≠ a) : setSlot m a v b = m b := if_neg h

section
variable {tot : Prop} {w : World} {a s v : ℤ}

theorem wp_load {Q : ℤ → World → Prop} (h₀ : 0 ≤ s) (h₁ : s < a) :
    Wp tot (load a s) Q w ↔ Q (w.mem s) w :=
  wp_op_some (if_pos ⟨h₀, h₁⟩)

/-- A load that may be out of range. -/
theorem wp_load_of {Q : ℤ → World → Prop} (hQ : 0 ≤ s → s < a → Q (w.mem s) w)
    (ht : tot → 0 ≤ s ∧ s < a) : Wp tot (load a s) Q w := by
  by_cases h : InExtent a s
  · exact (wp_load h.1 h.2).2 (hQ h.1 h.2)
  · exact (wp_op_none (if_neg h)).2 fun hh => h (ht hh)

theorem wp_store {Q : Unit → World → Prop} (h₀ : 0 ≤ s) (h₁ : s < a) :
    Wp tot (store a s v) Q w ↔ Q () (w.setMem (setSlot w.mem s v)) :=
  wp_op_some (if_pos ⟨h₀, h₁⟩)

theorem wp_storeBytes {Q : Unit → World → Prop} {bytes : List UInt8} (h₀ : 0 ≤ s) (h₁ : s < a) :
    Wp tot (storeBytes a s bytes) Q w ↔
      Q () (w.setMem (setSlot w.mem s (Words.patch (w.mem s) bytes))) :=
  wp_op_some (if_pos ⟨h₀, h₁⟩)

theorem wp_cas {Q : Bool → World → Prop} {old new : ℤ} (h₀ : 0 ≤ s) (h₁ : s < a) :
    Wp tot (cas a s old new) Q w ↔
      if w.mem s = old then Q true (w.setMem (setSlot w.mem s new)) else Q false w := by
  split
  · rename_i h
    exact wp_op_some ((if_pos ⟨h₀, h₁⟩).trans (if_pos h))
  · rename_i h
    exact wp_op_some ((if_pos ⟨h₀, h₁⟩).trans (if_neg h))

theorem wp_dwcas {Q : Bool → World → Prop} {role : Role} {old new : DWORD} (h₀ : 0 ≤ s)
    (h₁ : s + 1 < a) (h₂ : s % 2 = 0) :
    Wp tot (dwcas role a s old new) Q w ↔
      if w.mem s = old.low ∧ w.mem (s + 1) = old.high then
        Q true (w.setMem (setSlot (setSlot w.mem s new.low) (s + 1) new.high))
      else Q false w := by
  have hr : InExtent a s ∧ InExtent a (s + 1) ∧ s % 2 = 0 := by
    simp only [InExtent]
    omega
  split
  · rename_i h
    exact wp_op_some ((if_pos hr).trans (if_pos h))
  · rename_i h
    exact wp_op_some ((if_pos hr).trans (if_neg h))

theorem wp_afa {Q : ℤ → World → Prop} (h₀ : 0 ≤ s) (h₁ : s < a) :
    Wp tot (afa a s v) Q w ↔ Q (w.mem s) (w.setMem (setSlot w.mem s (w.mem s + v))) :=
  wp_op_some (if_pos ⟨h₀, h₁⟩)

theorem wp_semInit {Q : Bool → World → Prop} {x : Sem} :
    Wp tot (semInit x v) Q w ↔ Q true (w.setSem (Function.update w.sem x v)) :=
  wp_op_some rfl

theorem wp_semTrywait {Q : Option Errno → World → Prop} {x : Sem} :
    Wp tot (semTrywait x) Q w ↔
      if 0 < w.sem x then Q none (w.setSem (Function.update w.sem x (w.sem x - 1)))
      else Q (some .eagain) w := by
  split
  · rename_i h
    exact wp_op_some (if_pos h)
  · rename_i h
    exact wp_op_some (if_neg h)

theorem wp_semWait {Q : Option Errno → World → Prop} {x : Sem} (h : 0 < w.sem x) :
    Wp tot (semWait x) Q w ↔ Q none (w.setSem (Function.update w.sem x (w.sem x - 1))) :=
  wp_op_some (if_pos h)

/-- A wait that may have to block. -/
theorem wp_semWait_of {Q : Option Errno → World → Prop} {x : Sem}
    (hQ : 0 < w.sem x → Q none (w.setSem (Function.update w.sem x (w.sem x - 1)))) (ht : tot → 0 < w.sem x) :
    Wp tot (semWait x) Q w := by
  by_cases h : 0 < w.sem x
  · exact (wp_semWait h).2 (hQ h)
  · exact (wp_op_none (if_neg h)).2 fun hh => h (ht hh)

theorem wp_semTimedwait {Q : Option Errno → World → Prop} {x : Sem} {t : Timespec} :
    Wp tot (semTimedwait x t) Q w ↔
      if 0 < w.sem x then Q none (w.setSem (Function.update w.sem x (w.sem x - 1)))
      else Q (some .etimedout) w := by
  split
  · rename_i h
    exact wp_op_some (if_pos h)
  · rename_i h
    exact wp_op_some (if_neg h)

theorem wp_semPost {Q : Option Errno → World → Prop} {x : Sem} :
    Wp tot (semPost x) Q w ↔ Q none (w.setSem (Function.update w.sem x (w.sem x + 1))) :=
  wp_op_some rfl

theorem wp_semGetvalue {Q : ℤ → World → Prop} {x : Sem} :
    Wp tot (semGetvalue x) Q w ↔ Q (w.sem x) w :=
  wp_op_some rfl

theorem wp_assert {Q : Unit → World → Prop} {c : Prop} [Decidable c] (h : c) :
    Wp tot (assert c) Q w ↔ Q () w :=
  wp_op_some (if_pos (decide_eq_true h))

theorem wp_undefined {Q : Unit → World → Prop} : Wp tot undefined Q w ↔ ¬tot :=
  wp_op_none rfl

theorem wp_current {Q : ℤ → World → Prop} : Wp tot current Q w ↔ Q w.ext.cur w :=
  wp_op_some rfl

/-- `create_extent` with success: the new extent is current and the old one stays mapped. -/
def Mapping.remap (e : Mapping) (slots : ℤ) : Mapping :=
  { e with cur := slots, old := e.old ++ [e.cur], map := rest e.map }

/-- `create_extent` without success. -/
def Mapping.refuse (e : Mapping) : Mapping := { e with map := rest e.map }

theorem wp_createExtent {Q : Status → World → Prop} {n : ℤ} :
    Wp tot (createExtent n) Q w ↔
      if w.ext.map 0 n = .ok then Q .ok (w.setExt (w.ext.remap n))
      else Q (w.ext.map 0 n) (w.setExt w.ext.refuse) := by
  split
  · rename_i h
    exact wp_op_some (if_pos h)
  · rename_i h
    exact wp_op_some (if_neg h)

/-- What an `ftruncate` that succeeds leaves. -/
def Mapping.truncate (e : Mapping) (length : ℤ) : Mapping :=
  { e with length := length, trunc := rest e.trunc }

/-- What an `ftruncate` that fails leaves. -/
def Mapping.truncFail (e : Mapping) : Mapping := { e with trunc := rest e.trunc }

theorem wp_ftruncate {Q : Trunc → World → Prop} {n : ℤ} :
    Wp tot (ftruncate n) Q w ↔
      if w.ext.trunc 0 then Q .done (w.setExt (w.ext.truncate n))
      else Q .failed (w.setExt w.ext.truncFail) := by
  split
  · rename_i h
    exact wp_op_some (if_pos h)
  · rename_i h
    exact wp_op_some (if_neg h)

/-- `release_prev_extents` with the given number of accessors. -/
def Mapping.release (e : Mapping) (accessors : ℤ) : Mapping :=
  if accessors > 1 then e else { e with old := [] }

theorem wp_releasePrevExtents {Q : Unit → World → Prop} :
    Wp tot releasePrevExtents Q w ↔ Q () (w.setExt (w.ext.release w.accessors)) := by
  refine wp_op_some ?_
  simp only [seq, Mapping.release]
  split <;> rfl

theorem wp_guardQMemory {Q : Unit → World → Prop} :
    Wp tot guardQMemory Q w ↔ Q () { w with accessors := w.accessors + 1 } :=
  wp_op_some rfl

theorem wp_unguardQMemory {Q : Unit → World → Prop} :
    Wp tot unguardQMemory Q w ↔ Q () { w with accessors := w.accessors + -1 } :=
  wp_op_some rfl

theorem wp_malloc {Q : Bool → World → Prop} :
    Wp tot (malloc v) Q w ↔ Q (w.malloc 0) { w with malloc := rest w.malloc } :=
  wp_op_some rfl

theorem wp_clock {Q : Timespec → World → Prop} :
    Wp tot clock Q w ↔ Q (w.clock 0) { w with clock := rest w.clock } :=
  wp_op_some rfl

theorem wp_sigqueue {Q : Unit → World → Prop} {pid signal : ℤ} :
    Wp tot (sigqueue pid signal v) Q w ↔ Q () { w with signals := w.signals ++ [⟨pid, signal, v⟩] } :=
  wp_op_some rfl

theorem wp_loadDWORD {Q : DWORD → World → Prop} (h₀ : 0 ≤ s) (h₁ : s + 1 < a) :
    Wp tot (loadDWORD a s) Q w ↔ Q ⟨w.mem s, w.mem (s + 1)⟩ w := by
  simp (disch := omega) only [loadDWORD, wp_bind, wp_load, wp_pure]

/-- `m` with `n` slots from `s` on set to 0. -/
def zeroed (m : ℤ → ℤ) (s : ℤ) (n : ℕ) : ℤ → ℤ := fun i => if s ≤ i ∧ i < s + n then 0 else m i

theorem zeroed_of {m : ℤ → ℤ} {i : ℤ} {n : ℕ} (h : s ≤ i ∧ i < s + n) : zeroed m s n i = 0 := if_pos h

theorem zeroed_ne {m : ℤ → ℤ} {i : ℤ} {n : ℕ} (h : i < s ∨ s + n ≤ i) : zeroed m s n i = m i :=
  if_neg (by omega)

theorem wp_memset0 {Q : Unit → World → Prop} : ∀ {n : ℕ} {s : ℤ} {w : World}, 0 ≤ s → s + n ≤ a →
    (Wp tot (memset0 a s n) Q w ↔ Q () (w.setMem (zeroed w.mem s n)))
  | 0, s, w, _, _ => by
    have hz : zeroed w.mem s 0 = w.mem := by
      funext i
      exact zeroed_ne (by omega)
    rw [hz]
    exact wp_pure
  | n + 1, s, w, h₀, h₁ => by
    simp (disch := omega) only [memset0, wp_bind, wp_store, wp_memset0, World.setMem_setMem]
    have hz : zeroed (setSlot w.mem s 0) (s + 1) n = zeroed w.mem s (n + 1) := by
      funext i
      by_cases hi : s ≤ i ∧ i < s + (n + 1 : ℕ)
      · rw [zeroed_of hi]
        by_cases his : i = s
        · rw [zeroed_ne (by omega), his, setSlot_same]
        · rw [zeroed_of (by omega)]
      · rw [zeroed_ne (by omega), zeroed_ne (by omega), setSlot_ne _ _ (by omega)]
    rw [hz]

end

end LibShr
