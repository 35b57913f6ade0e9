import LibShr.Refine.Events

/-!
# The gates

The semaphores `DEQ_SEM` and `ENQ_SEM` guard the two ends of the queue. A gate takes a token or
refuses, and a release puts one back.
-/

namespace LibShr

open Prog

/-- The gate of the remove functions. -/
def deqGate : Gate → M Status
  | .poll => deqGateTry
  | .wait => deqGateBlk
  | .timed t => deqGateTm (t.getD ⟨0, 0⟩)

/-- The gate of the add functions. -/
def enqGate : Gate → M Status
  | .poll => enqGateTry
  | .wait => enqGateBlk
  | .timed t => enqGateTm (t.getD ⟨0, 0⟩)

/-- What a gate answers where it does not wait: `no` is its refusal. -/
def Queue.Passed (Q : Queue) (s : Sem) (g : Gate) (no : Status) (w : World) (H : Heap) (st : Status) (w' : World) : Prop :=
  ∃ b Q', Q.pass s g = some (b, Q') ∧ st = (if b then .ok else no) ∧ Leaves w H Q' w'

section
variable {tot : Prop} {w w' : World} {H H' : Heap} {Q : Queue} {a : ℤ} {g : Gate}

namespace Sim

/-- The process that called for items is told that somebody asks for one. -/
theorem wp_noteCall {α : Type} {k : M α} {R : α → World → Prop} (hS : Sim w H Q) (hk : ∀ w', Still w w' → Wp tot k R w') :
    Wp tot (current >>= fun a => isCallMonitored a >>= fun b => if b then signalCall >>= fun _ => k else k) R w := by
  have hmute : Mute tot (current >>= fun a => isCallMonitored a >>= fun b => if b then signalCall else pure ()) := by
    refine .current fun a ha => ?_
    refine (Mute.isRegistered ⟨by decide, by simp only [CALL_SIGNAL]; omega⟩ ⟨by decide, by simp only [CALL_PID]; omega⟩).bind
      fun _ => .ite ?_ (.pure _)
    exact .signalRegistered (by decide) (by decide)
  have heq : (current >>= fun a => isCallMonitored a >>= fun b => if b then signalCall >>= fun _ => k else k) =
      (current >>= fun a => isCallMonitored a >>= fun b => if b then signalCall else pure ()) >>= fun _ => k := by
    simp only [ite_bind, LawfulMonad.bind_assoc, LawfulMonad.pure_bind]
  rw [heq, Wp, wp_bind]
  exact wp_mono (fun _ w' h => hk w' h) (hmute w hS.cur)

/-- A count of the callers that wait. -/
theorem wp_count {α : Type} {k : M α} {R : α → World → Prop} {s : ℤ} (hS : Sim w H Q) (hs : s ∈ LibShr.settings ∧ s ∉ shown)
    (hk : ∀ w', Leaves w H Q w' → Wp tot k R w') :
    Wp tot (current >>= fun a => afa a s 1 >>= fun _ => k) R w := by
  rw [Wp, wp_bind]
  refine wp_current.2 ?_
  rw [wp_bind]
  exact wp_mono (fun _ w' h => hk w' h) (Idle.afa (v := 1) hs hS.cur w H Q hS)

theorem takeToken (hS : Sim w H Q) (s : Sem) : Sim (w.setSem (Function.update w.sem s (w.sem s - 1))) H (Q.down s) :=
  hS.setSem (by rw [hS.sem])

/-- `deq_gate_try` leaves the object alone. -/
theorem deqGateTry_still (hS : Sim w H Q) : Wp tot LibShr.deqGateTry (fun st w' => ∃ b Q', Q.pass .deq .poll = some (b, Q') ∧
    st = (if b then .ok else .errEmpty) ∧ Sim w' H Q' ∧ w'.mem = w.mem ∧ w'.ext = w.ext) w := by
  have hs : w.sem .deq = Q.sem .deq := congrFun hS.sem _
  rw [LibShr.deqGateTry, Wp, wp_iterate, wp_bind]
  refine wp_semTrywait.2 ?_
  rw [hs]
  by_cases h : 0 < Q.sem .deq
  · simp only [h, if_true]
    exact wp_pure.2 ⟨true, Q.down .deq, by simp only [Queue.pass, h, if_true], rfl, hs ▸ hS.takeToken .deq, rfl, rfl⟩
  · simp only [h, if_false]
    refine hS.wp_noteCall fun w' hw => wp_pure.2 ?_
    exact ⟨false, Q, by simp only [Queue.pass, h, if_false], rfl, hS.still hw, hw.mem, hw.ext⟩

theorem deqGateTry (hS : Sim w H Q) : Wp tot LibShr.deqGateTry (Q.Passed .deq .poll .errEmpty w H) w := by
  refine wp_mono ?_ hS.deqGateTry_still
  rintro st w' ⟨b, Q', hp, hst, hS', -, he⟩
  exact ⟨b, Q', hp, hst, H, hS', .refl, by rw [he]⟩

theorem deqGateBlk (hS : Sim w H Q) (ht : tot → 0 < Q.sem .deq) :
    Wp tot LibShr.deqGateBlk (Q.Passed .deq .wait .errEmpty w H) w := by
  rw [LibShr.deqGateBlk]
  refine hS.wp_count (by decide) fun w₁ h₁ => ?_
  obtain ⟨H₁, hS₁, hh₁, hc₁⟩ := h₁
  refine hS₁.wp_noteCall fun w₂ h₂ => ?_
  obtain ⟨H₂, hS₂, hh₂, hc₂⟩ : Leaves w₁ H₁ Q w₂ := ⟨H₁, hS₁.still h₂, .refl, by rw [h₂.ext]⟩
  have hs : w₂.sem .deq = Q.sem .deq := congrFun hS₂.sem _
  rw [Wp, wp_iterate, wp_bind]
  refine wp_semWait_of (fun h => ?_) (hs ▸ ht)
  refine (hS₂.takeToken .deq).wp_count (by decide) fun w₃ h₃ => wp_pure.2 ?_
  rw [hs] at h
  refine ⟨true, Q.down .deq, by simp only [Queue.pass, h, if_true], rfl, ?_⟩
  exact .trans hS.inv.wf hh₁ hc₁ (.trans hS₁.inv.wf hh₂ hc₂ h₃)

theorem deqGateTm (hS : Sim w H Q) (t : Timespec) :
    Wp tot (LibShr.deqGateTm t) (Q.Passed .deq (.timed (some t)) .errEmpty w H) w := by
  rw [LibShr.deqGateTm]
  refine hS.wp_count (by decide) fun w₁ h₁ => ?_
  obtain ⟨H₁, hS₁, hh₁, hc₁⟩ := h₁
  refine hS₁.wp_noteCall fun w₂ h₂ => ?_
  obtain ⟨H₂, hS₂, hh₂, hc₂⟩ : Leaves w₁ H₁ Q w₂ := ⟨H₁, hS₁.still h₂, .refl, by rw [h₂.ext]⟩
  rw [Wp, wp_bind]
  refine wp_clock.2 ?_
  have hS₃ := hS₂.tick
  have hs : w₂.sem .deq = Q.sem .deq := congrFun hS₂.sem _
  rw [wp_iterate, wp_bind]
  refine wp_semTimedwait.2 ?_
  rw [show ({ w₂ with clock := rest w₂.clock } : World).sem .deq = Q.sem .deq from hs]
  have hlast : ∀ {w₄ : World} {Q' : Queue}, Leaves w₂ H₂ Q' w₄ → Leaves w H Q' w₄ := fun h =>
    .trans hS.inv.wf hh₁ hc₁ (.trans hS₁.inv.wf hh₂ hc₂ h)
  by_cases h : 0 < Q.sem .deq
  · simp only [h, if_true]
    have hS₄ := hS₃.takeToken .deq
    rw [show ({ w₂ with clock := rest w₂.clock } : World).sem .deq = Q.sem .deq from hs] at hS₄
    refine hS₄.wp_count (by decide) fun w₅ h₅ => wp_pure.2 ?_
    exact ⟨true, Q.tick.down .deq, by simp only [Queue.pass, h, if_true], rfl, hlast h₅⟩
  · simp only [h, if_false]
    refine hS₃.wp_count (by decide) fun w₅ h₅ => wp_pure.2 ?_
    exact ⟨false, Q.tick, by simp only [Queue.pass, h, if_false], rfl, hlast h₅⟩

theorem deqGate (hS : Sim w H Q) (hg : g ≠ .timed none) (ht : tot → (Q.pass .deq g).isSome) :
    Wp tot (LibShr.deqGate g) (Q.Passed .deq g .errEmpty w H) w := by
  cases g with
  | poll => exact hS.deqGateTry
  | wait =>
    refine hS.deqGateBlk fun h => ?_
    by_contra hn
    have := ht h
    simp [Queue.pass, hn] at this
  | timed t =>
    cases t with
    | none => exact absurd rfl hg
    | some t => exact hS.deqGateTm t

theorem enqGate (hS : Sim w H Q) (hg : g ≠ .timed none) (ht : tot → (Q.pass .enq g).isSome) :
    Wp tot (LibShr.enqGate g) (Q.Passed .enq g .errLimit w H) w := by
  have hs : w.sem .enq = Q.sem .enq := congrFun hS.sem _
  have htake : Sim (w.setSem (Function.update w.sem .enq (Q.sem .enq - 1))) H (Q.down .enq) := hs ▸ hS.takeToken .enq
  cases g with
  | poll =>
    rw [LibShr.enqGate, enqGateTry, Wp, wp_iterate, wp_bind]
    refine wp_semTrywait.2 ?_
    rw [hs]
    by_cases h : 0 < Q.sem .enq
    · simp only [h, if_true]
      exact wp_pure.2 ⟨true, Q.down .enq, by simp only [Queue.pass, h, if_true], rfl, htake.leaves⟩
    · simp only [h, if_false]
      exact wp_pure.2 ⟨false, Q, by simp only [Queue.pass, h, if_false], rfl, hS.leaves⟩
  | wait =>
    rw [LibShr.enqGate, enqGateBlk, Wp, wp_iterate, wp_bind]
    refine wp_semWait_of (fun h => ?_) fun h => ?_
    · rw [hs] at h ⊢
      exact wp_pure.2 ⟨true, Q.down .enq, by simp only [Queue.pass, h, if_true], rfl, htake.leaves⟩
    · by_contra hn
      have := ht h
      simp [Queue.pass, ← hs, hn] at this
  | timed t =>
    obtain ⟨t, rfl⟩ : ∃ u, t = some u := Option.ne_none_iff_exists'.1 fun h => hg (h ▸ rfl)
    rw [LibShr.enqGate, enqGateTm, Wp, wp_bind]
    refine wp_clock.2 ?_
    rw [wp_iterate, wp_bind]
    refine wp_semTimedwait.2 ?_
    rw [show ({ w with clock := rest w.clock } : World).sem .enq = Q.sem .enq from hs]
    by_cases h : 0 < Q.sem .enq
    · simp only [h, if_true]
      have hS' := hS.tick.takeToken .enq
      rw [show ({ w with clock := rest w.clock } : World).sem .enq = Q.sem .enq from hs] at hS'
      exact wp_pure.2 ⟨true, Q.tick.down .enq, by simp only [Queue.pass, h, if_true], rfl, hS'.leaves⟩
    · simp only [h, if_false]
      exact wp_pure.2 ⟨false, Q.tick, by simp only [Queue.pass, h, if_false], rfl, hS.tick.leaves⟩

theorem releaseGate (hS : Sim w H Q) (s : Sem) :
    Wp tot (LibShr.releaseGate s) (fun st w' => st = .ok ∧ Sim w' H (Q.up s) ∧ w'.ext = w.ext) w := by
  rw [LibShr.releaseGate, Wp, wp_iterate, wp_bind]
  exact wp_semPost.2 (wp_pure.2 ⟨rfl, hS.setSem (by rw [hS.sem]), rfl⟩)

/-! ## Inside the library -/

/-- `guard_q_memory` at the start of a call. -/
theorem guarded {α : Type} {p : M α} {R : α → World → Prop} (hS : Sim w H Q) (hp : ∀ w', Sim w' H Q → Wp tot p R w') :
    Wp tot (guardQMemory >>= fun _ => p) R w := by
  rw [Wp, wp_bind]
  refine wp_mono ?_ (Mute.guardQMemory w hS.cur)
  intro _ w' hw
  exact hp w' (hS.still hw)

theorem unguarded {α : Type} {x : α} {R : α → World → Prop} (hS : Sim w H Q) (hR : ∀ w', Sim w' H Q → R x w') :
    Wp tot (unguardQMemory >>= fun _ => pure x) R w := by
  rw [Wp, wp_bind]
  refine wp_mono ?_ (Mute.unguardQMemory w hS.cur)
  intro _ w' hw
  exact wp_pure.2 (hR w' (hS.still hw))

/-- The same of texts with notes. -/
theorem notedGuarded {α : Type} {p : NotedM α} {R : α → World × List EventNote → Prop} {l : List EventNote} (hS : Sim w H Q)
    (hp : ∀ w', Sim w' H Q → NotedWp tot p R (w', l)) : NotedWp tot (plain guardQMemory >>= fun _ => p) R (w, l) := by
  rw [NotedWp, wp_bind, wp_plain]
  refine wp_mono ?_ (Mute.guardQMemory w hS.cur)
  intro _ w' hw
  exact hp w' (hS.still hw)

theorem notedUnguarded {α : Type} {x : α} {R : α → World × List EventNote → Prop} {l : List EventNote} (hS : Sim w H Q)
    (hR : ∀ w', Sim w' H Q → R x (w', l)) : NotedWp tot (plain unguardQMemory >>= fun _ => pure x) R (w, l) := by
  rw [NotedWp, wp_bind, wp_plain]
  refine wp_mono ?_ (Mute.unguardQMemory w hS.cur)
  intro _ w' hw
  exact wp_pure.2 (hR w' (hS.still hw))

end Sim

end

end LibShr
