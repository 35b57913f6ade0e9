import LibShr.Runs.History

/-!
# Reports of an empty queue

`SQ_EVNT_EMPTY` is raised where a remove function takes the last item off the queue. `shr_q_clean`
takes items off as well, but raises nothing.
-/

namespace LibShr

open Prog

/-- `SQ_EVNT_EMPTY` is subscribed. -/
def EmptySubscribed (w : World) : Prop := Int.land (w.mem FLAGS) (getEventFlag .empty) ≠ 0

/-- If `COUNT` went down to 0 while the event was subscribed, one was appended. -/
def Reported (w w' : World) : Prop :=
  0 < w.mem COUNT → w'.mem COUNT = 0 → EmptySubscribed w →
    ∃ new, pendingEvents w'.mem = pendingEvents w.mem ++ new ∧ new.count .empty = 1

/-- A clean that takes the last item while the event is subscribed: nothing is stacked, and every item
of the FIFO in turn is too old. -/
def CleansOut (w : World) (e : Made) : Prop :=
  ∃ q t, e.call = .clean (some t) ∧ e.caller.q = some q ∧ q.mode.canRead = true ∧ 0 < w.mem COUNT ∧ EmptySubscribed w ∧
    stackBlocks w.mem = [] ∧ dropFrom (fun i _ b => olderThan t (e.caller.clock i) (stampAt w.mem b)) 0 (fifoBlocks w.mem) = []

section
variable {w w' w₀ : World} {Q Q' : Queue} {e : Made} {es : List Made} {depth : ℤ} {δ : Delta}

theorem Represents.emptySubscribed (hR : Represents w Q) : EmptySubscribed w ↔ Q.subscribed .empty = true := by
  rw [EmptySubscribed, hR.flags, Queue.subscribed, decide_eq_true_iff]

/-- A call that takes nothing off the queue has nothing to report. -/
theorem reported_of_count (h : w.mem COUNT ≤ w'.mem COUNT) : Reported w w' := fun h₀ h₁ => by omega

/-- A clean reports only if it does not empty the queue. -/
theorem reported_clean (hR : Represents w Q) (hR' : Represents w' Q') (hs : Q.Sane) (hs' : Q'.Sane) {t : Option Timespec}
    (hc : e.call = .clean t) (hd : Q.Did e Q') : Reported w w' ↔ ¬CleansOut w e := by
  obtain ⟨a, ha, -⟩ := hd
  rw [hc] at ha
  obtain ⟨k, hch⟩ := Queue.step_cleaned ha
  have hev : pendingEvents w'.mem = pendingEvents w.mem := by
    rw [hR.pending, hR'.pending, hch.events]
    exact List.append_nil _
  have hnot : Reported w w' ↔ ¬(0 < w.mem COUNT ∧ w'.mem COUNT = 0 ∧ EmptySubscribed w) := by
    constructor
    · rintro h ⟨h₀, h₁, hsub⟩
      obtain ⟨new, hnew, hcnt⟩ := h h₀ h₁ hsub
      rw [hev] at hnew
      rw [List.self_eq_append_right.1 hnew] at hcnt
      cases hcnt
    · intro h h₀ h₁ hsub
      exact absurd ⟨h₀, h₁, hsub⟩ h
  rw [hnot, not_iff_not]
  have hzero : w'.mem COUNT = 0 ↔ Q'.items = [] := by
    rw [hR'.count, hs'.count, ← List.length_eq_zero_iff]
    exact Nat.cast_eq_zero
  rcases Queue.step_clean ha with ⟨rfl, hno⟩ | ⟨q, t', hq, rfl, hm, rfl⟩
  · constructor
    · rintro ⟨h₀, h₁, -⟩
      rw [hR'.count] at h₁
      rw [hR.count] at h₀
      exact absurd h₁ (ne_of_gt h₀)
    · rintro ⟨q, t', hc', hq, hm, -⟩
      rw [hc] at hc'
      cases hc'
      exact absurd ⟨q, t', hq, rfl, hm⟩ hno
  · have hlen : Q.fifo.length ≤ Q.items.length := by simp [Queue.items]
    obtain ⟨hst, hfi⟩ := Queue.cleanLoop_fifo (Q := Q.reading e.caller.clock) (t := t') (n := Q.fifo.length + 1)
      (Nat.lt_succ_self _) ((Nat.cast_le.2 hlen).trans hs.deq)
    have hrel := dropFrom_rel (p := fun i _ b => olderThan t' (e.caller.clock i) (stampAt w.mem b))
      (q := fun i _ it => it.exceeds t' (e.caller.clock i)) (i := 0) (fun i _ b it hb => by rw [ItemAt.stamp hb]; rfl) hR.fifo
    have hitems : ((Q.reading e.caller.clock).clean t').items = [] ↔ stackBlocks w.mem = [] ∧
        dropFrom (fun i _ b => olderThan t' (e.caller.clock i) (stampAt w.mem b)) 0 (fifoBlocks w.mem) = [] := by
      rw [Queue.items, List.append_eq_nil_iff]
      refine and_congr ?_ ?_
      · show (Queue.cleanLoop t' (Q.fifo.length + 1) _).stack = [] ↔ _
        rw [hst, ← List.length_eq_zero_iff, ← List.length_eq_zero_iff (l := stackBlocks w.mem), hR.stack.length_eq]
        rfl
      · show (Queue.cleanLoop t' (Q.fifo.length + 1) _).fifo = [] ↔ _
        rw [hfi, ← List.length_eq_zero_iff, ← List.length_eq_zero_iff (l := dropFrom _ _ (fifoBlocks w.mem)), hrel.length_eq]
        rfl
    rw [hzero, hitems]
    constructor
    · rintro ⟨h₀, ⟨h₁, h₂⟩, hsub⟩
      exact ⟨q, t', hc, hq, hm, h₀, hsub, h₁, h₂⟩
    · rintro ⟨q', t'', hc', -, -, h₀, hsub, h₁, h₂⟩
      rw [hc] at hc'
      cases hc'
      exact ⟨h₀, ⟨h₁, h₂⟩, hsub⟩

/-- A removal reports. -/
theorem reported_remove (hR : Represents w Q) (hR' : Represents w' Q') (h : Queue.Left (Q.reading e.caller.clock) Q') : Reported w w' := by
  obtain ⟨k, es, hch, hempty, -⟩ := h
  intro h₀ h₁ hsub
  rw [hR.emptySubscribed] at hsub
  rw [hR.count] at h₀
  rw [hR'.count] at h₁
  have hmem : .empty ∈ es := hempty.2 ⟨h₀, h₁, hsub⟩
  refine ⟨es, ?_, List.count_eq_one_of_mem hch.nodup hmem⟩
  rw [hR.pending, hR'.pending, hch.events]
  rfl

/-- A call that takes nothing off the queue. -/
theorem count_step (hR : Represents w Q) (hR' : Represents w' Q') (hs : Q.Sane) (hd : Q.Did e Q')
    (hrem : ∀ g u, e.call ≠ .remove g u) (hcl : ∀ t, e.call ≠ .clean t) : w.mem COUNT ≤ w'.mem COUNT := by
  obtain ⟨a, ha, -⟩ := hd
  rw [hR.count, hR'.count]
  have hadd : ∀ {n v : ℕ}, e.call.request = some (n, v) → Q.hdr.count ≤ Q'.hdr.count := fun hc => by
    have hcount : ∀ {δ : Delta}, (Q.reading e.caller.clock).Change Q' δ → 0 ≤ δ.count → Q.hdr.count ≤ Q'.hdr.count := fun h hδ => by
      rw [h.count]
      exact Int.le_add_of_nonneg_right hδ
    obtain ⟨st, -, ⟨-, it, es, hch, -, -⟩ | ⟨-, hch⟩⟩ := Queue.step_added hc ha
    · exact hcount hch Int.one_nonneg
    · exact hcount hch (le_refl _)
  cases hc : e.call with
  | add g value length => exact hadd (by rw [hc]; rfl)
  | addv g vector => exact hadd (by rw [hc]; rfl)
  | remove g u => exact absurd hc (hrem g u)
  | clean t => exact absurd hc (hcl t)
  | prod =>
    rw [hc] at ha
    rcases Queue.step_prod ha with ⟨-, -, rfl⟩ | ⟨-, -, rfl⟩
    · exact le_refl _
    · exact le_refl _
  | event =>
    rw [hc] at ha
    rcases Queue.step_event ha with ⟨-, -, rfl⟩ | ⟨-, -, rfl⟩
    · rcases Queue.takeEvent_cases (hs.reading _) with ⟨-, he⟩ | ⟨ev, l, -, he⟩
      · rw [he]
        exact le_refl _
      · rw [he]
        exact le_refl _
    · exact le_refl _
  | _ =>
    obtain ⟨hd, rfl, hcount, -, -⟩ := Queue.step_resets (by rw [hc]; rfl) (by simp [hc]) ha
    exact hcount.ge

/-- **Every emptying is reported, unless it is a clean that empties the queue.** -/
theorem emptying_reported (hw : Created depth w₀) (h : Trace Ran w₀ es w) (he : Ran w e w') : Reported w w' ↔ ¬CleansOut w e := by
  obtain ⟨Q, hR, hs⟩ := hw.reaches h
  obtain ⟨Q', hd, hR'⟩ := hR.ran he
  by_cases hcl : ∃ t, e.call = .clean t
  · obtain ⟨t, hc⟩ := hcl
    exact reported_clean hR hR' hs (hd.sane hs) hc hd
  have hno : ¬CleansOut w e := by
    rintro ⟨q, t, hc, -⟩
    exact hcl ⟨_, hc⟩
  refine ⟨fun _ => hno, fun _ => ?_⟩
  by_cases hrem : ∃ g u, e.call = .remove g u
  · obtain ⟨g, u, hc⟩ := hrem
    obtain ⟨a, ha, -⟩ := hd
    rw [hc] at ha
    exact reported_remove hR hR' (Queue.step_left (Q := Q.reading e.caller.clock) hs.count ha)
  · exact reported_of_count (count_step hR hR' hs hd (fun g u hc => hrem ⟨g, u, hc⟩) fun t hc => hcl ⟨t, hc⟩)

/-! ## One item -/

/-- A queue with the event subscribed, after one byte was added at the time 1. -/
def oneByte : Queue := (Queue.fresh.after (fun _ => ⟨1, 0⟩) (.subscribe .empty)).after (fun _ => ⟨1, 0⟩) (.add .poll (some [7]) 1)

theorem oneByte_reached : ∃ w₀ es w, Created 4 w₀ ∧ Trace Ran w₀ es w ∧ Represents w oneByte ∧ w.mem COUNT = 1 ∧ EmptySubscribed w := by
  obtain ⟨w₀, hw, hR₀⟩ := fresh_represents
  obtain ⟨r₁, w₁, h₁, -, hR₁⟩ := hR₀.next (fun _ => ⟨1, 0⟩) (.subscribe .empty) trivial (by decide +kernel)
  obtain ⟨r₂, w₂, h₂, -, hR₂⟩ := hR₁.next (fun _ => ⟨1, 0⟩) (.add .poll (some [7]) 1) (by rintro v ⟨⟩; decide) (by decide +kernel)
  have hcount : oneByte.hdr.count = 1 := by decide +kernel
  have hsub : oneByte.subscribed .empty = true := by decide +kernel
  exact ⟨w₀, _, w₂, hw, .cons h₁ (.cons h₂ (.nil _)), hR₂, hR₂.count.trans hcount, hR₂.emptySubscribed.2 hsub⟩

theorem emptying_reported_remove : ∃ w₀ es w e w', Created 4 w₀ ∧ Trace Ran w₀ es w ∧ Ran w e w' ∧ w.mem COUNT = 1 ∧
    w'.mem COUNT = 0 ∧ EmptySubscribed w ∧ Reported w w' := by
  obtain ⟨w₀, es, w, hw, ht, hR, hone, hsub⟩ := oneByte_reached
  obtain ⟨r, w', he, -, hR'⟩ := hR.next (fun _ => ⟨1, 0⟩) (.remove .poll (some ⟨false, 0⟩)) trivial (by decide +kernel)
  have hcount : (oneByte.after (fun _ => ⟨1, 0⟩) (.remove .poll (some ⟨false, 0⟩))).hdr.count = 0 := by decide +kernel
  refine ⟨w₀, es, w, _, w', hw, ht, he, hone, hR'.count.trans hcount, hsub, (emptying_reported hw ht he).2 ?_⟩
  rintro ⟨q, t, hc, -⟩
  cases hc

/-- A clean takes the last item, and nobody is told. -/
theorem emptying_not_reported : ∃ w₀ es w e w', Created 4 w₀ ∧ Trace Ran w₀ es w ∧ Ran w e w' ∧ ¬Reported w w' := by
  obtain ⟨w₀, es, w, hw, ht, hR, hone, hsub⟩ := oneByte_reached
  obtain ⟨r, w', he, -, hR'⟩ := hR.next (fun _ => ⟨10, 0⟩) (.clean (some ⟨1, 0⟩)) trivial (by decide +kernel)
  have hcount : (oneByte.after (fun _ => ⟨10, 0⟩) (.clean (some ⟨1, 0⟩))).hdr.count = 0 := by decide +kernel
  have hbefore : oneByte.events = [] := by decide +kernel
  have hafter : (oneByte.after (fun _ => ⟨10, 0⟩) (.clean (some ⟨1, 0⟩))).events = [] := by decide +kernel
  refine ⟨w₀, es, w, _, w', hw, ht, he, fun h => ?_⟩
  obtain ⟨new, hnew, hcnt⟩ := h (by rw [hone]; decide) (hR'.count.trans hcount) hsub
  rw [hR.pending, hR'.pending, hbefore, hafter, List.nil_append] at hnew
  rw [← hnew] at hcnt
  cases hcnt

end

end LibShr
