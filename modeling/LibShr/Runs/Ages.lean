import LibShr.Runs.History
import LibShr.Spec.Times

/-!
# Ages and limits

What the two tests of an elapsed time answer, against the same number of nanoseconds: the age of an item
against the time limit of the queue, and the time since the last add against a caller's limit.
-/

namespace LibShr

open Prog

/-- The time limit of the queue. -/
def timeLimit (w : World) : Timespec := ⟨w.mem LIMIT_SEC, w.mem LIMIT_NSEC⟩

/-- When the last item was added. -/
def lastAdd (w : World) : Timespec := ⟨w.mem TS_SEC, w.mem TS_NSEC⟩

/-- The time `t` lies beyond the seconds of the limit, but not beyond the whole limit. -/
def WithinCarry (limit : Timespec) (t : ℤ) : Prop := (limit.sec + 1) * 1000000000 ≤ t ∧ t ≤ limit.nanos

section
variable {w w' w₀ : World} {H : Heap} {Q : Queue} {es : List Made} {depth b : ℤ} {p : Caller} {now : Timespec}

/-! ## The age of an item -/

/-- The block of a queued item is in use and holds it. -/
theorem Sim.queued (hS : Sim w H Q) (hb : b ∈ itemBlocks w.mem) : b ∈ H.live ∧ ∃ it ∈ Q.items, ItemAt H.word b it := by
  unfold itemBlocks at hb
  rw [hS.stackBlocks, hS.fifoBlocks] at hb
  constructor
  · rcases List.mem_append.1 hb with hb | hb
    · exact Heap.mem_live_stack hb
    · exact Heap.mem_live_fifo hb
  · have hitems := List.rel_append hS.stack hS.fifo
    obtain ⟨it, hit, h, -⟩ := exists_both hitems hitems hb
    exact ⟨it, hit, h⟩

/-- What `item_exceeds_limit` answers about a queued item. -/
theorem expiry_run (hR : Represents w Q) (hp : p.Ok w) (hb : b ∈ itemBlocks w.mem) (now : Timespec) :
    ∃ w', Runs seq (itemExceedsLimit b (.shared p.ext.cur LIMIT_SEC) now) (p.enter w) (olderThan (timeLimit w) now (stampAt w.mem b)) w' := by
  obtain ⟨H, hS⟩ := hR
  obtain ⟨hlive, it, -, hit⟩ := hS.queued hb
  have hstamp : stampAt w.mem b = it.stamp := (hS.itemAt hlive hit).stamp
  have hcur : 512 ≤ p.ext.cur := hp.cur_pos
  have hspec : Wp True (itemExceedsLimit b (.shared p.ext.cur LIMIT_SEC) now) _ (p.enter w) :=
    (hS.enter hp).itemExceedsLimit (t := timeLimit w) hlive hit ⟨by decide, by simp only [LIMIT_SEC]; omega, rfl⟩
  obtain ⟨r, w', hr, rfl, -⟩ := (wp_iff_runs trivial).1 hspec
  rw [hstamp]
  exact ⟨w', hr⟩

/-- **The age of an item is compared with the time limit to the nanosecond**, unless the limit's
nanoseconds are more than a second, and the age lies in between. -/
theorem expiry_compares (hw : Created depth w₀) (h : Trace Ran w₀ es w) (hp : p.Ok w) (hb : b ∈ itemBlocks w.mem)
    (hl₀ : 0 ≤ (timeLimit w).sec) (hl₁ : 0 ≤ (timeLimit w).nsec) (hl : ¬((timeLimit w).sec = 0 ∧ (timeLimit w).nsec = 0))
    (hs : (stampAt w.mem b).Normal) (hn : now.Normal) :
    ∃ r w', Runs seq (itemExceedsLimit b (.shared p.ext.cur LIMIT_SEC) now) (p.enter w) r w' ∧
      ((r = true ↔ (timeLimit w).nanos < now.nanos - (stampAt w.mem b).nanos) ↔
        ¬WithinCarry (timeLimit w) (now.nanos - (stampAt w.mem b).nanos)) := by
  obtain ⟨Q, hR, -⟩ := hw.reaches h
  obtain ⟨w', hr⟩ := expiry_run hR hp hb now
  refine ⟨_, w', hr, ?_⟩
  obtain ⟨hd, hdn⟩ := hn.sub hs
  have hcmp := hd.gt_iff_nanos (t := timeLimit w) hl₁
  unfold olderThan
  rw [if_neg hl]
  rwa [hdn] at hcmp

/-- The queue with the time limit `s` and `n`, after one byte was added at the time 1. -/
def Queue.limited (s n : ℤ) : Queue :=
  (Queue.fresh.after (fun _ => ⟨1, 0⟩) (.timelimit s n)).after (fun _ => ⟨1, 0⟩) (.add .poll (some [65]) 1)

theorem one_byte_limited {s n : ℤ} (h₁ : (Queue.fresh.answer (fun _ => ⟨1, 0⟩) (.timelimit s n)).isSome = true)
    (h₂ : ((Queue.fresh.after (fun _ => ⟨1, 0⟩) (.timelimit s n)).answer (fun _ => ⟨1, 0⟩) (.add .poll (some [65]) 1)).isSome = true)
    (hl : (Queue.limited s n).hdr.limit = ⟨s, n⟩) (hq : (Queue.limited s n).stack.length = 0 ∧ (Queue.limited s n).fifo.map Item.stamp = [⟨1, 0⟩]) :
    ∃ w₀ es w b, Created 4 w₀ ∧ Trace Ran w₀ es w ∧ Represents w (Queue.limited s n) ∧ b ∈ itemBlocks w.mem ∧
      timeLimit w = ⟨s, n⟩ ∧ stampAt w.mem b = ⟨1, 0⟩ := by
  obtain ⟨w₀, hw, hR₀⟩ := fresh_represents
  obtain ⟨r₁, w₁, hr₁, -, hR₁⟩ := hR₀.next (fun _ => ⟨1, 0⟩) (.timelimit s n) trivial h₁
  obtain ⟨r₂, w₂, hr₂, -, hR₂⟩ := hR₁.next (fun _ => ⟨1, 0⟩) (.add .poll (some [65]) 1) (by rintro v ⟨⟩; decide) h₂
  have hstamps : (fifoBlocks w₂.mem).map (stampAt w₂.mem) = [⟨1, 0⟩] := hR₂.fifo_stamps.trans hq.2
  obtain ⟨b, hb, hstamp⟩ := List.map_eq_singleton_iff.1 hstamps
  exact ⟨w₀, _, w₂, b, hw, .cons hr₁ (.cons hr₂ (.nil _)), hR₂, by simp [itemBlocks, hb], (congrArg Header.limit hR₂.header).trans hl, hstamp⟩

theorem expiry_compares_second : ∃ w₀ es w b, ∃ p : Caller, ∃ r w', Created 4 w₀ ∧ Trace Ran w₀ es w ∧ p.Ok w ∧ timeLimit w = ⟨1, 0⟩ ∧
    Runs seq (itemExceedsLimit b (.shared p.ext.cur LIMIT_SEC) ⟨5, 0⟩) (p.enter w) r w' ∧
    ((r = true ↔ (timeLimit w).nanos < (⟨5, 0⟩ : Timespec).nanos - (stampAt w.mem b).nanos) ↔
      ¬WithinCarry (timeLimit w) ((⟨5, 0⟩ : Timespec).nanos - (stampAt w.mem b).nanos)) := by
  obtain ⟨w₀, es, w, b, hw, h, hR, hb, hl, hs⟩ := one_byte_limited (s := 1) (n := 0)
    (by decide +kernel) (by decide +kernel) (by decide +kernel) (by decide +kernel)
  have hp := Caller.page_ok hR ⟨.readwrite⟩ fun _ => ⟨5, 0⟩
  obtain ⟨r, w', hr, hcmp⟩ := expiry_compares hw h hp hb (by simp [hl]) (by simp [hl]) (by simp [hl])
    (by rw [hs]; exact ⟨by decide, by decide⟩) (show (⟨5, 0⟩ : Timespec).Normal by decide)
  exact ⟨w₀, es, w, b, _, r, w', hw, h, hp, hl, hr, hcmp⟩

/-- An item that is 1.2 seconds old expires under a limit of 1500000000 nanoseconds. -/
theorem expires_early : ∃ w₀ es w b, ∃ p : Caller, ∃ w', Created 4 w₀ ∧ Trace Ran w₀ es w ∧ p.Ok w ∧ b ∈ itemBlocks w.mem ∧ timeLimit w = ⟨0, 1500000000⟩ ∧
    stampAt w.mem b = ⟨1, 0⟩ ∧ Runs seq (itemExceedsLimit b (.shared p.ext.cur LIMIT_SEC) ⟨2, 200000000⟩) (p.enter w) true w' ∧
    ¬(timeLimit w).nanos < (⟨2, 200000000⟩ : Timespec).nanos - (stampAt w.mem b).nanos := by
  obtain ⟨w₀, es, w, b, hw, h, hR, hb, hl, hs⟩ := one_byte_limited (s := 0) (n := 1500000000)
    (by decide +kernel) (by decide +kernel) (by decide +kernel) (by decide +kernel)
  have hp := Caller.page_ok hR ⟨.readwrite⟩ fun _ => ⟨5, 0⟩
  obtain ⟨w', hr⟩ := expiry_run hR hp hb ⟨2, 200000000⟩
  rw [hl, hs] at hr
  exact ⟨w₀, es, w, b, _, w', hw, h, hp, hb, hl, hs, hr, by rw [hl, hs]; decide⟩

/-! ## The time since the last add -/

/-- **The time since the last add is compared with the limit to the nanosecond**, unless a borrow makes
the difference: the seconds differ by one more than the limit's, and the nanoseconds make up for less. -/
theorem idle_time_compares (q : ShrQ) {limSecs limNsecs : ℤ} (hcur : 512 ≤ w.ext.cur) (hlast : (lastAdd w).Normal)
    (hnow : (w.clock 0).Normal) (hlim : (⟨limSecs, limNsecs⟩ : Timespec).Normal) :
    ∃ r w', Runs seq (shrQExceedsIdleTime (some q) limSecs limNsecs) w r w' ∧
      ((r = true ↔ (⟨limSecs, limNsecs⟩ : Timespec).nanos ≤ (w.clock 0).nanos - (lastAdd w).nanos) ↔
        ¬((w.clock 0).sec - (lastAdd w).sec = limSecs + 1 ∧
          (w.clock 0).nsec + 1000000000 < (lastAdd w).nsec + limNsecs)) := by
  refine (wp_iff_runs trivial).1 ?_
  obtain ⟨hlast₀, hlast₁⟩ := hlast
  obtain ⟨hnow₀, hnow₁⟩ := hnow
  obtain ⟨hlim₀, hlim₁⟩ := hlim
  simp only [Timespec.nanos, lastAdd, TS_SEC, TS_NSEC] at *
  have hq : ¬some q = none := by simp
  simp (disch := omega) only [shrQExceedsIdleTime, hq, if_false, wp_bind, wp_guardQMemory, wp_current, wp_clock, TS_SEC, TS_NSEC, wp_load,
    wp_ite, wp_unguardQMemory, wp_pure]
  split
  · simp only [true_iff]
    omega
  split
  · simp only [Bool.false_eq_true, false_iff]
    omega
  split
  · simp only [true_iff]
    omega
  split
  · simp only [Bool.false_eq_true, false_iff]
    omega
  · simp only [true_iff]
    omega

end

/-- An object in which the last add was at the time `last`, read when the clock says `now`. -/
def World.added (last now : Timespec) : World :=
  { World.fresh with mem := setSlot (setSlot World.fresh.mem TS_SEC last.sec) TS_NSEC last.nsec, clock := fun _ => now }

theorem idle_time_compares_second : ∃ r w', Runs seq (shrQExceedsIdleTime (some ⟨.readwrite⟩) 1 0) (World.added ⟨1, 0⟩ ⟨5, 0⟩) r w' ∧
    ((r = true ↔ (⟨1, 0⟩ : Timespec).nanos ≤ (⟨5, 0⟩ : Timespec).nanos - (⟨1, 0⟩ : Timespec).nanos) ↔
      ¬((5 : ℤ) - 1 = 1 + 1 ∧ (0 : ℤ) + 1000000000 < 0 + 0)) :=
  idle_time_compares (w := World.added ⟨1, 0⟩ ⟨5, 0⟩) ⟨.readwrite⟩ (by decide) ⟨by decide, by decide⟩ ⟨by decide, by decide⟩
    ⟨by decide, by decide⟩

/-- A nanosecond after the last add, a limit of half a second counts as exceeded. -/
theorem idle_too_soon : ∃ w', Runs seq (shrQExceedsIdleTime (some ⟨.readwrite⟩) 0 500000000) (World.added ⟨8, 999999999⟩ ⟨9, 0⟩) true w' ∧
    lastAdd (World.added ⟨8, 999999999⟩ ⟨9, 0⟩) = ⟨8, 999999999⟩ ∧
    ¬(⟨0, 500000000⟩ : Timespec).nanos ≤ (⟨9, 0⟩ : Timespec).nanos - (⟨8, 999999999⟩ : Timespec).nanos := by
  have he : (eval seq 40 (shrQExceedsIdleTime (some ⟨.readwrite⟩) 0 500000000) (World.added ⟨8, 999999999⟩ ⟨9, 0⟩)).map Prod.fst = some true := by
    decide +kernel
  obtain ⟨⟨r, w'⟩, hr, rfl⟩ := Option.map_eq_some_iff.1 he
  exact ⟨w', runs_of_eval seq hr, rfl, by decide⟩

end LibShr
