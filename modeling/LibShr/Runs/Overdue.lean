import LibShr.Runs.History

/-!
# Reports of items that are too old

`SQ_EVNT_TIME` is raised where a remove function drops an item that is too old. An item that is too old
and handed over, because the queue does not discard such items, is not reported; nor is one that
`shr_q_clean` takes.
-/

namespace LibShr

open Prog

/-- `SQ_EVNT_TIME` is subscribed. -/
def TimeSubscribed (w : World) : Prop := Int.land (w.mem FLAGS) (getEventFlag .time) ≠ 0

/-- The queue discards items that are too old. -/
def Discarding (w : World) : Prop := Int.land (w.mem FLAGS) FLAG_DISCARD_EXPIRED ≠ 0

/-- The item in the block `b` exceeds the limit in force at `now`. -/
def TooOld (w : World) (last : Bool) (now : Timespec) (b : ℤ) : Prop :=
  olderThan ((Header.ofMem w.mem).ageLimit last now) now (stampAt w.mem b) = true

/-- The remove functions. -/
def Call.takes : Call → Bool
  | .remove .. => true
  | _ => false

/-- The call takes the item number `i`, which lies in the block `b` and is too old. A remove function
takes items in the order of service, a clean takes them off the FIFO. -/
def TakesOverdue (w : World) (e : Made) (w' : World) (i : ℕ) (b : ℤ) : Prop :=
  match e.call with
  | .remove g _ => (itemBlocks w.mem)[i]? = some b ∧ i + (itemBlocks w'.mem).length < (itemBlocks w.mem).length ∧
      TooOld w (i + 1 = (itemBlocks w.mem).length) (e.caller.clock (g.judged i)) b
  | .clean _ => (fifoBlocks w.mem)[i]? = some b ∧ i + (fifoBlocks w'.mem).length < (fifoBlocks w.mem).length ∧
      TooOld w false (e.caller.clock i) b
  | _ => False

/-- The item number `i` is the last one the call takes, and it is handed over. -/
def HandsOver (w : World) (e : Made) (w' : World) (i : ℕ) (b : ℤ) : Prop :=
  i + 1 + (itemBlocks w'.mem).length = (itemBlocks w.mem).length ∧
    ∃ it x v, ItemAt w.mem b it ∧ e.reply = .item x v ∧ x.Shows it .ok

section
variable {w w' w₀ : World} {Q Q' : Queue} {e : Made} {es : List Made} {depth b : ℤ} {i : ℕ} {g : Gate} {u : Option UserBuffer}

theorem Represents.timeSubscribed (hR : Represents w Q) : TimeSubscribed w ↔ Q.subscribed .time = true := by
  unfold TimeSubscribed Queue.subscribed
  rw [hR.flags, decide_eq_true_iff]

/-- One event was appended, if the subscription has ended. -/
theorem generated_time {δ : Delta} {k : ℕ → Timespec} (hR : Represents w Q) (hR' : Represents w' Q') (h : Queue.Change (Q.reading k) Q' δ) :
    (generatedEvents w w').count .time = 1 ↔ Q.subscribed .time = true ∧ ¬Q'.subscribed .time = true := by
  have hmem : .time ∈ δ.events ↔ Q.subscribed .time = true ∧ ¬Q'.subscribed .time = true := h.mem_events (by decide)
  rw [generated_change hR hR' h, ← hmem]
  constructor
  · intro hcount
    exact List.count_pos_iff.1 (hcount ▸ Nat.one_pos)
  · intro hmem
    exact List.count_eq_one_of_mem h.nodup hmem

/-- The block of the item number `i`, and the item. -/
theorem Represents.item_at (hR : Represents w Q) (hb : (itemBlocks w.mem)[i]? = some b) : ∃ it, Q.items[i]? = some it ∧ ItemAt w.mem b it := by
  obtain ⟨hi, rfl⟩ := List.getElem?_eq_some_iff.1 hb
  have hlen : i < Q.items.length := hR.length ▸ hi
  exact ⟨Q.items[i], List.getElem?_eq_getElem hlen, hR.items.get hi hlen⟩

/-- A removal that takes an item that is too old: what it drops, and what it hands over. -/
theorem overdue_removed (hR : Represents w Q) (hR' : Represents w' Q') (hs : Q.Sane) (hc : e.call = .remove g u) (hd : Q.Did e Q')
    (ho : TakesOverdue w e w' i b) : (Q'.subscribed .time = true ↔ Q.subscribed .time = true ∧ ¬Discarding w) ∧
      (HandsOver w e w' i b ↔ ¬Discarding w) := by
  obtain ⟨a, ha, hm⟩ := hd
  unfold TakesOverdue at ho
  rw [hc] at ha ho
  obtain ⟨hb, htaken, hold⟩ := ho
  obtain ⟨it, hit, hbit⟩ := hR.item_at hb
  rw [hR.length, hR'.length] at htaken
  rcases Queue.step_remove ha with ⟨-, rfl, -⟩ | ⟨v, r, -, hr, rfl, rfl⟩
  · exact absurd htaken (Nat.not_lt.2 (Nat.le_add_left _ _))
  have htime := Queue.removeLoop_time hr hs.count hs.deq
  obtain ⟨k, hk, hbefore, hnext, hsurv, hfirst, hrest⟩ := Queue.remove_drops hr hs.count hs.deq
  simp only [Queue.reading_items, Queue.reading_hdr, Queue.reading_clock] at hk hbefore hnext hfirst hrest
  rw [hsurv] at htime
  have hlen : r.2.2.items.length = Q.items.length - (k + 1) := by rw [hrest, List.length_drop]
  have hi : i < Q.items.length := (List.getElem?_eq_some_iff.1 hit).1
  -- whether the item is dropped is a matter of the flag alone
  have hexp : Q.hdr.expires (i + 1 = Q.items.length) (e.caller.clock (g.judged i)) it.stamp = true ↔ Discarding w := by
    unfold TooOld at hold
    rw [hR.header, hbit.stamp, hR.length] at hold
    unfold Header.expires Discarding
    rw [hR.flags, hold, Bool.and_true, decide_eq_true_iff]
  have hreply : HandsOver w e w' i b ↔ i = k := by
    unfold HandsOver
    rw [hR.length, hR'.length, hlen]
    constructor
    · rintro ⟨hpos, _, x, v', -, hx, hshows⟩
      by_contra hne
      -- all items were dropped, so there was none to hand over
      have hnone : Q.items[k]? = none := List.getElem?_eq_none (by omega)
      rw [hfirst, hnone] at hm
      have hstatus := hshows.status
      cases hm.noItem.symm.trans hx
      cases hstatus
    · rintro rfl
      refine ⟨by omega, it, ?_⟩
      rw [hfirst, hit] at hm
      obtain ⟨x, hx, hshows⟩ := hm.item
      exact ⟨x, _, hbit, hx, hshows⟩
  by_cases hdis : Discarding w
  · have hik : i < k := by
      by_contra hle
      have heq : i = k := by omega
      subst heq
      have hno : Q.hdr.expires (i + 1 = Q.items.length) (e.caller.clock (g.judged i)) it.stamp = false := hnext it hit
      rw [hno] at hexp
      exact absurd (hexp.2 hdis) Bool.false_ne_true
    have hne : Q.items.drop k ≠ Q.items := fun h => by
      have := congrArg List.length h
      rw [List.length_drop] at this
      omega
    refine ⟨?_, ?_⟩
    · rw [htime]
      exact ⟨fun h => absurd h.2 hne, fun h => absurd hdis h.2⟩
    · rw [hreply]
      exact ⟨fun h => absurd h hik.ne, fun h => absurd hdis h⟩
  · have hk₀ : k = 0 := by
      by_contra hpos
      obtain ⟨x, hx⟩ : ∃ x, Q.items[0]? = some x := ⟨_, List.getElem?_eq_getElem (by omega)⟩
      have := hbefore 0 x (Nat.pos_of_ne_zero hpos) hx
      unfold Header.expires at this
      rw [Bool.and_eq_true_iff, decide_eq_true_iff, ← hR.flags] at this
      exact hdis this.1
    have hi₀ : i = k := by omega
    refine ⟨?_, ?_⟩
    · rw [htime, hk₀]
      exact ⟨fun h => ⟨h.1, hdis⟩, fun h => ⟨h.1, rfl⟩⟩
    · rw [hreply]
      exact ⟨fun _ => hdis, fun _ => hi₀⟩

/-- **An item that is too old is reported if the queue discards it**, once, and only by a remove function;
the same setting tells whether a remove function hands it over. -/
theorem overdue_reported (hw : Created depth w₀) (h : Trace Ran w₀ es w) (he : Ran w e w') (hsub : TimeSubscribed w)
    (ho : TakesOverdue w e w' i b) :
    ((generatedEvents w w').count .time = 1 ↔ e.call.takes = true ∧ Discarding w) ∧
      (e.call.takes = true → (HandsOver w e w' i b ↔ ¬Discarding w)) := by
  obtain ⟨Q, hR, hs⟩ := hw.reaches h
  obtain ⟨Q', hd, hR'⟩ := hR.ran he
  rw [hR.timeSubscribed] at hsub
  cases hc : e.call with
  | remove g u =>
    obtain ⟨htime, hhands⟩ := overdue_removed hR hR' hs hc hd ho
    obtain ⟨a, ha, -⟩ := hd
    obtain ⟨δ, hch, -⟩ := Queue.step_change (Q := Q.reading e.caller.clock) hs.count (by rw [hc]; rfl) ha
    refine ⟨?_, fun _ => hhands⟩
    rw [generated_time hR hR' hch, htime]
    simp [hsub, Call.takes]
  | clean t =>
    obtain ⟨a, ha, -⟩ := hd
    rw [hc] at ha
    obtain ⟨k, hch⟩ := Queue.step_cleaned ha
    rw [generated_change hR hR' hch]
    refine ⟨⟨fun hcount => ?_, fun h => ?_⟩, fun h => ?_⟩
    · cases hcount
    · cases h.1
    · cases h
  | _ =>
    unfold TakesOverdue at ho
    rw [hc] at ho
    exact ho.elim

/-! ## One item -/

/-- One byte was added at the time 1, to a queue with a limit of one second and the event subscribed. -/
def waitingLong (discard : Bool) : Queue :=
  (((Queue.fresh.after (fun _ => ⟨1, 0⟩) (.timelimit 1 0)).after (fun _ => ⟨1, 0⟩) (.discard discard)).after (fun _ => ⟨1, 0⟩)
    (.subscribe .time)).after (fun _ => ⟨1, 0⟩) (.add .poll (some [65]) 1)

theorem waitingLong_reached (discard : Bool) : ∃ w₀ es w, Created 4 w₀ ∧ Trace Ran w₀ es w ∧ Represents w (waitingLong discard) := by
  obtain ⟨w₀, hw, hR₀⟩ := fresh_represents
  obtain ⟨r₁, w₁, hr₁, -, hR₁⟩ := hR₀.next (fun _ => ⟨1, 0⟩) (.timelimit 1 0) trivial (by decide +kernel)
  obtain ⟨r₂, w₂, hr₂, -, hR₂⟩ := hR₁.next (fun _ => ⟨1, 0⟩) (.discard discard) trivial (by cases discard <;> decide +kernel)
  obtain ⟨r₃, w₃, hr₃, -, hR₃⟩ := hR₂.next (fun _ => ⟨1, 0⟩) (.subscribe .time) trivial (by cases discard <;> decide +kernel)
  obtain ⟨r₄, w₄, hr₄, -, hR₄⟩ := hR₃.next (fun _ => ⟨1, 0⟩) (.add .poll (some [65]) 1) (by rintro v ⟨⟩; decide)
    (by cases discard <;> decide +kernel)
  exact ⟨w₀, _, w₄, hw, .cons hr₁ (.cons hr₂ (.cons hr₃ (.cons hr₄ (.nil _)))), hR₄⟩

/-- The item is removed at the time 10. -/
def removeLate : Call := .remove .poll (some ⟨false, 0⟩)

theorem overdue_taken {discard : Bool} (hR : Represents w (waitingLong discard)) :
    ∃ e w' b, Ran w e w' ∧ e.call = removeLate ∧ TimeSubscribed w ∧ TakesOverdue w e w' 0 b ∧
      Represents w' ((waitingLong discard).after (fun _ => ⟨10, 0⟩) removeLate) := by
  obtain ⟨r, w', he, -, hR'⟩ := hR.next (fun _ => ⟨10, 0⟩) removeLate trivial (by cases discard <;> decide +kernel)
  have hsub : (waitingLong discard).subscribed .time = true := by cases discard <;> decide +kernel
  have hnone : (waitingLong discard).stack.length = 0 := by cases discard <;> decide +kernel
  have hone : (waitingLong discard).fifo.map Item.stamp = [⟨1, 0⟩] := by cases discard <;> decide +kernel
  have hold : olderThan ((waitingLong discard).hdr.ageLimit true ⟨10, 0⟩) ⟨10, 0⟩ ⟨1, 0⟩ = true := by cases discard <;> decide +kernel
  have hafter : ((waitingLong discard).after (fun _ => ⟨10, 0⟩) removeLate).items.length = 0 := by cases discard <;> decide +kernel
  have hstack : stackBlocks w.mem = [] := List.length_eq_zero_iff.1 (hR.stack.length_eq.trans hnone)
  obtain ⟨b, hb, hstamp⟩ := List.map_eq_singleton_iff.1 (hR.fifo_stamps.trans hone)
  have hblocks : itemBlocks w.mem = [b] := by rw [itemBlocks, hstack, hb]; rfl
  refine ⟨_, w', b, he, rfl, hR.timeSubscribed.2 hsub, ⟨?_, ?_, ?_⟩, hR'⟩
  · rw [hblocks]
    rfl
  · rw [hR'.length, hafter, hblocks]
    exact Nat.one_pos
  · unfold TooOld
    rw [hR.header, hstamp, hblocks]
    exact hold

theorem overdue_reported_dropped : ∃ w₀ es w e w' b, Created 4 w₀ ∧ Trace Ran w₀ es w ∧ Ran w e w' ∧ TimeSubscribed w ∧ TakesOverdue w e w' 0 b ∧
    Discarding w ∧ (generatedEvents w w').count .time = 1 := by
  obtain ⟨w₀, es, w, hw, ht, hR⟩ := waitingLong_reached true
  obtain ⟨e, w', b, he, hc, hsub, ho, -⟩ := overdue_taken hR
  have hdis : Discarding w := by
    unfold Discarding
    rw [hR.flags]
    decide +kernel
  exact ⟨w₀, es, w, e, w', b, hw, ht, he, hsub, ho, hdis, (overdue_reported hw ht he hsub ho).1.2 ⟨by rw [hc]; rfl, hdis⟩⟩

/-- The queue keeps what is too old: the item is handed over after nine seconds, and nobody is told. -/
theorem overdue_not_reported : ∃ w₀ es w e w' b, Created 4 w₀ ∧ Trace Ran w₀ es w ∧ Ran w e w' ∧ TimeSubscribed w ∧ TakesOverdue w e w' 0 b ∧
    ¬Discarding w ∧ (generatedEvents w w').count .time = 0 := by
  obtain ⟨w₀, es, w, hw, ht, hR⟩ := waitingLong_reached false
  obtain ⟨e, w', b, he, hc, hsub, ho, hR'⟩ := overdue_taken hR
  have hbefore : (waitingLong false).events = [] := by decide +kernel
  have hafter : ((waitingLong false).after (fun _ => ⟨10, 0⟩) removeLate).events = [] := by decide +kernel
  refine ⟨w₀, es, w, e, w', b, hw, ht, he, hsub, ho, ?_, ?_⟩
  · unfold Discarding
    rw [hR.flags, not_not]
    decide +kernel
  · rw [generatedEvents, hR.pending, hR'.pending, hbefore, hafter]
    rfl

end

end LibShr
