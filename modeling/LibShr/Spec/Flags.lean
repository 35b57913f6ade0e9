import LibShr.Spec.Counts

/-!
# Subscriptions and modes

Six subscriptions, two modes and the mark of a used queue share one word. Setting or clearing one of
them leaves the others alone; the subscription to all events is one mask of six bits.
-/

namespace LibShr

def allEvents : ℤ := getEventFlag .all

/-- The mask of all events contains the flag of each. -/
theorem allEvents_land (e : Event) : Int.land allEvents (getEventFlag e) = getEventFlag e := by cases e <;> decide

/-- The modes, and the mark of a used queue. -/
def modeFlags : List ℤ := [FLAG_ACTIVATED, FLAG_DISCARD_EXPIRED, FLAG_LIFO_ON_LEVEL]

theorem mode_event : ∀ f ∈ modeFlags, ∀ e, Int.land f (getEventFlag e) = 0 := by
  intro f hf e
  simp only [modeFlags, List.mem_cons, List.not_mem_nil, or_false] at hf
  rcases hf with rfl | rfl | rfl <;> cases e <;> decide

theorem event_mode : ∀ f ∈ modeFlags, ∀ e, Int.land (getEventFlag e) f = 0 := by
  intro f hf e
  simp only [modeFlags, List.mem_cons, List.not_mem_nil, or_false] at hf
  rcases hf with rfl | rfl | rfl <;> cases e <;> decide

theorem mode_mode : ∀ f ∈ modeFlags, ∀ f' ∈ modeFlags, f ≠ f' → Int.land f f' = 0 := by decide

/-- `e` names `e'`, or all events. -/
def Event.Covers (e e' : Event) : Prop := e = e' ∨ e = .all

instance (e e' : Event) : Decidable (e.Covers e') := inferInstanceAs (Decidable (_ ∨ _))

/-- The calls that set the mode `f`. -/
def Call.Sets (c : Call) (f : ℤ) : Prop := match c with
  | .discard _ | .targetDelay .. => f = FLAG_DISCARD_EXPIRED
  | .limitLifo _ => f = FLAG_LIFO_ON_LEVEL
  | _ => False

namespace Queue

variable {Q Q' : Queue} {f f' : ℤ} {e e' : Event} {c : Call} {q : Option ShrQ} {a : Answer} {δ : Delta}

/-! ## Setting and clearing -/

theorem land_setFlag (h : Int.land f f' = 0) : Int.land (Q.setFlag f).hdr.flags f' = Int.land Q.hdr.flags f' := by
  unfold setFlag
  split
  · exact Bits.land_set h
  · rfl

theorem land_clearFlag (h : Int.land f f' = 0) : Int.land (Q.clearFlag f).hdr.flags f' = Int.land Q.hdr.flags f' := by
  unfold clearFlag
  split
  · rfl
  · exact Bits.land_clear h

/-- A flag that was set is set, and one that was cleared is not. -/
theorem land_setFlag_self (hf : f ≠ 0) : Int.land (Q.setFlag f).hdr.flags f ≠ 0 := by
  unfold setFlag
  split
  · show Int.land (Int.lor _ _) _ ≠ 0
    rw [Bits.land_set_self]
    exact hf
  · assumption

theorem land_clearFlag_self : Int.land (Q.clearFlag f).hdr.flags f = 0 := by
  unfold clearFlag
  split
  · assumption
  · exact Bits.land_clear_self _ _

/-- The semaphores have no flags. -/
theorem sem_setFlag : (Q.setFlag f).sem = Q.sem := by
  unfold setFlag
  split <;> rfl

theorem sem_clearFlag : (Q.clearFlag f).sem = Q.sem := by
  unfold clearFlag
  split <;> rfl

theorem subscribed_congr (h : Int.land Q'.hdr.flags (getEventFlag e) = Int.land Q.hdr.flags (getEventFlag e)) :
    Q'.subscribed e = Q.subscribed e := by
  unfold subscribed
  rw [h]

/-- Flags outside the mask are left alone by setting and clearing it. -/
theorem subscribed_setFlag (h : Int.land f (getEventFlag e) = 0) : (Q.setFlag f).subscribed e = Q.subscribed e :=
  subscribed_congr (land_setFlag h)

theorem subscribed_clearFlag (h : Int.land f (getEventFlag e) = 0) : (Q.clearFlag f).subscribed e = Q.subscribed e :=
  subscribed_congr (land_clearFlag h)

/-- An event that is subscribed alone is subscribed then. -/
theorem subscribe_self (he : e ≠ .none) : (Q.setFlag (getEventFlag e)).subscribed e = true := by
  have hne : getEventFlag e ≠ 0 := by cases e <;> decide
  unfold setFlag subscribed
  split
  · exact decide_eq_true (by show Int.land (Int.lor _ _) _ ≠ 0; rw [Bits.land_set_self]; exact hne)
  · exact decide_eq_true ‹_›

/-- Unsubscribing ends the subscriptions it names. -/
theorem unsubscribe_covered (h : e.Covers e') : (Q.clearFlag (getEventFlag e)).subscribed e' = false := by
  have hsub : Int.land (getEventFlag e) (getEventFlag e') = getEventFlag e' := by
    rcases h with rfl | rfl
    · exact Bits.land_self _
    · exact allEvents_land e'
  unfold clearFlag subscribed
  split
  · next hz => exact decide_eq_false (not_not.2 (Bits.land_of_land_eq_zero hsub hz))
  · exact decide_eq_false (not_not.2 (Bits.land_clear_sub hsub _))

/-- **Subscribing to all events** subscribes each, if none or all were subscribed. -/
theorem subscribe_all (hp : Int.land Q.hdr.flags allEvents = 0 ∨ Int.land Q.hdr.flags allEvents = allEvents) (he : e ≠ .none) :
    (Q.setFlag allEvents).subscribed e = true := by
  have hne : getEventFlag e ≠ 0 := by cases e <;> decide
  unfold setFlag subscribed
  split
  · refine decide_eq_true ?_
    show Int.land (Int.lor _ _) _ ≠ 0
    rw [Bits.land_set_sub (allEvents_land e)]
    exact hne
  · next hz =>
    rw [Bits.land_of_land_eq (allEvents_land e) (hp.resolve_left hz)]
    exact decide_eq_true hne

/-! ## The calls -/

/-- What a call that is not about subscriptions does to them. -/
theorem step_flags (hc : c.moves = false) (hs : ∀ e, c ≠ .subscribe e) (hu : ∀ e, c ≠ .unsubscribe e)
    (h : Q.step q c = some (a, Q')) : Q'.subscribed e = Q.subscribed e := by
  have hmode : ∀ f ∈ modeFlags, (Q.setFlag f).subscribed e = Q.subscribed e ∧ (Q.clearFlag f).subscribed e = Q.subscribed e :=
    fun f hf => ⟨subscribed_setFlag (mode_event f hf e), subscribed_clearFlag (mode_event f hf e)⟩
  have hhandled : ∀ {ok : Bool} {Q₁ : Queue}, Q₁.subscribed e = Q.subscribed e → Q.handled q ok Q₁ = some (a, Q') →
      Q'.subscribed e = Q.subscribed e := fun he h => by
    rcases handled_cases h with ⟨-, -, -, rfl⟩ | ⟨-, -, rfl⟩
    · exact he
    · rfl
  cases c with
  | add g value length => cases hc
  | addv g vector => cases hc
  | remove g u => cases hc
  | clean t => cases hc
  | prod => cases hc
  | subscribe e => exact absurd rfl (hs e)
  | unsubscribe e => exact absurd rfl (hu e)
  | event =>
    rcases step_event h with ⟨-, -, rfl⟩ | ⟨-, -, rfl⟩
    · unfold takeEvent
      split
      · split <;> rfl
      · rfl
    · rfl
  | count => cases h; rfl
  | buffer => cases h; rfl
  | isSubscribed e => cases h; rfl
  | level n => exact hhandled (rfl : (Q.setHdr { Q.hdr with level := n }).subscribed e = _) h
  | timelimit s n => exact hhandled (rfl : (Q.setHdr { Q.hdr with limit := ⟨s, n⟩ }).subscribed e = _) h
  | targetDelay s n =>
    refine hhandled ?_ h
    exact subscribed_setFlag (Q := Q.setHdr { Q.hdr with target := ⟨s, n⟩ }) (mode_event FLAG_DISCARD_EXPIRED (by decide) e)
  | discard b =>
    refine hhandled ?_ h
    cases b
    · exact (hmode FLAG_DISCARD_EXPIRED (by decide)).2
    · exact (hmode FLAG_DISCARD_EXPIRED (by decide)).1
  | limitLifo b =>
    refine hhandled ?_ h
    cases b
    · exact (hmode FLAG_LIFO_ON_LEVEL (by decide)).2
    · exact (hmode FLAG_LIFO_ON_LEVEL (by decide)).1
  | monitor s => exact hhandled rfl h
  | listen s => exact hhandled rfl h
  | call s => exact hhandled rfl h

/-- A mode changes only by the calls that set it. -/
theorem step_modes (hc : c.moves = false) (hf : f ∈ modeFlags) (hn : ¬c.Sets f) (h : Q.step q c = some (a, Q')) :
    Int.land Q'.hdr.flags f = Int.land Q.hdr.flags f := by
  have hhandled : ∀ {ok : Bool} {Q₁ : Queue}, Int.land Q₁.hdr.flags f = Int.land Q.hdr.flags f → Q.handled q ok Q₁ = some (a, Q') →
      Int.land Q'.hdr.flags f = Int.land Q.hdr.flags f := fun he h => by
    rcases handled_cases h with ⟨-, -, -, rfl⟩ | ⟨-, -, rfl⟩
    · exact he
    · rfl
  cases c with
  | add g value length => cases hc
  | addv g vector => cases hc
  | remove g u => cases hc
  | clean t => cases hc
  | prod => cases hc
  | subscribe e => exact hhandled (land_setFlag (event_mode f hf e)) h
  | unsubscribe e => exact hhandled (land_clearFlag (event_mode f hf e)) h
  | event =>
    rcases step_event h with ⟨-, -, rfl⟩ | ⟨-, -, rfl⟩
    · unfold takeEvent
      split
      · split <;> rfl
      · rfl
    · rfl
  | count => cases h; rfl
  | buffer => cases h; rfl
  | isSubscribed e => cases h; rfl
  | level n => exact hhandled (rfl : Int.land (Q.setHdr { Q.hdr with level := n }).hdr.flags f = _) h
  | timelimit s n => exact hhandled (rfl : Int.land (Q.setHdr { Q.hdr with limit := ⟨s, n⟩ }).hdr.flags f = _) h
  | targetDelay s n =>
    refine hhandled ?_ h
    exact land_setFlag (Q := Q.setHdr { Q.hdr with target := ⟨s, n⟩ }) (mode_mode _ (by decide) f hf fun he => hn he.symm)
  | discard b =>
    have hd : Int.land FLAG_DISCARD_EXPIRED f = 0 := mode_mode _ (by decide) f hf fun he => hn he.symm
    refine hhandled ?_ h
    cases b
    · exact land_clearFlag hd
    · exact land_setFlag hd
  | limitLifo b =>
    have hd : Int.land FLAG_LIFO_ON_LEVEL f = 0 := mode_mode _ (by decide) f hf fun he => hn he.symm
    refine hhandled ?_ h
    cases b
    · exact land_clearFlag hd
    · exact land_setFlag hd
  | monitor s => exact hhandled rfl h
  | listen s => exact hhandled rfl h
  | call s => exact hhandled rfl h

end Queue

end LibShr
