import LibShr.Runs.History
import LibShr.Spec.Flags

/-!
# Subscriptions over a history

Whether an event is subscribed is what last happened to it: a subscription, the end of one, or the
event itself. `set_flag` does nothing where one of the bits it is given is set, so a subscription to
all events that finds some of them subscribed leaves the others out.
-/

namespace LibShr

open Prog

/-- What last happened to each event: `true` for a subscription that names it. -/
def noteSubscriptions (w : World) (e : Made) (w' : World) (g : Event → Bool) : Event → Bool := fun ev =>
  match e.call, e.reply with
  | .subscribe s, .status .ok => if s.Covers ev then true else g ev
  | .unsubscribe s, .status .ok => if s.Covers ev then false else g ev
  | _, _ => if ev ∈ generatedEvents w w' then false else g ev

/-- A subscription to all events while some, but not all, are subscribed. -/
def PartlySubscribed (w : World) (e : Made) : Prop :=
  e.call = .subscribe .all ∧ e.caller.q.isSome = true ∧ Int.land (w.mem FLAGS) allEvents ≠ 0 ∧
    Int.land (w.mem FLAGS) allEvents ≠ allEvents

/-- A call with the record that is not such a subscription. -/
def Whole (s : World × (Event → Bool)) (e : Made) (s' : World × (Event → Bool)) : Prop :=
  Recorded noteSubscriptions s e s' ∧ ¬PartlySubscribed s.1 e

def Noted (Q : Queue) (g : Event → Bool) : Prop := ∀ ev, ev ≠ .none → Q.subscribed ev = g ev

section
variable {w w' w₀ : World} {Q Q' : Queue} {e : Made} {es : List Made} {depth : ℤ} {g g' : Event → Bool} {f : ℤ}

/-- The record of a call that is not about subscriptions. -/
theorem noteSubscriptions_other (hs : ∀ s, e.call ≠ .subscribe s) (hu : ∀ s, e.call ≠ .unsubscribe s) (ev : Event) :
    noteSubscriptions w e w' g ev = if ev ∈ generatedEvents w w' then false else g ev := by
  unfold noteSubscriptions
  split
  · next hc _ => exact absurd hc (hs _)
  · next hc _ => exact absurd hc (hu _)
  · rfl

/-- A call that was refused, or that generates nothing, leaves the record as it is. -/
theorem noteSubscriptions_same (hr : e.reply ≠ .status .ok ∨ ((∀ s, e.call ≠ .subscribe s) ∧ ∀ s, e.call ≠ .unsubscribe s))
    (hn : generatedEvents w w' = []) (ev : Event) : noteSubscriptions w e w' g ev = g ev := by
  unfold noteSubscriptions
  split
  · next hc hok =>
    rcases hr with hr | ⟨hs, -⟩
    · exact absurd hok hr
    · exact absurd hc (hs _)
  · next hc hok =>
    rcases hr with hr | ⟨-, hu⟩
    · exact absurd hok hr
    · exact absurd hc (hu _)
  · rw [hn]
    exact if_neg List.not_mem_nil

/-- **Every call keeps the record right**, unless it is a partial subscription. -/
theorem noted_step (hR : Represents w Q) (hR' : Represents w' Q') (hs : Q.Sane) (hg : Noted Q g) (hp : ¬PartlySubscribed w e)
    (hd : Q.Did e Q') : Noted Q' (noteSubscriptions w e w' g) := by
  obtain ⟨a, ha, hm⟩ := hd
  have hRr : Represents w Q := hR
  -- a call that generates nothing and is not about subscriptions
  have hquiet : e.call.moves = false → (∀ s, e.call ≠ .subscribe s) → (∀ s, e.call ≠ .unsubscribe s) → Q'.events.length ≤ Q.events.length →
      Noted Q' (noteSubscriptions w e w' g) := fun hc hs hu hl ev hev => by
    rw [noteSubscriptions_same (.inr ⟨hs, hu⟩) (generated_nil hR hR' hl), Queue.step_flags hc hs hu ha]
    exact hg ev hev
  have hresets : e.call.moves = false → e.call ≠ .event → Q'.events = Q.events := fun hc he => by
    obtain ⟨hd, rfl, -⟩ := Queue.step_resets hc he ha
    rfl
  by_cases hmov : e.call.moves = true
  · obtain ⟨δ, hch, -⟩ := Queue.step_change (Q := Q.reading e.caller.clock) hs.count hmov ha
    have hgen : generatedEvents w w' = δ.events := generated_change hR hR' hch
    intro ev hev
    have hnot : (∀ s, e.call ≠ .subscribe s) ∧ ∀ s, e.call ≠ .unsubscribe s := by
      constructor <;> intro s hc <;> rw [hc] at hmov <;> cases hmov
    rw [noteSubscriptions_other hnot.1 hnot.2, hgen, Bool.eq_iff_iff, hch.subs ev hev]
    show Q.subscribed ev = true ∧ ev ∉ δ.events ↔ _
    rw [hg ev hev]
    by_cases hmem : ev ∈ δ.events <;> simp [hmem]
  rw [Bool.not_eq_true] at hmov
  cases hc : e.call with
  | subscribe s =>
    rw [hc] at ha
    rcases Queue.handled_cases ha with ⟨hq, -, rfl, rfl⟩ | ⟨-, rfl, rfl⟩
    · intro ev hev
      have hnote : noteSubscriptions w e w' g ev = if s.Covers ev then true else g ev := by
        unfold noteSubscriptions
        rw [hc, hm.status]
      rw [hnote]
      by_cases hcov : s.Covers ev
      · rw [if_pos hcov]
        by_cases hall : s = .all
        · subst hall
          refine Queue.subscribe_all (Q := Q.reading e.caller.clock) ?_ hev
          show Int.land Q.hdr.flags allEvents = 0 ∨ Int.land Q.hdr.flags allEvents = allEvents
          rw [← hR.flags]
          by_contra hno
          rw [not_or] at hno
          exact hp ⟨hc, hq, hno.1, hno.2⟩
        · rw [hcov.resolve_right hall]
          exact Queue.subscribe_self hev
      · rw [if_neg hcov, ← hg ev hev]
        rw [Event.Covers, not_or] at hcov
        exact Queue.subscribed_setFlag (Q := Q.reading e.caller.clock) (Queue.getEventFlag_disjoint hcov.2 hev hcov.1)
    · intro ev hev
      rw [noteSubscriptions_same (.inl (by rw [hm.status]; simp)) (generated_nil hR hR' (le_refl _))]
      exact hg ev hev
  | unsubscribe s =>
    rw [hc] at ha
    rcases Queue.handled_cases ha with ⟨-, -, rfl, rfl⟩ | ⟨-, rfl, rfl⟩
    · intro ev hev
      have hnote : noteSubscriptions w e w' g ev = if s.Covers ev then false else g ev := by
        unfold noteSubscriptions
        rw [hc, hm.status]
      rw [hnote]
      by_cases hcov : s.Covers ev
      · rw [if_pos hcov]
        exact Queue.unsubscribe_covered hcov
      · rw [if_neg hcov, ← hg ev hev]
        rw [Event.Covers, not_or] at hcov
        exact Queue.subscribed_clearFlag (Q := Q.reading e.caller.clock) (Queue.getEventFlag_disjoint hcov.2 hev hcov.1)
    · intro ev hev
      rw [noteSubscriptions_same (.inl (by rw [hm.status]; simp)) (generated_nil hR hR' (le_refl _))]
      exact hg ev hev
  | event =>
    refine hquiet hmov (by simp [hc]) (by simp [hc]) ?_
    rw [hc] at ha
    rcases Queue.step_event ha with ⟨-, -, rfl⟩ | ⟨-, -, rfl⟩
    · rcases Queue.takeEvent_cases (hs.reading _) with ⟨-, he⟩ | ⟨ev, l, hl, he⟩
      · rw [he]
        exact le_refl _
      · rw [he]
        show l.length ≤ (Q.reading e.caller.clock).events.length
        rw [hl]
        exact Nat.le_succ _
    · exact le_refl _
  | _ => exact hquiet hmov (by simp [hc]) (by simp [hc]) (by rw [hresets hmov (by simp [hc])])

/-- The record along a run without partial subscriptions. -/
theorem noted_run (hw : Created depth w₀) (h : Trace Whole (w₀, fun _ => false) es (w, g)) : ∃ Q, Represents w Q ∧ Q.Sane ∧ Noted Q g := by
  refine h.invariant (fun s => ∃ Q, Represents s.1 Q ∧ Q.Sane ∧ Noted Q s.2) ?_ ?_
  · rintro ⟨w, g⟩ e ⟨w', g'⟩ ⟨Q, hR, hs, hg⟩ ⟨⟨hran, hnote⟩, hp⟩
    obtain ⟨Q', hd, hR'⟩ := hR.ran hran
    dsimp only at hnote
    subst hnote
    exact ⟨Q', hR', hd.sane hs, noted_step hR hR' hs hg hp hd⟩
  · obtain ⟨ids, clock, hR⟩ := hw.represents
    refine ⟨_, hR, Queue.start_sane depth ids clock, fun ev hev => ?_⟩
    cases ev <;> first | exact absurd rfl hev | rfl

/-- **A mode changes only by its own calls**, and only an add marks the queue as used. -/
theorem modes_kept (hR : Represents w Q) (hs : Q.Sane) (he : Ran w e w') (hf : f ∈ modeFlags)
    (hn : ¬e.call.Sets f) (ha : f = FLAG_ACTIVATED → ¬(e.call.request.isSome = true ∧ e.reply = .status .ok)) :
    Int.land (w'.mem FLAGS) f ≠ 0 ↔ Int.land (w.mem FLAGS) f ≠ 0 := by
  obtain ⟨Q', ⟨a, hst, hm⟩, hR'⟩ := hR.ran he
  rw [hR.flags, hR'.flags]
  by_cases hmov : e.call.moves = true
  swap
  · rw [Queue.step_modes (Q := Q.reading e.caller.clock) (Bool.not_eq_true _ ▸ hmov) hf hn hst]
    rfl
  obtain ⟨δ, hch, huse⟩ := Queue.step_change (Q := Q.reading e.caller.clock) hs.count hmov hst
  simp only [modeFlags, List.mem_cons, List.not_mem_nil, or_false] at hf
  rcases hf with rfl | hf
  · have hno : δ.uses = false := by
      by_contra hu
      obtain ⟨hreq, rfl⟩ := huse (Bool.eq_true_of_not_eq_false hu)
      exact ha rfl ⟨hreq, hm.status⟩
    have hact := hch.activated
    rw [hno, Bool.or_false] at hact
    exact decide_eq_decide.1 hact
  · rw [hch.modes f (by simpa using hf)]
    rfl

/-- **The last thing that happened to an event tells whether it is subscribed**, in every run without
partial subscriptions; and no call touches a mode that is not its own. -/
theorem subscription_history (hw : Created depth w₀) (h : Trace Whole (w₀, fun _ => false) es (w, g)) (he : Ran w e w') :
    (∀ ev, e.call = .isSubscribed ev → e.caller.q.isSome = true → ev ≠ .none → e.reply = .flag (g ev)) ∧
    ∀ f ∈ modeFlags, ¬e.call.Sets f → (f = FLAG_ACTIVATED → ¬(e.call.request.isSome = true ∧ e.reply = .status .ok)) →
      (Int.land (w'.mem FLAGS) f ≠ 0 ↔ Int.land (w.mem FLAGS) f ≠ 0) := by
  obtain ⟨Q, hR, hs, hg⟩ := noted_run hw h
  refine ⟨fun ev hc hq hev => ?_, fun f hf hn ha => modes_kept hR hs he hf hn ha⟩
  obtain ⟨Q', ⟨a, ha, hm⟩, -⟩ := hR.ran he
  rw [hc] at ha
  cases ha
  rw [hm.flag, ← hg ev hev, hq]
  congr 1
  simp [hev]
  rfl

theorem subscription_history_all : ∃ w₀ es w g, Created 4 w₀ ∧ Trace Whole (w₀, fun _ => false) es (w, g) ∧ g .limit = true ∧
    ∀ e w', Ran w e w' → e.call = .isSubscribed .limit → e.caller.q.isSome = true → e.reply = .flag (g .limit) := by
  obtain ⟨w₀, hw, hR₀⟩ := fresh_represents
  obtain ⟨r₁, w₁, h₁, hm₁, hR₁⟩ := hR₀.next (fun _ => ⟨1, 0⟩) (.subscribe .all) trivial (by decide +kernel)
  have hr₁ : r₁ = .status .ok := replied hm₁ (by decide +kernel)
  subst hr₁
  have hwhole : ¬PartlySubscribed w₀ ⟨.page ⟨.readwrite⟩ fun _ => ⟨1, 0⟩, .subscribe .all, .status .ok⟩ := by
    rintro ⟨-, -, h, -⟩
    rw [hR₀.flags] at h
    exact h rfl
  have ht : Trace Whole (w₀, fun _ => false) [_] (w₁, _) := .cons ⟨h₁.noted, hwhole⟩ (.nil _)
  exact ⟨w₀, _, w₁, _, hw, ht, rfl, fun e w' he hc hq => (subscription_history hw ht he).1 _ hc hq (by decide)⟩

/-- A subscription to one event and then to all events leaves the others out. -/
theorem subscription_lost : ∃ w₀ es w g e w', Created 4 w₀ ∧ Trace (Recorded noteSubscriptions) (w₀, fun _ => false) es (w, g) ∧
    Ran w e w' ∧ e.call = .isSubscribed .limit ∧ e.caller.q.isSome = true ∧ g .limit = true ∧ e.reply = .flag false := by
  obtain ⟨w₀, hw, hR₀⟩ := fresh_represents
  obtain ⟨r₁, w₁, h₁, -, hR₁⟩ := hR₀.next (fun _ => ⟨1, 0⟩) (.subscribe .init) trivial (by decide +kernel)
  obtain ⟨r₂, w₂, h₂, hm₂, hR₂⟩ := hR₁.next (fun _ => ⟨1, 0⟩) (.subscribe .all) trivial (by decide +kernel)
  obtain ⟨r₃, w₃, h₃, hm₃, -⟩ := hR₂.next (fun _ => ⟨1, 0⟩) (.isSubscribed .limit) trivial (by decide +kernel)
  have hr₂ : r₂ = .status .ok := replied hm₂ (by decide +kernel)
  have hr₃ : r₃ = .flag false := replied hm₃ (by decide +kernel)
  subst hr₂ hr₃
  exact ⟨w₀, _, w₂, _, _, w₃, hw, .cons h₁.noted (.cons h₂.noted (.nil _)), h₃, rfl, rfl, rfl, rfl⟩

end

end LibShr
