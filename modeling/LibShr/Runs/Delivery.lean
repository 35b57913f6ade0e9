import LibShr.Runs.History
import LibShr.Spec.Flags

/-!
# Delivery of events over a history

An event is generated where `add_event` returns true, and waits in a list of its own until a call of
`shr_q_event` takes it. Beside a history are kept the answers of `add_event` in each call. What waits is
what was generated and not yet delivered; an event is generated once for a subscription.
-/

namespace LibShr

open Prog

/-- The call `e` was made on the object `w` and left it as `w'`; in it `add_event` gave the answers `l`. -/
structure Noticed (w : World) (e : Made) (l : List EventNote) (w' : World) : Prop where
  ok : e.caller.Ok w
  valid : e.call.Valid
  runs : Runs (logging seq) (e.call.noted e.caller.q e.caller.pid) (e.caller.enter w, []) e.reply (w', l)

/-- The calls that come to `add_event`. -/
def Call.raises : Call → Bool
  | .add .. | .addv .. | .remove .. => true
  | _ => false

/-- What happened to the events: one was generated, or a subscription was made. -/
inductive Mark
  | gen (e : Event)
  | sub (e : Event)
deriving DecidableEq

/-- The events generated and the events delivered so far, and all marks in order. -/
structure Delivery where
  generated : List Event := []
  delivered : List Event := []
  log : List Mark := []

/-- `add_event` generates the events for which it returns true, and `shr_q_event` delivers what it returns, unless that is `SQ_EVNT_NONE`. -/
def noteDelivery (e : Made) (l : List EventNote) (g : Delivery) : Delivery where
  generated := g.generated ++ raisedEvents l
  delivered := g.delivered ++ match e.reply with
    | .event ev => if ev = .none then [] else [ev]
    | _ => []
  log := g.log ++ match e.call, e.reply with
    | .subscribe s, .status .ok => [.sub s]
    | _, _ => (raisedEvents l).map .gen

/-- A call with the answers of `add_event` in it, and the record kept beside the object. -/
def Heard (s : World × Delivery) (e : Made × List EventNote) (s' : World × Delivery) : Prop :=
  Noticed s.1 e.1 e.2 s'.1 ∧ s'.2 = noteDelivery e.1 e.2 s.2

/-- A subscription that covers the event was made since it was generated last. -/
def Armed (ev : Event) (log : List Mark) : Prop := ∃ l₁ s l₂, log = l₁ ++ .sub s :: l₂ ∧ s.Covers ev ∧ .gen ev ∉ l₂

/-- Whenever an event was generated, there was a subscription for it. -/
def OneShot (log : List Mark) : Prop := ∀ ev l₁ l₂, log = l₁ ++ .gen ev :: l₂ → Armed ev l₁

section
variable {ev : Event} {log l₁ l₂ l₃ : List Mark} {es : List Event} {s : Event}

theorem Armed.append (h : Armed ev log) (hn : .gen ev ∉ l₂) : Armed ev (log ++ l₂) := by
  obtain ⟨a, s, b, rfl, hs, hb⟩ := h
  refine ⟨a, s, b ++ l₂, by simp, hs, ?_⟩
  rw [List.mem_append, not_or]
  exact ⟨hb, hn⟩

theorem armed_sub (hs : s.Covers ev) : Armed ev (log ++ [.sub s]) := ⟨log, s, [], rfl, hs, List.not_mem_nil⟩

theorem OneShot.nil : OneShot [] := fun ev l₁ l₂ h => by simp at h

theorem OneShot.append_sub (h : OneShot log) : OneShot (log ++ [.sub s]) := by
  intro ev l₁ l₂ heq
  rcases List.append_eq_append_iff.1 heq with ⟨m, rfl, hm⟩ | ⟨m, hlog, hm⟩
  · -- the last mark is no generation
    cases m with
    | nil => cases hm
    | cons x m =>
      rw [List.cons_append, List.cons.injEq] at hm
      exact absurd hm.2.symm (by simp)
  · cases m with
    | nil => cases hm
    | cons x m =>
      rw [List.cons_append, List.cons.injEq] at hm
      rw [← hm.1] at hlog
      exact h ev l₁ m hlog

/-- Different events that are all armed are generated. -/
theorem OneShot.append_gen (h : OneShot log) (hn : es.Nodup) (ha : ∀ ev ∈ es, Armed ev log) : OneShot (log ++ es.map .gen) := by
  intro ev l₁ l₂ heq
  rcases List.append_eq_append_iff.1 heq with ⟨m, rfl, hm⟩ | ⟨m, hlog, hm⟩
  · -- it is one of the new ones, and none of those before it
    obtain ⟨es₁, es', rfl, rfl, hes'⟩ := List.map_eq_append_iff.1 hm
    obtain ⟨ev', es₂, rfl, hev, -⟩ := List.map_eq_cons_iff.1 hes'
    cases hev
    refine (ha ev (by simp)).append fun hmem => ?_
    obtain ⟨x, hx, hxe⟩ := List.mem_map.1 hmem
    cases hxe
    rw [List.nodup_append] at hn
    exact hn.2.2 ev hx ev (by simp) rfl
  · cases m with
    | nil =>
      rw [List.append_nil] at hlog
      rw [List.nil_append] at hm
      obtain ⟨ev', es₂, rfl, hev, -⟩ := List.map_eq_cons_iff.1 hm.symm
      cases hev
      rw [← hlog]
      exact ha ev (by simp)
    | cons x m =>
      rw [List.cons_append, List.cons.injEq] at hm
      rw [← hm.1] at hlog
      exact h ev l₁ m hlog

/-- Between two generations of an event there is a subscription that covers it. -/
theorem OneShot.between (h : OneShot log) (heq : log = l₁ ++ .gen ev :: l₂ ++ .gen ev :: l₃) : ∃ s, s.Covers ev ∧ .sub s ∈ l₂ := by
  obtain ⟨a, s, b, hab, hs, hb⟩ := h ev _ _ heq
  refine ⟨s, hs, ?_⟩
  rcases List.append_eq_append_iff.1 hab with ⟨m, rfl, hm⟩ | ⟨m, rfl, hm⟩
  · cases m with
    | nil => cases hm
    | cons x m =>
      rw [List.cons_append, List.cons.injEq] at hm
      rw [hm.2]
      simp
  · cases m with
    | nil => cases hm
    | cons x m =>
      rw [List.cons_append, List.cons.injEq] at hm
      rw [hm.2] at hb
      simp at hb

end

/-- The record fits the queue. -/
structure Delivers (Q : Queue) (g : Delivery) : Prop where
  all : g.delivered ++ Q.events = g.generated
  armed : ∀ ev, ev ≠ .none → Q.subscribed ev = true → Armed ev g.log
  once : OneShot g.log
  first : .init ∈ g.generated → Q.activated = true
  init : g.generated.count .init ≤ 1

section
variable {w w' w₀ : World} {Q Q' : Queue} {e : Made} {es : List (Made × List EventNote)} {depth : ℤ} {g g' : Delivery} {δ : Delta}
  {l : List EventNote}

/-! ## The answers of `add_event` -/

theorem Noticed.ran (h : Noticed w e l w') : Ran w e w' := by
  have hr := h.runs.erase
  rw [Call.erase_noted] at hr
  exact ⟨h.ok, h.valid, hr⟩

/-- In every call `add_event` gives some answers. -/
theorem Ran.noticed (h : Ran w e w') : ∃ l, Noticed w e l w' := by
  have hr := h.runs
  rw [← Call.erase_noted] at hr
  obtain ⟨l, hr⟩ := hr.noted []
  exact ⟨l, h.ok, h.valid, hr⟩

theorem Noticed.heard (h : Noticed w e l w') : Heard (w, g) (e, l) (w', noteDelivery e l g) := ⟨h, rfl⟩

/-- The answers can be noted along any history. -/
theorem heard_of_ran {hs : List Made} (h : Trace Ran w₀ hs w) (g : Delivery) :
    ∃ es g', Trace Heard (w₀, g) es (w, g') ∧ es.map Prod.fst = hs := by
  induction h generalizing g with
  | nil => exact ⟨[], g, .nil _, rfl⟩
  | @cons _ _ _ e _ hr _ ih =>
    obtain ⟨l, ha⟩ := hr.noticed
    obtain ⟨es, g', ht, hes⟩ := ih (noteDelivery e l g)
    exact ⟨(e, l) :: es, g', .cons ha.heard ht, by rw [List.map_cons, hes]⟩

/-- What `add_event` raised in an add or in a removal waits behind the others. -/
theorem Noticed.tells (hR : Represents w Q) (h : Noticed w e l w') (hc : e.call.raises = true) :
    ∃ Q', Represents w' Q' ∧ Tells Q.events Q' l := by
  obtain ⟨H, hS⟩ := hR
  have hS' := hS.enter h.ok
  have hnil : Tells Q.events (Q.reading e.caller.clock) [] := tells_nil _
  have hrun : ∀ {c : Call}, NotedWp False (c.noted e.caller.q e.caller.pid)
      (fun r v => AccountsTold Q.events H e.caller.q (Q.reading e.caller.clock) c r v) (e.caller.enter w, []) →
      Runs (logging seq) (c.noted e.caller.q e.caller.pid) (e.caller.enter w, []) e.reply (w', l) →
      ∃ Q', Represents w' Q' ∧ Tells Q.events Q' l := fun hwp hr => by
    obtain ⟨⟨a, Q'⟩, -, -, ht, H', hS', -⟩ := hwp.1 _ _ hr
    exact ⟨Q', ⟨H', hS'⟩, ht⟩
  have hv := h.valid
  have hr := h.runs
  generalize e.call = c at hv hr hc
  cases c with
  | add g value n => exact hrun (hS'.addNoted hnil hv fun h => h.elim) hr
  | addv g vector => exact hrun (hS'.addvNoted hnil hv fun h => h.elim) hr
  | remove g u => exact hrun (hS'.removeNoted hnil fun h => h.elim) hr
  | _ => cases hc

/-- The other calls do not come to `add_event`. -/
theorem Noticed.quiet (h : Noticed w e l w') (hc : e.call.raises = false) : l = [] := by
  have hr := h.runs
  generalize e.call = c at hr hc
  cases c with
  | add g value n => cases hc
  | addv g vector => cases hc
  | remove g u => cases hc
  | _ => exact hr.log_of_plain

/-- They append nothing. -/
theorem Queue.step_quiet {q : Option ShrQ} {c : Call} {a : Answer} (hc : c.raises = false) (h : Q.step q c = some (a, Q')) :
    Q'.events.length ≤ Q.events.length := by
  by_cases he : c = .event
  · subst he
    rcases step_event h with ⟨-, -, rfl⟩ | ⟨-, -, rfl⟩
    · rw [takeEvent]
      split
      · split
        · exact le_rfl
        · next hl =>
          rw [hl]
          exact Nat.le_succ _
      · exact le_rfl
    · exact le_rfl
  by_cases hmov : c.moves = true
  · cases c with
    | clean t =>
      obtain ⟨k, hch⟩ := step_cleaned h
      rw [hch.events]
      exact (congrArg List.length (List.append_nil _)).le
    | prod => rcases handled_cases h with ⟨-, -, -, rfl⟩ | ⟨-, -, rfl⟩ <;> exact le_rfl
    | add g value n => cases hc
    | addv g vector => cases hc
    | remove g u => cases hc
    | _ => cases hmov
  · obtain ⟨hd, hQ', -⟩ := step_resets (Bool.eq_false_iff.2 hmov) he h
    rw [hQ']
    exact le_rfl

/-- **The events for which `add_event` returned true are those that were appended.** -/
theorem Noticed.generated (hR : Represents w Q) (h : Noticed w e l w') : generatedEvents w w' = raisedEvents l := by
  by_cases hc : e.call.raises = true
  · obtain ⟨Q', hR', ht⟩ := h.tells hR hc
    rw [generatedEvents, hR.pending, hR'.pending, ht]
    exact List.drop_left
  · rw [Bool.not_eq_true] at hc
    obtain ⟨Q', ⟨a, ha, -⟩, hR'⟩ := hR.ran h.ran
    rw [h.quiet hc]
    exact generated_nil hR hR' (Queue.step_quiet (Q := Q.reading e.caller.clock) hc ha)

/-! ## The record -/

/-- A call that moves items: what it generates is appended. -/
theorem Delivers.change (hg : Delivers Q g) (h : Queue.Change Q Q' δ) :
    Delivers Q' ⟨g.generated ++ δ.events, g.delivered ++ [], g.log ++ δ.events.map .gen⟩ where
  all := by rw [h.events, List.append_nil, ← List.append_assoc, hg.all]
  armed := fun ev hev hs => by
    obtain ⟨hs, hno⟩ := (h.subs ev hev).1 hs
    refine (hg.armed ev hev hs).append fun hmem => ?_
    obtain ⟨x, hx, hxe⟩ := List.mem_map.1 hmem
    cases hxe
    exact hno hx
  once := hg.once.append_gen h.nodup fun ev hev => hg.armed ev (h.raised ev hev).1 (h.raised ev hev).2
  first := fun hmem => by
    rw [h.activated, Bool.or_eq_true_iff]
    rcases List.mem_append.1 hmem with hmem | hmem
    · exact .inl (hg.first hmem)
    · exact .inr (h.init hmem).2
  init := by
    rw [List.count_append]
    by_cases hmem : .init ∈ δ.events
    · have hnot : .init ∉ g.generated := fun hg' => by
        have := hg.first hg'
        rw [(h.init hmem).1] at this
        cases this
      rw [List.count_eq_zero_of_not_mem hnot, List.count_eq_one_of_mem h.nodup hmem]
    · rw [List.count_eq_zero_of_not_mem hmem]
      exact hg.init

/-- A call that only changes settings. -/
theorem Delivers.still (hg : Delivers Q g) (he : Q'.events = Q.events) (ha : Q'.activated = Q.activated) {log : List Mark}
    (hl : OneShot log) (hs : ∀ ev, ev ≠ .none → Q'.subscribed ev = true → Armed ev log) :
    Delivers Q' ⟨g.generated ++ [], g.delivered ++ [], log⟩ where
  all := by rw [he, List.append_nil, List.append_nil, hg.all]
  armed := hs
  once := hl
  first := fun hmem => by
    rw [List.append_nil] at hmem
    rw [ha]
    exact hg.first hmem
  init := by
    rw [List.append_nil]
    exact hg.init

theorem Queue.activated_congr (h : Int.land Q'.hdr.flags FLAG_ACTIVATED = Int.land Q.hdr.flags FLAG_ACTIVATED) :
    Q'.activated = Q.activated := by
  unfold Queue.activated
  rw [h]

/-- The record of a call that is neither a subscription nor a call for an event. -/
theorem noteDelivery_other (hs : ∀ s, e.call ≠ .subscribe s) (hr : ∀ ev, e.reply ≠ .event ev) :
    noteDelivery e l g = ⟨g.generated ++ raisedEvents l, g.delivered ++ [], g.log ++ (raisedEvents l).map .gen⟩ := by
  unfold noteDelivery
  congr 2
  · split
    · next h => exact absurd h (hr _)
    · rfl
  · split
    · next h _ => exact absurd h (hs _)
    · rfl

/-- A call that only changes settings generates nothing. -/
theorem noteDelivery_quiet (hs : ∀ s, e.call ≠ .subscribe s) (hr : ∀ ev, e.reply ≠ .event ev) (hn : raisedEvents l = []) :
    noteDelivery e l g = ⟨g.generated ++ [], g.delivered ++ [], g.log⟩ := by
  rw [noteDelivery_other hs hr, hn, List.map_nil, List.append_nil g.log]

/-- **Every call keeps the record right.** -/
theorem delivers_step (hR : Represents w Q) (hR' : Represents w' Q') (hs : Q.Sane) (hg : Delivers Q g) (hd : Q.Did e Q')
    (hl : generatedEvents w w' = raisedEvents l) : Delivers Q' (noteDelivery e l g) := by
  obtain ⟨a, ha, hm⟩ := hd
  have hgr : Delivers (Q.reading e.caller.clock) g := ⟨hg.all, hg.armed, hg.once, hg.first, hg.init⟩
  have hreply : e.call ≠ .event → ∀ ev, e.reply ≠ .event ev := fun hc => hm.not_event (Queue.step_answer ha hc)
  by_cases hmov : e.call.moves = true
  · obtain ⟨δ, hch, -⟩ := Queue.step_change (Q := Q.reading e.caller.clock) hs.count hmov ha
    have hgen : raisedEvents l = δ.events := hl.symm.trans (generated_change hR hR' hch)
    rw [noteDelivery_other (fun s hc => by rw [hc] at hmov; cases hmov) (hreply fun hc => by rw [hc] at hmov; cases hmov), hgen]
    exact hgr.change hch
  rw [Bool.not_eq_true] at hmov
  by_cases hev : e.call = .event
  · rw [hev] at ha
    have hlog : ∀ es : List Event, generatedEvents w w' = [] → e.reply = .event (es.headD .none) → (∀ x ∈ es, x ≠ .none) → es.length ≤ 1 →
        noteDelivery e l g = ⟨g.generated, g.delivered ++ es, g.log⟩ := fun es hn hr hes h₁ => by
      unfold noteDelivery
      rw [← hl, hn, hev, hr, List.append_nil, List.map_nil, List.append_nil]
      match es, hes, h₁ with
      | [], _, _ => rfl
      | [x], hes, _ =>
        have hx : ¬x = .none := hes x (by simp)
        simp only [List.headD_cons, hx, if_false]
    rcases Queue.step_event ha with ⟨-, rfl, rfl⟩ | ⟨-, rfl, rfl⟩
    · rcases Queue.takeEvent_cases (hs.reading _) with ⟨hnil, he⟩ | ⟨ev, es, hes, he⟩
      · rw [he] at hm hR' ⊢
        rw [hlog [] (generated_nil hR hR' (le_refl _)) hm.event (by simp) (by simp)]
        exact ⟨by rw [List.append_nil]; exact hg.all, hg.armed, hg.once, hg.first, hg.init⟩
      · rw [he] at hm hR' ⊢
        have hes' : Q.events = ev :: es := hes
        rw [hlog [ev] (generated_nil hR hR' (by rw [hes']; exact Nat.le_succ _)) hm.event
          (by rintro x hx; rw [List.mem_singleton.1 hx]; exact hs.known ev (by rw [hes']; simp)) (le_refl _)]
        refine ⟨?_, hg.armed, hg.once, hg.first, hg.init⟩
        show g.delivered ++ [ev] ++ es = g.generated
        rw [List.append_assoc, List.singleton_append, ← hes', hg.all]
    · rw [hlog [] (generated_nil hR hR' (le_refl _)) hm.event (by simp) (by simp)]
      exact ⟨by rw [List.append_nil]; exact hg.all, hg.armed, hg.once, hg.first, hg.init⟩
  -- what is left only changes settings
  have hact : Q'.activated = Q.activated := Queue.activated_congr (Q := Q)
    (Queue.step_modes (Q := Q.reading e.caller.clock) hmov (by decide) (by cases e.call <;> simp [Call.Sets]) ha)
  obtain ⟨hd, hQ', -⟩ := Queue.step_resets (Q := Q.reading e.caller.clock) hmov hev ha
  have hevents : Q'.events = Q.events := by rw [hQ']; rfl
  have hgen : raisedEvents l = [] := hl.symm.trans (generated_nil hR hR' (by rw [hevents]))
  by_cases hsub : ∃ s, e.call = .subscribe s
  · obtain ⟨s, hc⟩ := hsub
    rw [hc] at ha
    rcases Queue.handled_cases ha with ⟨-, -, rfl, rfl⟩ | ⟨-, rfl, rfl⟩
    · have hnote : noteDelivery e l g = ⟨g.generated ++ [], g.delivered ++ [], g.log ++ [.sub s]⟩ := by
        unfold noteDelivery
        rw [hgen, hc, hm.status]
      rw [hnote]
      refine hg.still hevents hact hg.once.append_sub fun ev hev hs => ?_
      by_cases hcov : s.Covers ev
      · exact armed_sub hcov
      · rw [Event.Covers, not_or] at hcov
        rw [Queue.subscribed_setFlag (Queue.getEventFlag_disjoint hcov.2 hev hcov.1)] at hs
        exact (hg.armed ev hev hs).append (by simp)
    · have hnote : noteDelivery e l g = ⟨g.generated ++ [], g.delivered ++ [], g.log ++ []⟩ := by
        unfold noteDelivery
        rw [hgen, hc, hm.status]
        rfl
      rw [hnote, List.append_nil g.log]
      exact hg.still hevents hact hg.once hg.armed
  · rw [noteDelivery_quiet (fun s hc => hsub ⟨s, hc⟩) (hreply hev) hgen]
    refine hg.still hevents hact hg.once fun ev hne hs => hg.armed ev hne ?_
    by_cases huns : ∃ s, e.call = .unsubscribe s
    · obtain ⟨s, hc⟩ := huns
      rw [hc] at ha
      rcases Queue.handled_cases ha with ⟨-, -, -, rfl⟩ | ⟨-, -, rfl⟩
      · by_cases hcov : s.Covers ev
        · rw [Queue.unsubscribe_covered hcov] at hs
          cases hs
        · rw [Event.Covers, not_or] at hcov
          rwa [Queue.subscribed_clearFlag (Queue.getEventFlag_disjoint hcov.2 hne hcov.1)] at hs
      · exact hs
    · rwa [Queue.step_flags (Q := Q.reading e.caller.clock) hmov (fun s hc => hsub ⟨s, hc⟩) (fun s hc => huns ⟨s, hc⟩) ha] at hs

/-- **Events are delivered in the order in which `add_event` returned true for them**, none lost and none twice; `EVNT_SEM`
counts those that wait, each was subscribed since it was generated last, and `SQ_EVNT_INIT` comes once. -/
theorem event_delivery (hw : Created depth w₀) (h : Trace Heard (w₀, {}) es (w, g)) :
    g.delivered ++ pendingEvents w.mem = g.generated ∧ w.sem .evnt = (pendingEvents w.mem).length ∧
    (∀ e w', Ran w e w' → e.call = .event → e.caller.q.isSome = true → (e.reply = .event .none ↔ pendingEvents w.mem = [])) ∧
    (∀ ev l₁ l₂ l₃, g.log = l₁ ++ .gen ev :: l₂ ++ .gen ev :: l₃ → ∃ s, s.Covers ev ∧ .sub s ∈ l₂) ∧
    g.generated.count .init ≤ 1 := by
  obtain ⟨Q, hR, hs, hg⟩ : ∃ Q, Represents w Q ∧ Q.Sane ∧ Delivers Q g := by
    refine h.invariant (fun s => ∃ Q, Represents s.1 Q ∧ Q.Sane ∧ Delivers Q s.2) ?_ ?_
    · rintro ⟨w, g⟩ ⟨e, l⟩ ⟨w', g'⟩ ⟨Q, hR, hs, hg⟩ ⟨ha, hg'⟩
      obtain ⟨Q', hd, hR'⟩ := hR.ran ha.ran
      dsimp only at hg'
      subst hg'
      exact ⟨Q', hR', hd.sane hs, delivers_step hR hR' hs hg hd (ha.generated hR)⟩
    · obtain ⟨ids, clock, hR⟩ := hw.represents
      refine ⟨_, hR, Queue.start_sane depth ids clock, rfl, fun ev hev hs => ?_, OneShot.nil, by simp, by simp⟩
      cases ev <;> first | exact absurd rfl hev | cases hs
  rw [hR.pending, hR.sem]
  refine ⟨hg.all, hs.evnt, fun e w' he hc hq => ?_, fun ev l₁ l₂ l₃ hl => hg.once.between hl, hg.init⟩
  obtain ⟨Q', ⟨a, ha, hm⟩, -⟩ := hR.ran he
  rw [hc] at ha
  rcases Queue.step_event ha with ⟨-, rfl, -⟩ | ⟨hno, -, -⟩
  · rw [hm.event]
    rcases Queue.takeEvent_cases (hs.reading _) with ⟨hnil, he⟩ | ⟨ev, l, hl, he⟩
    · rw [he]
      exact ⟨fun _ => hnil, fun _ => rfl⟩
    · have hl' : Q.events = ev :: l := hl
      have hne : ev ≠ .none := hs.known ev (by rw [hl']; simp)
      rw [he, hl']
      simp [hne]
  · rw [hno] at hq
    cases hq

/-- Two events of the first item: they wait until they are asked for. -/
theorem event_delivery_first : ∃ w₀ es w g, Created 4 w₀ ∧ Trace Heard (w₀, {}) es (w, g) ∧
    g.delivered = [.init] ∧ g.generated = [.init, .nonempty] := by
  obtain ⟨w₀, hw, hR₀⟩ := fresh_represents
  obtain ⟨r₁, w₁, h₁, hm₁, hR₁⟩ := hR₀.next (fun _ => ⟨1, 0⟩) (.subscribe .all) trivial (by decide +kernel)
  obtain ⟨r₂, w₂, h₂, hm₂, hR₂⟩ := hR₁.next (fun _ => ⟨1, 0⟩) (.add .poll (some [7]) 1) (by rintro v ⟨⟩; decide) (by decide +kernel)
  obtain ⟨r₃, w₃, h₃, hm₃, hR₃⟩ := hR₂.next (fun _ => ⟨1, 0⟩) .event trivial (by decide +kernel)
  obtain ⟨l₁, ha₁⟩ := h₁.noticed
  obtain ⟨l₂, ha₂⟩ := h₂.noticed
  obtain ⟨l₃, ha₃⟩ := h₃.noticed
  have ht : Trace Heard (w₀, {}) [(_, l₁), (_, l₂), (_, l₃)] (w₃, _) := .cons ha₁.heard (.cons ha₂.heard (.cons ha₃.heard (.nil _)))
  have hr₁ : r₁ = .status .ok := replied hm₁ (by decide +kernel)
  have hr₂ : r₂ = .status .ok := replied hm₂ (by decide +kernel)
  have hr₃ : r₃ = .event .init := replied hm₃ (by decide +kernel)
  have hp : pendingEvents w₃.mem = [.nonempty] := hR₃.pending.trans (by decide +kernel)
  subst hr₁ hr₂ hr₃
  refine ⟨w₀, _, w₃, _, hw, ht, rfl, ?_⟩
  rw [← (event_delivery hw ht).1, hp]
  rfl

end

end LibShr
