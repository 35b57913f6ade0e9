import LibShr.Refine.Steps
import LibShr.Lib.Noted

/-!
# Settings, time stamps, signals and events

The functions that do their work besides moving items. Each leaves what the running call holds alone.

In the texts of `Noted` each answer of `add_event` is noted, so that the events raised can be compared
with those that wait.
-/

namespace LibShr

open Prog

/-- The object shows `Q` now, and what the running call holds of `H` was left alone. -/
def Leaves (w : World) (H : Heap) (Q : Queue) (w' : World) : Prop :=
  ∃ H', Sim w' H' Q ∧ Held H H' ∧ w.ext.cur ≤ w'.ext.cur

/-- Whenever `p` runs, the abstract queue stays as it is. -/
def Idle (tot : Prop) {α : Type} (p : M α) : Prop :=
  ∀ w H Q, Sim w H Q → Wp tot p (fun _ w' => Leaves w H Q w') w

/-- Nothing changed but the process's count of accessors and the signals sent. -/
structure Still (w w' : World) : Prop where
  mem : w'.mem = w.mem
  ext : w'.ext = w.ext
  malloc : w'.malloc = w.malloc
  sem : w'.sem = w.sem
  clock : w'.clock = w.clock

/-- Whenever `p` runs, nothing else changes. -/
def Mute (tot : Prop) {α : Type} (p : M α) : Prop :=
  ∀ w, 512 ≤ w.ext.cur → Wp tot p (fun _ w' => Still w w') w

/-- The monitoring process is told about an event. -/
def notify (array : ℤ) (raised : Bool) : M Unit := do
  if raised then
    if ← isMonitored array then signalEvent

/-- What `add_event` does once it has cleared the subscription: a node is taken, filled and linked. -/
def appendEvent (event : Event) : M Bool := do
  let view ← allocIdxSlots
  if view.slot = 0 then return false
  store view.extent (view.slot + EVENT_OFFSET) event.code
  addEnd view.slot EVENT_TAIL
  let _ ← semPost .evnt
  return true

theorem addEvent_eq (event : Event) : addEvent event = (do
    let array ← current
    if event = .none then return false
    if ← eventDisabled array event then return false
    let prev ← load array FLAGS
    if !(← cas array FLAGS prev (Int.land prev (Int.lnot (getEventFlag event)))) then return false
    appendEvent event) := rfl

/-- An answer of `add_event`. -/
structure EventNote where
  event : Event
  raised : Bool
deriving DecidableEq

/-- Texts of the library in which the answers of `add_event` are noted. -/
abbrev NotedM := Prog.Noted Op Op.Res EventNote

/-- `add_event`; its answer is noted. -/
def Noted.addEvent (event : Event) : NotedM Bool := do
  let raised ← plain (LibShr.addEvent event)
  note ⟨event, raised⟩
  return raised

/-- An event that is raised under a condition. -/
def Noted.raise (c : Prop) [Decidable c] (event : Event) : NotedM Bool := if c then Noted.addEvent event else pure false

/-- The events for which `add_event` returned true. -/
def raisedEvents (l : List EventNote) : List Event := (l.filter EventNote.raised).map EventNote.event

/-- The events `es`, and behind them those that were raised, wait in `Q`. -/
def Tells (es : List Event) (Q : Queue) (l : List EventNote) : Prop := Q.events = es ++ raisedEvents l

/-- The object shows `Q` now, what the running call holds was left alone, and the notes tell which events were raised. -/
def LeavesTold (es : List Event) (w : World) (H : Heap) (Q : Queue) (v : World × List EventNote) : Prop :=
  Leaves w H Q v.1 ∧ Tells es Q v.2

/-- Correctness of a text with notes; total if `tot`. -/
abbrev NotedWp {α : Type} (tot : Prop) (p : NotedM α) (R : α → World × List EventNote → Prop) (v : World × List EventNote) : Prop :=
  Prog.wp (logging seq) tot p R v

theorem ite_bind {α β : Type} {c : Prop} [Decidable c] (p q : M α) (f : α → M β) :
    (if c then p else q) >>= f = if c then p >>= f else q >>= f := by
  split <;> rfl

section
variable {tot : Prop} {w w' w'' : World} {H H' : Heap} {Q Q' : Queue} {m : ℤ → ℤ} {h : Header} {a s v : ℤ} {α β : Type}
  {es : List Event} {l : List EventNote}

theorem Sim.leaves (hS : Sim w H Q) : Leaves w H Q w := ⟨H, hS, .refl, le_refl _⟩

theorem Leaves.trans (hw : H.Wf) (hh : Held H H') (hc : w.ext.cur ≤ w'.ext.cur) (h₂ : Leaves w' H' Q w'') :
    Leaves w H Q w'' := by
  obtain ⟨H'', hS'', hh', hc'⟩ := h₂
  exact ⟨H'', hS'', hh.trans hh' hw.held_pos, hc.trans hc'⟩

/-- One function after another. -/
theorem Leaves.bind {p : M α} {f : α → M β} {Q₁ Q₂ : Queue} (hS : Sim w H Q) (hp : Wp tot p (fun _ w' => Leaves w H Q₁ w') w)
    (hf : ∀ x w' H', Sim w' H' Q₁ → Wp tot (f x) (fun _ w'' => Leaves w' H' Q₂ w'') w') :
    Wp tot (p >>= f) (fun _ w'' => Leaves w H Q₂ w'') w := by
  rw [Wp, wp_bind]
  refine wp_mono ?_ hp
  rintro x w' ⟨H', hS', hh, hc⟩
  refine wp_mono ?_ (hf x w' H' hS')
  rintro _ w'' h₂
  exact .trans hS.inv.wf hh hc h₂

/-! ## Notes -/

@[simp] theorem erase_addEvent (e : Event) : (Noted.addEvent e).erase = addEvent e := by
  simp only [Noted.addEvent, erase_bind, erase_plain, erase_note, erase_pure, LawfulMonad.pure_bind]
  exact Prog.bind_ret _

@[simp] theorem erase_raise (c : Prop) [Decidable c] (e : Event) : (Noted.raise c e).erase = if c then addEvent e else pure false := by
  simp only [Noted.raise, erase_ite, erase_addEvent, erase_pure]

/-- Nothing was noted so far. -/
theorem tells_nil (Q : Queue) : Tells Q.events Q [] := (List.append_nil _).symm

/-- No event was raised. -/
theorem Tells.kept (ht : Tells es Q l) (h : Q'.events = Q.events) : Tells es Q' l := h.trans ht

/-- `add_event` answered, and the event waits if it was raised. -/
theorem Tells.addEvent (ht : Tells es Q l) (e : Event) : Tells es (Q.addEvent e) (l ++ [⟨e, Q.subscribed e⟩]) := by
  have ht' : Q.events = es ++ raisedEvents l := ht
  rw [Tells, raisedEvents, List.filter_append, List.map_append, ← List.append_assoc, ← raisedEvents, ← ht']
  by_cases hs : Q.subscribed e = true
  · rw [Queue.addEvent, if_pos hs, hs]
    rfl
  · rw [Queue.addEvent, if_neg hs, (Bool.not_eq_true _).mp hs]
    exact (List.append_nil _).symm

/-- A function that raises no event. -/
theorem Tells.plain {p : M α} {Q₁ : Queue} (ht : Tells es Q l) (he : Q₁.events = Q.events)
    (hp : Wp tot p (fun _ w' => Leaves w H Q₁ w') w) : NotedWp tot (plain p) (fun _ v => LeavesTold es w H Q₁ v) (w, l) :=
  wp_plain.2 (wp_mono (fun _ _ h => ⟨h, ht.kept he⟩) hp)

/-- One function after another. -/
theorem LeavesTold.bind {p : NotedM α} {f : α → NotedM β} {Q₁ Q₂ : Queue} (hS : Sim w H Q)
    (hp : NotedWp tot p (fun _ v => LeavesTold es w H Q₁ v) (w, l))
    (hf : ∀ x w' H' l', Sim w' H' Q₁ → Tells es Q₁ l' → NotedWp tot (f x) (fun _ v => LeavesTold es w' H' Q₂ v) (w', l')) :
    NotedWp tot (p >>= f) (fun _ v => LeavesTold es w H Q₂ v) (w, l) := by
  rw [NotedWp, wp_bind]
  refine wp_mono ?_ hp
  rintro x ⟨w', l'⟩ ⟨⟨H', hS', hh, hc⟩, ht'⟩
  refine wp_mono ?_ (hf x w' H' l' hS' ht')
  rintro _ v ⟨h₂, ht₂⟩
  exact ⟨.trans hS.inv.wf hh hc h₂, ht₂⟩

/-! ## Settings -/

namespace HeaderAt

theorem setCount (hh : HeaderAt m h) (v : ℤ) : HeaderAt (setSlot m 7 v) { h with count := v } := by
  cases hh; constructor <;> simpa [setSlot]

theorem setBuffer (hh : HeaderAt m h) (v : ℤ) : HeaderAt (setSlot m 8 v) { h with buffer := v } := by
  cases hh; constructor <;> simpa [setSlot]

theorem setFlags (hh : HeaderAt m h) (v : ℤ) : HeaderAt (setSlot m 9 v) { h with flags := v } := by
  cases hh; constructor <;> simpa [setSlot]

theorem setLevel (hh : HeaderAt m h) (v : ℤ) : HeaderAt (setSlot m 144 v) { h with level := v } := by
  cases hh; constructor <;> simpa [setSlot]

theorem setLimit (hh : HeaderAt m h) (t : Timespec) :
    HeaderAt (setSlot (setSlot m 118 t.sec) 119 t.nsec) { h with limit := t } := by
  cases hh; constructor <;> simpa [setSlot]

theorem setTarget (hh : HeaderAt m h) (t : Timespec) :
    HeaderAt (setSlot (setSlot m 140 t.sec) 141 t.nsec) { h with target := t } := by
  cases hh; constructor <;> simpa [setSlot]

theorem setEmpty (hh : HeaderAt m h) (t : Timespec) :
    HeaderAt (setSlot (setSlot m 126 t.sec) 127 t.nsec) { h with empty := t } := by
  cases hh; constructor <;> simpa [setSlot]

end HeaderAt

namespace Sim

/-- Writing to header settings. -/
theorem setMem (hS : Sim w H Q) (hm : ∀ a, a ∉ LibShr.settings → m a = w.mem a) (hh : HeaderAt m h) :
    Leaves w H (Q.setHdr h) (w.setMem m) :=
  ⟨_, hS.settings hm hh, .settings hS.inv.wf, le_refl _⟩

theorem setOne (hS : Sim w H Q) (hs : s ∈ LibShr.settings) (hh : HeaderAt (setSlot w.mem s v) h) :
    Leaves w H (Q.setHdr h) (w.setMem (setSlot w.mem s v)) :=
  hS.setMem (fun x hx => setSlot_ne _ _ fun he => hx (he ▸ hs)) hh

theorem setTwo (hS : Sim w H Q) {x y : ℤ} (hs : s ∈ LibShr.settings) (hs' : s + 1 ∈ LibShr.settings)
    (hh : HeaderAt (setSlot (setSlot w.mem s x) (s + 1) y) h) :
    Leaves w H (Q.setHdr h) (w.setMem (setSlot (setSlot w.mem s x) (s + 1) y)) :=
  hS.setMem (fun z hz => by
    have h₁ : z ≠ s + 1 := fun he => hz (he ▸ hs')
    have h₂ : z ≠ s := fun he => hz (he ▸ hs)
    rw [setSlot_ne _ _ h₁, setSlot_ne _ _ h₂]) hh

/-- Writing to settings no abstract queue shows. -/
theorem setHidden (hS : Sim w H Q) (hm : ∀ a, a ∉ LibShr.settings ∨ a ∈ shown → m a = w.mem a) : Leaves w H Q (w.setMem m) :=
  hS.setMem (fun a ha => hm a (.inl ha)) (hS.hdr.congr fun a ha => hm a (.inr ha))

/-- Writing to one of them. -/
theorem setHiddenOne (hS : Sim w H Q) (hs : s ∈ LibShr.settings) (hn : s ∉ shown) : Leaves w H Q (w.setMem (setSlot w.mem s v)) :=
  hS.setHidden fun a ha => setSlot_ne _ _ fun he => ha.elim (fun h => h (he ▸ hs)) fun h => hn (he ▸ h)

theorem wp_setFlag (hS : Sim w H Q) {f : ℤ} (ha : 512 ≤ a) : Wp tot (setFlag a f) (fun r w' =>
    (r = true ↔ Int.land Q.hdr.flags f = 0) ∧ Leaves w H (Q.setFlag f) w') w := by
  refine (LibShr.wp_setFlag (by omega)).2 ?_
  have hf : w.mem 9 = Q.hdr.flags := hS.hdr.flags
  rw [hf]
  by_cases h : Int.land Q.hdr.flags f = 0
  · simp only [h, if_true, Queue.setFlag]
    exact ⟨trivial, hS.setOne (by decide) (hS.hdr.setFlags _)⟩
  · simp only [h, if_false, Queue.setFlag]
    exact ⟨by simp, hS.leaves⟩

theorem wp_clearFlag (hS : Sim w H Q) {f : ℤ} (ha : 512 ≤ a) : Wp tot (clearFlag a f) (fun _ w' =>
    Leaves w H (Q.clearFlag f) w') w := by
  refine (LibShr.wp_clearFlag (by omega)).2 ?_
  have hf : w.mem 9 = Q.hdr.flags := hS.hdr.flags
  rw [hf]
  by_cases h : Int.land Q.hdr.flags f = 0
  · simp only [h, if_true, Queue.clearFlag]
    exact hS.leaves
  · simp only [h, if_false, Queue.clearFlag]
    exact hS.setOne (by decide) (hS.hdr.setFlags _)

end Sim

/-! ## What does not show -/

theorem Still.refl (w : World) : Still w w := ⟨rfl, rfl, rfl, rfl, rfl⟩

theorem Still.trans (h : Still w w') (h' : Still w' w'') : Still w w'' :=
  ⟨h'.mem.trans h.mem, h'.ext.trans h.ext, h'.malloc.trans h.malloc, h'.sem.trans h.sem, h'.clock.trans h.clock⟩

theorem Sim.still (hS : Sim w H Q) (h : Still w w') : Sim w' H Q :=
  hS.of_eq h.mem h.ext h.malloc (h.sem.trans hS.sem) (h.clock.trans hS.clock)

namespace Mute

theorem pure (x : α) : Mute tot (Pure.pure x : M α) := fun w _ => wp_pure.2 (.refl w)

theorem bind {p : M α} {f : α → M β} (hp : Mute tot p) (hf : ∀ x, Mute tot (f x)) : Mute tot (p >>= f) := by
  intro w hw
  rw [Wp, wp_bind]
  refine wp_mono ?_ (hp w hw)
  intro x w' h
  refine wp_mono ?_ (hf x w' (h.ext ▸ hw))
  intro _ w'' h'
  exact h.trans h'

theorem ite {c : Prop} [Decidable c] {p q : M α} (hp : Mute tot p) (hq : Mute tot q) : Mute tot (if c then p else q) := by
  split
  · exact hp
  · exact hq

theorem load (h₀ : 0 ≤ s) (h₁ : s < a) : Mute tot (LibShr.load a s) := fun w _ => (wp_load h₀ h₁).2 (.refl w)

/-- The current extent holds the whole header. -/
theorem current {f : ℤ → M α} (hf : ∀ a, 512 ≤ a → Mute tot (f a)) : Mute tot (LibShr.current >>= f) := by
  intro w hw
  rw [Wp, wp_bind]
  exact wp_current.2 (hf _ hw w hw)

theorem sigqueue (p s v : ℤ) : Mute tot (LibShr.sigqueue p s v) := fun _ _ => wp_sigqueue.2 ⟨rfl, rfl, rfl, rfl, rfl⟩

theorem semGetvalue (x : Sem) : Mute tot (LibShr.semGetvalue x) := fun _ _ => wp_semGetvalue.2 ⟨rfl, rfl, rfl, rfl, rfl⟩

theorem guardQMemory : Mute tot LibShr.guardQMemory := fun _ _ => wp_guardQMemory.2 ⟨rfl, rfl, rfl, rfl, rfl⟩

theorem unguardQMemory : Mute tot LibShr.unguardQMemory := fun _ _ => wp_unguardQMemory.2 ⟨rfl, rfl, rfl, rfl, rfl⟩

theorem isRegistered {signal pid : ℤ} (h₀ : 0 ≤ signal ∧ signal < a) (h₁ : 0 ≤ pid ∧ pid < a) :
    Mute tot (LibShr.isRegistered a signal pid) :=
  (load h₀.1 h₀.2).bind fun _ => (pure _).ite ((load h₁.1 h₁.2).bind fun _ => pure _)

theorem signalRegistered {pid signal : ℤ} (h₀ : 0 ≤ pid ∧ pid < 512) (h₁ : 0 ≤ signal ∧ signal < 512) :
    Mute tot (LibShr.signalRegistered pid signal) := by
  refine current fun _ _ => (load h₀.1 (by omega)).bind fun _ => (pure _).ite ?_
  refine current fun _ _ => (load h₁.1 (by omega)).bind fun _ => (pure _).ite ?_
  refine current fun _ _ => (load h₀.1 (by omega)).bind fun _ => ?_
  exact current fun _ _ => (load h₁.1 (by omega)).bind fun _ => sigqueue _ _ _

theorem idle {p : M α} (h : Mute tot p) : Idle tot p := by
  intro w H Q hS
  refine wp_mono ?_ (h w hS.cur)
  intro _ w' hw
  exact ⟨H, hS.still hw, .refl, by rw [hw.ext]⟩

end Mute

namespace Idle

theorem pure (x : α) : Idle tot (Pure.pure x : M α) := fun _ _ _ hS => wp_pure.2 hS.leaves

theorem bind {p : M α} {f : α → M β} (hp : Idle tot p) (hf : ∀ x, Idle tot (f x)) : Idle tot (p >>= f) :=
  fun w H Q hS => Leaves.bind hS (hp w H Q hS) fun x w' H' hS' => hf x w' H' Q hS'

theorem ite {c : Prop} [Decidable c] {p q : M α} (hp : Idle tot p) (hq : Idle tot q) : Idle tot (if c then p else q) := by
  split
  · exact hp
  · exact hq

theorem load (h₀ : 0 ≤ s) (h₁ : s < a) : Idle tot (LibShr.load a s) := fun _ _ _ hS => (wp_load h₀ h₁).2 hS.leaves

theorem afa (hs : s ∈ LibShr.settings ∧ s ∉ shown) (ha : 512 ≤ a) : Idle tot (LibShr.afa a s v) := fun _ _ _ hS => by
  have h : ∀ s ∈ LibShr.settings, 0 ≤ s ∧ s < 512 := by decide
  have := h s hs.1
  exact (wp_afa (by omega) (by omega)).2 (hS.setHiddenOne hs.1 hs.2)

/-- The current extent holds the whole header. -/
theorem current {f : ℤ → M α} (hf : ∀ a, 512 ≤ a → Idle tot (f a)) : Idle tot (LibShr.current >>= f) := by
  intro w H Q hS
  rw [Wp, wp_bind]
  exact wp_current.2 (hf _ hS.cur w H Q hS)

theorem releasePrevExtents : Idle tot LibShr.releasePrevExtents := by
  intro w H Q hS
  have hcur : (w.ext.release w.accessors).cur = w.ext.cur := by
    simp only [Mapping.release]
    split <;> rfl
  have hg : Grown True w.mem w.ext w.mem (w.ext.release w.accessors) := by
    refine ⟨?_, hcur.ge, le_refl _, fun _ _ _ => rfl⟩
    simp only [Mapping.release]
    split
    · exact hS.inv.geo
    · exact { hS.inv.geo with }
  exact wp_releasePrevExtents.2 ⟨H, hS.grown hg, .refl, hcur.ge⟩

theorem signalArrival : Idle tot LibShr.signalArrival := by
  refine current fun _ _ => (load (by decide) (by simp only [LISTEN_SIGNAL]; omega)).bind fun _ => (pure _).ite ?_
  refine current fun _ _ => (load (by decide) (by simp only [LISTEN_PID]; omega)).bind fun _ => (pure _).ite ?_
  refine (Mute.semGetvalue _).idle.bind fun _ => ite ?_ (pure _)
  refine current fun _ _ => (load (by decide) (by simp only [LISTEN_PID]; omega)).bind fun _ => ?_
  exact current fun _ _ => (load (by decide) (by simp only [LISTEN_SIGNAL]; omega)).bind fun _ => (Mute.sigqueue _ _ _).idle

end Idle

theorem idle_notify {raised : Bool} (ha : 512 ≤ a) : Idle tot (notify a raised) := by
  refine .ite ?_ (.pure _)
  refine (Mute.isRegistered ⟨by decide, by simp only [NOTIFY_SIGNAL]; omega⟩ ⟨by decide, by simp only [NOTIFY_PID]; omega⟩).idle.bind
    fun _ => .ite ?_ (.pure _)
  exact (Mute.signalRegistered (by decide) (by decide)).idle

/-! ## Time stamps -/

namespace Sim

theorem tick (hS : Sim w H Q) : Sim { w with clock := rest w.clock } H Q.tick :=
  hS.of_eq rfl rfl rfl hS.sem (congrArg rest hS.clock)

theorem setSem (hS : Sim w H Q) {x : Sem → ℤ} {y : Sem → ℤ} (hx : x = y) : Sim (w.setSem x) H { Q with sem := y } :=
  hS.of_eq rfl rfl rfl hx hS.clock

theorem updateEmpty (hS : Sim w H Q) (ha : 512 ≤ a) :
    Wp tot (updateEmptyTimestamp a) (fun _ w' => Leaves w H Q.updateEmpty w') w := by
  have he : (⟨w.mem 126, w.mem 127⟩ : Timespec) = Q.hdr.empty := hS.hdr.empty
  have hnow : w.clock 0 = Q.now := by rw [hS.clock]; rfl
  simp only [updateEmptyTimestamp, Wp, wp_bind]
  refine wp_clock.2 ?_
  simp (disch := omega) only [LibShr.loadTimespec, EMPTY_SEC, wp_bind, wp_load, wp_pure, Int.reduceAdd, he]
  rw [wp_iterate, hnow]
  by_cases hc : timespecgt Q.now Q.hdr.empty = true
  · have he₁ : w.mem 126 = Q.hdr.empty.sec := congrArg Timespec.sec he
    have he₂ : w.mem 127 = Q.hdr.empty.nsec := congrArg Timespec.nsec he
    simp (disch := omega) only [hc, if_true, wp_bind, wp_dwcas, Int.reduceAdd, he₁, he₂, Timespec.toDWORD, and_self, wp_pure,
      Sum.elim_inr, Queue.updateEmpty]
    exact hS.tick.setTwo (by decide) (by decide) (hS.hdr.setEmpty Q.now)
  · simp only [hc, Bool.false_eq_true, if_false, wp_pure, Sum.elim_inr, Queue.updateEmpty]
    exact hS.tick.leaves

theorem clearEmpty (hS : Sim w H Q) (ha : 512 ≤ a) :
    Wp tot (clearEmptyTimestamp a) (fun _ w' => Leaves w H (Q.setHdr { Q.hdr with empty := ⟨0, 0⟩ }) w') w := by
  simp (disch := omega) only [clearEmptyTimestamp, LibShr.loadTimespec, EMPTY_SEC, wp_bind, wp_load, wp_pure, Int.reduceAdd]
  rw [wp_iterate]
  simp (disch := omega) only [wp_bind, wp_dwcas, Int.reduceAdd, Timespec.toDWORD, and_self, if_true, wp_pure, Sum.elim_inr]
  exact hS.setTwo (by decide) (by decide) (hS.hdr.setEmpty ⟨0, 0⟩)

/-! ## Events -/

theorem appendEvent (hS : Sim w H Q) (e : Event) : Wp tot (LibShr.appendEvent e) (fun r w' => r = true ∧
    Leaves w H { Q with events := Q.events ++ [e], ids := Q.ids + 1, sem := Function.update Q.sem .evnt (Q.sem .evnt + 1) } w') w := by
  have hcur := hS.cur
  rw [LibShr.appendEvent, Wp, wp_bind]
  refine wp_mono ?_ hS.allocNode
  rintro v w₂ ⟨H₂, hS₂, htook, h₁₆₄, hlt, hve, hc₂⟩
  rw [if_neg (by omega), hve, wp_bind]
  refine wp_mono ?_ (hS₂.linkEvent e htook.nodes (by omega))
  intro _ w₃ h₃
  rw [wp_bind]
  refine wp_mono ?_ h₃
  rintro _ w₄ ⟨H₄, hS₄, hh₄, hc₄⟩
  have hs₄ : w₄.sem = Q.sem := hS₄.sem
  rw [wp_bind]
  refine wp_semPost.2 (wp_pure.2 ⟨rfl, H₄, hS₄.setSem (by rw [hs₄]), ?_, hc₂.trans hc₄⟩)
  exact htook.held.trans hh₄ hS.inv.wf.held_pos

/-- **`add_event`** raises an event that is subscribed. -/
theorem addEvent (hS : Sim w H Q) {e : Event} (he : e ≠ .none) :
    Wp tot (LibShr.addEvent e) (fun r w' => r = Q.subscribed e ∧ Leaves w H (Q.addEvent e) w') w := by
  have hcur := hS.cur
  have hf : w.mem 9 = Q.hdr.flags := hS.hdr.flags
  rw [addEvent_eq]
  simp (disch := omega) only [wp_bind, wp_current, wp_ite, eventDisabled, FLAGS, wp_load, wp_pure, decide_eq_true_eq, he, if_false, hf]
  by_cases hz : Int.land Q.hdr.flags (getEventFlag e) = 0
  · have hsub : Q.subscribed e = false := by simp [Queue.subscribed, hz]
    simp only [hz, if_true, Queue.addEvent, hsub, Bool.false_eq_true, if_false]
    exact ⟨trivial, hS.leaves⟩
  have hsub : Q.subscribed e = true := by simp [Queue.subscribed, hz]
  simp (disch := omega) only [hz, if_false, wp_cas, hf, if_true, Bool.not_true, Bool.false_eq_true, Queue.addEvent, hsub]
  obtain ⟨H₁, hS₁, hh₁, hc₁⟩ := hS.setOne (s := 9) (by decide)
    (hS.hdr.setFlags (Int.land Q.hdr.flags (Int.lnot (getEventFlag e))))
  refine wp_mono ?_ (hS₁.appendEvent e)
  rintro r w₂ ⟨hr, hleaves⟩
  exact ⟨hr, .trans hS.inv.wf hh₁ hc₁ hleaves⟩

/-- `add_event` answers whether it appends the event. -/
theorem noteEvent (hS : Sim w H Q) (ht : Tells es Q l) {e : Event} (he : e ≠ .none) :
    NotedWp tot (Noted.addEvent e) (fun _ v => LeavesTold es w H (Q.addEvent e) v) (w, l) := by
  rw [Noted.addEvent, NotedWp, wp_bind, wp_plain]
  refine wp_mono ?_ (hS.addEvent he)
  rintro _ w' ⟨rfl, hl⟩
  rw [wp_bind]
  exact wp_note.2 (wp_pure.2 ⟨hl, ht.addEvent e⟩)

/-- An event that is raised under a condition. -/
theorem raise (hS : Sim w H Q) (ht : Tells es Q l) {c : Prop} [Decidable c] {e : Event} (he : e ≠ .none) :
    NotedWp tot (Noted.raise c e) (fun _ v => LeavesTold es w H (Q.raise c e) v) (w, l) := by
  by_cases hc : c
  · simp only [Noted.raise, hc, if_true, Queue.raise]
    exact hS.noteEvent ht he
  · simp only [Noted.raise, hc, if_false, Queue.raise]
    exact wp_pure.2 ⟨hS.leaves, ht⟩

/-! ## Taking an event -/

/-- `next_event` of the dummy of a list with an event. -/
theorem nextEvent (hS : Sim w H Q) {d x : ℤ} {l : List ℤ} (hl : H.queue .event = d :: x :: l) :
    Wp tot (LibShr.nextEvent d) (fun r w' => r = Event.ofCode (H.word (x + EVENT_OFFSET)) ∧
      ∃ e, w' = w.setExt e ∧ Sim w' H Q) w := by
  have hda : d ∈ H.allNodes := Heap.Wf.queue_mem (i := .event) (by simp [hl])
  have hxa : x ∈ H.allNodes := Heap.Wf.queue_mem (i := .event) (by simp [hl])
  obtain ⟨hd₀, -, hdz, -⟩ := hS.inv.node_room hda
  obtain ⟨hx₀, -, hxz, -⟩ := hS.inv.node_room hxa
  have hq := hS.inv.rep.queue .event
  rw [hl] at hq
  have hnext : w.mem d = x := hq.linked.1
  have hval : w.mem (x + 2) = H.word (x + 2) := hS.inv.rep.priv _ (.inr (.inr ⟨x, hxa, .inl rfl⟩))
  have hd' : ¬d = 0 := by omega
  have hx' : ¬x = 0 := by omega
  rw [LibShr.nextEvent, Wp, wp_bind]
  refine hS.wp_insureInRange (by omega) hdz fun e hS₁ hlt hle => ?_
  simp (disch := omega) only [hd', if_false, wp_bind, wp_load, hnext]
  refine hS₁.wp_insureInRange (by omega) hxz fun e' hS₂ hlt' hle' => ?_
  have hroom : x + 3 < e'.cur := (hS₂.inv.node_room hxa).2.2.2 hlt'
  simp (disch := omega) only [hx', if_false, wp_bind, EVENT_OFFSET, wp_load, hval]
  exact wp_pure.2 ⟨rfl, e', rfl, hS₂⟩

/-- The search of `shr_q_event` takes the front event. -/
theorem takeEvent (hS : Sim w H Q) (ha : 512 ≤ a) : Wp tot (LibShr.takeEvent a) (fun r w' =>
    r = Q.events.headD .none ∧ ∃ H', Sim w' H' (if Q.events = [] then Q else { Q with events := Q.events.tail, ids := Q.ids + 1 }) ∧
      Held H H') w := by
  have hq := hS.inv.rep.queue .event
  simp (disch := omega) only [LibShr.takeEvent, Wp, wp_bind, EVENT_HD_CNT, EVENT_HEAD, wp_load]
  rw [wp_iterate]
  simp (disch := omega) only [wp_bind, EVENT_TAIL, wp_load]
  cases hl : H.queue .event with
  | nil => exact absurd hl hq.ne_nil
  | cons d t =>
    rw [hl] at hq
    have hhead : w.mem 120 = d := hq.head
    have hnd : (d :: t).Nodup := hl ▸ hS.inv.wf.queue_nodup .event
    cases t with
    | nil =>
      have hev : Q.events = [] := by
        have h := hS.events
        rw [Heap.events, hl] at h
        exact List.map_eq_nil_iff.1 h.symm
      have he : w.mem 120 = w.mem 110 := (hq.head_eq_tail hnd).2 ⟨d, rfl⟩
      simp only [he, ne_eq, not_true_eq_false, if_false, hev, if_true]
      exact wp_pure.2 ⟨rfl, H, hS, .refl⟩
    | cons x l =>
      have hda : d ∈ H.allNodes := Heap.Wf.queue_mem (i := .event) (by simp [hl])
      obtain ⟨hd₀, -, hdz, -⟩ := hS.inv.node_room hda
      have he : ¬d = w.mem 110 := by
        intro he
        obtain ⟨y, hy⟩ := (hq.head_eq_tail hnd).1 (hhead.trans he)
        simp at hy
      simp only [hhead, ne_eq, he, not_false_eq_true, if_true, wp_bind]
      refine wp_mono ?_ (hS.nextEvent hl)
      rintro r w₁ ⟨rfl, e, rfl, hS₁⟩
      obtain ⟨ev, es, hQ, hev, hwp⟩ := hS₁.unlinkEvent hl
      refine wp_mono ?_ hwp
      rintro r w₂ ⟨hr, hlt, hS₂⟩
      have hr' : ¬r = 0 := by omega
      simp only [hr', not_false_eq_true, if_true, wp_bind]
      refine wp_mono ?_ (hS₂.freeNode (N := H.nodes) rfl hlt)
      rintro _ w₃ ⟨hS₃, -⟩
      simp only [hev, Event.ofCode_code, hQ, reduceCtorEq, if_false, List.tail_cons, List.headD_cons]
      refine wp_pure.2 ⟨rfl, _, hS₃, ⟨rfl, zero_add _, List.prefix_refl _⟩, fun _ _ _ _ _ => rfl, ?_, rfl, rfl⟩
      exact (Heap.link_fifo_ne (by decide)).trans (Heap.unlink_fifo_ne (by decide))

end Sim

end

end LibShr
