import LibShr.Seq.Effects

/-!
# What the queue does besides moving items

Events, signals, time stamps, guards and the release of old extents. `Harmless p` says that `p` leaves
the items and the counts alone in whatever state it runs; it is proved once for each such function,
from the rules for its parts.
-/

namespace LibShr

open Prog

/-- A run from `w` to `w'` that leaves the items alone; where a call to the system failed it may have
dropped free nodes. -/
structure Aside (env : Prop) (w w' : World) (H H' : Heap) : Prop where
  step : Step env w w' H'
  gave : ∃ ns, Gave H H' ns 0 ∧ (env → ns = 0)

/-- Whenever `p` is run, it leaves the items alone. -/
def Harmless (tot env : Prop) {α : Type} (p : M α) : Prop :=
  ∀ w H, Inv env w H → Wp tot p (fun _ w' => ∃ H', Aside env w w' H H') w

/-- The mapping calls an event needs will succeed: the first free node, and the last node of the event
list if the free node is not itself the last one mapped. -/
def EventOk (w : World) : Prop :=
  CanMap w.mem w.ext (w.mem FREE_HEAD) ∧
    (w.mem FREE_HEAD + 4 < w.ext.cur → CanMap w.mem w.ext (w.mem EVENT_TAIL))

section
variable {tot env : Prop} {w w' w'' : World} {H H' H'' : Heap} {α β : Type} {a s : ℤ}

theorem Aside.refl (hI : Inv env w H) : Aside env w w H H := ⟨.refl hI, 0, .refl, fun _ => rfl⟩

theorem Aside.trans (hI : Inv env w H) (h₁ : Aside env w w' H H') (h₂ : Aside env w' w'' H' H'') :
    Aside env w w'' H H'' := by
  obtain ⟨hs₁, ns₁, hg₁, he₁⟩ := h₁
  obtain ⟨hs₂, ns₂, hg₂, he₂⟩ := h₂
  refine ⟨hs₁.trans hs₂, ns₂ + ns₁, ?_, fun h => by rw [he₁ h, he₂ h, add_zero]⟩
  have := hg₁.trans hg₂ hI.wf
  rwa [add_zero] at this

/-- Nothing of the heap has changed. -/
theorem Aside.of_eq (hI : Inv env w H) (hm : w'.mem = w.mem) (he : w'.ext = w.ext)
    (hs : ∀ s, s ≠ .evnt → w'.sem s = w.sem s) (hl : w'.malloc = w.malloc) : Aside env w w' H H :=
  ⟨.of_eq hI hm he hs hl, 0, .refl, fun _ => rfl⟩

/-- Writing to settings items do not depend on, the mode bits apart. -/
theorem Aside.settings (hI : Inv env w H) {m : ℤ → ℤ} (hsame : ∀ a, a ∉ LibShr.settings → m a = w.mem a)
    (hst : ∀ a ∈ steady, m a = w.mem a)
    (hf : Int.land (m 9) 2 = Int.land (w.mem 9) 2 ∧ Int.land (m 9) 4 = Int.land (w.mem 9) 4) :
    Aside env w (w.setMem m) H (H.adopt m 0 164) := by
  have hword : ∀ a ∈ LibShr.settings, w.mem a = H.word a := fun a ha => hI.rep.priv a (.inl ha)
  refine ⟨⟨hI.settings hsame, le_refl _, (hsame 2 (by decide)).ge, fun _ _ => rfl, rfl⟩, 0, ?_, fun _ => rfl⟩
  refine Heap.gave_settings hI.wf (fun a ha => (hst a ha).trans (hword a (Heap.steady_settings ha))) ?_
  rw [← hword 9 (by decide)]
  exact hf

/-- A new time stamp in the header. -/
theorem Aside.stamp (hI : Inv env w H) {x y : ℤ} (hs : s = 114 ∨ s = 126) :
    Aside env w (w.setMem (setSlot (setSlot w.mem s x) (s + 1) y)) H
      (H.adopt (setSlot (setSlot w.mem s x) (s + 1) y) 0 164) := by
  have hsame : ∀ z, z ≠ s → z ≠ s + 1 → setSlot (setSlot w.mem s x) (s + 1) y z = w.mem z := by
    intro z h h'
    rw [setSlot_ne _ _ h', setSlot_ne _ _ h]
  have hset : s ∈ LibShr.settings ∧ s + 1 ∈ LibShr.settings := by rcases hs with rfl | rfl <;> decide
  have hst : s ∉ steady ∧ s + 1 ∉ steady := by rcases hs with rfl | rfl <;> decide
  refine Aside.settings hI (fun z hz => hsame z ?_ ?_) (fun z hz => hsame z ?_ ?_) ?_
  · exact fun h => hz (h ▸ hset.1)
  · exact fun h => hz (h ▸ hset.2)
  · exact fun h => hst.1 (h ▸ hz)
  · exact fun h => hst.2 (h ▸ hz)
  · rw [hsame 9 (by omega) (by omega)]
    exact ⟨rfl, rfl⟩

namespace Harmless

theorem pure (x : α) : Harmless tot env (Pure.pure x : M α) := fun _ H hI => wp_pure.2 ⟨H, .refl hI⟩

theorem bind {p : M α} {f : α → M β} (hp : Harmless tot env p) (hf : ∀ x, Harmless tot env (f x)) :
    Harmless tot env (p >>= f) := by
  intro w H hI
  rw [Wp, wp_bind]
  refine wp_mono ?_ (hp w H hI)
  rintro x w' ⟨H', ha⟩
  refine wp_mono ?_ (hf x w' H' ha.step.inv)
  rintro y w'' ⟨H'', hb⟩
  exact ⟨H'', ha.trans hI hb⟩

theorem ite {c : Prop} [Decidable c] {p q : M α} (hp : Harmless tot env p) (hq : Harmless tot env q) :
    Harmless tot env (if c then p else q) := by
  split
  · exact hp
  · exact hq

/-- An operation that answers without touching the heap. -/
theorem of_eq {p : M α} (hp : ∀ w, Wp tot p (fun _ w' => w'.mem = w.mem ∧ w'.ext = w.ext ∧
    (∀ s, s ≠ .evnt → w'.sem s = w.sem s) ∧ w'.malloc = w.malloc) w) : Harmless tot env p := fun w H hI =>
  wp_mono (fun _ _ ⟨hm, he, hs, hl⟩ => ⟨H, .of_eq hI hm he hs hl⟩) (hp w)

theorem load (h₀ : 0 ≤ s) (h₁ : s < a) : Harmless tot env (LibShr.load a s) :=
  of_eq fun _ => (wp_load h₀ h₁).2 ⟨rfl, rfl, fun _ _ => rfl, rfl⟩

theorem clock : Harmless tot env LibShr.clock := of_eq fun _ => wp_clock.2 ⟨rfl, rfl, fun _ _ => rfl, rfl⟩

theorem sigqueue (p s v : ℤ) : Harmless tot env (LibShr.sigqueue p s v) :=
  of_eq fun _ => wp_sigqueue.2 ⟨rfl, rfl, fun _ _ => rfl, rfl⟩

theorem semGetvalue (x : Sem) : Harmless tot env (LibShr.semGetvalue x) :=
  of_eq fun _ => wp_semGetvalue.2 ⟨rfl, rfl, fun _ _ => rfl, rfl⟩

theorem guardQMemory : Harmless tot env LibShr.guardQMemory :=
  of_eq fun _ => wp_guardQMemory.2 ⟨rfl, rfl, fun _ _ => rfl, rfl⟩

theorem unguardQMemory : Harmless tot env LibShr.unguardQMemory :=
  of_eq fun _ => wp_unguardQMemory.2 ⟨rfl, rfl, fun _ _ => rfl, rfl⟩

/-- The current extent holds the whole header. -/
theorem current {f : ℤ → M α} (hf : ∀ a, 512 ≤ a → Harmless tot env (f a)) :
    Harmless tot env (LibShr.current >>= f) := by
  intro w H hI
  rw [Wp, wp_bind]
  exact wp_current.2 (hf _ hI.geo.cur_pos w H hI)

theorem releasePrevExtents : Harmless tot env LibShr.releasePrevExtents := by
  intro w H hI
  have hcur : (w.ext.release w.accessors).cur = w.ext.cur := by
    simp only [Mapping.release]
    split <;> rfl
  have hg : Grown env w.mem w.ext w.mem (w.ext.release w.accessors) := by
    refine ⟨?_, hcur.ge, le_refl _, fun _ _ _ => rfl⟩
    simp only [Mapping.release]
    split
    · exact hI.geo
    · exact { hI.geo with }
  exact wp_releasePrevExtents.2 ⟨H, Step.grown hI hg, 0, .refl, fun _ => rfl⟩

theorem loadTimespec (h₀ : 0 ≤ s) (h₁ : s + 1 < a) : Harmless tot env (LibShr.loadTimespec a s) :=
  (load h₀ (by omega)).bind fun _ => (load (by omega) h₁).bind fun _ => pure _

end Harmless

/-! ## Flags -/

theorem wp_setFlag {f : ℤ} {Q : Bool → World → Prop} (ha : 9 < a) :
    Wp tot (setFlag a f) Q w ↔
      if Int.land (w.mem 9) f = 0 then Q true (w.setMem (setSlot w.mem 9 (Int.lor (w.mem 9) f))) else Q false w := by
  simp (disch := omega) only [setFlag, wp_bind, FLAGS, wp_load]
  rw [wp_iterate]
  by_cases h : Int.land (w.mem 9) f = 0
  · simp (disch := omega) only [h, if_true, wp_bind, wp_cas, wp_pure, Sum.elim_inr]
  · simp only [h, if_false, wp_pure, Sum.elim_inr]

theorem wp_clearFlag {f : ℤ} {Q : Bool → World → Prop} (ha : 9 < a) :
    Wp tot (clearFlag a f) Q w ↔
      if Int.land (w.mem 9) f = 0 then Q false w
      else Q true (w.setMem (setSlot w.mem 9 (Int.land (w.mem 9) (Int.lnot f)))) := by
  simp (disch := omega) only [clearFlag, wp_bind, FLAGS, wp_load]
  rw [wp_iterate]
  by_cases h : Int.land (w.mem 9) f = 0
  · simp only [h, ne_eq, not_true_eq_false, if_false, if_true, wp_pure, Sum.elim_inr]
  · simp (disch := omega) only [ne_eq, h, not_false_eq_true, if_true, if_false, wp_bind, wp_cas, wp_pure, Sum.elim_inr]

/-- A new value of `FLAGS` with the same mode bits. -/
theorem Aside.flags (hI : Inv env w H) {f : ℤ} (h₂ : Int.land f 2 = Int.land (w.mem 9) 2)
    (h₄ : Int.land f 4 = Int.land (w.mem 9) 4) :
    Aside env w (w.setMem (setSlot w.mem 9 f)) H (H.adopt (setSlot w.mem 9 f) 0 164) := by
  refine Aside.settings hI (fun x hx => setSlot_ne _ _ ?_) (fun x hx => setSlot_ne _ _ ?_) ?_
  · rintro rfl
    exact hx (by decide)
  · rintro rfl
    exact absurd hx (by decide)
  · rw [setSlot_same]
    exact ⟨h₂, h₄⟩

theorem Harmless.setFlag {f : ℤ} (ha : 512 ≤ a) (h₂ : Int.land f 2 = 0) (h₄ : Int.land f 4 = 0) :
    Harmless tot env (LibShr.setFlag a f) := by
  intro w H hI
  refine (wp_setFlag (by omega)).2 ?_
  split
  · exact ⟨_, .flags hI (Bits.land_set h₂) (Bits.land_set h₄)⟩
  · exact ⟨H, .refl hI⟩

theorem Harmless.clearFlag {f : ℤ} (ha : 512 ≤ a) (h₂ : Int.land f 2 = 0) (h₄ : Int.land f 4 = 0) :
    Harmless tot env (LibShr.clearFlag a f) := by
  intro w H hI
  refine (wp_clearFlag (by omega)).2 ?_
  split
  · exact ⟨H, .refl hI⟩
  · exact ⟨_, .flags hI (Bits.land_clear h₂) (Bits.land_clear h₄)⟩

/-! ## Events -/

theorem getEventFlag_modes (e : Event) : Int.land (getEventFlag e) 2 = 0 ∧ Int.land (getEventFlag e) 4 = 0 := by
  cases e <;> decide

/-- The tail of the event list after a node was taken can be mapped where it could before. -/
theorem event_tail_canMap (hI : Inv env w H) (hI' : Inv env w' H') (hev : H'.queue .event = H.queue .event) {v : View}
    (hext : NodeExtents w w' H v) (hlt : v.slot + 4 < w'.ext.cur) (hok : EventOk w) :
    CanMap w'.mem w'.ext (w'.mem 110) := by
  have hq := hI.rep.queue .event
  have hq' := hI'.rep.queue .event
  rw [hev] at hq'
  have htail : w'.mem 110 = w.mem 110 := Option.some.inj (hq'.last.symm.trans hq.last)
  have hb := hI.wf.node_bounds (Heap.Wf.queue_mem hq.tail_mem)
  rw [htail]
  rcases hext with ⟨hext, hsz⟩ | ⟨hslot, -⟩
  · by_cases hfar : w.mem FREE_HEAD + 4 < w.ext.cur
    · rw [hext, Mapping.see_of (.inl hfar)]
      exact (hok.2 hfar).congr hsz
    · refine .inr (.inl ?_)
      rw [hext, hsz]
      exact Mapping.see_cur hfar
  · -- a carved node lies behind all others
    have ht : w.mem QId.event.tail = w.mem 110 := rfl
    exact .inl (by omega)

/-- Conversely, a call that has mapped the tail could do so before. -/
theorem eventOk_of_canMap (hI : Inv env w H) (hI' : Inv env w' H') (hev : H'.queue .event = H.queue .event) {v : View}
    (hext : NodeExtents w w' H v) (hd : CanMap w.mem w.ext (w.mem FREE_HEAD)) (hc : CanMap w'.mem w'.ext (w'.mem 110))
    (hfree : 2 ≤ (H.queue .free).length) : EventOk w := by
  have hq := hI.rep.queue .event
  have hq' := hI'.rep.queue .event
  rw [hev] at hq'
  have htail : w'.mem 110 = w.mem 110 := Option.some.inj (hq'.last.symm.trans hq.last)
  refine ⟨hd, fun hfar => ?_⟩
  rcases hext with ⟨hext, hsz⟩ | ⟨-, hfar'⟩
  · rw [hext, Mapping.see_of (.inl hfar), htail] at hc
    exact hc.congr hsz.symm
  · have := hfar' hfree
    omega

/-- Linking a node taken for an event. -/
theorem Gave.link_event {ns : Multiset ℤ} {m : ℤ → ℤ} {n : ℤ} (hg : Gave H H' ({n} + ns) 0) (hw : H.Wf) (hw' : H'.Wf) :
    Gave H ((H'.adopt m (n + 2) (n + 3)).link .event n (ns + H.nodes) H'.blocks) ns 0 where
  item := by
    rw [← hg.item]
    exact Function.update_of_ne (show QId.item ≠ .event by decide) (H'.queue .event ++ [n]) H'.queue
  lifo := hg.lifo
  nodes := rfl
  blocks := hg.blocks
  modes := by
    have hb := hw'.node_bounds (x := n) (Heap.Wf.held_mem (by rw [hg.nodes]; simp))
    have h₉ : (H'.adopt m (n + 2) (n + 3)).word 9 = H'.word 9 := Heap.word_adopt_ne _ (by omega)
    rw [← hg.modes]
    show (Int.land ((H'.adopt m (n + 2) (n + 3)).word 9) 2, Int.land ((H'.adopt m (n + 2) (n + 3)).word 9) 4) = _
    rw [h₉]
    rfl
  word := fun x hx => by
    have := hg.core_ne_node hw hw' (n := n) (by simp) hx
    rw [← hg.word x hx]
    exact Heap.word_adopt_ne _ (by omega)

/-- Once a node is taken, it gets its event and is linked. -/
theorem wp_linkEvent (hI : Inv env w H) (hI' : Inv env w' H') (e : Event) {v : View} {lost : Multiset ℤ}
    (hg : Gave H H' ({v.slot} + lost) 0) (hlt : v.slot + 4 < v.extent) (he : v.extent = w'.ext.cur)
    (ht : tot → CanMap w'.mem w'.ext (w'.mem 110)) {Q : World → Prop}
    (hQ : ∀ w'' H'', Step env w' w'' H'' → Gave H H'' lost 0 → CanMap w'.mem w'.ext (w'.mem 110) → Q w'') :
    Wp tot (store v.extent (v.slot + EVENT_OFFSET) e.code) (fun _ w₁ => Wp tot (addEnd v.slot EVENT_TAIL)
      (fun _ w₂ => Wp tot (semPost .evnt) (fun _ w₃ => Q w₃) w₂) w₁) w' := by
  have hvn : v.slot ∈ H'.nodes := by rw [hg.nodes]; simp
  have h₁₆₄ := (hI'.wf.node_bounds (Heap.Wf.held_mem hvn)).1
  simp (disch := omega) only [EVENT_OFFSET, wp_store]
  have hI₂ := hI'.writeNode (n := v.slot) (a := v.slot + 2) (b := v.slot + 3) (m := setSlot w'.mem (v.slot + 2) e.code)
    hvn (by omega) (by omega) fun c hc => setSlot_ne _ _ (by omega)
  generalize hm : setSlot w'.mem (v.slot + 2) e.code = m at hI₂ ⊢
  have hlow : ∀ x, x < 164 → m x = w'.mem x := fun x hx => by rw [← hm, setSlot_ne _ _ (by omega)]
  have h₁₁₀ : m QId.event.tail = w'.mem 110 := hlow 110 (by decide)
  have hnodes : (H'.adopt m (v.slot + 2) (v.slot + 3)).nodes = v.slot ::ₘ (lost + H.nodes) := by
    show H'.nodes = _
    rw [hg.nodes, add_assoc, Multiset.singleton_add]
  refine wp_mono ?_ (addEnd_spec hI₂ .event hnodes (B := H'.blocks) (by simp [QId.carry]; rfl)
    (by show v.slot < w'.ext.cur; omega) fun h => (h₁₁₀ ▸ ht h).congr (hlow 2 (by decide)))
  rintro _ w₃ ⟨hs, -⟩
  refine wp_semPost.2 ?_
  have hs₁ : Step env w' (w'.setMem m) (H'.adopt m (v.slot + 2) (v.slot + 3)) :=
    ⟨hI₂, le_refl _, (hlow 2 (by decide)).ge, fun _ _ => rfl, rfl⟩
  have hs₂ := hs₁.trans hs.toStep
  refine hQ _ _ (hs₂.trans (.of_eq hs₂.inv rfl rfl (fun s hs => Function.update_of_ne hs _ _) rfl))
    (hg.link_event hI.wf hI'.wf) ?_
  have hc := hs.can
  simp only [World.mem_setMem, World.ext_setMem, h₁₁₀] at hc
  exact hc.congr (hlow 2 (by decide)).symm

/-- **`add_event`** leaves the items alone. It does nothing unless the event is subscribed; if it is, and
a node is free, the call returns only where the nodes it touches can be mapped. -/
theorem addEvent_spec (hI : Inv env w H) {e : Event} (he : e ≠ .none)
    (hok : tot → Int.land (w.mem 9) (getEventFlag e) ≠ 0 → EventOk w) :
    Wp tot (addEvent e) (fun _ w' => ∃ H', Aside env w w' H H' ∧
      (Int.land (w.mem 9) (getEventFlag e) ≠ 0 → 2 ≤ (H.queue .free).length → EventOk w)) w := by
  have hcur := hI.geo.cur_pos
  have hmode := getEventFlag_modes e
  simp (disch := omega) only [addEvent, wp_bind, wp_current, wp_ite, eventDisabled, FLAGS, wp_load, wp_pure,
    decide_eq_true_eq, he, if_false]
  split
  · rename_i h
    exact ⟨H, .refl hI, fun hne => absurd h hne⟩
  rename_i hne
  simp (disch := omega) only [wp_load, wp_cas, if_true, Bool.not_true, Bool.false_eq_true, if_false]
  -- the subscription is cleared, then a node is taken
  have hfl := Aside.flags (f := Int.land (w.mem 9) (Int.lnot (getEventFlag e))) hI (Bits.land_clear hmode.1)
    (Bits.land_clear hmode.2)
  generalize hm : setSlot w.mem 9 (Int.land (w.mem 9) (Int.lnot (getEventFlag e))) = m₁ at hfl ⊢
  have hsame : ∀ x, x ≠ 9 → m₁ x = w.mem x := fun x hx => by rw [← hm, setSlot_ne _ _ hx]
  have hI₁ := hfl.step.inv
  have hok_iff : EventOk (w.setMem m₁) ↔ EventOk w := by
    have h₂ : m₁ 2 = w.mem 2 := hsame 2 (by decide)
    simp only [EventOk, CanMap, FREE_HEAD, EVENT_TAIL, h₂, hsame 4 (by decide), hsame 110 (by decide)]
  refine wp_mono ?_ (allocIdxSlots_gave hI₁ fun ht => (hok_iff.2 (hok ht hne)).1)
  rintro v w₂ ⟨H₂, lost, hs₂, hcan, hlost, hres⟩
  obtain ⟨ns, hg₁, hns⟩ := hfl.gave
  rcases hres with ⟨hg₂, hev, h₁₆₄, hlt, hve, hext⟩ | ⟨henv, hv, hg₂, hnear⟩
  · rw [if_neg (by omega)]
    refine wp_linkEvent hI₁ hs₂.inv e hg₂ hlt hve (fun ht =>
      event_tail_canMap hI₁ hs₂.inv hev hext (hve ▸ hlt) (hok_iff.2 (hok ht hne))) fun w₃ H₃ hs₃ hg₃ hc => ?_
    refine ⟨H₃, ⟨(hfl.step.trans hs₂).trans hs₃, lost + ns, ?_, fun h => ?_⟩, fun _ hfree => ?_⟩
    · have := hg₁.trans hg₃ hI.wf
      rwa [add_zero] at this
    · rcases hlost with rfl | ⟨d, rfl, x, l, hl, hlt, hc⟩
      · rw [hns h, add_zero]
      · exact absurd (hI₁.geo.canMap h _) hc
    · exact hok_iff.1 (eventOk_of_canMap hI₁ hs₂.inv hev hext (hcan hfree) hc hfree)
  · rw [if_pos hv]
    refine ⟨H₂, ⟨hfl.step.trans hs₂, lost + ns, ?_, fun h => absurd h henv⟩, fun _ hfree => ?_⟩
    · have := hg₁.trans hg₂ hI.wf
      rwa [add_zero] at this
    · refine hok_iff.1 ⟨hcan hfree, fun hfar => ?_⟩
      have := hnear hfree
      omega

/-! ## The other functions -/

namespace Harmless

theorem isRegistered {signal pid : ℤ} (h₀ : 0 ≤ signal ∧ signal < a) (h₁ : 0 ≤ pid ∧ pid < a) :
    Harmless tot env (LibShr.isRegistered a signal pid) :=
  (load h₀.1 h₀.2).bind fun _ => (pure _).ite ((load h₁.1 h₁.2).bind fun _ => pure _)

theorem signalRegistered {pid signal : ℤ} (h₀ : 0 ≤ pid ∧ pid < 512) (h₁ : 0 ≤ signal ∧ signal < 512) :
    Harmless tot env (LibShr.signalRegistered pid signal) := by
  refine current fun _ _ => (load h₀.1 (by omega)).bind fun _ => (pure _).ite ?_
  refine current fun _ _ => (load h₁.1 (by omega)).bind fun _ => (pure _).ite ?_
  refine current fun _ _ => (load h₀.1 (by omega)).bind fun _ => ?_
  exact current fun _ _ => (load h₁.1 (by omega)).bind fun _ => sigqueue _ _ _

theorem signalArrival : Harmless tot env LibShr.signalArrival := by
  refine current fun _ _ => (load (by decide) (by simp only [LISTEN_SIGNAL]; omega)).bind fun _ => (pure _).ite ?_
  refine current fun _ _ => (load (by decide) (by simp only [LISTEN_PID]; omega)).bind fun _ => (pure _).ite ?_
  refine (semGetvalue _).bind fun _ => ite ?_ (pure _)
  refine current fun _ _ => (load (by decide) (by simp only [LISTEN_PID]; omega)).bind fun _ => ?_
  exact current fun _ _ => (load (by decide) (by simp only [LISTEN_SIGNAL]; omega)).bind fun _ => sigqueue _ _ _

theorem isSet {nsec sec : ℤ} (h₀ : 0 ≤ nsec ∧ nsec < a) (h₁ : 0 ≤ sec ∧ sec < a) :
    Harmless tot env (LibShr.isSet a nsec sec) :=
  (load h₀.1 h₀.2).bind fun _ => (pure _).ite ((load h₁.1 h₁.2).bind fun _ => pure _)

theorem isCodelActive (ha : 512 ≤ a) : Harmless tot env (LibShr.isCodelActive a) := by
  refine (isSet ⟨by decide, by simp only [TARGET_NSEC]; omega⟩ ⟨by decide, by simp only [TARGET_SEC]; omega⟩).bind
    fun _ => (pure _).ite ?_
  exact isSet ⟨by decide, by simp only [LIMIT_NSEC]; omega⟩ ⟨by decide, by simp only [LIMIT_SEC]; omega⟩

theorem isDiscardOnExpire (ha : 512 ≤ a) : Harmless tot env (LibShr.isDiscardOnExpire a) :=
  (load (by decide) (by simp only [FLAGS]; omega)).bind fun _ => pure _

/-- Setting a time stamp read just before, as alone no second round is needed. -/
theorem stampLoop {σ : Type} {body : Timespec → M (Timespec ⊕ σ)} {c : Timespec → Prop} [DecidablePred c]
    {new : DWORD} {x : σ} (hs : s = 114 ∨ s = 126) (ha : 512 ≤ a)
    (hb : ∀ last, body last = if c last then do
        if ← dwcas .stamp a s last.toDWORD new then return .inr x
        return .inl (← LibShr.loadTimespec a s)
      else return .inr x) :
    Harmless tot env (LibShr.loadTimespec a s >>= iterate body) := by
  intro w H hI
  simp (disch := omega) only [Wp, LibShr.loadTimespec, wp_bind, wp_load, wp_pure]
  rw [wp_iterate, hb]
  by_cases hc : c ⟨w.mem s, w.mem (s + 1)⟩
  · rw [if_pos hc, wp_bind]
    refine (wp_dwcas (by omega) (by omega) (by omega)).2 ?_
    rw [if_pos ⟨rfl, rfl⟩]
    exact wp_pure.2 ⟨_, .stamp hI hs⟩
  · rw [if_neg hc]
    exact wp_pure.2 ⟨H, .refl hI⟩

theorem updateEmptyTimestamp (ha : 512 ≤ a) : Harmless tot env (LibShr.updateEmptyTimestamp a) :=
  clock.bind fun now => stampLoop (.inr rfl) ha fun last => by
    congr

theorem clearEmptyTimestamp (ha : 512 ≤ a) : Harmless tot env (LibShr.clearEmptyTimestamp a) :=
  stampLoop (c := fun _ => True) (.inr rfl) ha fun last => (if_pos trivial).symm

/-- An event, where no call to the system fails. -/
theorem addEvent (hte : tot → env) {e : Event} (he : e ≠ .none) : Harmless tot env (LibShr.addEvent e) :=
  fun _ _ hI => wp_mono (fun _ _ ⟨H', h, _⟩ => ⟨H', h⟩) (addEvent_spec hI he fun ht _ =>
    ⟨hI.geo.canMap (hte ht) _, fun _ => hI.geo.canMap (hte ht) _⟩)

theorem checkForLevelEvent (hte : tot → env) : Harmless tot env LibShr.checkForLevelEvent := by
  refine current fun a ha => (load (by decide) (by simp only [LEVEL]; omega)).bind fun _ => (pure _).ite ?_
  refine ((load (by decide) (by simp only [FLAGS]; omega)).bind fun _ => pure _).bind fun _ => (pure _).ite ?_
  refine (load (by decide) (by simp only [COUNT]; omega)).bind fun _ => ite ?_ (pure _)
  exact (addEvent hte (by decide)).bind fun _ => (signalRegistered (by decide) (by decide)).ite (pure _)

end Harmless

end

end LibShr
