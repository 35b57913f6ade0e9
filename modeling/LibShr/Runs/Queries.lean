import LibShr.Model.Queries
import LibShr.Runs.Discards
import LibShr.Spec.Flags

/-!
# What the queries tell

The functions that only ask, after any history. The modes are those that were set last, and the time that
`shr_q_last_empty` stores is that of the last add that found the queue empty. Besides, `shr_q_event_timedwait` finds
what `shr_q_event` finds.
-/

namespace LibShr

open Prog

/-- What was seen of the settings from outside: the two modes as they were set last, and the time. -/
structure Memo where
  discards : Bool
  lifo : Bool
  watch : Watch

/-- A call is noted; one without a handle sets nothing. -/
def noteMemo (w : World) (e : Made) (w' : World) (g : Memo) : Memo where
  discards := match e.call with
    | .discard b => if e.caller.q = none then g.discards else b
    | .targetDelay .. => if e.caller.q = none then g.discards else true
    | _ => g.discards
  lifo := match e.call with
    | .limitLifo b => if e.caller.q = none then g.lifo else b
    | _ => g.lifo
  watch := noteWatch w e w' g.watch

/-- A call during which the clock stands still, and before which it did not go back. -/
def Remembered (s : World × Memo) (e : Made) (s' : World × Memo) : Prop :=
  Recorded noteMemo s e s' ∧ Steady s.2.watch.now e.caller.clock (e.caller.clock 0)

def Memo.start : Memo := ⟨false, false, .start⟩

namespace Queue

variable {Q Q' : Queue} {q : Option ShrQ} {c : Call} {a : Answer} {f : ℤ}

def mode (Q : Queue) (f : ℤ) : Bool := Int.land Q.hdr.flags f ≠ 0

/-- A mode changes only by the calls that set it, as adding, removing and cleaning set none. -/
theorem step_mode_kept (hn : Q.hdr.count = Q.items.length) (hf : f ∈ [FLAG_DISCARD_EXPIRED, FLAG_LIFO_ON_LEVEL]) (hset : ¬c.Sets f)
    (h : Q.step q c = some (a, Q')) : Q'.mode f = Q.mode f := by
  unfold mode
  by_cases hc : c.moves = true
  · obtain ⟨δ, hch, -⟩ := step_change hn hc h
    rw [hch.modes f hf]
  · rw [Bool.not_eq_true] at hc
    rw [step_modes hc (List.mem_cons_of_mem _ hf) hset h]

/-- A flag that is switched shows the switch. -/
theorem mode_switched {b : Bool} (hf : f ≠ 0) : (if b then Q.setFlag f else Q.clearFlag f).mode f = b := by
  unfold mode
  cases b with
  | true => exact decide_eq_true (land_setFlag_self hf)
  | false => exact decide_eq_false (not_not.2 land_clearFlag_self)

/-- A call with a handle switches. -/
theorem handled_mode {ok : Bool} {Q₁ : Queue} {b : Bool} (hok : ok = true) (h : Q.handled q ok Q₁ = some (a, Q')) (hmode : Q₁.mode f = b) :
    Q'.mode f = if q = none then Q.mode f else b := by
  rcases handled_cases h with ⟨hq, -, -, rfl⟩ | ⟨hq, -, rfl⟩
  · rw [if_neg (Option.isSome_iff_ne_none.1 hq)]
    exact hmode
  · rw [hok, Bool.and_true, Option.isSome_eq_false_iff, Option.isNone_iff_eq_none] at hq
    rw [if_pos hq]

/-- The header knows what was set. -/
structure Knows (Q : Queue) (g : Memo) : Prop where
  discards : Q.mode FLAG_DISCARD_EXPIRED = g.discards
  lifo : Q.mode FLAG_LIFO_ON_LEVEL = g.lifo
  since : Q.Since g.watch

end Queue

section
variable {w w' w₀ : World} {H : Heap} {Q Q' : Queue} {e : Made} {es : List Made} {depth : ℤ} {g : Memo} {p : Caller}

theorem Queue.Knows.start {ids : ℤ} {clock : ℕ → Timespec} : (Queue.start depth ids clock).Knows .start := ⟨rfl, rfl, .start⟩

/-- **A step**: the header keeps knowing. -/
theorem knows_noted (hR : Represents w Q) (hs : Q.Sane) (hk : Q.Knows g) (hd : Q.Did e Q')
    (ht : Steady g.watch.now e.caller.clock (e.caller.clock 0)) : Q'.Knows (noteMemo w e w' g) := by
  have hsince : Q'.Since (noteWatch w e w' g.watch) := since_clocked hR hs hk.since hd ht
  obtain ⟨a, ha, -⟩ := hd
  have hkept : ∀ f ∈ [FLAG_DISCARD_EXPIRED, FLAG_LIFO_ON_LEVEL], ¬e.call.Sets f → Q'.mode f = Q.mode f := fun f hf hset =>
    Queue.step_mode_kept (Q := Q.reading e.caller.clock) hs.count hf hset ha
  refine ⟨?_, ?_, hsince⟩
  · unfold noteMemo
    dsimp only
    rw [← hk.discards]
    generalize e.call = c at ha hkept
    cases c with
    | discard b => exact Queue.handled_mode (Q := Q.reading e.caller.clock) rfl ha (Queue.mode_switched (by decide))
    | targetDelay s n =>
      exact Queue.handled_mode (Q := Q.reading e.caller.clock) rfl ha (decide_eq_true (Queue.land_setFlag_self (by decide)))
    | _ => exact hkept _ (by decide) (by simp [Call.Sets])
  · unfold noteMemo
    dsimp only
    rw [← hk.lifo]
    generalize e.call = c at ha hkept
    cases c with
    | limitLifo b => exact Queue.handled_mode (Q := Q.reading e.caller.clock) rfl ha (Queue.mode_switched (by decide))
    | _ => exact hkept _ (by decide) (by simp [Call.Sets])

/-- **A history**: what was set is in the header. -/
theorem knows_reached (hw : Created depth w₀) (h : Trace Remembered (w₀, .start) es (w, g)) : ∃ Q, Represents w Q ∧ Q.Sane ∧ Q.Knows g := by
  have hI := h.invariant (fun s => ∃ Q, Represents s.1 Q ∧ Q.Sane ∧ Q.Knows s.2) ?_ ?_
  · exact hI
  · rintro ⟨w, g⟩ e ⟨w', g'⟩ ⟨Q, hR, hs, hk⟩ ⟨⟨hran, hg⟩, ht⟩
    obtain ⟨Q', hd, hR'⟩ := hR.ran hran
    dsimp only at hg
    subst hg
    have hk' : Q'.Knows (noteMemo w e w' g) := knows_noted hR hs hk hd ht
    exact ⟨Q', hR', hd.sane hs, hk'⟩
  · obtain ⟨ids, clock, hR⟩ := hw.represents
    exact ⟨_, hR, Queue.start_sane depth ids clock, .start⟩

/-! ## The functions -/

namespace Sim

/-- The answer is read from one header slot, and nothing changes. -/
theorem wp_ask {α β : Type} {R : β → World → Prop} (hS : Sim w H Q) (slot : ℤ) (read : ℤ → α) (out : α → β) (h₀ : 0 ≤ slot) (h₁ : slot < 512)
    (hR : ∀ w', Still w w' → R (out (read (w.mem slot))) w') :
    Wp True (do
      guardQMemory
      let result ← (do return read (← load (← current) slot))
      unguardQMemory
      return out result) R w := by
  have hcur := hS.cur
  rw [Wp, wp_bind]
  refine wp_mono ?_ (Mute.guardQMemory w hcur)
  intro _ w₁ h₁w
  have hcur₁ : 512 ≤ w₁.ext.cur := by rw [h₁w.ext]; exact hcur
  simp (disch := omega) only [wp_bind, wp_current, wp_load, wp_pure]
  refine wp_mono ?_ (Mute.unguardQMemory w₁ hcur₁)
  intro _ w₂ h₂w
  rw [h₁w.mem]
  exact hR w₂ (h₁w.trans h₂w)

theorem willDiscard (hS : Sim w H Q) (q : ShrQ) :
    Wp True (shrQWillDiscard (some q)) (fun b w' => b = Q.mode FLAG_DISCARD_EXPIRED ∧ Still w w') w := by
  have hf : w.mem FLAGS = Q.hdr.flags := hS.hdr.flags
  refine hS.wp_ask FLAGS (fun x => decide (Int.land x FLAG_DISCARD_EXPIRED ≠ 0)) id (by decide) (by decide) ?_
  intro w' hw
  rw [hf]
  exact ⟨rfl, hw⟩

theorem willLifo (hS : Sim w H Q) (q : ShrQ) :
    Wp True (shrQWillLifo (some q)) (fun b w' => b = Q.mode FLAG_LIFO_ON_LEVEL ∧ Still w w') w := by
  have hf : w.mem FLAGS = Q.hdr.flags := hS.hdr.flags
  refine hS.wp_ask FLAGS (fun x => decide (Int.land x FLAG_LIFO_ON_LEVEL ≠ 0)) id (by decide) (by decide) ?_
  intro w' hw
  rw [hf]
  exact ⟨rfl, hw⟩

/-- `shr_q_last_empty` stores the time in the header, if there are items. -/
theorem lastEmpty (hS : Sim w H Q) (q : ShrQ) : Wp True (shrQLastEmpty (some q) true) (fun r w' =>
    r = (if Q.hdr.count = 0 then (.errEmpty, none) else (.ok, some Q.hdr.empty)) ∧ Still w w') w := by
  have hcur := hS.cur
  rw [shrQLastEmpty, if_neg (by simp), Wp, wp_bind]
  refine wp_mono ?_ (Mute.guardQMemory w hcur)
  intro _ w₁ h₁w
  have hcur₁ : 512 ≤ w₁.ext.cur := by rw [h₁w.ext]; exact hcur
  have hcount : w₁.mem 7 = Q.hdr.count := by rw [h₁w.mem]; exact hS.hdr.count
  have hempty : (⟨w₁.mem 126, w₁.mem 127⟩ : Timespec) = Q.hdr.empty := by rw [h₁w.mem]; exact hS.hdr.empty
  simp (disch := omega) only [wp_bind, wp_current, COUNT, wp_load, wp_ite, hcount]
  by_cases h₀ : Q.hdr.count = 0
  · simp only [h₀, if_true]
    refine wp_mono ?_ (Mute.unguardQMemory w₁ hcur₁)
    intro _ w₂ h₂w
    exact wp_pure.2 ⟨rfl, h₁w.trans h₂w⟩
  · simp (disch := omega) only [h₀, if_false, loadTimespec, EMPTY_SEC, wp_bind, wp_load, wp_pure, Int.reduceAdd, hempty]
    refine wp_mono ?_ (Mute.unguardQMemory w₁ hcur₁)
    intro _ w₂ h₂w
    exact ⟨trivial, h₁w.trans h₂w⟩

/-- `shr_q_event_timedwait` reads the clock, and takes the event that `shr_q_event` takes. -/
theorem eventTimedwait (hS : Sim w H Q) (q : ShrQ) (t : Timespec) : Wp True (shrQEventTimedwait (some q) (some t)) (fun e w' =>
    e = Q.takeEvent.1 ∧ ∃ H', Sim w' H' Q.takeEvent.2.tick) w := by
  rw [shrQEventTimedwait, if_neg (Option.some_ne_none q)]
  refine hS.guarded fun w₁ hS₁ => ?_
  rw [Wp, wp_bind]
  refine wp_current.2 ?_
  rw [wp_bind]
  refine wp_clock.2 ?_
  have hS₂ := hS₁.tick
  have hs : w₁.sem .evnt = Q.sem .evnt := congrFun hS₁.sem _
  rw [wp_iterate, wp_bind]
  refine wp_semTimedwait.2 ?_
  rw [show ({ w₁ with clock := rest w₁.clock } : World).sem .evnt = Q.sem .evnt from hs]
  by_cases hpos : 0 < Q.sem .evnt
  · simp only [hpos, if_true]
    have hS₃ := hS₂.takeToken .evnt
    rw [show ({ w₁ with clock := rest w₁.clock } : World).sem .evnt = Q.sem .evnt from hs] at hS₃
    rw [wp_bind]
    refine wp_mono ?_ (hS₃.takeEvent hS₃.cur)
    rintro e w₄ ⟨rfl, H₄, hS₄, -⟩
    rw [wp_bind]
    refine wp_mono ?_ (Idle.releasePrevExtents w₄ H₄ _ hS₄)
    rintro _ w₅ ⟨H₅, hS₅, -, -⟩
    refine hS₅.unguarded fun w₆ hS₆ => ⟨?_, H₅, ?_⟩
    · cases hev : Q.events <;> simp [Queue.takeEvent, hpos, Queue.down, Queue.tick, hev]
    · cases hev : Q.events <;> simpa [Queue.takeEvent, hpos, Queue.down, Queue.tick, hev] using hS₆
  · simp only [hpos, if_false]
    refine hS₂.unguarded fun w₃ hS₃ => ⟨?_, H, ?_⟩
    · simp only [Queue.takeEvent, hpos, if_false]
    · simpa only [Queue.takeEvent, hpos, if_false] using hS₃

end Sim

/-! ## After any history -/

/-- **The queries tell what was set**, whoever asks, and change nothing. -/
theorem queries_tell (hw : Created depth w₀) (h : Trace Remembered (w₀, .start) es (w, g)) (hp : p.Ok w) (hq : p.q ≠ none) :
    (∃ w', Runs seq (shrQWillDiscard p.q) (p.enter w) g.discards w' ∧ Still (p.enter w) w') ∧
    (∃ w', Runs seq (shrQWillLifo p.q) (p.enter w) g.lifo w' ∧ Still (p.enter w) w') ∧
    ∃ w', Runs seq (shrQLastEmpty p.q true) (p.enter w) (if itemBlocks w.mem = [] then (.errEmpty, none) else (.ok, g.watch.found)) w' ∧
      Still (p.enter w) w' := by
  obtain ⟨Q, hR, hs, hk⟩ := knows_reached hw h
  obtain ⟨H, hS⟩ := id hR
  have hSp := hS.enter hp
  obtain ⟨q, hq⟩ := Option.ne_none_iff_exists'.1 hq
  rw [hq]
  refine ⟨?_, ?_, ?_⟩
  · obtain ⟨b, w', hr, rfl, hw'⟩ := (wp_iff_runs trivial).1 (hSp.willDiscard q)
    exact ⟨w', hk.discards ▸ hr, hw'⟩
  · obtain ⟨b, w', hr, rfl, hw'⟩ := (wp_iff_runs trivial).1 (hSp.willLifo q)
    exact ⟨w', hk.lifo ▸ hr, hw'⟩
  · obtain ⟨r, w', hr, hres, hw'⟩ := (wp_iff_runs trivial).1 (hSp.lastEmpty q)
    refine ⟨w', ?_, hw'⟩
    have hlen : (itemBlocks w.mem).length = Q.items.length := hR.length
    have hcount : Q.hdr.count = Q.items.length := hs.count
    by_cases hnil : itemBlocks w.mem = []
    · rw [hnil, List.length_nil] at hlen
      have h₀ : Q.hdr.count = 0 := by omega
      rw [if_pos hnil]
      rwa [hres, if_pos h₀] at hr
    · have hpos : 0 < (itemBlocks w.mem).length := List.length_pos_iff.2 hnil
      have h₀ : Q.hdr.count ≠ 0 := by omega
      obtain ⟨hfound, -⟩ := hk.since.found (List.length_pos_iff.1 (by omega))
      rw [if_neg hnil, hfound]
      rwa [hres, if_neg h₀] at hr

/-- **Waiting for an event**, for a time whose nanoseconds are less than a second, finds what asking for one finds: the oldest one
pending, which both take; and the queue is the same after it, but for the clock that was read. The deadline is one that `sem_timedwait`
accepts. -/
theorem event_timedwait_agrees (hw : Created depth w₀) {es : List Made} (h : Trace Ran w₀ es w) (hp : p.Ok w) (hq : p.q ≠ none) {t : Timespec}
    (hclock : (p.clock 0).Normal) (ht : t.Normal) :
    (timespecadd (p.clock 0) t).Normal ∧ ∃ Q' w₁ w₂, Runs seq (shrQEvent p.q) (p.enter w) ((pendingEvents w.mem).headD .none) w₁ ∧
      Runs seq (shrQEventTimedwait p.q (some t)) (p.enter w) ((pendingEvents w.mem).headD .none) w₂ ∧
      pendingEvents w₁.mem = (pendingEvents w.mem).tail ∧ Represents w₁ Q' ∧ Represents w₂ Q'.tick := by
  refine ⟨hclock.add ht, ?_⟩
  obtain ⟨Q, hR, hs⟩ := hw.reaches h
  obtain ⟨H, hS⟩ := id hR
  obtain ⟨q, hq⟩ := Option.ne_none_iff_exists'.1 hq
  have hSp := hS.enter hp
  have htake : (Q.reading p.clock).takeEvent.1 = Q.events.headD .none ∧ (Q.reading p.clock).takeEvent.2.events = Q.events.tail := by
    have hsem : (Q.reading p.clock).sem .evnt = Q.events.length := hs.evnt
    have hevents : (Q.reading p.clock).events = Q.events := rfl
    unfold Queue.takeEvent
    rw [hsem]
    cases hev : Q.events with
    | nil =>
      rw [if_neg (by simp)]
      exact ⟨rfl, hev⟩
    | cons e l =>
      rw [if_pos (by rw [List.length_cons]; omega), hevents, hev]
      exact ⟨rfl, rfl⟩
  have hevent : Wp True (shrQEvent (some q)) (fun e w' => Does (some q) (Q.reading p.clock) .event (.event e) w') (p.enter w) := by
    have hcall : Wp True (Call.run (some q) 0 .event) (Does (some q) (Q.reading p.clock) .event) (p.enter w) :=
      hSp.call trivial fun _ => rfl
    rwa [Call.run, Wp, wp_map] at hcall
  obtain ⟨e₁, w₁, hr₁, ⟨a, Q₁⟩, ha, hm, H₁, hS₁⟩ := (wp_iff_runs trivial).1 hevent
  obtain ⟨e₂, w₂, hr₂, he₂, H₂, hS₂⟩ := (wp_iff_runs trivial).1 (hSp.eventTimedwait q t)
  cases ha
  have he₁ : e₁ = (Q.reading p.clock).takeEvent.1 := hm
  rw [hR.pending, hq]
  rw [he₁, htake.1] at hr₁
  rw [he₂, show ({ Q with clock := p.clock } : Queue).takeEvent.1 = Q.events.headD .none from htake.1] at hr₂
  refine ⟨_, w₁, w₂, hr₁, hr₂, ?_, ⟨H₁, hS₁⟩, ⟨H₂, hS₂⟩⟩
  rw [Represents.pending ⟨H₁, hS₁⟩]
  exact htake.2

/-! ## A byte is added -/

/-- Discarding was turned on, and a byte was added at the time 1. -/
theorem queries_tell_byte : ∃ w₀ es w g, ∃ p : Caller, Created 4 w₀ ∧ Trace Remembered (w₀, .start) es (w, g) ∧ g = ⟨true, false, ⟨1, 0⟩, some ⟨1, 0⟩⟩ ∧ p.Ok w ∧
    (∃ w', Runs seq (shrQWillDiscard p.q) (p.enter w) true w' ∧ Still (p.enter w) w') ∧
    (∃ w', Runs seq (shrQWillLifo p.q) (p.enter w) false w' ∧ Still (p.enter w) w') ∧
    ∃ w', Runs seq (shrQLastEmpty p.q true) (p.enter w) (.ok, some ⟨1, 0⟩) w' ∧ Still (p.enter w) w' := by
  obtain ⟨w₀, hw, hR₀⟩ := fresh_represents
  obtain ⟨r₁, w₁, h₁, -, hR₁⟩ := hR₀.next (fun _ => ⟨1, 0⟩) (.discard true) trivial (by decide +kernel)
  obtain ⟨r₂, w₂, h₂, hm₂, hR₂⟩ := hR₁.next (fun _ => ⟨1, 0⟩) (.putByte 65) (Call.putByte_valid 65) (by decide +kernel)
  have hr₂ : r₂ = .status .ok := replied hm₂ (by decide +kernel)
  have hnow₁ : Steady (Watch.start).now (fun _ => ⟨1, 0⟩) ⟨1, 0⟩ := steady_of rfl (by decide) (by decide) (by decide)
  have hnow₂ : Steady (noteMemo w₀ ⟨.page ⟨.readwrite⟩ fun _ => ⟨1, 0⟩, .discard true, r₁⟩ w₁ .start).watch.now (fun _ => ⟨1, 0⟩) ⟨1, 0⟩ :=
    steady_of (t := ⟨1, 0⟩) rfl (by decide) (by decide) (by decide)
  have ht : Trace Remembered (w₀, .start) [_, _] (w₂, _) := .cons ⟨h₁.noted, hnow₁⟩ (.cons ⟨h₂.noted, hnow₂⟩ (.nil _))
  have hp := Caller.page_ok hR₂ ⟨.readwrite⟩ fun _ => ⟨2, 0⟩
  have hcount : w₁.mem COUNT = 0 := hR₁.count.trans (by decide +kernel)
  have hlen : (itemBlocks w₂.mem).length = 1 := hR₂.length.trans (by decide +kernel)
  have hmemo : noteMemo w₁ ⟨.page ⟨.readwrite⟩ fun _ => ⟨1, 0⟩, .putByte 65, r₂⟩ w₂
      (noteMemo w₀ ⟨.page ⟨.readwrite⟩ fun _ => ⟨1, 0⟩, .discard true, r₁⟩ w₁ .start) = ⟨true, false, ⟨1, 0⟩, some ⟨1, 0⟩⟩ := by
    subst hr₂
    simp only [noteMemo, noteWatch, Call.putByte, Call.request, hcount, Caller.page, Memo.start]
    rfl
  obtain ⟨hdiscard, hlifo, hlast⟩ := queries_tell hw ht hp (Option.some_ne_none _)
  rw [if_neg (by rintro hnil; rw [hnil] at hlen; cases hlen)] at hlast
  rw [hmemo] at hdiscard hlifo hlast ht
  exact ⟨w₀, _, w₂, _, _, hw, ht, rfl, hp, hdiscard, hlifo, hlast⟩

/-- The event of the first add was subscribed. -/
theorem event_timedwait_agrees_init : ∃ w₀ es w, ∃ p : Caller, ∃ Q' : Queue, ∃ w₁ w₂, Created 4 w₀ ∧ Trace Ran w₀ es w ∧ p.Ok w ∧
    Runs seq (shrQEvent p.q) (p.enter w) .init w₁ ∧ Runs seq (shrQEventTimedwait p.q (some ⟨1, 0⟩)) (p.enter w) .init w₂ ∧
    pendingEvents w₁.mem = [] ∧ Represents w₁ Q' ∧ Represents w₂ Q'.tick := by
  obtain ⟨w₀, hw, hR₀⟩ := fresh_represents
  obtain ⟨r₁, w₁, h₁, -, hR₁⟩ := hR₀.next (fun _ => ⟨1, 0⟩) (.subscribe .init) trivial (by decide +kernel)
  obtain ⟨r₂, w₂, h₂, -, hR₂⟩ := hR₁.next (fun _ => ⟨1, 0⟩) (.putByte 65) (Call.putByte_valid 65) (by decide +kernel)
  have ht : Trace Ran w₀ [_, _] w₂ := .cons h₁ (.cons h₂ (.nil _))
  have hp := Caller.page_ok hR₂ ⟨.readwrite⟩ fun _ => ⟨2, 0⟩
  have hpending : pendingEvents w₂.mem = [.init] := hR₂.pending.trans (by decide +kernel)
  obtain ⟨-, Q', v₁, v₂, hv₁, hv₂, hnone, hQ₁, hQ₂⟩ :=
    event_timedwait_agrees hw ht hp (Option.some_ne_none _) (t := ⟨1, 0⟩) ⟨le_rfl, by decide⟩ ⟨le_rfl, by decide⟩
  rw [hpending] at hv₁ hv₂ hnone
  exact ⟨w₀, _, w₂, _, Q', v₁, v₂, hw, ht, hp, hv₁, hv₂, hnone, hQ₁, hQ₂⟩

end

end LibShr
