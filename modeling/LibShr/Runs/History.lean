import LibShr.Lib.Trace
import LibShr.Refine.Calls
import LibShr.Runs.View
import LibShr.Spec.Counts
import LibShr.Spec.Times

/-!
# Histories

A history is a run of calls made one after another, by any processes, on a queue that was created
empty. Beside it a record may be kept of what was seen from outside: the calls, their replies and the
object before and after each. The abstract queue runs along, so what each of its steps preserves holds
of the object after any history.
-/

namespace LibShr

open Prog

/-- A call as it was made. -/
structure Made where
  caller : Caller
  call : Call
  reply : Reply

/-- The call `e` was made on the object `w` and left it as `w'`. -/
structure Ran (w : World) (e : Made) (w' : World) : Prop where
  ok : e.caller.Ok w
  valid : e.call.Valid
  runs : Runs seq (e.call.run e.caller.q e.caller.pid) (e.caller.enter w) e.reply w'

/-- The timeout a call waits for. -/
def Call.timeout : Call → Option Timespec
  | .add (.timed t) _ _ | .addv (.timed t) _ | .remove (.timed t) _ => t
  | _ => none

/-- A call that meets no limit of the system: `sem_timedwait` refuses a deadline whose nanoseconds are not less than a second, and
`sem_post` refuses to go beyond `SEM_VALUE_MAX`. -/
structure Proper (w : World) (e : Made) (w' : World) : Prop where
  ran : Ran w e w'
  clock : ∀ i, (e.caller.clock i).Normal
  timeout : ∀ t ∈ e.call.timeout, t.Normal
  tokens : ∀ s, w'.sem s ≤ SEM_VALUE_MAX

/-- The object right after `shr_q_create` filled it in. -/
def Created (depth : ℤ) (w₀ : World) : Prop :=
  ∃ w, Fresh True w ∧ (∀ n, w.malloc n = true) ∧ Runs seq (initQueue depth) w .ok w₀

/-- A call, with the record `g` kept beside the object. -/
def Recorded {G : Type} (note : World → Made → World → G → G) (s : World × G) (e : Made) (s' : World × G) : Prop :=
  Ran s.1 e s'.1 ∧ s'.2 = note s.1 e s'.1 s.2

/-- The events a call generated: `add_event` returns true where it appends to the list of pending events. -/
def generatedEvents (w w' : World) : List Event := (pendingEvents w'.mem).drop (pendingEvents w.mem).length

/-- The object shows the abstract queue `Q`. -/
def Represents (w : World) (Q : Queue) : Prop := ∃ H, Sim w H Q

/-! ## What an answer says of the reply -/

namespace Answer.Matches

variable {r : Reply}

theorem status {st : Status} (h : (Answer.status st).Matches r) : r = .status st := by
  cases r with
  | status st' => exact congrArg Reply.status h
  | _ => exact h.elim

theorem noItem {st : Status} {v : UserBuffer} (h : (Answer.noItem st v).Matches r) : r = .item (SqItem.ofStatus st) v := by
  cases r with
  | item i v' => rw [h.1, h.2]
  | _ => exact h.elim

theorem item {it : Item} {v : UserBuffer} (h : (Answer.item it v).Matches r) : ∃ i, r = .item i v ∧ i.Shows it .ok := by
  cases r with
  | item i v' => exact ⟨i, by rw [h.2], h.1⟩
  | _ => exact h.elim

theorem event {e : Event} (h : (Answer.event e).Matches r) : r = .event e := by
  cases r with
  | event e' => exact congrArg Reply.event h
  | _ => exact h.elim

theorem number {n : ℤ} (h : (Answer.number n).Matches r) : r = .number n := by
  cases r with
  | number n' => exact congrArg Reply.number h
  | _ => exact h.elim

theorem flag {b : Bool} (h : (Answer.flag b).Matches r) : r = .flag b := by
  cases r with
  | flag b' => exact congrArg Reply.flag h
  | _ => exact h.elim

theorem not_event {a : Answer} (h : a.Matches r) (hn : ∀ ev, a ≠ .event ev) (ev : Event) : r ≠ .event ev := by
  cases a <;> cases r <;> first | exact absurd rfl (hn _) | exact h.elim | simp

end Answer.Matches

namespace Queue

/-- The queue of a caller with these clock readings to come. -/
def reading (Q : Queue) (clock : ℕ → Timespec) : Queue := { Q with clock := clock }

/-- The abstract queue made the call and gave an answer the reply agrees with. -/
def Did (Q : Queue) (e : Made) (Q' : Queue) : Prop :=
  ∃ a, (Q.reading e.caller.clock).step e.caller.q e.call = some (a, Q') ∧ a.Matches e.reply

/-- The queue that was created with room for `depth` items; `ids` nodes were numbered. -/
def start (depth ids : ℤ) (clock : ℕ → Timespec) : Queue where
  fifo := []
  stack := []
  events := []
  free := fun _ => []
  ids := ids
  hdr := ⟨0, 0, 0, 0, if depth = 0 then SEM_VALUE_MAX else depth, ⟨0, 0⟩, ⟨0, 0⟩, ⟨0, 0⟩⟩
  sem := fun | .enq => if depth = 0 then SEM_VALUE_MAX else depth | _ => 0
  clock := clock

variable {Q Q' : Queue} {e : Made}

theorem start_sane (depth ids : ℤ) (clock : ℕ → Timespec) : (start depth ids clock).Sane :=
  ⟨rfl, le_refl _, rfl, by simp [start]⟩

@[simp] theorem reading_items (k : ℕ → Timespec) : (Q.reading k).items = Q.items := rfl

@[simp] theorem reading_hdr (k : ℕ → Timespec) : (Q.reading k).hdr = Q.hdr := rfl

@[simp] theorem reading_clock (k : ℕ → Timespec) : (Q.reading k).clock = k := rfl

/-- The clock readings to come do not matter. -/
theorem Sane.reading (hs : Q.Sane) (k : ℕ → Timespec) : (Q.reading k).Sane := ⟨hs.count, hs.deq, hs.evnt, hs.known⟩

theorem Did.sane (h : Q.Did e Q') (hs : Q.Sane) : Q'.Sane := by
  obtain ⟨a, ha, -⟩ := h
  exact step_sane (hs.reading _) ha

end Queue

section
variable {w w' w₀ : World} {Q : Queue} {e : Made} {es : List Made} {depth : ℤ} {G : Type}
  {note : World → Made → World → G → G} {g g₀ : G}

/-- A created object shows an empty queue. -/
theorem Runs.simulates (hf : Fresh True w) (hm : ∀ n, w.malloc n = true) (hr : Runs seq (initQueue depth) w .ok w₀) :
    Sim w₀ (emptyHeap w₀.mem) (Queue.start depth (w₀.mem ID_CNTR) w₀.clock) := by
  have hspec : Wp False (initQueue depth) _ w := initQueue_spec hf depth
  obtain ⟨-, hI, -, hmal, hdeq, hevnt, henq, hmax, hset, -, hzero⟩ := hspec.1 _ _ hr
  refine ⟨hI, fun n => by rw [hmal]; exact hm n, rfl, ?_, rfl, ?_, .nil, .nil, rfl, fun k _ => .nil, ?_⟩
  · funext s
    cases s
    · exact hdeq
    · exact henq
    · exact hevnt
  · have h₀ : ∀ a ∈ shown, a ≠ 145 → w₀.mem a = 0 := fun a ha hne => by
      have h₇ : ∀ a ∈ shown, 7 ≤ a := by decide
      exact hset a (shown_settings ha) (h₇ a ha) hne
    exact ⟨h₀ 7 (by decide) (by decide), h₀ 8 (by decide) (by decide), h₀ 9 (by decide) (by decide), h₀ 144 (by decide) (by decide), hmax,
      by rw [show w₀.mem LIMIT_SEC = 0 from h₀ 118 (by decide) (by decide), show w₀.mem LIMIT_NSEC = 0 from h₀ 119 (by decide) (by decide)]; rfl,
      by rw [show w₀.mem TARGET_SEC = 0 from h₀ 140 (by decide) (by decide), show w₀.mem TARGET_NSEC = 0 from h₀ 141 (by decide) (by decide)]; rfl,
      by rw [show w₀.mem EMPTY_SEC = 0 from h₀ 126 (by decide) (by decide), show w₀.mem EMPTY_NSEC = 0 from h₀ 127 (by decide) (by decide)]; rfl⟩
  · exact fun a ha => hzero a ha

theorem Runs.represents (hf : Fresh True w) (hm : ∀ n, w.malloc n = true) (hr : Runs seq (initQueue depth) w .ok w₀) :
    Represents w₀ (Queue.start depth (w₀.mem ID_CNTR) w₀.clock) :=
  ⟨_, Runs.simulates hf hm hr⟩

theorem Created.represents (h : Created depth w₀) : ∃ ids clock, Represents w₀ (Queue.start depth ids clock) := by
  obtain ⟨w, hf, hm, hr⟩ := h
  exact ⟨_, _, Runs.represents hf hm hr⟩

/-! ## What is seen of the abstract queue -/

namespace Represents

theorem header (h : Represents w Q) : Header.ofMem w.mem = Q.hdr := by
  obtain ⟨H, hS⟩ := h
  exact hS.hdr.ofMem

theorem count (h : Represents w Q) : w.mem COUNT = Q.hdr.count := congrArg Header.count h.header

theorem flags (h : Represents w Q) : w.mem FLAGS = Q.hdr.flags := congrArg Header.flags h.header

theorem sem (h : Represents w Q) (s : Sem) : w.sem s = Q.sem s := by
  obtain ⟨H, hS⟩ := h
  rw [hS.sem]

theorem pending (h : Represents w Q) : pendingEvents w.mem = Q.events := by
  obtain ⟨H, hS⟩ := h
  exact hS.pendingEvents

theorem items (h : Represents w Q) : List.Forall₂ (ItemAt w.mem) (itemBlocks w.mem) Q.items := by
  obtain ⟨H, hS⟩ := h
  exact hS.items

theorem length (h : Represents w Q) : (itemBlocks w.mem).length = Q.items.length := h.items.length_eq

theorem stack (h : Represents w Q) : List.Forall₂ (ItemAt w.mem) (stackBlocks w.mem) Q.stack := by
  obtain ⟨H, hS⟩ := h
  exact hS.stackItems

theorem fifo (h : Represents w Q) : List.Forall₂ (ItemAt w.mem) (fifoBlocks w.mem) Q.fifo := by
  obtain ⟨H, hS⟩ := h
  exact hS.fifoItems

/-- The blocks carry the time stamps of their items. -/
theorem fifo_stamps (h : Represents w Q) : (fifoBlocks w.mem).map (stampAt w.mem) = Q.fifo.map Item.stamp := by
  have hf := h.fifo
  generalize fifoBlocks w.mem = l, Q.fifo = its at hf ⊢
  induction hf with
  | nil => rfl
  | cons hb _ ih => rw [List.map_cons, List.map_cons, hb.stamp, ih]

theorem survivors (h : Represents w Q) (clock : ℕ → Timespec) (g : Gate) :
    List.Forall₂ (ItemAt w.mem) (survivingBlocks w.mem clock g) ((Q.reading clock).survivors g) := by
  rw [survivingBlocks, h.header]
  exact dropFrom_rel (fun i last b it hb => by rw [ItemAt.stamp hb]; rfl) h.items

end Represents

/-- A call that moves items generates the events of its change. -/
theorem generated_change {w' : World} {Q' : Queue} {δ : Delta} {k : ℕ → Timespec} (hR : Represents w Q) (hR' : Represents w' Q')
    (h : Queue.Change (Q.reading k) Q' δ) : generatedEvents w w' = δ.events := by
  rw [generatedEvents, hR.pending, hR'.pending, h.events]
  exact List.drop_left

/-- A call that takes events at most generates none. -/
theorem generated_nil {w' : World} {Q' : Queue} (hR : Represents w Q) (hR' : Represents w' Q') (h : Q'.events.length ≤ Q.events.length) :
    generatedEvents w w' = [] := by
  rw [generatedEvents, hR.pending, hR'.pending, List.drop_eq_nil_iff]
  exact h

/-- **A call of a history is a step of the abstract queue**, and nothing of the heap is lost. -/
theorem Sim.ran {H : Heap} (hS : Sim w H Q) (h : Ran w e w') :
    ∃ Q' H', Q.Did e Q' ∧ Sim w' H' Q' ∧ Accounted e.call e.reply H H' := by
  have hcall : Wp False (e.call.run e.caller.q e.caller.pid) (Accounts H e.caller.q (Q.reading e.caller.clock) e.call) (e.caller.enter w) :=
    (hS.enter h.ok).callAccounts h.valid fun hf => hf.elim
  obtain ⟨⟨a, Q'⟩, ha, hm, H', hS', hset⟩ := hcall.1 _ _ h.runs
  exact ⟨Q', H', ⟨a, ha, hm⟩, hS', hset⟩

theorem Represents.ran (hR : Represents w Q) (h : Ran w e w') : ∃ Q', Q.Did e Q' ∧ Represents w' Q' := by
  obtain ⟨H, hS⟩ := hR
  obtain ⟨Q', H', hd, hS', -⟩ := hS.ran h
  exact ⟨Q', hd, H', hS'⟩

/-- A step of the abstract queue can be made on the object. -/
theorem Represents.run (hR : Represents w Q) {p : Caller} {c : Call} (hok : p.Ok w) (hv : c.Valid)
    (ht : ((Q.reading p.clock).step p.q c).isSome) : ∃ r w', Ran w ⟨p, c, r⟩ w' := by
  obtain ⟨H, hS⟩ := hR
  have hcall : Wp True (c.run p.q p.pid) (Does p.q (Q.reading p.clock) c) (p.enter w) := (hS.enter hok).call hv fun _ => ht
  obtain ⟨r, w', hr⟩ := hcall.2 trivial
  exact ⟨r, w', hok, hv, hr⟩

theorem Created.reaches (hw : Created depth w₀) (h : Trace Ran w₀ es w) : ∃ Q, Represents w Q ∧ Q.Sane := by
  refine h.invariant (fun w => ∃ Q, Represents w Q ∧ Q.Sane) ?_ ?_
  · rintro w e w' ⟨Q, hR, hs⟩ hr
    obtain ⟨Q', hd, hR'⟩ := hR.ran hr
    exact ⟨Q', hR', hd.sane hs⟩
  · obtain ⟨ids, clock, hR⟩ := hw.represents
    exact ⟨_, hR, Queue.start_sane depth ids clock⟩

/-- **What every step preserves holds after any history**, of the abstract queue and the record. -/
theorem Recorded.invariant (I : Queue → G → Prop) (hstart : ∀ ids clock, I (.start depth ids clock) g₀)
    (hstep : ∀ {w w' Q Q' e g}, Represents w Q → Represents w' Q' → Q.Sane → Q'.Sane → I Q g → Q.Did e Q' → I Q' (note w e w' g))
    (hw : Created depth w₀) (h : Trace (Recorded note) (w₀, g₀) es (w, g)) : ∃ Q, Represents w Q ∧ Q.Sane ∧ I Q g := by
  have hI := h.invariant (fun s => ∃ Q, Represents s.1 Q ∧ Q.Sane ∧ I Q s.2) ?_ ?_
  · exact hI
  · rintro ⟨w, g⟩ e ⟨w', g'⟩ ⟨Q, hR, hs, hi⟩ ⟨hr, hg⟩
    obtain ⟨Q', hd, hR'⟩ := hR.ran hr
    dsimp only at hg
    subst hg
    exact ⟨Q', hR', hd.sane hs, hstep hR hR' hs (hd.sane hs) hi hd⟩
  · obtain ⟨ids, clock, hR⟩ := hw.represents
    exact ⟨_, hR, Queue.start_sane depth ids clock, hstart ids clock⟩

/-! ## Making calls -/

/-- A call is recorded. -/
theorem Ran.noted (h : Ran w e w') : Recorded note (w, g) e (w', note w e w' g) := ⟨h, rfl⟩

/-- A process with a handle that has mapped the first page. -/
def Caller.page (q : ShrQ) (clock : ℕ → Timespec) : Caller :=
  ⟨some q, 1, ⟨512, [], 4096, fun _ _ => .ok, fun _ => true⟩, 0, clock⟩

theorem Caller.page_ok (hR : Represents w Q) (q : ShrQ) (clock : ℕ → Timespec) : (Caller.page q clock).Ok w where
  cur_mod := rfl
  cur_pos := le_refl _
  cur_le := by
    obtain ⟨H, hS⟩ := hR
    exact hS.cur.trans hS.inv.geo.cur_le
  map_ok := fun _ _ => rfl
  trunc_ok := fun _ => rfl

/-- A queue for four items that was just created. -/
def Queue.fresh : Queue := .start 4 3 fun _ => ⟨0, 0⟩

theorem initQueue_fresh : ((eval seq 400 (initQueue 4) World.fresh).map fun r => (r.1, r.2.mem ID_CNTR)) = some (.ok, 3) := by
  decide +kernel

theorem fresh_represents : ∃ w₀, Created 4 w₀ ∧ Represents w₀ Queue.fresh := by
  obtain ⟨⟨st, w₀⟩, he, hst⟩ := Option.map_eq_some_iff.1 initQueue_fresh
  obtain ⟨rfl, hids⟩ := Prod.mk.inj hst
  have hr : Runs seq (initQueue 4) World.fresh .ok w₀ := runs_of_eval seq he
  have hspec : Wp False (initQueue 4) _ World.fresh := initQueue_spec World.fresh_fresh 4
  have hclock : w₀.clock = World.fresh.clock := (hspec.1 _ _ hr).2.2.2.2.2.2.2.2.2.1
  have hR : Represents w₀ (.start 4 (w₀.mem ID_CNTR) w₀.clock) := Runs.represents World.fresh_fresh (fun _ => rfl) hr
  rw [show w₀.mem ID_CNTR = 3 from hids, hclock] at hR
  exact ⟨w₀, ⟨World.fresh, World.fresh_fresh, fun _ => rfl, hr⟩, hR⟩

/-- What the abstract queue answers to a process that may read and write, and the queue after that. -/
def Queue.answer (Q : Queue) (k : ℕ → Timespec) (c : Call) : Option Answer := ((Q.reading k).step (some ⟨.readwrite⟩) c).map Prod.fst

def Queue.after (Q : Queue) (k : ℕ → Timespec) (c : Call) : Queue := (((Q.reading k).step (some ⟨.readwrite⟩) c).map Prod.snd).getD Q

/-- The reply an answer without an item determines. -/
def Answer.plain : Answer → Option Reply
  | .status s => some (.status s)
  | .event e => some (.event e)
  | .number n => some (.number n)
  | .flag b => some (.flag b)
  | .item .. | .noItem .. => none

theorem replied {o : Option Answer} {r r' : Reply} (hm : ∀ a ∈ o, a.Matches r) (h : o.bind Answer.plain = some r') : r = r' := by
  obtain ⟨a, rfl, hp⟩ := Option.bind_eq_some_iff.1 h
  have ha := hm a rfl
  cases a with
  | status s => exact ha.status.trans (Option.some.inj hp)
  | event e => exact ha.event.trans (Option.some.inj hp)
  | number n => exact ha.number.trans (Option.some.inj hp)
  | flag b => exact ha.flag.trans (Option.some.inj hp)
  | item => cases hp
  | noItem => cases hp

/-- That process makes a call that does not have to wait. -/
theorem Represents.next (hR : Represents w Q) (k : ℕ → Timespec) (c : Call) (hv : c.Valid) (h : (Q.answer k c).isSome = true) :
    ∃ r w', Ran w ⟨.page ⟨.readwrite⟩ k, c, r⟩ w' ∧ (∀ a ∈ Q.answer k c, a.Matches r) ∧ Represents w' (Q.after k c) := by
  rw [Queue.answer, Option.isSome_map] at h
  obtain ⟨r, w', hr⟩ := hR.run (Caller.page_ok hR ⟨.readwrite⟩ k) hv h
  obtain ⟨Q', ⟨a, ha, hm⟩, hR'⟩ := hR.ran hr
  have hstep : (Q.reading k).step (some ⟨.readwrite⟩) c = some (a, Q') := ha
  refine ⟨r, w', hr, fun a' ha' => ?_, ?_⟩
  · rw [Queue.answer, hstep] at ha'
    cases ha'
    exact hm
  · rw [Queue.after, hstep]
    exact hR'

/-- That process makes these calls, and none has to wait. -/
def Queue.goes (k : ℕ → Timespec) : Queue → List Call → Bool
  | _, [] => true
  | Q, c :: cs => (Q.answer k c).isSome && (Q.after k c).goes k cs

/-- They are made, one after another. -/
theorem Represents.calls {k : ℕ → Timespec} {P : Call → Prop} : ∀ {cs : List Call} {w : World} {Q : Queue}, Represents w Q →
    (∀ c ∈ cs, c.Valid ∧ P c) → Q.goes k cs = true → ∃ es w', Trace (fun w e w' => Ran w e w' ∧ e.caller = .page ⟨.readwrite⟩ k ∧ P e.call) w es w' ∧
      es.map Made.call = cs ∧ Represents w' (cs.foldl (fun Q c => Q.after k c) Q)
  | [], w, Q, hR, _, _ => ⟨[], w, .nil w, rfl, hR⟩
  | c :: cs, w, Q, hR, hP, hgoes => by
    obtain ⟨hfirst, hrest⟩ := (Bool.and_eq_true _ _).mp hgoes
    obtain ⟨hv, hc⟩ := hP c List.mem_cons_self
    obtain ⟨r, w₁, hran, -, hR₁⟩ := hR.next k c hv hfirst
    obtain ⟨es, w', hes, hcs, hR'⟩ := Represents.calls hR₁ (fun c hc => hP c (List.mem_cons_of_mem _ hc)) hrest
    exact ⟨_, w', .cons ⟨hran, rfl, hc⟩ hes, congrArg (c :: ·) hcs, hR'⟩

/-- A call of that process, computed. -/
def World.played (w : World) (k : ℕ → Timespec) (c : Call) : Option (Reply × World) :=
  eval seq 400 (c.run (some ⟨.readwrite⟩) 1) ((Caller.page ⟨.readwrite⟩ k).enter w)

theorem Represents.played {k : ℕ → Timespec} {c : Call} {r : Reply} {w' : World} (hR : Represents w Q) (hv : c.Valid)
    (h : w.played k c = some (r, w')) : Ran w ⟨.page ⟨.readwrite⟩ k, c, r⟩ w' :=
  ⟨Caller.page_ok hR ⟨.readwrite⟩ k, hv, runs_of_eval seq h⟩

/-- Calls of that process, one after another. -/
def World.plays (w : World) (k : ℕ → Timespec) (cs : List Call) : Option World := cs.foldlM (fun w c => (w.played k c).map Prod.snd) w

theorem Represents.plays {k : ℕ → Timespec} : ∀ {cs : List Call} {w w' : World} {Q : Queue}, Represents w Q → (∀ c ∈ cs, c.Valid) →
    w.plays k cs = some w' → ∃ es, Trace Ran w es w' ∧ es.map Made.call = cs
  | [], w, w', _, _, _, h => by
    obtain rfl : w = w' := Option.some.inj h
    exact ⟨[], .nil w, rfl⟩
  | c :: cs, w, w', Q, hR, hv, h => by
    rw [World.plays, List.foldlM_cons] at h
    obtain ⟨w₁, h₁, hrest⟩ := Option.bind_eq_some_iff.1 h
    obtain ⟨⟨r, w₂⟩, hplayed, rfl⟩ := Option.map_eq_some_iff.1 h₁
    have hran := hR.played (hv c List.mem_cons_self) hplayed
    obtain ⟨Q', -, hR'⟩ := hR.ran hran
    obtain ⟨es, hes, hcs⟩ := Represents.plays hR' (fun c hc => hv c (List.mem_cons_of_mem _ hc)) hrest
    exact ⟨_, .cons hran hes, congrArg (c :: ·) hcs⟩

/-- A byte is added. -/
def Call.putByte (b : UInt8) : Call := .add .poll (some [b]) 1

/-- An item is removed. -/
def Call.pull : Call := .remove .poll (some ⟨false, 0⟩)

theorem Call.putByte_valid (b : UInt8) : (Call.putByte b).Valid := by
  rintro v ⟨⟩
  exact ⟨le_refl _, by decide⟩

end

end LibShr
