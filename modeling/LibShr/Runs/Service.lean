import LibShr.Runs.History
import LibShr.Spec.Order
import LibShr.Spec.Flags

/-!
# The queue as a stack before a list

What the add and remove functions are for, without any memory: items lie on a stack, which is served
first, or in a list, which is served from the front. As long as nothing is discarded, every call answers
what this answers.
-/

namespace LibShr

open Prog

/-- Items to be served: those of the stack from the top, then those of the list from the front. -/
structure Line where
  stack : List Payload
  list : List Payload
  lifo : Bool
  level : ℤ
  depth : ℤ

namespace Line

variable (L : Line)

/-- Nothing is queued; no limit was given if `depth` is 0. -/
def start (depth : ℤ) : Line := ⟨[], [], false, 0, if depth = 0 then SEM_VALUE_MAX else depth⟩

def size : ℕ := L.stack.length + L.list.length

/-- A new item is stacked if adaptive LIFO is on and the level is reached. -/
def put (p : Payload) : Line :=
  if L.lifo && L.level ≤ L.size then { L with stack := p :: L.stack } else { L with list := L.list ++ [p] }

/-- The next item to be served. -/
def take : Option (Payload × Line) :=
  match L.stack, L.list with
  | p :: l, _ => some (p, { L with stack := l })
  | [], p :: l => some (p, { L with list := l })
  | [], [] => none

/-- An item is added, unless there is no room. -/
def Adds (p : Payload) (r : Reply) (L' : Line) : Prop :=
  if (L.size : ℤ) = L.depth then r = .status .errLimit ∧ L' = L else r = .status .ok ∧ L' = L.put p

/-- The next item is handed over, with everything it was added with. -/
def Removes (r : Reply) (L' : Line) : Prop :=
  match L.take with
  | none => (∃ v, r = .item (SqItem.ofStatus .errEmpty) v) ∧ L' = L
  | some (p, L₁) => (∃ x v, r = .item x v ∧ x.status = .ok ∧ x.Delivers p) ∧ L' = L₁

/-- A call, its reply, and what is queued then. -/
def Step (e : Made) (L' : Line) : Prop :=
  match e.call with
  | .add _ value length => L.Adds [(SH_STRM_T, (value.getD []).take length.toNat)] e.reply L'
  | .addv _ vector => L.Adds ((vector.getD []).map SqVec.elem) e.reply L'
  | .remove _ _ => L.Removes e.reply L'
  | .level n => e.reply = .status .ok ∧ L' = { L with level := n }
  | .limitLifo b => e.reply = .status .ok ∧ L' = { L with lifo := b }
  | .count => e.reply = .number L.size ∧ L' = L
  | _ => False

/-- The call would have to wait. -/
def Waits : Call → Prop
  | .add .wait _ _ | .addv .wait _ => (L.size : ℤ) = L.depth
  | .remove .wait _ => L.size = 0
  | _ => False

end Line

/-- The arguments of an add, a removal, or one of the calls about order and number are accepted. -/
def Call.Proper (q : Option ShrQ) (c : Call) : Prop :=
  match c with
  | .remove g u => ∃ v, Queue.Removal q g u v
  | .level n => q.isSome = true ∧ 0 < n
  | .limitLifo _ | .count => q.isSome = true
  | c => c.adds q = true

/-- Such a call. -/
def Regular (w : World) (e : Made) (w' : World) : Prop := Ran w e w' ∧ e.call.Proper e.caller.q

/-- The line is what the queue holds. -/
structure Holds (Q : Queue) (L : Line) : Prop where
  stack : Q.stack.map Item.payload = L.stack
  list : Q.fifo.map Item.payload = L.list
  lifo : Int.land Q.hdr.flags FLAG_LIFO_ON_LEVEL ≠ 0 ↔ L.lifo = true
  level : Q.hdr.level = L.level
  depth : Q.hdr.depth = L.depth
  keeps : Q.discards = false
  room : Q.sem .enq = L.depth - L.size
  bound : L.size ≤ L.depth

section
variable {w w' w₀ : World} {Q Q' : Queue} {L L' : Line} {e : Made} {es : List Made} {depth : ℤ} {a : Answer} {p : Payload}
  {q : Option ShrQ} {g : Gate} {u : Option UserBuffer} {c : Call} {δ : Delta} {it : Item}

theorem Holds.size (h : Holds Q L) : Q.items.length = L.size := by
  rw [Queue.items, List.length_append, Line.size, ← h.stack, ← h.list, List.length_map, List.length_map]

theorem Holds.full (h : Holds Q L) : ¬0 < Q.sem .enq ↔ (L.size : ℤ) = L.depth := by
  have hroom := h.room
  have hbound := h.bound
  omega

/-- The queue stacks the next item if the line does. -/
theorem Holds.onStack (h : Holds Q L) (hs : Q.Sane) : Q.onStack = (L.lifo && L.level ≤ L.size) := by
  have hcount : Q.hdr.count = L.size := by rw [hs.count, h.size]
  unfold Queue.onStack
  rw [hcount, h.level]
  congr 1
  rw [Bool.eq_iff_iff, decide_eq_true_iff]
  exact h.lifo

/-- What moves items keeps the modes, and gives back a place for each item that leaves. -/
theorem Holds.change (h : Holds Q L) (hch : Queue.Change Q Q' δ) (hδ : δ.enq = -δ.count) (hstack : Q'.stack.map Item.payload = L'.stack)
    (hlist : Q'.fifo.map Item.payload = L'.list) (hlifo : L'.lifo = L.lifo) (hlevel : Q'.hdr.level = L'.level)
    (hdepth : Q'.hdr.depth = Q.hdr.depth) (hdepth' : L'.depth = L.depth) (hroom : 0 ≤ Q'.sem .enq) : Holds Q' L' := by
  have hsize : Q'.items.length = L'.size := by
    rw [Queue.items, List.length_append, Line.size, ← hstack, ← hlist, List.length_map, List.length_map]
  have hlen := hch.len
  have henq := hch.enq
  have hold := h.room
  rw [hsize, h.size] at hlen
  refine ⟨hstack, hlist, ?_, hlevel, by rw [hdepth, h.depth, hdepth'], ?_, by rw [hdepth']; omega, by rw [hdepth']; omega⟩
  · rw [hch.modes FLAG_LIFO_ON_LEVEL (by decide), hlifo]
    exact h.lifo
  · have hkeeps := h.keeps
    unfold Queue.discards at hkeeps ⊢
    rw [hch.modes FLAG_DISCARD_EXPIRED (by decide)]
    exact hkeeps

theorem Holds.put (h : Holds Q L) (hs : Q.Sane) (hputs : Queue.Puts Q it Q') (hch : Queue.Change Q Q' δ) (hδ : δ.enq = -δ.count)
    (hroom : 0 ≤ Q'.sem .enq) : Holds Q' (L.put it.payload) := by
  have hmode := h.onStack hs
  have hstack := hputs.stack
  have hfifo := hputs.fifo
  rw [hmode] at hstack hfifo
  unfold Line.put
  by_cases hm : (L.lifo && L.level ≤ L.size) = true
  · rw [if_pos hm] at hstack hfifo ⊢
    refine h.change hch hδ ?_ ?_ rfl (hputs.level.trans h.level) hputs.depth rfl hroom
    · rw [hstack, List.map_cons, h.stack]
    · rw [hfifo, h.list]
  · rw [if_neg hm] at hstack hfifo ⊢
    refine h.change hch hδ ?_ ?_ rfl (hputs.level.trans h.level) hputs.depth rfl hroom
    · rw [hstack, h.stack]
    · rw [hfifo, List.map_append, h.list]
      rfl

/-- Nothing was moved. -/
theorem Holds.stays (h : Holds Q L) (hst : Queue.Stays Q Q') (hch : Queue.Change Q Q' δ) (hδ : δ.enq = -δ.count) (hroom : 0 ≤ Q'.sem .enq) :
    Holds Q' L :=
  h.change hch hδ (by rw [hst.stack, h.stack]) (by rw [hst.fifo, h.list]) rfl (hst.level.trans h.level) hst.depth rfl hroom

theorem Holds.take (h : Holds Q L) (ht : Queue.Takes Q it Q') (hch : Queue.Change Q Q' δ) (hδ : δ.enq = -δ.count) (hroom : 0 ≤ Q'.sem .enq) :
    ∃ L', L.take = some (it.payload, L') ∧ Holds Q' L' := by
  have hstack := h.stack
  have hlist := h.list
  unfold Line.take
  rcases ht.served with ⟨hs, hf⟩ | ⟨hs, hs', hf⟩
  · rw [hs, List.map_cons] at hstack
    rw [← hstack]
    exact ⟨_, rfl, h.change hch hδ rfl (by rw [hf, h.list]) rfl (ht.level.trans h.level) ht.depth rfl hroom⟩
  · rw [hs] at hstack
    rw [hf, List.map_cons] at hlist
    rw [← hstack, ← hlist]
    exact ⟨_, rfl, h.change hch hδ (by rw [hs']) rfl rfl (ht.level.trans h.level) ht.depth rfl hroom⟩

theorem Holds.take_none (h : Holds Q L) (hnil : Q.items = []) : L.take = none := by
  have hstack := h.stack
  have hlist := h.list
  obtain ⟨hs, hf⟩ := List.append_eq_nil_iff.1 hnil
  rw [hs] at hstack
  rw [hf] at hlist
  unfold Line.take
  rw [← hstack, ← hlist]
  rfl

theorem added_step (h : Holds Q L) (hs : Q.Sane) {n v : ℕ} (hc : c.adds q = true) (hp : c.payload = some p) (hreq : c.request = some (n, v))
    (ha : (Q.step q c) = some (a, Q')) (hm : a.Matches e.reply) : ∃ L', L.Adds p e.reply L' ∧ Holds Q' L' := by
  obtain ⟨st, hst, hadded⟩ := Queue.step_added hreq ha
  have hfull := h.full
  rcases Queue.step_puts hc hp ha with ⟨hroom, rfl, it, rfl, hputs⟩ | ⟨hno, rfl, hstays⟩
  · cases hst
    rcases hadded with ⟨-, it', es, hch, -, -⟩ | ⟨hne, -⟩
    · refine ⟨L.put it.payload, ?_, h.put hs hputs hch rfl ?_⟩
      · unfold Line.Adds
        rw [if_neg fun hf => hfull.2 hf hroom]
        exact ⟨hm.status, rfl⟩
      · rw [hch.enq]
        exact Int.le_sub_one_of_lt hroom
    · exact absurd rfl hne
  · cases hst
    rcases hadded with ⟨hok, -⟩ | ⟨-, hch⟩
    · cases hok
    · refine ⟨L, ?_, h.stays hstays hch rfl ?_⟩
      · unfold Line.Adds
        rw [if_pos (hfull.1 hno)]
        exact ⟨hm.status, rfl⟩
      · have hbound := h.bound
        rw [hch.enq, h.room]
        simp only [add_zero]
        omega

theorem removed_step (h : Holds Q L) (hs : Q.Sane) (hr : ∃ v, Queue.Removal q g u v) (ha : (Q.step q (.remove g u)) = some (a, Q'))
    (hm : a.Matches e.reply) : ∃ L', L.Removes e.reply L' ∧ Holds Q' L' := by
  obtain ⟨v, hr⟩ := hr
  obtain ⟨k, es, hch, -, -⟩ := Queue.step_left hs.count ha
  have hroom : 0 ≤ Q'.sem .enq := by
    have hbound := h.bound
    have henq := hch.enq
    rw [h.room] at henq
    simp only at henq
    omega
  rcases Queue.step_takes hr h.keeps hs.deq ha with ⟨⟨v', rfl⟩, hnil, hstays⟩ | ⟨it, v', rfl, htakes⟩
  · refine ⟨L, ?_, h.stays hstays hch (by simp) hroom⟩
    unfold Line.Removes
    rw [h.take_none hnil]
    exact ⟨⟨v', hm.noItem⟩, rfl⟩
  · obtain ⟨L', htake, hL'⟩ := h.take htakes hch (by simp) hroom
    obtain ⟨x, hx, hshows⟩ := hm.item
    refine ⟨L', ?_, hL'⟩
    unfold Line.Removes
    rw [htake]
    exact ⟨⟨x, v', hx, hshows.status, hshows.delivers⟩, rfl⟩

theorem Holds.reading (h : Holds Q L) (k : ℕ → Timespec) : Holds (Q.reading k) L :=
  ⟨h.stack, h.list, h.lifo, h.level, h.depth, h.keeps, h.room, h.bound⟩

/-- Switching adaptive LIFO touches neither the items nor the other mode. -/
theorem Holds.limitLifo (h : Holds Q L) (b : Bool) :
    Holds (if b then Q.setFlag FLAG_LIFO_ON_LEVEL else Q.clearFlag FLAG_LIFO_ON_LEVEL) { L with lifo := b } := by
  have hkeeps := h.keeps
  unfold Queue.discards at hkeeps
  cases b with
  | true =>
    have hst := Queue.stays_setFlag (Q := Q) FLAG_LIFO_ON_LEVEL
    rw [if_pos rfl]
    refine ⟨by rw [hst.stack, h.stack], by rw [hst.fifo, h.list], ?_, hst.level.trans h.level, hst.depth.trans h.depth, ?_, ?_, h.bound⟩
    · exact ⟨fun _ => rfl, fun _ => Queue.land_setFlag_self (by decide)⟩
    · unfold Queue.discards
      rw [Queue.land_setFlag (by decide), hkeeps]
    · rw [Queue.sem_setFlag]
      exact h.room
  | false =>
    have hst := Queue.stays_clearFlag (Q := Q) FLAG_LIFO_ON_LEVEL
    rw [if_neg Bool.false_ne_true]
    refine ⟨by rw [hst.stack, h.stack], by rw [hst.fifo, h.list], ?_, hst.level.trans h.level, hst.depth.trans h.depth, ?_, ?_, h.bound⟩
    · exact ⟨fun hne => absurd Queue.land_clearFlag_self hne, fun hf => absurd hf Bool.false_ne_true⟩
    · unfold Queue.discards
      rw [Queue.land_clearFlag (by decide), hkeeps]
    · rw [Queue.sem_clearFlag]
      exact h.room

/-- **Every regular call answers what the line answers.** -/
theorem holds_step (hs : Q.Sane) (h : Holds Q L) (hd : Q.Did e Q') (hp : e.call.Proper e.caller.q) : ∃ L', L.Step e L' ∧ Holds Q' L' := by
  obtain ⟨a, ha, hm⟩ := hd
  have hr := h.reading e.caller.clock
  have hsr := hs.reading e.caller.clock
  unfold Line.Step
  cases hc : e.call with
  | add g value length =>
    rw [hc] at ha hp
    exact added_step hr hsr hp rfl rfl ha hm
  | addv g vector =>
    rw [hc] at ha hp
    exact added_step hr hsr hp rfl rfl ha hm
  | remove g u =>
    rw [hc] at ha hp
    exact removed_step hr hsr hp ha hm
  | level n =>
    rw [hc] at ha hp
    obtain ⟨hq, hn⟩ := hp
    rcases Queue.handled_cases (q := e.caller.q) ha with ⟨-, -, rfl, rfl⟩ | ⟨hno, -, -⟩
    · exact ⟨_, ⟨hm.status, rfl⟩, hr.stack, hr.list, hr.lifo, rfl, hr.depth, hr.keeps, hr.room, hr.bound⟩
    · simp [hq, hn] at hno
  | limitLifo b =>
    rw [hc] at ha hp
    have hq : e.caller.q.isSome = true := hp
    rcases Queue.handled_cases (q := e.caller.q) ha with ⟨-, -, rfl, rfl⟩ | ⟨hno, -, -⟩
    · exact ⟨_, ⟨hm.status, rfl⟩, hr.limitLifo b⟩
    · simp [hq] at hno
  | count =>
    rw [hc] at ha hp
    have hq : e.caller.q.isSome = true := hp
    cases ha
    refine ⟨L, ⟨?_, rfl⟩, hr⟩
    rw [hm.number, if_pos hq]
    congr 1
    show Q.hdr.count = L.size
    rw [hs.count, h.size]
  | _ =>
    rw [hc] at hp
    cases hp

/-- A regular call that does not have to wait returns. -/
theorem holds_some (hs : Q.Sane) (h : Holds Q L) (hp : c.Proper q) (hw : ¬L.Waits c) : (Q.step q c).isSome = true := by
  have hadd : ∀ {g : Gate}, (g = .wait → ¬(L.size : ℤ) = L.depth) → g = .wait → 0 < Q.sem .enq := fun hg hwait => by
    by_contra hno
    exact hg hwait (h.full.1 hno)
  cases c with
  | add g value length =>
    refine Queue.addCall_some (hadd fun hg => ?_)
    subst hg
    exact hw
  | addv g vector =>
    refine Queue.addCall_some (hadd fun hg => ?_)
    subst hg
    exact hw
  | remove g u =>
    refine Queue.removeCall_some h.keeps fun hg => ?_
    subst hg
    have hdeq := hs.deq
    rw [h.size] at hdeq
    have hsize : L.size ≠ 0 := hw
    omega
  | level n =>
    simp only [Queue.step, Queue.handled]
    split <;> rfl
  | limitLifo b =>
    simp only [Queue.step, Queue.handled]
    split <;> rfl
  | count => rfl
  | _ => cases hp

/-- A queue that was created holds nothing. -/
theorem holds_start (hdepth : 0 ≤ depth) (ids : ℤ) (clock : ℕ → Timespec) : Holds (Queue.start depth ids clock) (Line.start depth) := by
  refine ⟨rfl, rfl, ⟨fun h => absurd rfl h, fun h => absurd h Bool.false_ne_true⟩, rfl, rfl, rfl, (sub_zero _).symm, ?_⟩
  show (0 : ℤ) ≤ if depth = 0 then SEM_VALUE_MAX else depth
  split
  · decide
  · exact hdepth

/-- **The queue serves like a stack before a list.** Every regular call of a history answers what the line
answers, and the next one returns unless it has to wait. -/
theorem queue_serves (hdepth : 0 ≤ depth) (hw : Created depth w₀) (h : Trace Regular w₀ es w) :
    ∃ L, Trace Line.Step (Line.start depth) es L ∧ w.mem COUNT = L.size ∧
      ∀ p c, p.Ok w → c.Valid → c.Proper p.q → ¬L.Waits c → ∃ r w', Regular w ⟨p, c, r⟩ w' := by
  obtain ⟨ids, clock, hR₀⟩ := hw.represents
  obtain ⟨L, ht, Q, hR, hs, hL⟩ := h.simulate (fun w L => ∃ Q, Represents w Q ∧ Q.Sane ∧ Holds Q L) (fun w L e w' => by
    rintro ⟨Q, hR, hs, hL⟩ ⟨hran, hp⟩
    obtain ⟨Q', hd, hR'⟩ := hR.ran hran
    obtain ⟨L', hstep, hL'⟩ := holds_step hs hL hd hp
    exact ⟨L', hstep, Q', hR', hd.sane hs, hL'⟩) (Line.start depth)
    ⟨_, hR₀, Queue.start_sane depth ids clock, holds_start hdepth ids clock⟩
  refine ⟨L, ht, ?_, fun p c hok hv hp hno => ?_⟩
  · rw [hR.count, hs.count, hL.size]
  · obtain ⟨r, w', hran⟩ := hR.run hok hv (holds_some (hs.reading _) (hL.reading p.clock) hp hno)
    exact ⟨r, w', hran, hp⟩

end

/-! ## Eight calls -/

namespace Line

variable {L L' : Line} {e : Made} {es : List Made}

/-- What a call does to the line. -/
def turn (L : Line) : Call → Line
  | .add _ value length => if (L.size : ℤ) = L.depth then L else L.put [(SH_STRM_T, (value.getD []).take length.toNat)]
  | .addv _ vector => if (L.size : ℤ) = L.depth then L else L.put ((vector.getD []).map SqVec.elem)
  | .remove _ _ => L.take.elim L Prod.snd
  | .level n => { L with level := n }
  | .limitLifo b => { L with lifo := b }
  | _ => L

theorem Adds.turn {p : Payload} {r : Reply} (h : L.Adds p r L') : L' = if (L.size : ℤ) = L.depth then L else L.put p := by
  unfold Adds at h
  split at h
  · next hfull =>
    rw [if_pos hfull]
    exact h.2
  · next hroom =>
    rw [if_neg hroom]
    exact h.2

theorem Removes.turn {r : Reply} (h : L.Removes r L') : L' = L.take.elim L Prod.snd := by
  unfold Removes at h
  cases ht : L.take with
  | none =>
    rw [ht] at h
    exact h.2
  | some x =>
    rw [ht] at h
    exact h.2

/-- The calls determine what is queued. -/
theorem Step.turn (h : L.Step e L') : L' = L.turn e.call := by
  unfold Step at h
  cases hc : e.call with
  | add | addv =>
    rw [hc] at h
    exact h.turn
  | remove =>
    rw [hc] at h
    exact h.turn
  | level | limitLifo | count =>
    rw [hc] at h
    exact h.2
  | _ =>
    rw [hc] at h
    exact h.elim

theorem turns (h : Trace Step L es L') : L' = (es.map Made.call).foldl turn L := by
  induction h with
  | nil => rfl
  | cons hs _ ih =>
    rw [List.map_cons, List.foldl_cons, ← hs.turn]
    exact ih

theorem Step.refused {b : UInt8} (h : L.Step e L') (hc : e.call = .putByte b) (hfull : (L.size : ℤ) = L.depth) :
    e.reply = .status .errLimit := by
  unfold Step at h
  rw [hc] at h
  exact (if_pos hfull).mp h |>.1

theorem Step.pulled {p : Payload} {L₁ : Line} (h : L.Step e L') (hc : e.call = .pull) (ht : L.take = some (p, L₁)) :
    ∃ x v, e.reply = .item x v ∧ x.status = .ok ∧ x.Delivers p := by
  unfold Step at h
  rw [hc] at h
  have hremoves : L.Removes e.reply L' := h
  unfold Removes at hremoves
  rw [ht] at hremoves
  exact hremoves.1

end Line

/-- From one item on new ones are stacked: after the first byte a vector of two and two more bytes are. -/
def stackedUp : List Call := [.level 1, .limitLifo true, .putByte 65, .addv .poll (some [⟨1, 1, some [66]⟩, ⟨2, 1, some [67]⟩]), .putByte 68,
  .putByte 69]

theorem stackedUp_proper : ∀ c ∈ stackedUp ++ [.putByte 70, .pull], c.Valid ∧ c.Proper (some ⟨.readwrite⟩) := by
  have hvector : Call.Valid (.addv .poll (some [⟨1, 1, some [66]⟩, ⟨2, 1, some [67]⟩])) := by
    rintro vs ⟨⟩
    refine ⟨?_, by decide⟩
    rw [List.forall_mem_cons, List.forall_mem_singleton]
    exact ⟨⟨by decide, ⟨by decide, by decide⟩, fun _ => by decide⟩, by decide, ⟨by decide, by decide⟩, fun _ => by decide⟩
  have hput : ∀ b, (Call.putByte b).Valid ∧ (Call.putByte b).Proper (some ⟨.readwrite⟩) := fun b => ⟨Call.putByte_valid b, rfl⟩
  simp only [stackedUp, List.cons_append, List.nil_append, List.forall_mem_cons]
  refine ⟨⟨trivial, rfl, by decide⟩, ⟨trivial, rfl⟩, hput 65, ⟨hvector, rfl⟩, hput 68, hput 69, hput 70, ⟨trivial, ?_⟩, by simp⟩
  exact ⟨⟨false, 0⟩, rfl, by decide, by decide, _, rfl, rfl⟩

/-- Then there is no room for another one, and the last byte is removed first. -/
theorem queue_serves_stacked : ∃ w₀ es refused pulled w L, Created 4 w₀ ∧ Trace Regular w₀ (es ++ [refused, pulled]) w ∧
    es.map Made.call = stackedUp ∧ refused.call = .putByte 70 ∧ pulled.call = .pull ∧
    Trace Line.Step (Line.start 4) (es ++ [refused, pulled]) L ∧ w.mem COUNT = L.size ∧ refused.reply = .status .errLimit ∧
    (∃ x v, pulled.reply = .item x v ∧ x.status = .ok ∧ x.Delivers [(SH_STRM_T, [69])]) ∧
    L.stack = [[(SH_STRM_T, [68])], [(1, [66]), (2, [67])]] ∧ L.list = [[(SH_STRM_T, [65])]] := by
  obtain ⟨w₀, hw, hR₀⟩ := fresh_represents
  obtain ⟨es', w, hes, hcs, -⟩ := hR₀.calls (k := fun _ => ⟨1, 0⟩) stackedUp_proper (by decide +kernel)
  obtain ⟨es, last, rfl, hstacked, hlast⟩ := List.map_eq_append_iff.1 hcs
  obtain ⟨refused, last, rfl, hrefused, hlast⟩ := List.map_eq_cons_iff.1 hlast
  obtain ⟨pulled, rfl, hpulled⟩ := List.map_eq_singleton_iff.1 hlast
  have ht : Trace Regular w₀ (es ++ [refused, pulled]) w := hes.mono fun w e w' h => ⟨h.1, by rw [h.2.1]; exact h.2.2⟩
  obtain ⟨L, hL, hcount, -⟩ := queue_serves (by decide) hw ht
  obtain ⟨L₁, hL₁, hsteps⟩ := hL.split
  obtain rfl : L₁ = stackedUp.foldl Line.turn (Line.start 4) := hstacked ▸ Line.turns hL₁
  cases hsteps with
  | cons h₁ hrest =>
    cases hrest with
    | cons h₂ hnil =>
      cases hnil
      obtain rfl := h₁.turn
      rw [hrefused] at h₂
      have hend := h₂.turn
      rw [hpulled] at hend
      exact ⟨w₀, es, refused, pulled, w, L, hw, ht, hstacked, hrefused, hpulled, hL, hcount, h₁.refused hrefused (by decide),
        h₂.pulled hpulled rfl, by rw [hend]; decide, by rw [hend]; decide⟩

end LibShr
