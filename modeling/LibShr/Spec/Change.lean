import LibShr.Spec.Queue
import LibShr.Lib.Bits
import Mathlib.Tactic.Linarith

/-!
# What a step of the abstract queue can do

`Change Q Q' δ` says once what every part of a call keeps and by how much it moves the counts: items,
tokens, events. Changes are composed by adding the amounts. The parts of the calls come first, then the
calls that move items.
-/

namespace LibShr

/-- Amounts: items that came in, the counts of items and of the two kinds of tokens, the events raised;
whether the queue was marked as used. -/
structure Delta where
  new : List Item := []
  count : ℤ := 0
  deq : ℤ := 0
  enq : ℤ := 0
  events : List Event := []
  uses : Bool := false

namespace Delta

/-- One amount after another. -/
def and (δ δ' : Delta) : Delta where
  new := δ.new ++ δ'.new
  count := δ.count + δ'.count
  deq := δ.deq + δ'.deq
  enq := δ.enq + δ'.enq
  events := δ.events ++ δ'.events
  uses := δ.uses || δ'.uses

end Delta

namespace Queue

/-- An item was added before. -/
def activated (Q : Queue) : Bool := Int.land Q.hdr.flags FLAG_ACTIVATED ≠ 0

/-- `Q'` is `Q` changed by `δ`. -/
structure Change (Q Q' : Queue) (δ : Delta) : Prop where
  count : Q'.hdr.count = Q.hdr.count + δ.count
  len : (Q'.items.length : ℤ) = Q.items.length + δ.count
  deq : Q'.sem .deq = Q.sem .deq + δ.deq
  enq : Q'.sem .enq = Q.sem .enq + δ.enq
  evnt : Q'.sem .evnt = Q.sem .evnt + δ.events.length
  events : Q'.events = Q.events ++ δ.events
  mem : ∀ it ∈ Q'.items, it ∈ δ.new ∨ it ∈ Q.items
  buffer : Q.hdr.buffer ≤ Q'.hdr.buffer
  limit : Q'.hdr.limit = Q.hdr.limit
  target : Q'.hdr.target = Q.hdr.target
  modes : ∀ f ∈ [FLAG_DISCARD_EXPIRED, FLAG_LIFO_ON_LEVEL], Int.land Q'.hdr.flags f = Int.land Q.hdr.flags f
  subs : ∀ e, e ≠ .none → (Q'.subscribed e = true ↔ Q.subscribed e = true ∧ e ∉ δ.events)
  raised : ∀ e ∈ δ.events, e ≠ .none ∧ Q.subscribed e = true
  nodup : δ.events.Nodup
  activated : Q'.activated = (Q.activated || δ.uses)
  init : .init ∈ δ.events → Q.activated = false ∧ δ.uses = true
  clock : ∃ k, ∀ i, Q'.clock i = Q.clock (i + k)

namespace Change

variable {Q Q' Q'' : Queue} {δ δ' : Delta} {it : Item} {e : Event}

theorem refl (Q : Queue) : Change Q Q {} where
  count := (add_zero _).symm
  len := (add_zero _).symm
  deq := (add_zero _).symm
  enq := (add_zero _).symm
  evnt := (add_zero _).symm
  events := (List.append_nil _).symm
  mem := fun _ h => .inr h
  buffer := le_refl _
  limit := rfl
  target := rfl
  modes := fun _ _ => rfl
  subs := fun _ _ => by simp
  raised := by simp
  nodup := List.nodup_nil
  activated := (Bool.or_false _).symm
  init := by simp
  clock := ⟨0, fun _ => rfl⟩

theorem trans (h : Change Q Q' δ) (h' : Change Q' Q'' δ') : Change Q Q'' (δ.and δ') where
  count := by rw [h'.count, h.count, Delta.and, add_assoc]
  len := by rw [h'.len, h.len, Delta.and, add_assoc]
  deq := by rw [h'.deq, h.deq, Delta.and, add_assoc]
  enq := by rw [h'.enq, h.enq, Delta.and, add_assoc]
  evnt := by rw [h'.evnt, h.evnt, Delta.and, List.length_append, Nat.cast_add, add_assoc]
  events := by rw [h'.events, h.events, Delta.and, List.append_assoc]
  mem := fun it hit => by
    rcases h'.mem it hit with hn | hi
    · exact .inl (List.mem_append_right _ hn)
    · exact (h.mem it hi).imp_left fun hn => List.mem_append_left _ hn
  buffer := h.buffer.trans h'.buffer
  limit := h'.limit.trans h.limit
  target := h'.target.trans h.target
  modes := fun f hf => (h'.modes f hf).trans (h.modes f hf)
  subs := fun e he => by
    rw [h'.subs e he, h.subs e he, Delta.and, List.mem_append, not_or, and_assoc]
  raised := fun e he => by
    rcases List.mem_append.1 he with he | he
    · exact h.raised e he
    · obtain ⟨hne, hs⟩ := h'.raised e he
      exact ⟨hne, ((h.subs e hne).1 hs).1⟩
  nodup := by
    rw [Delta.and, List.nodup_append]
    refine ⟨h.nodup, h'.nodup, fun a ha b hb hab => ?_⟩
    -- what was raised before is not subscribed any more
    obtain ⟨hne, hs⟩ := h'.raised b hb
    exact ((h.subs b hne).1 hs).2 (hab ▸ ha)
  activated := by rw [h'.activated, h.activated, Delta.and, Bool.or_assoc]
  init := fun hi => by
    rcases List.mem_append.1 hi with hi | hi
    · obtain ⟨h₀, h₁⟩ := h.init hi
      exact ⟨h₀, Bool.or_eq_true_iff.2 (.inl h₁)⟩
    · obtain ⟨h₀, h₁⟩ := h'.init hi
      rw [h.activated] at h₀
      exact ⟨(Bool.or_eq_false_iff.1 h₀).1, Bool.or_eq_true_iff.2 (.inr h₁)⟩
  clock := by
    obtain ⟨k, hk⟩ := h.clock
    obtain ⟨j, hj⟩ := h'.clock
    exact ⟨j + k, fun i => by rw [hj, hk, Nat.add_assoc]⟩

theorem of_eq (h : Change Q Q' δ) (hδ : δ = δ') : Change Q Q' δ' := hδ ▸ h

/-- The events raised are those whose subscription has ended. -/
theorem mem_events (h : Change Q Q' δ) (he : e ≠ .none) : e ∈ δ.events ↔ Q.subscribed e = true ∧ ¬Q'.subscribed e = true := by
  rw [h.subs e he]
  constructor
  · intro hmem
    exact ⟨(h.raised e hmem).2, fun hs => hs.2 hmem⟩
  · rintro ⟨hs, hno⟩
    by_contra hmem
    exact hno ⟨hs, hmem⟩

/-! ## The parts of a call -/

/-- A new value of the settings that keeps flags and times. -/
theorem setHdr {h : Header} (hc : h.count = Q.hdr.count) (hb : Q.hdr.buffer ≤ h.buffer) (hl : h.limit = Q.hdr.limit)
    (ht : h.target = Q.hdr.target) (hf : h.flags = Q.hdr.flags) : Change Q (Q.setHdr h) {} where
  __ := refl Q
  count := hc.trans (add_zero _).symm
  buffer := hb
  limit := hl
  target := ht
  modes := fun f _ => congrArg (Int.land · f) hf
  subs := fun e _ => by
    have : (Q.setHdr h).subscribed e = Q.subscribed e := by simp only [subscribed, Queue.setHdr, hf]
    simp [this]
  activated := by
    have : (Q.setHdr h).activated = Q.activated := by simp only [Queue.activated, Queue.setHdr, hf]
    rw [this]
    exact (Bool.or_false _).symm
  init := by simp

theorem tick (Q : Queue) : Change Q Q.tick {} :=
  { refl Q with clock := ⟨1, fun _ => rfl⟩ }

theorem upDeq (Q : Queue) : Change Q (Q.up .deq) { deq := 1 } :=
  { refl Q with deq := rfl }

theorem upEnq (Q : Queue) : Change Q (Q.up .enq) { enq := 1 } :=
  { refl Q with enq := rfl }

theorem downDeq (Q : Queue) : Change Q (Q.down .deq) { deq := -1 } :=
  { refl Q with deq := rfl }

theorem downEnq (Q : Queue) : Change Q (Q.down .enq) { enq := -1 } :=
  { refl Q with enq := rfl }

theorem putBlock (Q : Queue) (it : Item) : Change Q (Q.putBlock it) {} := { refl Q with }

end Change

variable {Q Q' : Queue} {it : Item} {e e' : Event} {g : Gate}

/-- Two events have no flag in common. -/
theorem getEventFlag_disjoint (he : e ≠ .none) (he' : e' ≠ .none) (h : e ≠ e') :
    Int.land (getEventFlag e) (getEventFlag e') = 0 := by
  cases e <;> cases e' <;> first | exact absurd rfl he | exact absurd rfl he' | exact absurd rfl h | decide

theorem getEventFlag_mode (e : Event) : ∀ f ∈ [FLAG_ACTIVATED, FLAG_DISCARD_EXPIRED, FLAG_LIFO_ON_LEVEL],
    Int.land (getEventFlag e) f = 0 := by
  cases e <;> decide

def raises (Q : Queue) (e : Event) : List Event := if Q.subscribed e then [e] else []

/-- An event is raised, and no longer subscribed. -/
theorem addEvent_change (he : e ≠ .none) (hi : e ≠ .init) : Change Q (Q.addEvent e) { events := Q.raises e } := by
  by_cases hs : Q.subscribed e = true
  swap
  · rw [addEvent, if_neg hs, raises, if_neg hs]
    exact .refl Q
  rw [addEvent, if_pos hs, raises, if_pos hs]
  have hmode : ∀ f ∈ [FLAG_ACTIVATED, FLAG_DISCARD_EXPIRED, FLAG_LIFO_ON_LEVEL],
      Int.land (Int.land Q.hdr.flags (Int.lnot (getEventFlag e))) f = Int.land Q.hdr.flags f :=
    fun f hf => Bits.land_clear (getEventFlag_mode e f hf)
  refine
    { Change.refl Q with
      evnt := rfl
      events := rfl
      modes := fun f hf => hmode f (List.mem_cons_of_mem _ hf)
      subs := fun e' he' => ?_
      raised := fun e' he' => ?_
      nodup := List.nodup_singleton e
      activated := ?_
      init := fun h => absurd (List.mem_singleton.1 h).symm hi }
  · by_cases hee : e' = e
    · subst hee
      simp [subscribed, Bits.land_clear_self]
    · have := Bits.land_clear (f := Q.hdr.flags) (getEventFlag_disjoint he he' (Ne.symm hee))
      simp [subscribed, this, hee]
  · rw [List.mem_singleton.1 he']
    exact ⟨he, hs⟩
  · have := hmode FLAG_ACTIVATED (by simp)
    simp only [Queue.activated, this, Bool.or_false]

def raisesIf (Q : Queue) (c : Prop) [Decidable c] (e : Event) : List Event := if c then Q.raises e else []

theorem mem_raisesIf {c : Prop} [Decidable c] : e' ∈ Q.raisesIf c e ↔ c ∧ Q.subscribed e = true ∧ e' = e := by
  by_cases hc : c <;> by_cases hs : Q.subscribed e = true <;> simp [raisesIf, raises, hc, hs]

theorem raise_change (c : Prop) [Decidable c] (he : e ≠ .none) (hi : e ≠ .init) :
    Change Q (Q.raise c e) { events := Q.raisesIf c e } := by
  rw [raise, raisesIf]
  split
  · exact addEvent_change he hi
  · exact .refl Q

/-- Marking the queue as used and telling so happens at most once. -/
theorem activate_change : ∃ es, Change Q Q.activate { events := es, uses := true } ∧ ∀ e ∈ es, e = .init := by
  by_cases ha : Int.land Q.hdr.flags FLAG_ACTIVATED = 0
  swap
  · rw [activate, if_neg ha]
    exact ⟨[], { Change.refl Q with activated := by simp [activated, ha], init := by simp }, by simp⟩
  have hact : Q.activated = false := by simp [activated, ha]
  rw [activate, if_pos ha, setFlag, if_pos ha]
  set Q₁ := Q.setHdr { Q.hdr with flags := Int.lor Q.hdr.flags FLAG_ACTIVATED } with hQ₁
  have hact₁ : Int.land Q₁.hdr.flags FLAG_ACTIVATED ≠ 0 := by
    show Int.land (Int.lor Q.hdr.flags FLAG_ACTIVATED) FLAG_ACTIVATED ≠ 0
    rw [Bits.land_set_self]
    decide
  have hmodes₁ : ∀ f, Int.land FLAG_ACTIVATED f = 0 → Int.land Q₁.hdr.flags f = Int.land Q.hdr.flags f := fun f hf =>
    Bits.land_set hf
  have hflag : ∀ e, Int.land FLAG_ACTIVATED (getEventFlag e) = 0 := fun e => by cases e <;> decide
  have hsub₁ : ∀ e, Q₁.subscribed e = Q.subscribed e := fun e => by simp only [subscribed, hmodes₁ _ (hflag e)]
  have h₁ : Change Q Q₁ { uses := true } :=
    { Change.refl Q with
      modes := fun f hf => hmodes₁ f (by
        have : ∀ f ∈ [FLAG_DISCARD_EXPIRED, FLAG_LIFO_ON_LEVEL], Int.land FLAG_ACTIVATED f = 0 := by decide
        exact this f hf)
      subs := fun e _ => by simp [hsub₁]
      activated := by simp [activated, hact₁]
      init := by simp }
  by_cases hs : Q.subscribed .init = true
  swap
  · rw [addEvent, hsub₁, if_neg hs]
    exact ⟨[], h₁, by simp⟩
  refine ⟨[.init], ?_, by simp⟩
  rw [addEvent, hsub₁, if_pos hs]
  have hmode : ∀ f ∈ [FLAG_ACTIVATED, FLAG_DISCARD_EXPIRED, FLAG_LIFO_ON_LEVEL],
      Int.land (Int.land Q₁.hdr.flags (Int.lnot (getEventFlag .init))) f = Int.land Q₁.hdr.flags f :=
    fun f hf => Bits.land_clear (getEventFlag_mode .init f hf)
  have hactivated : Int.land (Int.land Q₁.hdr.flags (Int.lnot (getEventFlag .init))) FLAG_ACTIVATED ≠ 0 := by
    rw [hmode FLAG_ACTIVATED (by simp)]
    exact hact₁
  exact
    { h₁ with
      evnt := rfl
      events := rfl
      modes := fun f hf => (hmode f (List.mem_cons_of_mem _ hf)).trans (h₁.modes f hf)
      subs := fun e he => by
        by_cases hee : e = .init
        · subst hee
          simp [subscribed, Bits.land_clear_self]
        · have h := Bits.land_clear (f := Q₁.hdr.flags) (getEventFlag_disjoint (e := .init) (by decide) he (Ne.symm hee))
          have h' := hsub₁ e
          simp only [subscribed] at h' ⊢
          simp [h, h', hee]
      raised := fun e he => by
        rw [List.mem_singleton.1 he]
        exact ⟨by decide, hs⟩
      nodup := List.nodup_singleton _
      activated := by simp [activated, hactivated]
      init := fun _ => ⟨hact, rfl⟩ }

theorem updateEmpty_change : Change Q Q.updateEmpty {} := by
  rw [updateEmpty]
  split
  · exact (Change.tick Q).trans (.setHdr (Q := Q.tick) (h := { Q.hdr with empty := Q.now }) rfl (le_refl _) rfl rfl rfl)
  · exact .tick Q

theorem clearEmpty_change : Change Q Q.clearEmpty {} := by
  rw [clearEmpty]
  split
  · exact .setHdr rfl (le_refl _) rfl rfl rfl
  · exact .refl Q

/-- After an item was added. -/
theorem postEnq_change {count : ℤ} : ∃ es, Change Q (Q.postEnq count) { events := es, uses := true } ∧
    ∀ e ∈ es, e = .init ∨ e = .nonempty ∨ e = .limit := by
  have h₀ : Change Q (if count = 0 then Q.updateEmpty else Q) {} := by
    split
    · exact updateEmpty_change
    · exact .refl Q
  obtain ⟨es, h₁, hes⟩ := activate_change (Q := if count = 0 then Q.updateEmpty else Q)
  have h₂ := raise_change (Q := (if count = 0 then Q.updateEmpty else Q).activate) (count = 0) (e := .nonempty) (by decide) (by decide)
  refine ⟨_, ((h₀.trans h₁).trans h₂).trans (raise_change _ (by decide) (by decide)), fun e he => ?_⟩
  rcases List.mem_append.1 he with he | he
  · rcases List.mem_append.1 he with he | he
    · exact .inl (hes e he)
    · exact .inr (.inl (mem_raisesIf.1 he).2.2)
  · exact .inr (.inr (mem_raisesIf.1 he).2.2)

theorem checkLevel_change : Change Q Q.checkLevel { events := Q.raisesIf (0 < Q.hdr.level ∧ Q.hdr.level ≤ Q.hdr.count) .level } :=
  raise_change _ (by decide) (by decide)

/-! ## Adding -/

/-- The class of the block for a request of class `k`. -/
def blockClass (Q : Queue) (k : ℕ) : ℕ := (firstFit (fun j => Q.free j = []) k 3).getD k

theorem takeBlock_cls (k : ℕ) : (Q.takeBlock k).1 = Q.blockClass k := by
  rw [takeBlock, blockClass]
  split <;> simp_all

theorem takeBlock_change (k : ℕ) : Change Q (Q.takeBlock k).2.2 {} := by
  rw [takeBlock]
  split
  · exact .refl Q
  · exact { Change.refl Q with }

/-- The item a request for `n` slots and `v` elements makes. -/
structure Came (Q Q' : Queue) (n v : ℕ) (it : Item) : Prop where
  stamp : ∃ i, it.stamp = Q.clock i
  cls : it.cls = Q.blockClass (classOf n)
  elems : it.payload.length = v
  buffer : n * 8 + v * SIZEOF_VEC ≤ Q'.hdr.buffer

theorem copyIn_change {n : ℕ} {v : ℤ} {fill : (ℤ → ℤ) → Timespec → ℤ → ℤ → ℤ} {p : Payload} :
    Change Q (Q.copyIn n v fill p).2 {} := by
  have h₁ : Change Q (Q.tick.setHdr { Q.hdr with buffer := max Q.hdr.buffer (n * 8 + v) }) {} :=
    (Change.tick Q).trans (.setHdr (Q := Q.tick) (h := { Q.hdr with buffer := max Q.hdr.buffer (n * 8 + v) }) rfl
      (le_max_left _ _) rfl rfl rfl)
  have h₂ := h₁.trans (takeBlock_change (classOf n))
  exact { h₂ with }

/-- The time stamp stays what the header says. -/
theorem headerWords_stamp {f : ℤ → ℤ} {now : Timespec} {uid type vcnt length : ℤ} :
    headerWords f now uid type vcnt length TM_SEC = now.sec ∧ headerWords f now uid type vcnt length TM_NSEC = now.nsec := by
  constructor <;> simp [headerWords, setSlot]

theorem elemsStored_ne : ∀ {vs : List SqVec} {m : ℤ → ℤ} {s x : ℤ}, x < s → elemsStored m s vs x = m x
  | [], _, _, _, _ => rfl
  | v :: vs, m, s, x, h => by
    rw [elemsStored]
    split
    · rfl
    · rw [elemsStored_ne (by omega), stored_ne (by omega), setSlot_ne _ _ (by omega), setSlot_ne _ _ (by omega)]

theorem copyIn_came {n v : ℕ} {fill : (ℤ → ℤ) → Timespec → ℤ → ℤ → ℤ} {p : Payload} (hp : p.length = v)
    (hfill : ∀ f now uid, (⟨fill f now uid TM_SEC, fill f now uid TM_NSEC⟩ : Timespec) = now) :
    Came Q (Q.copyIn n (v * SIZEOF_VEC) fill p).2 n v (Q.copyIn n (v * SIZEOF_VEC) fill p).1 where
  stamp := ⟨0, hfill _ _ _⟩
  cls := takeBlock_cls _
  elems := hp
  buffer := by
    have h := (takeBlock_change (Q := Q.tick.setHdr { Q.hdr with buffer := max Q.hdr.buffer (n * 8 + v * SIZEOF_VEC) })
      (classOf n)).buffer
    exact (le_max_right _ _).trans h

theorem link_change : Change Q ((Q.link it).setHdr { Q.hdr with count := Q.hdr.count + 1 }) { new := [it], count := 1 } := by
  rw [link]
  split
  · exact
      { Change.refl Q with
        count := rfl
        len := by simp [items, setHdr]
        mem := fun i hi => by simpa [items, setHdr, or_assoc] using hi }
  · exact
      { Change.refl Q with
        count := rfl
        len := by simp [items, setHdr, add_assoc]
        mem := fun i hi => by
          simp only [items, setHdr, List.mem_append, List.mem_singleton] at hi ⊢
          tauto }

theorem enqData_change : ∃ es, Change Q (Q.enqData it) { new := [it], count := 1, events := es, uses := true } ∧
    ∀ e ∈ es, e = .init ∨ e = .nonempty ∨ e = .limit := by
  obtain ⟨es, h, hes⟩ := postEnq_change (Q := (Q.link it).setHdr { Q.hdr with count := Q.hdr.count + 1 })
  exact ⟨es, link_change.trans h, hes⟩

/-- What queueing under a request of `n` slots and `v` elements does. -/
def Queued (Q : Queue) (n v : ℕ) (r : Status × Queue) : Prop :=
  (r.1 = .ok ∧ ∃ it es, Change Q r.2 { new := [it], count := 1, events := es, uses := true } ∧ Came Q r.2 n v it ∧
    ∀ e ∈ es, e = .init ∨ e = .nonempty ∨ e = .limit) ∨ (r.1 ≠ .ok ∧ Change Q r.2 {})

/-- A copied item is queued. -/
theorem queued_copy {c : Item × Queue} {n v : ℕ} (h : Change Q c.2 {}) (hc : Came Q c.2 n v c.1) :
    Queued Q n v (.ok, c.2.enqData c.1) := by
  obtain ⟨es, he, hes⟩ := enqData_change (Q := c.2)
  exact .inl ⟨rfl, c.1, es, h.trans he, ⟨hc.stamp, hc.cls, hc.elems, hc.buffer.trans he.buffer⟩, hes⟩

theorem enq_queued {value : Option (List UInt8)} {length type : ℤ} :
    Queued Q (7 + slotsFor length.toNat) 1 (Q.enq value length type) := by
  cases value with
  | none => exact .inr ⟨by simp [enq], .refl Q⟩
  | some value =>
    rw [enq]
    split
    · exact .inr ⟨by simp, .refl Q⟩
    · refine queued_copy copyIn_change ?_
      have hfill : ∀ f now uid, (⟨valueWords f now uid type (value.take length.toNat) TM_SEC,
          valueWords f now uid type (value.take length.toNat) TM_NSEC⟩ : Timespec) = now := fun f now uid => by
        rw [valueWords, stored_ne (.inl (by decide)), stored_ne (.inl (by decide)), headerWords_stamp.1, headerWords_stamp.2]
      have h := copyIn_came (Q := Q) (n := 7 + slotsFor length.toNat) (v := 1) (p := [(type, value.take length.toNat)]) rfl hfill
      rwa [Nat.cast_one, one_mul] at h

/-- Slots a vector needs. -/
def vectorRequest : List SqVec → ℕ
  | [v] => 7 + slotsFor v.len.toNat
  | vs => (7 + vectorSlots vs).toNat

theorem enqv_queued {vs : List SqVec} : Queued Q (7 + vectorSlots vs).toNat vs.length (Q.enqv vs) := by
  rw [enqv]
  split
  · exact .inr ⟨by simp, .refl Q⟩
  · dsimp only
    split
    · exact .inr ⟨by simp, show Change Q (Q.copyVector vs).2 {} from copyIn_change⟩
    · refine queued_copy (c := Q.copyVector vs) copyIn_change (copyIn_came (by simp) fun f now uid => ?_)
      rw [vectorWords, elemsStored_ne (by decide), elemsStored_ne (by decide), headerWords_stamp.1, headerWords_stamp.2]

theorem enqVector_queued {vs : List SqVec} : Queued Q (vectorRequest vs) vs.length (Q.enqVector vs) := by
  match vs with
  | [] => exact enqv_queued
  | [v] => exact enq_queued
  | v :: v' :: vs => exact enqv_queued

/-- Passing or not passing a gate. -/
theorem pass_change {s : Sem} {b : Bool} (h : Q.pass s g = some (b, Q')) (hs : s ≠ .evnt) :
    Change Q Q' (if b then (if s = .deq then { deq := -1 } else { enq := -1 }) else {}) := by
  have hdown : ∀ Q : Queue, Change Q (Q.down s) (if s = .deq then { deq := -1 } else { enq := -1 }) := fun Q => by
    cases s with
    | deq => exact .downDeq Q
    | enq => exact .downEnq Q
    | evnt => exact absurd rfl hs
  cases g with
  | poll => rw [pass] at h; split at h <;> cases h; exacts [hdown Q, .refl Q]
  | wait => rw [pass] at h; split at h <;> cases h; exact hdown Q
  | timed t =>
    rw [pass] at h
    split at h <;> cases h
    · have hd := hdown Q.tick
      exact { hd with clock := ⟨1, fun _ => rfl⟩ }
    · exact .tick Q

theorem pass_free {s : Sem} {b : Bool} (h : Q.pass s g = some (b, Q')) : Q'.free = Q.free := by
  cases g <;> rw [pass] at h <;> split at h <;> cases h <;> rfl

/-- What an add function does under a request of `n` slots and `v` elements. -/
def Added (Q : Queue) (n v : ℕ) (r : Status × Queue) : Prop :=
  (r.1 = .ok ∧ ∃ it es, Change Q r.2 { new := [it], count := 1, deq := 1, enq := -1, events := es, uses := true } ∧ Came Q r.2 n v it ∧
    ∀ e ∈ es, e = .init ∨ e = .nonempty ∨ e = .limit ∨ e = .level) ∨ (r.1 ≠ .ok ∧ Change Q r.2 {})

/-- **Adding through a gate.** -/
theorem add_added {n v : ℕ} {enqueue : Queue → Status × Queue} {r : Status × Queue} (h : Q.add g enqueue = some r)
    (hq : ∀ Q, Queued Q n v (enqueue Q)) : Added Q n v r := by
  obtain ⟨⟨b, Q₁⟩, hp, rfl⟩ := Option.map_eq_some_iff.1 h
  have h₁ := pass_change hp (by decide)
  cases b with
  | false => exact .inr ⟨by simp, h₁⟩
  | true =>
    simp only [if_true, reduceCtorEq, if_false] at h₁ ⊢
    rw [added]
    rcases hq Q₁ with ⟨hok, it, es, h₂, hc, hes⟩ | ⟨hno, h₂⟩
    · rw [if_pos hok]
      have h₃ := ((h₁.trans h₂).trans (.upDeq _)).trans checkLevel_change
      refine .inl ⟨rfl, it, es ++ _, h₃.of_eq (by simp [Delta.and]; rfl), ?_, fun e he => ?_⟩
      · obtain ⟨i, hi⟩ := hc.stamp
        obtain ⟨k, hk⟩ := h₁.clock
        have hcls : Q₁.blockClass (classOf n) = Q.blockClass (classOf n) := by rw [blockClass, blockClass, pass_free hp]
        exact ⟨⟨i + k, hi.trans (hk i)⟩, hc.cls.trans hcls, hc.elems, hc.buffer.trans checkLevel_change.buffer⟩
      · rcases List.mem_append.1 he with he | he
        · rcases hes e he with h | h | h
          · exact .inl h
          · exact .inr (.inl h)
          · exact .inr (.inr (.inl h))
        · exact .inr (.inr (.inr (mem_raisesIf.1 he).2.2))
    · rw [if_neg hno]
      exact .inr ⟨hno, ((h₁.trans h₂).trans (.upEnq _)).of_eq (by simp [Delta.and])⟩

/-! ## Removing -/

/-- The next item is taken and counted. -/
theorem taken_change {Q₁ : Queue} (h : Q.takeItem = some (it, Q₁)) :
    Q₁.hdr = Q.hdr ∧ Change Q (Q₁.setHdr { Q₁.hdr with count := Q₁.hdr.count - 1 }) { count := -1 } := by
  have hlen := congrArg List.length (items_takeItem h)
  have hmem : ∀ i ∈ Q₁.items, i ∈ Q.items := fun i hi => by rw [items_takeItem h]; exact List.mem_cons_of_mem _ hi
  rw [List.length_cons] at hlen
  have hlen' : (Q₁.items.length : ℤ) = Q.items.length + -1 := by omega
  rw [takeItem] at h
  split at h <;> cases h
  · exact ⟨rfl, { Change.refl Q with count := rfl, len := hlen', mem := fun i hi => .inr (hmem i hi) }⟩
  · exact ⟨rfl, { Change.refl Q with count := rfl, len := hlen', mem := fun i hi => .inr (hmem i hi) }⟩

theorem expired_change : Change Q (Q.expired it).2 {} := by
  rw [expired]
  split
  · exact .tick Q
  · exact .refl Q

/-- **Removing an item**: `EMPTY` is raised if it was the last one. -/
theorem postDeq_change {Q₁ : Queue} (h : Q.takeItem = some (it, Q₁)) : ∃ es,
    Change Q (Q₁.postDeq it).2 { count := -1, events := es } ∧
    (.empty ∈ es ↔ Q.hdr.count = 1 ∧ Q.subscribed .empty = true) ∧ ∀ e ∈ es, e = .empty ∨ e = .time := by
  obtain ⟨hh, h₁⟩ := taken_change h
  set Q₂ := Q₁.setHdr { Q₁.hdr with count := Q₁.hdr.count - 1 } with hQ₂
  have h₂ : Change Q₂ ((if Q₁.hdr.count = 1 then Q₂.clearEmpty else Q₂).expired it).2 {} := by
    split
    · exact clearEmpty_change.trans expired_change
    · exact expired_change
  have h₃ := h₁.trans h₂
  have h₄ := h₃.trans (raise_change (Q₁.hdr.count = 1) (e := .empty) (by decide) (by decide))
  have hsub := h₃.subs .empty (by decide)
  have hexp : ((if Q₁.hdr.count = 1 then Q₂.clearEmpty else Q₂).expired it).1 = (Q₁.postDeq it).1 := rfl
  have h₅ := h₄.trans (raise_change ((Q₁.postDeq it).1 = true) (e := .time) (by decide) (by decide))
  refine ⟨_ ++ _, (h₅.trans (.putBlock _ it)).of_eq (by simp [Delta.and]; rfl), ?_, fun e he => ?_⟩
  · rw [List.mem_append, mem_raisesIf, mem_raisesIf, hsub, hh]
    simp [Delta.and]
  · rcases List.mem_append.1 he with he | he
    · exact .inl (mem_raisesIf.1 he).2.2
    · exact .inr (mem_raisesIf.1 he).2.2

/-- What a remove function does: `k` items leave. -/
def Left (Q Q' : Queue) : Prop := ∃ (k : ℕ) (es : List Event),
  Change Q Q' { count := -k, deq := -k, enq := k, events := es } ∧
  (.empty ∈ es ↔ 0 < Q.hdr.count ∧ Q'.hdr.count = 0 ∧ Q.subscribed .empty = true) ∧ ∀ e ∈ es, e = .empty ∨ e = .time

theorem left_of_change (h : Change Q Q' {}) : Left Q Q' := by
  refine ⟨0, [], h, ?_, by simp⟩
  have := h.count
  simp only [add_zero] at this
  simp only [List.not_mem_nil, false_iff]
  omega

/-- **Removing through a gate**, by induction on the attempts that are left. -/
theorem removeLoop_left {n : ℕ} {u : UserBuffer} {r : Option Item × UserBuffer × Queue}
    (h : Q.removeLoop g n u = some r) (hc : Q.hdr.count = Q.items.length) : Left Q r.2.2 := by
  induction n generalizing Q u with
  | zero => cases h
  | succ n ih =>
    rw [removeLoop] at h
    split at h
    · cases h
    · next Q₁ hp =>
      cases h
      exact left_of_change (pass_change hp (by decide))
    · next Q₁ hp =>
      have h₁ := pass_change hp (by decide)
      simp only [if_true] at h₁
      cases htake : Q₁.takeItem with
      | none =>
        simp only [htake, Option.some.injEq] at h
        subst h
        exact left_of_change ((h₁.trans (.upDeq _)).of_eq (by simp [Delta.and]))
      | some p =>
        obtain ⟨it, Q₂⟩ := p
        obtain ⟨es, h₂, hempty, hes⟩ := postDeq_change htake
        have h₃ := (h₁.trans h₂).trans (.upEnq _)
        have hone : Left Q ((Q₂.postDeq it).2.up .enq) := by
          refine ⟨1, es, h₃.of_eq (by simp [Delta.and]), ?_, hes⟩
          have hcount := h₃.count
          simp only [Delta.and, zero_add, add_zero] at hcount
          rw [hempty, h₁.subs .empty (by decide), h₁.count]
          simp only [add_zero, List.not_mem_nil, not_false_eq_true, and_true]
          constructor
          · rintro ⟨h, hs⟩
            exact ⟨by omega, by omega, hs⟩
          · rintro ⟨-, h, hs⟩
            exact ⟨by omega, hs⟩
        simp only [htake] at h
        split at h
        · -- the item was dropped
          have hc' : ((Q₂.postDeq it).2.up .enq).hdr.count = ((Q₂.postDeq it).2.up .enq).items.length := by
            rw [h₃.count, h₃.len, hc]
          obtain ⟨k, es', h₄, hempty', hes'⟩ := ih h hc'
          obtain ⟨k₀, es₀, h₀, hempty₀, hes₀⟩ := hone
          refine ⟨k₀ + k, es₀ ++ es', (h₀.trans h₄).of_eq (by simp [Delta.and, add_comm]), ?_, fun e he => ?_⟩
          · have hcount₀ := h₀.count
            have hcount₄ := h₄.count
            have hlen := h₄.len
            simp only at hcount₀ hcount₄ hlen
            rw [List.mem_append, hempty₀, hempty', h₀.subs .empty (by decide), hempty₀]
            have hpos : 0 ≤ ((Q₂.postDeq it).2.up .enq).hdr.count := by rw [hc']; omega
            have hend : 0 ≤ r.2.2.hdr.count := by omega
            constructor
            · rintro (⟨h, h', hs⟩ | ⟨h, h', hs, -⟩)
              · exact ⟨h, by omega, hs⟩
              · exact ⟨by omega, h', hs⟩
            · rintro ⟨h, h', hs⟩
              by_cases hz : ((Q₂.postDeq it).2.up .enq).hdr.count = 0
              · exact .inl ⟨h, hz, hs⟩
              · exact .inr ⟨by omega, h', hs, fun hh => hz hh.2.1⟩
          · rcases List.mem_append.1 he with he | he
            · exact hes₀ e he
            · exact hes' e he
        · cases h
          exact hone

/-! ## Cleaning -/

/-- Nothing is raised, whatever is dropped. -/
theorem cleanLoop_change {t : Timespec} {n : ℕ} : ∃ k : ℕ, Change Q (Q.cleanLoop t n) { count := -k, deq := -k, enq := k } := by
  induction n generalizing Q with
  | zero => exact ⟨0, .refl Q⟩
  | succ n ih =>
    rw [cleanLoop]
    split
    swap
    · exact ⟨0, .refl Q⟩
    cases hf : Q.fifo with
    | nil => exact ⟨0, ((Change.downDeq Q).trans (.upDeq _)).of_eq (by simp [Delta.and])⟩
    | cons it l =>
      dsimp only
      split
      swap
      · exact ⟨0, (((Change.downDeq Q).trans (.tick _)).trans (.upDeq _)).of_eq (by simp [Delta.and])⟩
      have hdrop : Change (Q.down .deq).tick ((Q.down .deq).tick.drop it l) { count := -1, enq := 1 } :=
        { Change.refl (Q.down .deq).tick with
          count := rfl
          len := by simp [items, drop, putBlock, up, tick, down, hf, add_assoc]
          enq := rfl
          mem := fun i hi => by
            simp only [items, drop, putBlock, up, tick, down, hf, List.mem_append, List.mem_cons] at hi ⊢
            tauto }
      obtain ⟨k, hk⟩ := ih (Q := (Q.down .deq).tick.drop it l)
      exact ⟨1 + k, ((((Change.downDeq Q).trans (.tick _)).trans hdrop).trans hk).of_eq (by simp [Delta.and, add_comm])⟩

end Queue

end LibShr
