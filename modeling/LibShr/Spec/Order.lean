import LibShr.Spec.Expire
import LibShr.Spec.Counts

/-!
# The order of the items

Where a call puts an item, and which one it takes. Every other part of a call leaves the stack and the
FIFO as they are, with the two settings that tell where the next item goes and how many there may be.
-/

namespace LibShr

/-- What the item of a call carries. -/
def Call.payload : Call → Option Payload
  | .add _ value length => some [(SH_STRM_T, (value.getD []).take length.toNat)]
  | .addv _ vector => some ((vector.getD []).map SqVec.elem)
  | _ => none

/-- A call that does not wait as long as it takes. -/
def Call.Prompt : Call → Prop
  | .add g _ _ | .addv g _ | .remove g _ => g ≠ .wait
  | _ => True

namespace Queue

/-- `Q'` holds the items of `Q`, each where it was. -/
structure Stays (Q Q' : Queue) : Prop where
  stack : Q'.stack = Q.stack
  fifo : Q'.fifo = Q.fifo
  level : Q'.hdr.level = Q.hdr.level
  depth : Q'.hdr.depth = Q.hdr.depth

/-- The item was put on the stack, or behind the FIFO. -/
structure Puts (Q : Queue) (it : Item) (Q' : Queue) : Prop where
  stack : Q'.stack = if Q.onStack then it :: Q.stack else Q.stack
  fifo : Q'.fifo = if Q.onStack then Q.fifo else Q.fifo ++ [it]
  level : Q'.hdr.level = Q.hdr.level
  depth : Q'.hdr.depth = Q.hdr.depth

/-- The item was taken from the top of the stack, or from the front of the FIFO where the stack is empty. -/
structure Takes (Q : Queue) (it : Item) (Q' : Queue) : Prop where
  served : (Q.stack = it :: Q'.stack ∧ Q'.fifo = Q.fifo) ∨ (Q.stack = [] ∧ Q'.stack = [] ∧ Q.fifo = it :: Q'.fifo)
  level : Q'.hdr.level = Q.hdr.level
  depth : Q'.hdr.depth = Q.hdr.depth

variable {Q Q' Q'' Q₁ : Queue} {it : Item} {g : Gate} {e : Event} {s : Sem} {b : Bool} {q : Option ShrQ} {c : Call} {a : Answer} {p : Payload}

theorem Stays.refl (Q : Queue) : Stays Q Q := ⟨rfl, rfl, rfl, rfl⟩

theorem Stays.trans (h : Stays Q Q') (h' : Stays Q' Q'') : Stays Q Q'' :=
  ⟨h'.stack.trans h.stack, h'.fifo.trans h.fifo, h'.level.trans h.level, h'.depth.trans h.depth⟩

theorem Puts.stays (h : Puts Q it Q') (h' : Stays Q' Q'') : Puts Q it Q'' :=
  ⟨h'.stack.trans h.stack, h'.fifo.trans h.fifo, h'.level.trans h.level, h'.depth.trans h.depth⟩

theorem Takes.stays (h : Takes Q it Q') (h' : Stays Q' Q'') : Takes Q it Q'' := by
  refine ⟨?_, h'.level.trans h.level, h'.depth.trans h.depth⟩
  rw [h'.stack, h'.fifo]
  exact h.served

/-- What was put after a part that keeps the items, the count and the mode. -/
theorem Stays.puts (h : Stays Q Q') (hmode : Q'.onStack = Q.onStack) (h' : Puts Q' it Q'') : Puts Q it Q'' := by
  refine ⟨?_, ?_, h'.level.trans h.level, h'.depth.trans h.depth⟩
  · rw [h'.stack, hmode, h.stack]
  · rw [h'.fifo, hmode, h.fifo]

theorem Stays.takes (h : Stays Q Q') (h' : Takes Q' it Q'') : Takes Q it Q'' := by
  refine ⟨?_, h'.level.trans h.level, h'.depth.trans h.depth⟩
  rw [← h.stack, ← h.fifo]
  exact h'.served

/-- The next item is stacked as before where nothing that matters has changed. -/
theorem onStack_change (h : Stays Q Q') {δ : Delta} (hch : Change Q Q' δ) (hδ : δ.count = 0) : Q'.onStack = Q.onStack := by
  have hcount : Q'.hdr.count = Q.hdr.count := by
    rw [hch.count, hδ, add_zero]
  unfold onStack
  rw [hch.modes FLAG_LIFO_ON_LEVEL (by decide), hcount, h.level]

/-! ## The parts of a call -/

theorem stays_addEvent : Stays Q (Q.addEvent e) := by
  unfold addEvent
  split
  · exact ⟨rfl, rfl, rfl, rfl⟩
  · exact .refl Q

theorem stays_raise {c : Prop} [Decidable c] : Stays Q (Q.raise c e) := by
  unfold raise
  split
  · exact stays_addEvent
  · exact .refl Q

theorem stays_setFlag (f : ℤ) : Stays Q (Q.setFlag f) := by
  unfold setFlag
  split
  · exact ⟨rfl, rfl, rfl, rfl⟩
  · exact .refl Q

theorem stays_clearFlag (f : ℤ) : Stays Q (Q.clearFlag f) := by
  unfold clearFlag
  split
  · exact .refl Q
  · exact ⟨rfl, rfl, rfl, rfl⟩

theorem stays_activate : Stays Q Q.activate := by
  unfold activate
  split
  · exact (stays_setFlag _).trans stays_addEvent
  · exact .refl Q

theorem stays_updateEmpty : Stays Q Q.updateEmpty := by
  unfold updateEmpty
  split
  · exact ⟨rfl, rfl, rfl, rfl⟩
  · exact ⟨rfl, rfl, rfl, rfl⟩

theorem stays_clearEmpty : Stays Q Q.clearEmpty := by
  unfold clearEmpty
  split
  · exact ⟨rfl, rfl, rfl, rfl⟩
  · exact .refl Q

theorem stays_expired : Stays Q (Q.expired it).2 := by
  unfold expired
  split
  · exact ⟨rfl, rfl, rfl, rfl⟩
  · exact .refl Q

theorem stays_takeBlock (k : ℕ) : Stays Q (Q.takeBlock k).2.2 := by
  unfold takeBlock
  split
  · exact .refl Q
  · exact ⟨rfl, rfl, rfl, rfl⟩

theorem stays_copyIn {n : ℕ} {v : ℤ} {fill : (ℤ → ℤ) → Timespec → ℤ → ℤ → ℤ} : Stays Q (Q.copyIn n v fill p).2 := by
  have h : Stays Q (Q.tick.setHdr { Q.hdr with buffer := max Q.hdr.buffer (n * 8 + v) }) := ⟨rfl, rfl, rfl, rfl⟩
  have h' := h.trans (stays_takeBlock (classOf n))
  exact ⟨h'.stack, h'.fifo, h'.level, h'.depth⟩

theorem stays_pass (h : Q.pass s g = some (b, Q')) : Stays Q Q' := by
  cases g <;> rw [pass] at h <;> split at h <;> cases h <;> exact ⟨rfl, rfl, rfl, rfl⟩

theorem stays_postEnq {count : ℤ} : Stays Q (Q.postEnq count) := by
  unfold postEnq
  dsimp only
  refine ((Stays.trans ?_ stays_activate).trans stays_raise).trans stays_raise
  split
  · exact stays_updateEmpty
  · exact .refl Q

theorem stays_postDeq : Stays Q (Q.postDeq it).2 := by
  unfold postDeq
  dsimp only
  have h₀ : Stays Q (Q.setHdr { Q.hdr with count := Q.hdr.count - 1 }) := ⟨rfl, rfl, rfl, rfl⟩
  have h₁ : Stays Q (if Q.hdr.count = 1 then (Q.setHdr { Q.hdr with count := Q.hdr.count - 1 }).clearEmpty
      else Q.setHdr { Q.hdr with count := Q.hdr.count - 1 }) := by
    split
    · exact h₀.trans stays_clearEmpty
    · exact h₀
  exact (((h₁.trans stays_expired).trans stays_raise).trans stays_raise).trans ⟨rfl, rfl, rfl, rfl⟩

/-! ## Putting -/

theorem enqData_puts : Puts Q it (Q.enqData it) := by
  have hlink : Puts Q it ((Q.link it).setHdr { Q.hdr with count := Q.hdr.count + 1 }) := by
    unfold link
    by_cases hs : Q.onStack = true
    · rw [if_pos hs]
      exact ⟨(if_pos hs).symm, (if_pos hs).symm, rfl, rfl⟩
    · rw [if_neg hs]
      exact ⟨(if_neg hs).symm, (if_neg hs).symm, rfl, rfl⟩
  exact hlink.stays stays_postEnq

def PutsPayload (Q : Queue) (p : Payload) (r : Status × Queue) : Prop := r.1 = .ok ∧ ∃ it, it.payload = p ∧ Puts Q it r.2

theorem copied_puts {c : Item × Queue} (h : Stays Q c.2) (hch : Change Q c.2 {}) (hp : c.1.payload = p) :
    PutsPayload Q p (.ok, c.2.enqData c.1) :=
  ⟨rfl, c.1, hp, h.puts (onStack_change h hch rfl) enqData_puts⟩

theorem enq_puts {value : List UInt8} {length type : ℤ} (hl : 0 < length) :
    PutsPayload Q [(type, value.take length.toNat)] (Q.enq (some value) length type) := by
  unfold enq
  dsimp only
  rw [if_neg (not_le.2 hl)]
  exact copied_puts stays_copyIn copyIn_change rfl

theorem enqVector_puts {vs : List SqVec} (h : acceptsVector vs = true) : PutsPayload Q (vs.map SqVec.elem) (Q.enqVector vs) := by
  match vs, h with
  | [v], h =>
    obtain ⟨hbase, hlen⟩ := Bool.and_eq_true_iff.1 h
    obtain ⟨base, hb⟩ := Option.isSome_iff_exists.1 hbase
    have he : v.elem = (v.type, base.take v.len.toNat) := by rw [SqVec.elem, hb]; rfl
    rw [List.map_singleton, he]
    show PutsPayload Q _ (Q.enq v.base v.len v.type)
    rw [hb]
    exact enq_puts (decide_eq_true_iff.1 hlen)
  | v :: v' :: vs, h =>
    have hlen : ¬(v :: v' :: vs).length < 2 := by simp
    have hvalid : ¬(v :: v' :: vs).any SqVec.invalid = true := by
      change (!(v :: v' :: vs).any SqVec.invalid) = true at h
      rw [Bool.not_eq_true'] at h
      rw [h]
      exact Bool.false_ne_true
    show PutsPayload Q _ (Q.enqv (v :: v' :: vs))
    unfold enqv
    rw [if_neg hlen]
    dsimp only
    rw [if_neg hvalid]
    exact copied_puts stays_copyIn copyIn_change rfl

/-- Through a gate: the item is put if there is room. -/
theorem add_puts {enqueue : Queue → Status × Queue} {r : Status × Queue} (h : Q.add g enqueue = some r)
    (hq : ∀ Q, PutsPayload Q p (enqueue Q)) :
    (0 < Q.sem .enq ∧ PutsPayload Q p r) ∨ (¬0 < Q.sem .enq ∧ r.1 = .errLimit ∧ Stays Q r.2) := by
  obtain ⟨⟨b, Q₁⟩, hpass, rfl⟩ := Option.map_eq_some_iff.1 h
  cases b with
  | false => exact .inr ⟨pass_false hpass, rfl, stays_pass hpass⟩
  | true =>
    obtain ⟨hok, it, hit, hputs⟩ := hq Q₁
    refine .inl ⟨(pass_true hpass).1, ?_⟩
    simp only [if_true, added, hok]
    have hmode : Q₁.onStack = Q.onStack := by
      have hh := (pass_true hpass).2.1
      unfold onStack
      rw [hh]
    refine ⟨rfl, it, hit, (stays_pass hpass).puts hmode (hputs.stays ?_)⟩
    have hup : Stays (enqueue Q₁).2 ((enqueue Q₁).2.up .deq) := ⟨rfl, rfl, rfl, rfl⟩
    exact hup.trans stays_raise

theorem addCall_puts {ok : Bool} {enqueue : Queue → Status × Queue} {h' : ShrQ} (h : Q.addCall (some h') g ok enqueue = some (a, Q'))
    (hm : h'.mode.canWrite = true) (hg : g ≠ .timed none) (hok : ok = true) (hq : ∀ Q, PutsPayload Q p (enqueue Q)) :
    (0 < Q.sem .enq ∧ a = .status .ok ∧ ∃ it, it.payload = p ∧ Puts Q it Q') ∨
      (¬0 < Q.sem .enq ∧ a = .status .errLimit ∧ Stays Q Q') := by
  have hargs : ¬(g = .timed none ∨ ok = false) := by
    rw [hok]
    simp [hg]
  unfold addCall at h
  dsimp only at h
  rw [if_neg hargs, if_pos hm] at h
  obtain ⟨r, hr, he⟩ := Option.map_eq_some_iff.1 h
  cases he
  rcases add_puts hr hq with ⟨hroom, hst, hput⟩ | ⟨hfull, hst, hstays⟩
  · exact .inl ⟨hroom, by rw [hst], hput⟩
  · exact .inr ⟨hfull, by rw [hst], hstays⟩

/-- **A call that adds** puts its item, or finds no room. -/
theorem step_puts (hc : c.adds q = true) (hp : c.payload = some p) (h : Q.step q c = some (a, Q')) :
    (0 < Q.sem .enq ∧ a = .status .ok ∧ ∃ it, it.payload = p ∧ Puts Q it Q') ∨
      (¬0 < Q.sem .enq ∧ a = .status .errLimit ∧ Stays Q Q') := by
  cases c with
  | add g value length =>
    simp only [Call.adds, Bool.and_eq_true, decide_eq_true_eq] at hc
    obtain ⟨⟨⟨hq, hg⟩, hv⟩, hl⟩ := hc
    obtain ⟨h', rfl, hm⟩ := (Option.any_eq_true _ _).1 hq
    obtain ⟨v, rfl⟩ := Option.isSome_iff_exists.1 hv
    cases hp
    exact addCall_puts h hm hg (by simp [hl]) fun _ => enq_puts hl
  | addv g vector =>
    simp only [Call.adds, Bool.and_eq_true, decide_eq_true_eq] at hc
    obtain ⟨⟨hq, hg⟩, hv⟩ := hc
    obtain ⟨h', rfl, hm⟩ := (Option.any_eq_true _ _).1 hq
    obtain ⟨vs, rfl, hvs⟩ := (Option.any_eq_true _ _).1 hv
    cases hp
    refine addCall_puts h hm hg ?_ fun _ => enqVector_puts hvs
    cases vs with
    | nil => cases hvs
    | cons v vs => simp
  | _ => cases hp

/-! ## Taking -/

theorem takeItem_takes (h : Q.takeItem = some (it, Q')) : Takes Q it Q' := by
  unfold takeItem at h
  split at h
  · next l hs =>
    cases h
    exact ⟨.inl ⟨hs, rfl⟩, rfl, rfl⟩
  · next l hs hf =>
    cases h
    exact ⟨.inr ⟨hs, hs, hf⟩, rfl, rfl⟩
  · cases h

/-- An item is not dropped where nothing is discarded. -/
theorem postDeq_keeps (hd : Q.discards = false) (hp : Q.pass .deq g = some (true, Q₁)) (ht : Q₁.takeItem = some (it, Q')) :
    (Q'.postDeq it).1 = false := by
  have hh : Q'.hdr = Q.hdr := (taken_change ht).1.trans (pass_true hp).2.1
  unfold discards at hd
  rw [postDeq_fst, hh]
  unfold Header.expires
  rw [hd, Bool.false_and]

/-- Where nothing is discarded, the first attempt counts. -/
theorem removeLoop_takes {n : ℕ} {u : UserBuffer} {r : Option Item × UserBuffer × Queue} (h : Q.removeLoop g n u = some r)
    (hd : Q.discards = false) (hdeq : Q.items.length ≤ Q.sem .deq) :
    (r.1 = none ∧ Q.items = [] ∧ Stays Q r.2.2) ∨ ∃ it, r.1 = some it ∧ Takes Q it r.2.2 := by
  cases n with
  | zero => cases h
  | succ n =>
    rw [removeLoop] at h
    split at h
    · cases h
    · next Q₁ hp =>
      cases h
      refine .inl ⟨rfl, List.length_eq_zero_iff.1 ?_, stays_pass hp⟩
      have := pass_false hp
      omega
    · next Q₁ hp =>
      cases ht : Q₁.takeItem with
      | none =>
        simp only [ht, Option.some.injEq] at h
        subst h
        refine .inl ⟨rfl, (items_pass hp).symm.trans (takeItem_none ht), ?_⟩
        exact (stays_pass hp).trans ⟨rfl, rfl, rfl, rfl⟩
      | some x =>
        obtain ⟨it, Q₂⟩ := x
        simp only [ht, postDeq_keeps hd hp ht, Bool.false_eq_true, if_false, Option.some.injEq] at h
        subst h
        refine .inr ⟨it, rfl, (stays_pass hp).takes ((takeItem_takes ht).stays ?_)⟩
        exact stays_postDeq.trans ⟨rfl, rfl, rfl, rfl⟩

/-- **A removal** answers with the item it took, or finds none. -/
theorem step_takes {u : Option UserBuffer} {v : UserBuffer} (hr : Removal q g u v) (hd : Q.discards = false)
    (hdeq : Q.items.length ≤ Q.sem .deq) (h : Q.step q (.remove g u) = some (a, Q')) :
    (∃ v', a = .noItem .errEmpty v') ∧ Q.items = [] ∧ Stays Q Q' ∨ ∃ it v', a = .item it v' ∧ Takes Q it Q' := by
  rcases step_remove h with ⟨-, -, hno⟩ | ⟨v', r, -, hloop, rfl, rfl⟩
  · exact absurd hr (hno v)
  · rcases removeLoop_takes hloop hd hdeq with ⟨hnone, hnil, hstays⟩ | ⟨it, hsome, htakes⟩
    · rw [hnone]
      exact .inl ⟨⟨r.2.1, rfl⟩, hnil, hstays⟩
    · rw [hsome]
      exact .inr ⟨it, r.2.1, rfl, htakes⟩

/-! ## Returning -/

/-- Only a gate that waits can hold up a call. -/
theorem pass_some (hw : g = .wait → 0 < Q.sem s) : ∃ b Q', Q.pass s g = some (b, Q') := by
  cases g with
  | poll =>
    rw [pass]
    split
    · exact ⟨_, _, rfl⟩
    · exact ⟨_, _, rfl⟩
  | wait =>
    rw [pass, if_pos (hw rfl)]
    exact ⟨_, _, rfl⟩
  | timed t =>
    rw [pass]
    split
    · exact ⟨_, _, rfl⟩
    · exact ⟨_, _, rfl⟩

theorem addCall_some {ok : Bool} {enqueue : Queue → Status × Queue} (hw : g = .wait → 0 < Q.sem .enq) :
    (Q.addCall q g ok enqueue).isSome = true := by
  unfold addCall
  cases q with
  | none => rfl
  | some q =>
    dsimp only
    split
    · rfl
    · split
      · obtain ⟨b, Q', hp⟩ := pass_some hw
        rw [add, hp]
        rfl
      · rfl

/-- A removal that does not have to wait, where nothing is discarded. -/
theorem removeLoop_some {n : ℕ} {u : UserBuffer} (hd : Q.discards = false) (hw : g = .wait → 0 < Q.sem .deq) :
    (Q.removeLoop g (n + 1) u).isSome = true := by
  obtain ⟨b, Q₁, hp⟩ := pass_some hw
  rw [removeLoop, hp]
  cases b with
  | false => rfl
  | true =>
    dsimp only
    cases ht : Q₁.takeItem with
    | none => rfl
    | some x =>
      obtain ⟨it, Q₂⟩ := x
      dsimp only
      rw [postDeq_keeps hd hp ht, if_neg Bool.false_ne_true]
      rfl

/-- A removal that does not wait: each attempt but the last takes an item away. -/
theorem removeLoop_ends {n : ℕ} {u : UserBuffer} (hg : g ≠ .wait) (hn : Q.items.length < n) : (Q.removeLoop g n u).isSome = true := by
  induction n generalizing Q u with
  | zero => exact absurd hn (Nat.not_lt_zero _)
  | succ n ih =>
    obtain ⟨b, Q₁, hp⟩ := pass_some (Q := Q) (s := .deq) fun hw => absurd hw hg
    rw [removeLoop, hp]
    cases b with
    | false => rfl
    | true =>
      dsimp only
      cases ht : Q₁.takeItem with
      | none => rfl
      | some x =>
        obtain ⟨it, Q₂⟩ := x
        dsimp only
        split
        · refine ih ?_
          have hlen := congrArg List.length ((items_pass hp).symm.trans (items_takeItem ht))
          rw [List.length_cons] at hlen
          rw [items_up, items_postDeq]
          omega
        · rfl

theorem removeCall_some {u : Option UserBuffer} (hd : Q.discards = false) (hw : g = .wait → 0 < Q.sem .deq) :
    (Q.removeCall q g u).isSome = true := by
  unfold removeCall
  split
  · split
    · rfl
    · split
      · rw [Option.isSome_map]
        exact removeLoop_some hd hw
      · rfl
  · rfl

/-- Every call that does not wait ends. -/
theorem step_some (hc : c.Prompt) : (Q.step q c).isSome = true := by
  have hhandled : ∀ {ok : Bool} {Q' : Queue}, (Q.handled q ok Q').isSome = true := by
    intro ok Q'
    unfold handled
    split <;> rfl
  cases c with
  | add g value length => exact addCall_some fun hg => absurd hg hc
  | addv g vector => exact addCall_some fun hg => absurd hg hc
  | remove g u =>
    show (Q.removeCall q g u).isSome = true
    unfold removeCall
    split
    · split
      · rfl
      · split
        · rw [Option.isSome_map, remove]
          exact removeLoop_ends hc (Nat.lt_succ_self _)
        · rfl
    · rfl
  | event => rfl
  | clean t => cases q <;> cases t <;> rfl
  | count => rfl
  | buffer => rfl
  | isSubscribed e => rfl
  | _ => exact hhandled

end Queue

end LibShr
