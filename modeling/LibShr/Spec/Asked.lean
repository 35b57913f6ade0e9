import LibShr.Spec.Order

/-!
# What is asked for

Every request that gets past the gate, and is not refused for its value, is noted in `BUFFER`: the slots it asks for and room
for its elements. Nothing else changes `BUFFER`. A vector of several elements is noted before its elements are looked at, so that one with an
invalid element counts as well.
-/

namespace LibShr

/-- Bytes asked for by a request for slots and elements. -/
def requestBytes (r : ℕ × ℕ) : ℤ := r.1 * 8 + r.2 * SIZEOF_VEC

/-- The most that was asked for. -/
def mostAsked (rs : List (ℕ × ℕ)) : ℤ := (rs.map requestBytes).foldl max 0

/-- The vectors a block is asked for. -/
def reservesVector : List SqVec → Bool
  | [] => false
  | [v] => v.base.isSome && 0 < v.len
  | _ => true

/-- A call that asks for a block once it has passed the gate. -/
def Call.reserves (q : Option ShrQ) : Call → Bool
  | .add g value length => q.any (·.mode.canWrite) && g ≠ .timed none && value.isSome && 0 < length
  | .addv g vector => q.any (·.mode.canWrite) && g ≠ .timed none && vector.any reservesVector
  | _ => false

theorem Call.reserves_of_adds {q : Option ShrQ} {c : Call} (h : c.adds q = true) : c.reserves q = true := by
  cases c with
  | add g value length => exact h
  | addv g vector =>
    simp only [Call.adds, Bool.and_eq_true] at h
    simp only [Call.reserves, Bool.and_eq_true]
    refine ⟨h.1, ?_⟩
    obtain ⟨vs, rfl, hvs⟩ := (Option.any_eq_true _ _).1 h.2
    rcases vs with _ | ⟨v, _ | ⟨v', vs⟩⟩
    · cases hvs
    · exact hvs
    · rfl
  | _ => cases h

theorem mostAsked_snoc (rs : List (ℕ × ℕ)) (r : ℕ × ℕ) : mostAsked (rs ++ [r]) = max (mostAsked rs) (requestBytes r) := by
  rw [mostAsked, List.map_append, List.foldl_append]
  rfl

/-- What is positive is within the most that was asked for if some request asked for it. -/
theorem le_mostAsked {n : ℤ} (hn : 0 < n) (rs : List (ℕ × ℕ)) : n ≤ mostAsked rs ↔ ∃ r ∈ rs, n ≤ requestBytes r := by
  induction rs using List.reverseRecOn with
  | nil =>
    simp only [List.not_mem_nil, false_and, exists_false, iff_false, not_le]
    exact hn
  | append_singleton rs r ih =>
    rw [mostAsked_snoc, le_max_iff, ih]
    simp only [List.mem_append, List.mem_singleton, or_and_right, exists_or, exists_eq_left]

namespace Queue

variable {Q Q' Q₁ : Queue} {it : Item} {g : Gate} {e : Event} {s : Sem} {b : Bool} {q : Option ShrQ} {c : Call} {a : Answer} {n v : ℕ}

/-! ## What leaves `BUFFER` alone -/

@[simp] theorem buffer_addEvent : (Q.addEvent e).hdr.buffer = Q.hdr.buffer := by
  unfold addEvent
  split <;> rfl

@[simp] theorem buffer_raise {c : Prop} [Decidable c] : (Q.raise c e).hdr.buffer = Q.hdr.buffer := by
  unfold raise
  split
  · exact buffer_addEvent
  · rfl

@[simp] theorem buffer_setFlag (f : ℤ) : (Q.setFlag f).hdr.buffer = Q.hdr.buffer := by
  unfold setFlag
  split <;> rfl

@[simp] theorem buffer_activate : Q.activate.hdr.buffer = Q.hdr.buffer := by
  unfold activate
  split
  · rw [buffer_addEvent, buffer_setFlag]
  · rfl

@[simp] theorem buffer_updateEmpty : Q.updateEmpty.hdr.buffer = Q.hdr.buffer := by
  unfold updateEmpty
  split <;> rfl

@[simp] theorem buffer_clearEmpty : Q.clearEmpty.hdr.buffer = Q.hdr.buffer := by
  unfold clearEmpty
  split <;> rfl

@[simp] theorem buffer_expired : (Q.expired it).2.hdr.buffer = Q.hdr.buffer := by
  unfold expired
  split <;> rfl

@[simp] theorem buffer_takeBlock (k : ℕ) : (Q.takeBlock k).2.2.hdr = Q.hdr := by
  unfold takeBlock
  split <;> rfl

theorem buffer_pass (h : Q.pass s g = some (b, Q')) : Q'.hdr.buffer = Q.hdr.buffer := by
  cases g <;> rw [pass] at h <;> split at h <;> cases h <;> rfl

theorem buffer_postEnq {count : ℤ} : (Q.postEnq count).hdr.buffer = Q.hdr.buffer := by
  unfold postEnq
  dsimp only
  rw [buffer_raise, buffer_raise, buffer_activate]
  split
  · exact buffer_updateEmpty
  · rfl

theorem buffer_enqData : (Q.enqData it).hdr.buffer = Q.hdr.buffer := by
  rw [enqData, buffer_postEnq]
  rfl

theorem buffer_postDeq : (Q.postDeq it).2.hdr.buffer = Q.hdr.buffer := by
  unfold postDeq
  dsimp only
  rw [show ∀ Q : Queue, (Q.putBlock it).hdr = Q.hdr from fun _ => rfl, buffer_raise, buffer_raise, buffer_expired]
  split
  · exact buffer_clearEmpty
  · rfl

theorem buffer_takeItem (h : Q.takeItem = some (it, Q')) : Q'.hdr.buffer = Q.hdr.buffer := by
  unfold takeItem at h
  split at h <;> cases h <;> rfl

/-- By induction on the attempts that are left. -/
theorem buffer_removeLoop {n : ℕ} {u : UserBuffer} {r : Option Item × UserBuffer × Queue} (h : Q.removeLoop g n u = some r) :
    r.2.2.hdr.buffer = Q.hdr.buffer := by
  induction n generalizing Q u with
  | zero => cases h
  | succ n ih =>
    rw [removeLoop] at h
    split at h
    · cases h
    · next Q₁ hpass =>
      cases h
      exact buffer_pass hpass
    · next Q₁ hpass =>
      cases ht : Q₁.takeItem with
      | none =>
        simp only [ht, Option.some.injEq] at h
        subst h
        have hpassed : Q₁.hdr.buffer = Q.hdr.buffer := buffer_pass hpass
        exact hpassed
      | some x =>
        obtain ⟨it, Q₂⟩ := x
        have htaken : ((Q₂.postDeq it).2.up .enq).hdr.buffer = Q.hdr.buffer :=
          (buffer_postDeq.trans (buffer_takeItem ht)).trans (buffer_pass hpass)
        simp only [ht] at h
        split at h
        · exact (ih h).trans htaken
        · cases h
          exact htaken

theorem buffer_cleanLoop {t : Timespec} {n : ℕ} : (Q.cleanLoop t n).hdr.buffer = Q.hdr.buffer := by
  induction n generalizing Q with
  | zero => rfl
  | succ n ih =>
    rw [cleanLoop]
    split
    · split
      · rfl
      · split
        · exact ih
        · rfl
    · rfl

/-! ## Requests -/

/-- What an attempt to queue leaves, under a request for `n` slots and `v` elements that is made if `p`. -/
structure Asks (Q : Queue) (n v : ℕ) (p : Prop) (r : Status × Queue) : Prop where
  asked : p → r.2.hdr.buffer = max Q.hdr.buffer (requestBytes (n, v))
  not_asked : ¬p → r.2.hdr.buffer = Q.hdr.buffer
  lands : r.1 = .ok → ∃ it ∈ r.2.items, it.cls = Q.blockClass (classOf n) ∧ it.payload.length = v

theorem buffer_copyIn {v : ℤ} {fill : (ℤ → ℤ) → Timespec → ℤ → ℤ → ℤ} {p : Payload} :
    (Q.copyIn n v fill p).2.hdr.buffer = max Q.hdr.buffer (n * 8 + v) := by
  unfold copyIn
  dsimp only
  rw [buffer_takeBlock]
  rfl

theorem mem_enqData : it ∈ (Q.enqData it).items := by
  have h : Puts Q it (Q.enqData it) := enqData_puts
  rw [items, h.stack, h.fifo]
  split
  · exact List.mem_append_left _ List.mem_cons_self
  · exact List.mem_append_right _ (List.mem_append_right _ (List.mem_singleton_self it))

/-- A copied item is queued. -/
theorem asks_copied (fill : (ℤ → ℤ) → Timespec → ℤ → ℤ → ℤ) (p : Payload) {c : Prop} (hc : c) (hp : p.length = v) :
    Asks Q n v c (.ok, (Q.copyIn n (v * SIZEOF_VEC) fill p).2.enqData (Q.copyIn n (v * SIZEOF_VEC) fill p).1) :=
  ⟨fun _ => buffer_enqData.trans buffer_copyIn, fun h => absurd hc h, fun _ => ⟨_, mem_enqData, takeBlock_cls _, hp⟩⟩

theorem enq_asks {value : Option (List UInt8)} {length type : ℤ} :
    Asks Q (7 + slotsFor length.toNat) 1 (value.isSome = true ∧ 0 < length) (Q.enq value length type) := by
  cases value with
  | none => exact ⟨fun h => absurd h.1 Bool.false_ne_true, fun _ => rfl, fun h => nomatch h⟩
  | some value =>
    unfold enq
    dsimp only
    split
    · next hle => exact ⟨fun h => absurd h.2 (not_lt.2 hle), fun _ => rfl, fun h => nomatch h⟩
    · next hlt =>
      have h := asks_copied (Q := Q) (n := 7 + slotsFor length.toNat) (v := 1)
        (fun f now uid => valueWords f now uid type (value.take length.toNat)) [(type, value.take length.toNat)]
        (c := (some value).isSome = true ∧ 0 < length) ⟨rfl, not_le.1 hlt⟩ rfl
      rwa [Nat.cast_one, one_mul] at h

theorem enqVector_asks {vs : List SqVec} : Asks Q (vectorRequest vs) vs.length (reservesVector vs = true) (Q.enqVector vs) := by
  match vs with
  | [] => exact ⟨fun h => absurd h Bool.false_ne_true, fun _ => rfl, fun h => nomatch h⟩
  | [v] =>
    have h : Asks Q (7 + slotsFor v.len.toNat) 1 (v.base.isSome = true ∧ 0 < v.len) (Q.enq v.base v.len v.type) := enq_asks
    have hp : reservesVector [v] = true ↔ v.base.isSome = true ∧ 0 < v.len := by
      simp only [reservesVector, Bool.and_eq_true, decide_eq_true_eq]
    exact ⟨fun hr => h.asked (hp.1 hr), fun hr => h.not_asked fun hc => hr (hp.2 hc), h.lands⟩
  | v :: v' :: vs =>
    have hlen : ¬(v :: v' :: vs).length < 2 := by simp
    show Asks Q (7 + vectorSlots (v :: v' :: vs)).toNat (v :: v' :: vs).length (true = true) (Q.enqv (v :: v' :: vs))
    unfold enqv
    rw [if_neg hlen]
    dsimp only
    split
    · have hcopied : (Q.copyVector (v :: v' :: vs)).2.hdr.buffer =
          max Q.hdr.buffer (requestBytes ((7 + vectorSlots (v :: v' :: vs)).toNat, (v :: v' :: vs).length)) := by
        unfold copyVector
        exact buffer_copyIn
      exact ⟨fun _ => hcopied, fun h => absurd rfl h, fun h => nomatch h⟩
    · exact asks_copied _ _ rfl (List.length_map _)

/-- Through a gate. -/
theorem add_asks {enqueue : Queue → Status × Queue} {r : Status × Queue} {p : Prop} (h : Q.add g enqueue = some r)
    (hq : ∀ Q, Asks Q n v p (enqueue Q)) : Asks Q n v (p ∧ 0 < Q.sem .enq) r := by
  obtain ⟨⟨b, Q₁⟩, hpass, rfl⟩ := Option.map_eq_some_iff.1 h
  have hbuf := buffer_pass hpass
  cases b with
  | false =>
    have hno := pass_false hpass
    exact ⟨fun h => absurd h.2 hno, fun _ => hbuf, fun h => nomatch h⟩
  | true =>
    obtain ⟨hasked, hnot, hlands⟩ := hq Q₁
    have hroom := (pass_true hpass).1
    have hcls : Q₁.blockClass (classOf n) = Q.blockClass (classOf n) := by rw [blockClass, blockClass, pass_free hpass]
    have hadded : (added (enqueue Q₁)).2.hdr.buffer = (enqueue Q₁).2.hdr.buffer := by
      unfold added
      split
      · exact buffer_raise
      · rfl
    refine ⟨fun h => ?_, fun h => ?_, fun hok => ?_⟩
    · rw [← hbuf]
      exact hadded.trans (hasked h.1)
    · rw [← hbuf]
      exact hadded.trans (hnot fun hp => h ⟨hp, hroom⟩)
    · change (added (enqueue Q₁)).1 = .ok at hok
      have hst : (enqueue Q₁).1 = .ok := by
        unfold added at hok
        split at hok
        · next h => exact h
        · exact hok
      obtain ⟨it, hit, hc, hp⟩ := hlands hst
      refine ⟨it, ?_, hc.trans hcls, hp⟩
      change it ∈ (added (enqueue Q₁)).2.items
      unfold added
      rw [if_pos hst]
      have hkept : Stays ((enqueue Q₁).2.up .deq) ((enqueue Q₁).2.up .deq).checkLevel := stays_raise
      rw [items, hkept.stack, hkept.fifo]
      exact hit

theorem addCall_asks {ok : Bool} {enqueue : Queue → Status × Queue} {p : Prop} (h : Q.addCall q g ok enqueue = some (a, Q'))
    (hq : ∀ Q, Asks Q n v p (enqueue Q)) :
    ∃ st, a = .status st ∧ Asks Q n v ((q.any (·.mode.canWrite) = true ∧ g ≠ .timed none ∧ ok = true ∧ p) ∧ 0 < Q.sem .enq) (st, Q') := by
  have hrefused : ∀ {c : Prop} {st : Status}, ¬c → st ≠ .ok → Asks Q n v c (st, Q) := fun hc hst =>
    ⟨fun h => absurd h hc, fun _ => rfl, fun h => absurd h hst⟩
  unfold addCall at h
  cases q with
  | none =>
    cases h
    exact ⟨_, rfl, hrefused (by simp) (by decide)⟩
  | some q =>
    dsimp only at h
    split at h
    · next hbad =>
      cases h
      refine ⟨_, rfl, hrefused (fun hc => ?_) (by decide)⟩
      obtain ⟨⟨-, hg, hok, -⟩, -⟩ := hc
      rcases hbad with hb | hb
      · exact hg hb
      · exact Bool.false_ne_true (hb.symm.trans hok)
    · next hargs =>
      obtain ⟨hg, hok⟩ := not_or.1 hargs
      rw [Bool.not_eq_false] at hok
      split at h
      · next hm =>
        obtain ⟨r, hr, he⟩ := Option.map_eq_some_iff.1 h
        cases he
        have hask := add_asks hr hq
        exact ⟨_, rfl, fun hc => hask.asked ⟨hc.1.2.2.2, hc.2⟩, fun hc => hask.not_asked fun hp => hc ⟨⟨hm, hg, hok, hp.1⟩, hp.2⟩, hask.lands⟩
      · next hm =>
        cases h
        exact ⟨_, rfl, hrefused (fun hc => hm hc.1.1) (by decide)⟩

theorem step_asks (hc : c.request = some (n, v)) (h : Q.step q c = some (a, Q')) :
    ∃ st, a = .status st ∧ Asks Q n v (c.reserves q = true ∧ 0 < Q.sem .enq) (st, Q') := by
  have hcongr : ∀ {p p' : Prop} {st : Status}, (p ↔ p') → Asks Q n v p (st, Q') → Asks Q n v p' (st, Q') := fun hp h =>
    ⟨fun hp' => h.asked (hp.2 hp'), fun hp' => h.not_asked fun hpp => hp' (hp.1 hpp), h.lands⟩
  cases c with
  | add g value length =>
    cases hc
    obtain ⟨st, ha, hask⟩ := addCall_asks h fun _ => enq_asks
    refine ⟨st, ha, hcongr ?_ hask⟩
    simp only [Call.reserves, Bool.and_eq_true, decide_eq_true_eq, ne_eq, and_assoc]
    tauto
  | addv g vector =>
    cases hc
    obtain ⟨st, ha, hask⟩ := addCall_asks h fun _ => enqVector_asks
    refine ⟨st, ha, hcongr ?_ hask⟩
    cases vector with
    | none => simp [Call.reserves]
    | some vs => cases vs <;> simp [Call.reserves, reservesVector, and_assoc]
  | _ => cases hc

/-- **Every other call** leaves `BUFFER` alone. -/
theorem step_buffer (hc : c.request = none) (h : Q.step q c = some (a, Q')) : Q'.hdr.buffer = Q.hdr.buffer := by
  cases c with
  | add g value length => cases hc
  | addv g vector => cases hc
  | remove g u =>
    rcases step_remove h with ⟨-, rfl, -⟩ | ⟨v, r, -, hr, -, rfl⟩
    · rfl
    · exact buffer_removeLoop hr
  | clean t =>
    rcases step_clean h with ⟨rfl, -⟩ | ⟨q', t', -, -, -, rfl⟩
    · rfl
    · exact buffer_cleanLoop
  | prod => rcases step_prod h with ⟨-, -, rfl⟩ | ⟨-, -, rfl⟩ <;> rfl
  | event =>
    rcases step_event h with ⟨-, -, rfl⟩ | ⟨-, -, rfl⟩
    · unfold takeEvent
      split
      · split <;> rfl
      · rfl
    · rfl
  | _ =>
    obtain ⟨hd, rfl, -, hb, -⟩ := step_resets rfl (by simp) h
    exact hb

end Queue

end LibShr
