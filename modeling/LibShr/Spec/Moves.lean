import LibShr.Spec.Order
import LibShr.Spec.Flags

/-!
# Where the items of a call come from and where they go

Every call puts one item in, or lets items go from the front: a removal those it drops and the one it
hands over, a clean those of the FIFO it drops. No call does both, and no other call moves an item.
-/

namespace LibShr

/-- The item an answer hands over. -/
def Answer.handed : Answer → Option Item
  | .item it _ => some it
  | _ => none

namespace Queue

/-- The items `gone` were in front: first those from the stack, then those from the FIFO. -/
def Leaves (Q : Queue) (gone : List Item) (Q' : Queue) : Prop :=
  ∃ s f, gone = s ++ f ∧ Q.stack = s ++ Q'.stack ∧ Q.fifo = f ++ Q'.fifo

/-- The calls that drop items. -/
def MayDrop (Q : Queue) : Call → Prop
  | .clean _ => True
  | .remove .. => Q.discards = true
  | _ => False

/-- A call put its item in, or items left: those that were dropped and the one that is handed over. -/
def Moves (Q : Queue) (c : Call) (a : Answer) (Q' : Queue) : Prop :=
  (a = .status .ok ∧ ∃ it, c.payload = some it.payload ∧ Puts Q it Q') ∨
    (¬(c.payload.isSome = true ∧ a = .status .ok) ∧
      ∃ dropped, Leaves Q (dropped ++ a.handed.toList) Q' ∧ (dropped ≠ [] → Q.MayDrop c))

variable {Q Q' Q₁ : Queue} {it : Item} {g : Gate} {q : Option ShrQ} {c : Call} {a : Answer} {l l' : List Item}

theorem Stays.leaves (h : Stays Q Q') : Leaves Q [] Q' := ⟨[], [], rfl, h.stack.symm, h.fifo.symm⟩

theorem Takes.leaves (h : Takes Q it Q') : Leaves Q [it] Q' := by
  rcases h.served with ⟨hs, hf⟩ | ⟨hs, hs', hf⟩
  · exact ⟨[it], [], rfl, hs, hf.symm⟩
  · exact ⟨[], [it], rfl, by rw [hs, hs']; rfl, hf⟩

/-- The stack is served first, so an item that follows one from the FIFO is from the FIFO too. -/
theorem Takes.trans_leaves (h : Takes Q it Q₁) (h' : Leaves Q₁ l Q') : Leaves Q (it :: l) Q' := by
  obtain ⟨s, f, rfl, hs', hf'⟩ := h'
  rcases h.served with ⟨hs, hf⟩ | ⟨hs, hs₁, hf⟩
  · exact ⟨it :: s, f, rfl, by rw [hs, hs']; rfl, hf ▸ hf'⟩
  · rw [hs₁] at hs'
    obtain ⟨rfl, hnil⟩ := List.append_eq_nil_iff.1 hs'.symm
    exact ⟨[], it :: f, rfl, by rw [hs, hnil]; rfl, by rw [hf, hf']; rfl⟩

theorem Leaves.stays (h : Leaves Q l Q₁) (h' : Stays Q₁ Q') : Leaves Q l Q' := by
  obtain ⟨s, f, hl, hs, hf⟩ := h
  exact ⟨s, f, hl, by rw [hs, h'.stack], by rw [hf, h'.fifo]⟩

/-- What left and what is there are the items there were. -/
theorem Leaves.items (h : Leaves Q l Q') : (Q.items : Multiset Item) = l + Q'.items := by
  obtain ⟨s, f, rfl, hs, hf⟩ := h
  unfold Queue.items
  rw [hs, hf, ← Multiset.coe_add, ← Multiset.coe_add, ← Multiset.coe_add, ← Multiset.coe_add, ← Multiset.coe_add]
  exact add_add_add_comm _ _ _ _

/-! ## Refusals -/

theorem enq_refused {value : Option (List UInt8)} {length type : ℤ} (h : (Q.enq value length type).1 ≠ .ok) :
    Stays Q (Q.enq value length type).2 := by
  cases value with
  | none => exact .refl Q
  | some value =>
    unfold enq at h ⊢
    dsimp only at h ⊢
    by_cases hl : length ≤ 0
    · rw [if_pos hl]
      exact .refl Q
    · rw [if_neg hl] at h
      exact absurd rfl h

theorem enqv_refused {vs : List SqVec} (h : (Q.enqv vs).1 ≠ .ok) : Stays Q (Q.enqv vs).2 := by
  unfold enqv at h ⊢
  by_cases hl : vs.length < 2
  · rw [if_pos hl]
    exact .refl Q
  · rw [if_neg hl] at h ⊢
    dsimp only at h ⊢
    by_cases hv : vs.any SqVec.invalid = true
    · have hcopy : Stays Q (Q.copyIn (7 + vectorSlots vs).toNat (vs.length * SIZEOF_VEC) (fun f now uid => vectorWords f now uid vs)
          (vs.map SqVec.elem)).2 := stays_copyIn
      rw [if_pos hv]
      exact hcopy
    · rw [if_neg hv] at h
      exact absurd rfl h

theorem enqVector_refused {vs : List SqVec} (h : (Q.enqVector vs).1 ≠ .ok) : Stays Q (Q.enqVector vs).2 := by
  match vs with
  | [] => exact enqv_refused h
  | [v] => exact enq_refused h
  | v :: v' :: vs => exact enqv_refused h

/-- An add that is refused moves nothing. -/
theorem addCall_refused {ok : Bool} {enqueue : Queue → Status × Queue} (h : Q.addCall q g ok enqueue = some (a, Q'))
    (ha : a ≠ .status .ok) (hq : ∀ Q, (enqueue Q).1 ≠ .ok → Stays Q (enqueue Q).2) : Stays Q Q' := by
  unfold addCall at h
  cases q with
  | none => cases h; exact .refl _
  | some q =>
    dsimp only at h
    split at h
    · cases h
      exact .refl _
    · split at h
      · obtain ⟨r, hr, he⟩ := Option.map_eq_some_iff.1 h
        cases he
        obtain ⟨⟨b, Q₁⟩, hpass, rfl⟩ := Option.map_eq_some_iff.1 hr
        refine (stays_pass hpass).trans ?_
        cases b with
        | false => exact .refl _
        | true =>
          simp only [if_true, added] at ha ⊢
          by_cases hok : (enqueue Q₁).1 = .ok
          · rw [if_pos hok] at ha
            exact absurd rfl ha
          · rw [if_neg hok]
            exact (hq Q₁ hok).trans ⟨rfl, rfl, rfl, rfl⟩
      · cases h
        exact .refl _

theorem refused_stays (hp : c.payload.isSome = true) (h : Q.step q c = some (a, Q')) (ha : a ≠ .status .ok) : Stays Q Q' := by
  cases c with
  | add g value length => exact addCall_refused h ha fun Q => enq_refused
  | addv g vector => exact addCall_refused h ha fun Q => enqVector_refused
  | _ => cases hp

/-! ## The calls -/

/-- The loop of a removal, by induction on the attempts that are left. -/
theorem removeLoop_leaves {n : ℕ} {u : UserBuffer} {r : Option Item × UserBuffer × Queue} (h : Q.removeLoop g n u = some r) :
    ∃ dropped, Leaves Q (dropped ++ r.1.toList) r.2.2 := by
  induction n generalizing Q u with
  | zero => cases h
  | succ n ih =>
    rw [removeLoop] at h
    split at h
    · cases h
    · next Q₁ hp =>
      cases h
      exact ⟨[], (stays_pass hp).leaves⟩
    · next Q₁ hp =>
      cases ht : Q₁.takeItem with
      | none =>
        simp only [ht, Option.some.injEq] at h
        subst h
        exact ⟨[], ((stays_pass hp).trans ⟨rfl, rfl, rfl, rfl⟩).leaves⟩
      | some x =>
        obtain ⟨it, Q₂⟩ := x
        have htakes : Takes Q it ((Q₂.postDeq it).2.up .enq) :=
          (stays_pass hp).takes ((takeItem_takes ht).stays (stays_postDeq.trans ⟨rfl, rfl, rfl, rfl⟩))
        simp only [ht] at h
        split at h
        · obtain ⟨dropped, hl⟩ := ih h
          exact ⟨it :: dropped, htakes.trans_leaves hl⟩
        · cases h
          exact ⟨[], htakes.leaves⟩

/-- The loop of a clean, by induction on its turns. -/
theorem cleanLoop_leaves {t : Timespec} {n : ℕ} : ∃ dropped, Leaves Q dropped (Q.cleanLoop t n) := by
  induction n generalizing Q with
  | zero => exact ⟨[], (Stays.refl Q).leaves⟩
  | succ n ih =>
    rw [cleanLoop]
    split
    · cases hf : Q.fifo with
      | nil => exact ⟨[], Stays.leaves ⟨rfl, rfl, rfl, rfl⟩⟩
      | cons it l =>
        dsimp only
        split
        · obtain ⟨dropped, s, f, rfl, hs, hl⟩ := ih (Q := (Q.down .deq).tick.drop it l)
          have hs' : Q.stack = s ++ (((Q.down .deq).tick.drop it l).cleanLoop t n).stack := hs
          have hl' : l = f ++ (((Q.down .deq).tick.drop it l).cleanLoop t n).fifo := hl
          exact ⟨s ++ it :: f, s, it :: f, rfl, hs', by rw [hf, List.cons_append, ← hl']⟩
        · exact ⟨[], Stays.leaves ⟨rfl, rfl, rfl, rfl⟩⟩
    · exact ⟨[], (Stays.refl Q).leaves⟩

theorem moves_stays (h : Stays Q Q') (ha : ¬(c.payload.isSome = true ∧ a = .status .ok)) (hn : a.handed = none) : Moves Q c a Q' := by
  refine .inr ⟨ha, [], ?_, fun hne => absurd rfl hne⟩
  rw [hn]
  exact h.leaves

/-- A call that only needs a handle. -/
theorem handled_moves {ok : Bool} (hc : c.payload = none) (hs : Stays Q Q₁) (h : Q.handled q ok Q₁ = some (a, Q')) : Moves Q c a Q' := by
  have hno : ¬(c.payload.isSome = true ∧ a = .status .ok) := by simp [hc]
  rcases handled_cases h with ⟨-, -, rfl, rfl⟩ | ⟨-, rfl, rfl⟩
  · exact moves_stays hs hno rfl
  · exact moves_stays (.refl _) hno rfl

/-- A call that adds. -/
theorem adding_moves (hp : c.payload.isSome = true) (h : Q.step q c = some (a, Q')) : Moves Q c a Q' := by
  obtain ⟨p, hpay⟩ := Option.isSome_iff_exists.1 hp
  obtain ⟨n, v, hreq⟩ : ∃ n v, c.request = some (n, v) := by cases c <;> first | exact ⟨_, _, rfl⟩ | cases hp
  obtain ⟨st, rfl, -⟩ := step_added hreq h
  by_cases hok : st = .ok
  · subst hok
    obtain ⟨hadds, hroom⟩ := (step_adds hreq h).1 rfl
    rcases step_puts hadds hpay h with ⟨-, -, it, rfl, hputs⟩ | ⟨hno, -, -⟩
    · exact .inl ⟨rfl, it, hpay, hputs⟩
    · exact absurd hroom hno
  · have ha : Answer.status st ≠ .status .ok := fun he => hok (Answer.status.inj he)
    exact moves_stays (refused_stays hp h ha) (fun he => ha he.2) rfl

/-- **What any call does to the items.** -/
theorem step_moves (hs : Q.Sane) (h : Q.step q c = some (a, Q')) : Moves Q c a Q' := by
  cases c with
  | add g value length => exact adding_moves rfl h
  | addv g vector => exact adding_moves rfl h
  | remove g u =>
    have hno : ∀ a : Answer, ¬((Call.remove g u).payload.isSome = true ∧ a = .status .ok) := fun a => by simp [Call.payload]
    rcases step_remove h with ⟨⟨st, v, -, -, rfl⟩, rfl, -⟩ | ⟨v, r, -, hloop, ha, rfl⟩
    · exact moves_stays (.refl _) (hno _) rfl
    · have hhanded : a.handed = r.1 := by
        rw [ha]
        cases r.1 <;> rfl
      refine .inr ⟨hno a, ?_⟩
      rw [hhanded]
      by_cases hd : Q.discards = true
      · obtain ⟨dropped, hl⟩ := removeLoop_leaves hloop
        exact ⟨dropped, hl, fun _ => hd⟩
      · -- the first item is the one that is handed over
        rcases removeLoop_takes hloop (Bool.not_eq_true _ ▸ hd) hs.deq with ⟨hnone, -, hstays⟩ | ⟨it, hsome, htakes⟩
        · exact ⟨[], by rw [hnone]; exact hstays.leaves, fun hne => absurd rfl hne⟩
        · exact ⟨[], by rw [hsome]; exact htakes.leaves, fun hne => absurd rfl hne⟩
  | clean t =>
    have hno : ∀ a : Answer, ¬((Call.clean t).payload.isSome = true ∧ a = .status .ok) := fun a => by simp [Call.payload]
    have hnone : a.handed = none := by
      simp only [step] at h
      split at h
      · split at h <;> cases h <;> rfl
      · cases h
        rfl
    rcases step_clean h with ⟨rfl, -⟩ | ⟨q', t', -, -, -, rfl⟩
    · exact moves_stays (.refl _) (hno a) hnone
    · obtain ⟨dropped, hl⟩ := cleanLoop_leaves (Q := Q) (t := t') (n := Q.fifo.length + 1)
      refine .inr ⟨hno a, dropped, ?_, fun _ => trivial⟩
      rw [hnone]
      exact (List.append_nil dropped).symm ▸ hl
  | event =>
    rcases step_event h with ⟨-, rfl, rfl⟩ | ⟨-, rfl, rfl⟩
    · refine moves_stays ?_ (by simp [Call.payload]) rfl
      unfold takeEvent
      split
      · split <;> exact ⟨rfl, rfl, rfl, rfl⟩
      · exact .refl Q
    · exact moves_stays (.refl _) (by simp [Call.payload]) rfl
  | count => cases h; exact moves_stays (.refl _) (by simp [Call.payload]) rfl
  | buffer => cases h; exact moves_stays (.refl _) (by simp [Call.payload]) rfl
  | isSubscribed e => cases h; exact moves_stays (.refl _) (by simp [Call.payload]) rfl
  | level n =>
    simp only [step, handled] at h
    split at h <;> cases h
    · exact .inr ⟨by simp [Call.payload], [], ⟨[], [], rfl, rfl, rfl⟩, fun hne => absurd rfl hne⟩
    · exact moves_stays (.refl _) (by simp [Call.payload]) rfl
  | timelimit s n =>
    have hset : Stays Q (Q.setHdr { Q.hdr with limit := ⟨s, n⟩ }) := ⟨rfl, rfl, rfl, rfl⟩
    exact handled_moves (q := q) rfl hset h
  | targetDelay s n =>
    have hset : Stays Q (Q.setHdr { Q.hdr with target := ⟨s, n⟩ }) := ⟨rfl, rfl, rfl, rfl⟩
    exact handled_moves (q := q) rfl (hset.trans (stays_setFlag _)) h
  | discard b => cases b <;> exact handled_moves rfl (by first | exact stays_clearFlag _ | exact stays_setFlag _) h
  | limitLifo b => cases b <;> exact handled_moves rfl (by first | exact stays_clearFlag _ | exact stays_setFlag _) h
  | subscribe e => exact handled_moves rfl (stays_setFlag _) h
  | unsubscribe e => exact handled_moves rfl (stays_clearFlag _) h
  | prod =>
    have hup : Stays Q (Q.up .deq) := ⟨rfl, rfl, rfl, rfl⟩
    exact handled_moves (q := q) rfl hup h
  | monitor s => exact handled_moves rfl (.refl _) h
  | listen s => exact handled_moves rfl (.refl _) h
  | call s => exact handled_moves rfl (.refl _) h

end Queue

end LibShr
