import LibShr.Spec.Counts

/-!
# How many data blocks there are

A data block is that of an item or it is free, and it keeps its class. An add takes a free block if
there is one of the class it needs; only where there is none a new one is made, so a class never has more
blocks than there were items at a time.
-/

namespace LibShr

namespace Queue

variable {Q Q' Q₁ : Queue} {it : Item} {q : Option ShrQ} {g : Gate} {c : Call} {a : Answer} {e : Event} {s : Sem} {k : ℕ}

/-- The data blocks of class `k`: those of items and the free ones. -/
def blocks (Q : Queue) (k : ℕ) : ℕ := Q.items.countP (fun it => it.cls = k) + (Q.free k).length

/-- `Q'` has the items and the free blocks of `Q`. -/
def SameBlocks (Q Q' : Queue) : Prop := Q'.items = Q.items ∧ Q'.free = Q.free

theorem SameBlocks.refl (Q : Queue) : SameBlocks Q Q := ⟨rfl, rfl⟩

theorem SameBlocks.trans (h : SameBlocks Q Q₁) (h' : SameBlocks Q₁ Q') : SameBlocks Q Q' := ⟨h'.1.trans h.1, h'.2.trans h.2⟩

theorem SameBlocks.blocks (h : SameBlocks Q Q') : Q'.blocks = Q.blocks := by
  funext k
  unfold Queue.blocks
  rw [h.1, h.2]

/-! ## The parts of a call -/

theorem sameBlocks_raise {p : Prop} [Decidable p] : SameBlocks Q (Q.raise p e) := by
  unfold raise addEvent
  split
  · split <;> exact .refl Q
  · exact .refl Q

theorem sameBlocks_activate : SameBlocks Q Q.activate := by
  unfold activate
  split
  · have hset : SameBlocks Q (Q.setFlag FLAG_ACTIVATED) := by
      unfold setFlag
      split <;> exact .refl Q
    exact hset.trans (sameBlocks_raise (p := True))
  · exact .refl Q

theorem sameBlocks_postEnq {n : ℤ} : SameBlocks Q (Q.postEnq n) := by
  have hempty : SameBlocks Q (if n = 0 then Q.updateEmpty else Q) := by
    split
    · unfold updateEmpty
      split <;> exact .refl Q
    · exact .refl Q
  exact ((hempty.trans sameBlocks_activate).trans sameBlocks_raise).trans sameBlocks_raise

theorem sameBlocks_pass {b : Bool} (h : Q.pass s g = some (b, Q')) : SameBlocks Q Q' := ⟨items_pass h, pass_free h⟩

theorem sameBlocks_expired : SameBlocks Q (Q.expired it).2 := by
  unfold expired
  split <;> exact .refl Q

theorem sameBlocks_clearEmpty : SameBlocks Q Q.clearEmpty := by
  unfold clearEmpty
  split <;> exact .refl Q

/-! ## Adding -/

/-- A new item leaves the others and the free blocks where they are. -/
theorem blocks_enqData (Q : Queue) (it : Item) (k : ℕ) : (Q.enqData it).blocks k = Q.blocks k + (if it.cls = k then 1 else 0) ∧
    (Q.enqData it).items.length = Q.items.length + 1 := by
  have hsame : SameBlocks (Q.link it) (Q.enqData it) := sameBlocks_postEnq
  rw [hsame.blocks, hsame.1]
  unfold link blocks items
  split
  · refine ⟨?_, by rw [List.cons_append, List.length_cons]⟩
    simp only [List.cons_append, List.countP_cons, decide_eq_true_eq]
    ring
  · refine ⟨?_, by rw [← List.append_assoc, List.length_append, List.length_singleton]⟩
    simp only [← List.append_assoc, List.countP_append, List.countP_singleton, decide_eq_true_eq]
    ring

/-- A block is taken off a free stack, or there is none in the classes that are looked through. -/
theorem takeBlock_blocks (n : ℕ) : (Q.takeBlock n).2.2.items = Q.items ∧
    ((Q.takeBlock n).2.2.blocks k + (if (Q.takeBlock n).1 = k then 1 else 0) = Q.blocks k ∨
      (Q.takeBlock n).2.2.free = Q.free ∧ ((Q.takeBlock n).1 = k → k < 48 → Q.free k = [])) := by
  unfold takeBlock
  split
  · next hno =>
    refine ⟨rfl, .inr ⟨rfl, fun hn hk => ?_⟩⟩
    dsimp only at hn
    subst hn
    have hall := List.find?_eq_none.1 hno n (List.mem_range'_1.2 ⟨le_refl _, by omega⟩)
    simpa [hk] using hall
  · next j hj =>
    refine ⟨rfl, .inl ?_⟩
    have hne := (firstFit_some hj).2.1
    show Q.items.countP (fun it => it.cls = k) + (Function.update Q.free j (Q.free j).tail k).length + (if j = k then 1 else 0) = Q.blocks k
    unfold blocks
    by_cases hjk : j = k
    · subst hjk
      have hpos := List.length_pos_iff.2 hne
      rw [Function.update_self, if_pos rfl, List.length_tail]
      omega
    · rw [Function.update_of_ne (Ne.symm hjk), if_neg hjk]
      rfl

/-- The blocks after an add: as many as before, unless all there were held items. -/
def Thrifty (Q Q' : Queue) (k : ℕ) : Prop := Q'.blocks k ≤ Q.blocks k ∨ Q'.blocks k ≤ Q'.items.length

theorem Thrifty.same (ht : Thrifty Q Q₁ k) (h : SameBlocks Q₁ Q') : Thrifty Q Q' k := by
  unfold Thrifty
  rwa [h.blocks, h.1]

theorem Thrifty.of_same (h : SameBlocks Q Q₁) (ht : Thrifty Q₁ Q' k) : Thrifty Q Q' k := by
  unfold Thrifty
  rwa [← h.blocks]

/-- An item is copied in, and queued unless it is lost. -/
theorem copyIn_thrifty {n : ℕ} {v : ℤ} {p : Payload} (fill : (ℤ → ℤ) → Timespec → ℤ → ℤ → ℤ) (hk : k < 48) :
    Thrifty Q (Q.copyIn n v fill p).2 k ∧ Thrifty Q ((Q.copyIn n v fill p).2.enqData (Q.copyIn n v fill p).1) k := by
  set Q₀ := Q.tick.setHdr { Q.hdr with buffer := max Q.hdr.buffer (n * 8 + v) } with hQ₀
  obtain ⟨hitems, hcase⟩ := takeBlock_blocks (Q := Q₀) (k := k) (classOf n)
  have hcls : (Q.copyIn n v fill p).1.cls = (Q₀.takeBlock (classOf n)).1 := rfl
  have hsame : SameBlocks (Q₀.takeBlock (classOf n)).2.2 (Q.copyIn n v fill p).2 := ⟨rfl, rfl⟩
  obtain ⟨hblocks, hlen⟩ := blocks_enqData (Q.copyIn n v fill p).2 (Q.copyIn n v fill p).1 k
  have hold : Q₀.blocks k = Q.blocks k := rfl
  have hsub : (Q₀.takeBlock (classOf n)).2.2.blocks k ≤ Q.blocks k := by
    rcases hcase with h | ⟨h, -⟩
    · omega
    · rw [← hold, blocks, blocks, hitems, h]
  unfold Thrifty
  rw [hblocks, hlen, hsame.blocks, hsame.1, hcls, hitems]
  refine ⟨.inl hsub, ?_⟩
  rcases hcase with h | ⟨hfree, hnone⟩
  · exact .inl (by omega)
  · by_cases hc : (Q₀.takeBlock (classOf n)).1 = k
    · -- no block of the class is free, so each one there was holds an item
      refine .inr ?_
      rw [if_pos hc, blocks, hitems, hfree, hnone hc hk, List.length_nil, add_zero]
      exact Nat.add_le_add_right List.countP_le_length 1
    · rw [if_neg hc, add_zero]
      exact .inl hsub

theorem enq_thrifty {value : Option (List UInt8)} {length type : ℤ} (hk : k < 48) : Thrifty Q (Q.enq value length type).2 k := by
  cases value with
  | none => exact .inl (le_refl _)
  | some value =>
    rw [enq]
    split
    · exact .inl (le_refl _)
    · exact (copyIn_thrifty _ hk).2

theorem enqv_thrifty {vs : List SqVec} (hk : k < 48) : Thrifty Q (Q.enqv vs).2 k := by
  rw [enqv]
  split
  · exact .inl (le_refl _)
  · dsimp only
    split
    · exact (copyIn_thrifty (p := vs.map SqVec.elem) (fun f now uid => vectorWords f now uid vs) hk).1
    · exact (copyIn_thrifty _ hk).2

theorem enqVector_thrifty {vs : List SqVec} (hk : k < 48) : Thrifty Q (Q.enqVector vs).2 k := by
  match vs with
  | [] => exact enqv_thrifty hk
  | [v] => exact enq_thrifty hk
  | v :: v' :: vs => exact enqv_thrifty hk

theorem addCall_thrifty {ok : Bool} {enqueue : Queue → Status × Queue} (h : Q.addCall q g ok enqueue = some (a, Q'))
    (hq : ∀ Q, Thrifty Q (enqueue Q).2 k) : Thrifty Q Q' k := by
  have hrefused : Thrifty Q Q k := .inl (le_refl _)
  unfold addCall at h
  cases q with
  | none => cases h; exact hrefused
  | some q =>
    dsimp only at h
    split at h
    · cases h
      exact hrefused
    · split at h
      · obtain ⟨r, hr, he⟩ := Option.map_eq_some_iff.1 h
        cases he
        obtain ⟨⟨b, Q₁⟩, hp, rfl⟩ := Option.map_eq_some_iff.1 hr
        refine Thrifty.of_same (sameBlocks_pass hp) ?_
        cases b with
        | false => exact .inl (le_refl _)
        | true =>
          refine (hq Q₁).same ?_
          have hup : SameBlocks (enqueue Q₁).2 ((enqueue Q₁).2.up .deq) := ⟨rfl, rfl⟩
          simp only [if_true, added]
          split
          · exact hup.trans sameBlocks_raise
          · exact ⟨rfl, rfl⟩
      · cases h
        exact hrefused

/-! ## Removing -/

/-- An item that is disposed of leaves its block. -/
theorem blocks_putBlock : (Q.putBlock it).blocks k = Q.blocks k + (if it.cls = k then 1 else 0) := by
  unfold blocks
  show _ + (Function.update Q.free it.cls (it.words :: Q.free it.cls) k).length = _
  by_cases hk : it.cls = k
  · subst hk
    rw [Function.update_self, if_pos rfl, List.length_cons]
    rfl
  · rw [Function.update_of_ne (Ne.symm hk), if_neg hk]
    rfl

theorem blocks_postDeq : (Q.postDeq it).2.blocks k = Q.blocks k + (if it.cls = k then 1 else 0) := by
  set Q₁ := Q.setHdr { Q.hdr with count := Q.hdr.count - 1 } with hQ₁
  have hcount : SameBlocks Q Q₁ := ⟨rfl, rfl⟩
  have hclear : SameBlocks Q (if Q.hdr.count = 1 then Q₁.clearEmpty else Q₁) := by
    split
    · exact hcount.trans sameBlocks_clearEmpty
    · exact hcount
  show (Queue.putBlock _ it).blocks k = _
  rw [blocks_putBlock]
  refine congrArg (· + _) (congrFun (SameBlocks.blocks ?_) k)
  exact ((hclear.trans sameBlocks_expired).trans sameBlocks_raise).trans sameBlocks_raise

/-- The item that is taken is left out. -/
theorem blocks_takeItem (h : Q.takeItem = some (it, Q')) : Q.blocks k = Q'.blocks k + (if it.cls = k then 1 else 0) := by
  have hfree : Q'.free = Q.free := by
    rw [takeItem] at h
    split at h <;> cases h <;> rfl
  unfold blocks
  simp only [items_takeItem h, List.countP_cons, hfree, decide_eq_true_eq]
  ring

/-- Whatever a removal takes, there are as many blocks as before; by induction on the attempts that are left. -/
theorem removeLoop_blocks {n : ℕ} {u : UserBuffer} {r : Option Item × UserBuffer × Queue} (h : Q.removeLoop g n u = some r) :
    r.2.2.blocks k = Q.blocks k := by
  induction n generalizing Q u with
  | zero => cases h
  | succ n ih =>
    rw [removeLoop] at h
    split at h
    · cases h
    · next Q₁ hp =>
      cases h
      exact congrFun (sameBlocks_pass hp).blocks k
    · next Q₁ hp =>
      have hpass : Q₁.blocks k = Q.blocks k := congrFun (sameBlocks_pass hp).blocks k
      cases ht : Q₁.takeItem with
      | none =>
        simp only [ht, Option.some.injEq] at h
        subst h
        exact hpass
      | some p =>
        obtain ⟨it, Q₂⟩ := p
        have hone : ((Q₂.postDeq it).2.up .enq).blocks k = Q.blocks k := by
          rw [← hpass, blocks_takeItem ht]
          exact blocks_postDeq
        simp only [ht] at h
        split at h
        · exact (ih h).trans hone
        · cases h
          exact hone

theorem blocks_drop {l : List Item} (h : Q.fifo = it :: l) : (Q.drop it l).blocks k = Q.blocks k := by
  have hput : (Q.drop it l).blocks k = (Queue.blocks { Q with fifo := l } k) + (if it.cls = k then 1 else 0) :=
    blocks_putBlock (Q := { Q with fifo := l })
  rw [hput]
  unfold blocks items
  simp only [h, List.countP_append, List.countP_cons, decide_eq_true_eq]
  ring

theorem cleanLoop_blocks {t : Timespec} {n : ℕ} : (Q.cleanLoop t n).blocks k = Q.blocks k := by
  induction n generalizing Q with
  | zero => rfl
  | succ n ih =>
    rw [cleanLoop]
    split
    · cases hf : Q.fifo with
      | nil => rfl
      | cons it l =>
        dsimp only
        split
        · rw [ih]
          exact blocks_drop (Q := (Q.down .deq).tick) hf
        · rfl
    · rfl

/-! ## Every call -/

/-- **A call makes no block of a class while one is free**, so the blocks of a class are no more than
before, or than there are items. -/
theorem step_thrifty (h : Q.step q c = some (a, Q')) (hk : k < 48) : Thrifty Q Q' k := by
  have hsame : SameBlocks Q Q' → Thrifty Q Q' k := fun hs => .inl (congrFun hs.blocks k).le
  cases c with
  | add g value length => exact addCall_thrifty h fun _ => enq_thrifty hk
  | addv g vector => exact addCall_thrifty h fun _ => enqVector_thrifty hk
  | remove g u =>
    rcases step_remove h with ⟨-, rfl, -⟩ | ⟨v, r, -, hr, -, rfl⟩
    · exact hsame (.refl _)
    · exact .inl (removeLoop_blocks hr).le
  | clean t =>
    rcases step_clean h with ⟨rfl, -⟩ | ⟨q', t', -, -, -, rfl⟩
    · exact hsame (.refl _)
    · exact .inl cleanLoop_blocks.le
  | event =>
    rcases step_event h with ⟨-, -, rfl⟩ | ⟨-, -, rfl⟩
    · refine hsame ?_
      unfold takeEvent
      split
      · split <;> exact .refl Q
      · exact .refl Q
    · exact hsame (.refl _)
  | prod =>
    rcases step_prod h with ⟨-, -, rfl⟩ | ⟨-, -, rfl⟩
    · exact hsame ⟨rfl, rfl⟩
    · exact hsame (.refl _)
  | _ =>
    obtain ⟨hd, rfl, -⟩ := step_resets rfl (by simp) h
    exact hsame ⟨rfl, rfl⟩

end Queue

end LibShr
