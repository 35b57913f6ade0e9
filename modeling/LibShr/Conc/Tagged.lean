import LibShr.Conc.Chains
import LibShr.Seq.Alloc

/-!
# The functions on the stacks

What each of the four functions keeps, step by step, and what holds of the stacks after any run. The
counter is read before the block is looked at, so a `DWCAS` that finds it unchanged finds the link and
the value as they were read.
-/

namespace LibShr.Stacks

open Prog Links

/-! ## The outline -/

section
variable {Pr T : Type} [DecidableEq Pr] [DecidableEq T]

/-- The threads, call by call. -/
def calls (G : Ground) (proc : T → Pr) : Protocol T StackOp StackOp.Res (Yard Pr T) Call (List Fact) where
  handler := stage proc
  inv := Inv G
  may := fun _ _ _ => True
  mayCall := fun _ _ _ => True
  idle := fun _ _ => True

/-- The threads inside the functions of the library. -/
def inside (G : Ground) (proc : T → Pr) : Protocol T Op Op.Res (Yard Pr T) Empty (List Fact) where
  handler := fun t o => stage proc t (.machine o)
  inv := Inv G
  may := fun _ _ _ => True
  mayCall := fun _ _ _ => True
  idle := fun _ _ => True

end

section
variable {Pr T : Type} [DecidableEq Pr] [DecidableEq T] {G : Ground} {proc : T → Pr} {n : List Fact} {t : T} {w w' : Yard Pr T} {ν : T → List Fact}
  {a hd slot off s v g h top link : ℤ} {α : Type} {f : Fact} {e : Event}

theorem outline_machine {p : M α} {post : α → List Fact → Prop} (h : (inside G proc).outline t p post n) :
    (calls G proc).outline t (machine p) post n := by
  refine Protocol.outline_subst (P := inside G proc) ?_ h
  intro o post n h
  exact h

theorem stage_machine {o : Op} {r : o.Res} (h : stage proc t (.machine o) w = some (r, w')) :
    ∃ site, shared (proc t) o w.site = some (r, site) ∧ w' = w.after t site o r := by
  obtain ⟨⟨r', site⟩, hs, he⟩ := Option.map_eq_some_iff.1 h
  cases he
  exact ⟨site, hs, rfl⟩

omit [DecidableEq Pr] [DecidableEq T] in
theorem Yard.after_quiet {o : Op} (hq : o.Quiet) (site : Site Pr) (r : o.Res) : w.after t site o r = ⟨site, w.custody, w.log⟩ := by
  cases o with
  | dwcas => exact hq.elim
  | _ => rfl

/-- An operation that leaves the object as it is. -/
theorem outline_quiet {o : Op} {post : o.Res → List Fact → Prop} (hq : o.Quiet) (hpost : ∀ r, post r n) :
    (inside G proc).outline t (op o) post n := by
  rintro w ν hI rfl - r w' h
  obtain ⟨site, hs, rfl⟩ := stage_machine h
  rw [Yard.after_quiet hq]
  exact ⟨_, hI.same (shared_quiet hq hs).1 fun f hf => .inl hf, hpost r⟩

theorem outline_quietly {p : M α} {post : α → List Fact → Prop} (hp : p.Only Op.Quiet) (hpost : ∀ r, post r n) :
    (inside G proc).outline t p post n :=
  Protocol.outline_only (fun _ _ hq hpost => outline_quiet hq hpost) hp hpost

theorem outline_learn {post : ℤ → List Fact → Prop} (fact : ℤ → List Fact)
    (hpost : ∀ (w : Yard Pr T), (∀ f ∈ n, f.Holds w t) →
      (∀ f ∈ fact (w.mem slot), f.Holds w t) ∧ post (w.mem slot) (fact (w.mem slot) ++ n)) :
    (inside G proc).outline t (load a slot) post n := by
  rintro w ν hI rfl - r w' h
  obtain ⟨site, hs, rfl⟩ := stage_machine h
  obtain ⟨rfl, hm⟩ := shared_load hs
  obtain ⟨hfact, hp⟩ := hpost w (hI.known t)
  refine ⟨_, hI.same hm fun f hf => ?_, hp⟩
  rcases List.mem_append.1 hf with hf | hf
  · exact .inr (hfact f hf)
  · exact .inl hf

/-- A load of a slot that the thread has stored into. -/
theorem outline_own {post : ℤ → List Fact → Prop} {x : ℤ} (hx : x = slot + off) (hword : .word slot off v ∈ n) (hpost : post v n) :
    (inside G proc).outline t (load a x) post n := by
  subst hx
  refine outline_learn (fun _ => []) fun w hn => ⟨fun f hf => (List.not_mem_nil hf).elim, ?_⟩
  obtain ⟨-, -, hv⟩ := hn _ hword
  rw [hv]
  exact hpost

theorem outline_gen {post : ℤ → List Fact → Prop} (hhd : IsHead hd) (hpost : ∀ g, post g (.gen hd g :: n)) :
    (inside G proc).outline t (load a (hd + 1)) post n := by
  refine outline_learn (fun g => [.gen hd g]) fun w _ => ⟨fun f hf => ?_, hpost _⟩
  rw [List.mem_singleton.1 hf]
  exact ⟨hhd, le_rfl⟩

/-- A load from the block that may be at the head of a stack. -/
theorem outline_glance {post : ℤ → List Fact → Prop} {x : ℤ} (hx : x = top + off) (hgen : .gen hd g ∈ n) (hoff : 0 ≤ off ∧ off < 4)
    (hpost : ∀ v, post v (.glance hd g top off v :: n)) : (inside G proc).outline t (load a x) post n := by
  subst hx
  refine outline_learn (fun v => [.glance hd g top off v]) fun w hn => ⟨fun f hf => ?_, hpost _⟩
  rw [List.mem_singleton.1 hf]
  exact ⟨hn _ hgen, hoff, fun _ _ _ => rfl⟩

/-- A store into a block the thread has. It forgets what was in the slot. -/
theorem outline_store {post : Unit → List Fact → Prop} {x : ℤ} (hx : x = slot + off) (hhand : .hand slot ∈ n)
    (hoff : 0 ≤ off ∧ (off < 4 ∨ off < G.size slot))
    (hpost : ∀ n', (off < 4 → .word slot off v ∈ n') → (∀ f ∈ n, f.isWord slot off = false → f ∈ n') → post () n') :
    (inside G proc).outline t (store a x v) post n := by
  subst hx
  rintro w ν hI rfl - r w' h
  obtain ⟨site, hs, rfl⟩ := stage_machine h
  have hm : site.mem = setSlot w.mem (slot + off) v := shared_store hs
  have hslot : w.custody slot = .hand t := hI.known t _ hhand
  have hblock := hI.block hslot (by simp)
  have hfour := G.four_le hblock
  have ho : 0 ≤ off ∧ off < G.size slot := ⟨hoff.1, by omega⟩
  have hA : Aside w ⟨site, w.custody, w.log⟩ t := .store hI hslot ho hm
  refine ⟨(if off < 4 then [.word slot off v] else []) ++ (ν t).filter fun f => !f.isWord slot off,
    hI.moved hA hI.blocks (fun hd hhd => ?_) fun f hf => ?_, hpost _ (fun h => ?_) fun f hf hw => ?_⟩
  · obtain ⟨L, hL⟩ := hI.holding hd hhd
    exact ⟨L, hL.store hI hhd hslot ho hm⟩
  · rcases List.mem_append.1 hf with hf | hf
    · split at hf
      · next h4 =>
        rw [List.mem_singleton.1 hf]
        refine ⟨hslot, ⟨hoff.1, h4⟩, ?_⟩
        change site.mem (slot + off) = v
        rw [hm, setSlot_same]
      · cases hf
    · obtain ⟨hf, hw⟩ := List.mem_filter.1 hf
      exact (hI.known t f hf).store hI hslot ho hm (by simpa using hw)
  · rw [if_pos h]
    exact List.mem_append_left _ (List.mem_singleton_self _)
  · exact List.mem_append_right _ (List.mem_filter.2 ⟨hf, by simp [hw]⟩)

/-- A `DWCAS` that pushes a block whose first slot holds the head that is expected. -/
theorem outline_push {post : Bool → List Fact → Prop} (hhd : IsHead hd) (hhand : .hand slot ∈ n) (hlink : .word slot 0 h ∈ n)
    (hdone : ∀ v, post true [.did (.push hd slot v)]) (hfailed : post false n) :
    (inside G proc).outline t (dwcas (.push hd) a hd ⟨h, g⟩ ⟨slot, g + 1⟩) post n := by
  rintro w ν hI rfl - r w' hst
  obtain ⟨site, hs, rfl⟩ := stage_machine hst
  rcases shared_dwcas hs with ⟨rfl, hhead, hgen, hm⟩ | ⟨rfl, hm⟩
  · have hslot : w.custody slot = .hand t := hI.known t _ hhand
    obtain ⟨-, -, hw⟩ := hI.known t _ hlink
    have hblock := hI.block hslot (by simp)
    rw [add_zero] at hw
    have hA : Aside w (w.after t site (.dwcas (.push hd) a hd ⟨h, g⟩ ⟨slot, g + 1⟩) true) t := by
      refine .dwcas hI hhd (fun u hu hcu => ?_) hgen hm
      rw [hslot] at hcu
      exact hu (Custody.hand.inj hcu).symm
    refine ⟨_, hI.moved hA (fun s hsc => ?_) (fun hd' hhd' => ?_) fun f hf => ?_, hdone (w.mem (slot + VALUE_OFFSET))⟩
    · by_cases hsl : s = slot
      · rwa [hsl]
      · refine hI.blocks s fun hnone => hsc ?_
        exact (Function.update_of_ne hsl _ _).trans hnone
    · obtain ⟨L, hL⟩ := hI.holding hd' hhd'
      by_cases hne : hd' = hd
      · subst hne
        exact ⟨_, hL.push hI hhd hslot (hw.trans hhead.symm) hm⟩
      · refine ⟨L, hL.other hI hhd hhd' hne hm (if_neg (Ne.symm hne)) (by rw [hslot]; simp) ?_⟩
        intro he
        exact hne (Custody.stack.inj he).symm
    · rw [List.mem_singleton.1 hf]
      exact Yard.last_append_self _
  · exact ⟨_, hI.same hm fun f hf => .inl hf, hfailed⟩

/-- A `DWCAS` that pops the block `top`, whose link was read after the counter. -/
theorem outline_pop {post : Bool → List Fact → Prop} (hhd : IsHead hd) (hlink : .glance hd g top 0 link ∈ n) (htop : top ≠ 0)
    (hdone : ∀ v, (∀ d, .glance hd g top 3 d ∈ n → v = d) → post true [.hand top, .did (.pop hd top v)]) (hfailed : post false n) :
    (inside G proc).outline t (dwcas (.pop hd) a hd ⟨top, g⟩ ⟨link, g + 1⟩) post n := by
  rintro w ν hI rfl - r w' hst
  obtain ⟨site, hs, rfl⟩ := stage_machine hst
  rcases shared_dwcas hs with ⟨rfl, hhead, hgen, hm⟩ | ⟨rfl, hm⟩
  · have hhead : w.mem hd = top := hhead
    obtain ⟨-, -, hfact⟩ := hI.known t _ hlink
    have hl : w.mem top = link := by
      have := hfact hgen hhead htop
      rwa [add_zero] at this
    have hc : w.custody top = .stack hd := by
      have := hI.head_custody hhd (by rw [hhead]; exact htop)
      rwa [hhead] at this
    have hA : Aside w (w.after t site (.dwcas (.pop hd) a hd ⟨top, g⟩ ⟨link, g + 1⟩) true) t := by
      refine .dwcas hI hhd (fun u hu hcu => ?_) hgen hm
      rw [hc] at hcu
      cases hcu
    refine ⟨_, hI.moved hA (fun s hsc => ?_) (fun hd' hhd' => ?_) fun f hf => ?_, hdone (w.mem (top + VALUE_OFFSET)) fun d hd => ?_⟩
    · by_cases hsl : s = top
      · rw [hsl]
        exact hI.block hc (by simp)
      · refine hI.blocks s fun hnone => hsc ?_
        exact (Function.update_of_ne hsl _ _).trans hnone
    · obtain ⟨L, hL⟩ := hI.holding hd' hhd'
      by_cases hne : hd' = hd
      · subst hne
        cases L with
        | nil => exact absurd (hhead.symm.trans hL.chain.1) htop
        | cons x L =>
          obtain rfl : top = x.1 := hhead.symm.trans hL.chain.1
          subst hl
          exact ⟨L, hL.pop hI hhd hm⟩
      · refine ⟨L, hL.other hI hhd hhd' hne hm (if_neg (Ne.symm hne)) (fun he => ?_) (by simp)⟩
        rw [hc] at he
        exact hne (Custody.stack.inj he).symm
    · rcases List.mem_pair.1 hf with rfl | rfl
      · exact Function.update_self _ _ _
      · exact Yard.last_append_self _
    · obtain ⟨-, -, hd⟩ := hI.known t _ hd
      exact hd hgen hhead htop
  · exact ⟨_, hI.same hm fun f hf => .inl hf, hfailed⟩

/-! ### The functions -/

theorem quiet_resizeExtent (extent : ℤ) : (resizeExtent extent).Only Op.Quiet := by
  unfold resizeExtent
  refine only_bind (only_op trivial) fun _ => only_ite only_pure ?_
  refine only_bind (only_op trivial) fun _ => only_ite only_pure ?_
  refine only_bind (only_op trivial) fun _ => only_bind (only_op trivial) fun _ => only_ite only_pure ?_
  exact only_bind (only_op trivial) fun _ => only_pure

theorem quiet_insureInRange (slot : ℤ) : (insureInRange slot).Only Op.Quiet := by
  unfold insureInRange
  refine only_bind (only_op trivial) fun _ => only_bind (only_op trivial) fun _ => only_ite ?_ ?_
  · exact only_bind (only_op trivial) fun _ => only_pure
  · refine only_bind (only_op trivial) fun _ => only_bind (quiet_resizeExtent _) fun _ => ?_
    exact only_ite only_pure only_pure

theorem ctzl_two_pow {k : ℕ} (hk : k < 64) : ctzl (2 ^ k) = pure (k : ℤ) := by
  have h : (2 : ℕ) ^ k ≠ 0 := by positivity
  simp only [ctzl, unsigned_two_pow hk, h, if_false, Bits.ctz_two_pow hk]

/-- `free_data_slots` of a block of a size that has a bucket. -/
theorem outline_freeDataSlots {k : ℕ} (hk : k < 48) (hhand : .hand slot ∈ n) (hsize : .word slot 0 (2 ^ (k + 2)) ∈ n) :
    (inside G proc).outline t (freeDataSlots slot) (fun _ n => ∃ hd v, .did (.push hd slot v) ∈ n) n := by
  have hhd : IsHead (MEM_BKT_START + (((k + 2 : ℕ) : ℤ) - 2) * 2) := by
    refine ⟨?_, .inl ⟨?_, ?_⟩⟩ <;> simp only [MEM_BKT_START, BASE] <;> omega
  unfold freeDataSlots
  refine Protocol.outline_bind (outline_quiet trivial fun array => ?_)
  refine Protocol.outline_bind (outline_own (add_zero _).symm hsize ?_)
  rw [ctzl_two_pow (by omega), LawfulMonad.pure_bind]
  refine Protocol.outline_bind (Protocol.outline_iterate (fun _ n => .hand slot ∈ n) hhand ?_)
  rintro _ n hhand
  refine Protocol.outline_bind (outline_quiet trivial fun g => ?_)
  refine Protocol.outline_bind (outline_store rfl hhand ⟨by decide, .inl (by decide)⟩ fun n₁ hgen hkeep₁ => ?_)
  have hhand₁ := hkeep₁ _ hhand rfl
  refine Protocol.outline_bind (outline_quiet trivial fun h => ?_)
  refine Protocol.outline_bind (outline_store (add_zero _).symm hhand₁ ⟨by decide, .inl (by decide)⟩ fun n₂ hlink hkeep₂ => ?_)
  have hhand₂ := hkeep₂ _ hhand₁ rfl
  have hgen₂ := hkeep₂ _ (hgen (by decide)) (by simp [Fact.isWord])
  -- what is loaded again from the block is what was stored there
  refine Protocol.outline_bind (outline_own rfl hgen₂ ?_)
  refine Protocol.outline_bind (outline_own rfl hgen₂ ?_)
  refine Protocol.outline_bind (outline_own (add_zero _).symm (hlink (by decide)) ?_)
  refine Protocol.outline_bind (outline_push hhd hhand₂ (hlink (by decide)) (fun v => ?_) ?_)
  · exact ⟨_, v, List.mem_cons_self⟩
  · exact hhand₂

/-- `lifo_add` of a node. -/
theorem outline_lifoAdd (hhand : .hand slot ∈ n) :
    (inside G proc).outline t (lifoAdd slot) (fun _ n => ∃ hd v, .did (.push hd slot v) ∈ n) n := by
  have hhd : IsHead STACK_HEAD := ⟨by decide, .inr rfl⟩
  unfold lifoAdd
  refine Protocol.outline_bind (outline_quietly (quiet_insureInRange slot) fun view => ?_)
  refine Protocol.outline_iterate (fun _ n => .hand slot ∈ n) hhand ?_
  rintro _ n hhand
  refine Protocol.outline_bind (outline_quiet trivial fun h => ?_)
  refine Protocol.outline_bind (outline_store (add_zero _).symm hhand ⟨by decide, .inl (by decide)⟩ fun n₁ hlink hkeep₁ => ?_)
  have hhand₁ := hkeep₁ _ hhand rfl
  refine Protocol.outline_bind (outline_quiet trivial fun g => ?_)
  refine Protocol.outline_bind (outline_store rfl hhand₁ ⟨by decide, .inl (by decide)⟩ fun n₂ hgen hkeep₂ => ?_)
  have hhand₂ := hkeep₂ _ hhand₁ rfl
  have hlink₂ := hkeep₂ _ (hlink (by decide)) (by simp [Fact.isWord])
  unfold loadDWORD
  refine Protocol.outline_bind (Protocol.outline_bind (outline_own (add_zero _).symm hlink₂ ?_))
  refine Protocol.outline_bind (outline_own rfl (hgen (by decide)) ?_)
  refine Protocol.outline_bind (outline_push hhd hhand₂ hlink₂ (fun v => ?_) ?_)
  · exact ⟨_, v, List.mem_cons_self⟩
  · exact hhand₂

/-- What C leaves undefined does not happen. -/
theorem outline_undefined {post : Unit → List Fact → Prop} : (inside G proc).outline t undefined post n := by
  intro w ν _ _ _ r w' h
  have h : stage proc t (.machine .undefined) w = some (r, w') := h
  cases h

theorem outline_ctzl {k : ℕ} {post : ℤ → List Fact → Prop} (hpost : k < 64 → post k n) :
    (inside G proc).outline t (ctzl (2 ^ k)) post n := by
  by_cases hk : k < 64
  · rw [ctzl_two_pow hk]
    exact hpost hk
  · have h : unsigned (2 ^ k) = 0 := by
      rw [unsigned, Int.emod_eq_zero_of_dvd (pow_dvd_pow 2 (by omega)), Int.toNat_zero]
    unfold ctzl
    simp only [h, if_true]
    exact Protocol.outline_bind outline_undefined

theorem outline_shl1 {k : ℤ} {post : ℤ → List Fact → Prop} (hpost : ∀ r, post r n) : (inside G proc).outline t (shl1 k) post n := by
  unfold shl1
  refine Protocol.outline_ite (fun _ => ?_) fun _ => hpost _
  exact Protocol.outline_bind outline_undefined

/-- `find_first_fit` returns the head of a bucket, or 0. -/
theorem outline_findFirstFit {k : ℕ} :
    (inside G proc).outline t (findFirstFit (2 ^ k)) (fun hd n' => n' = n ∧ (hd ≠ 0 → IsHead hd)) n := by
  unfold findFirstFit
  refine Protocol.outline_ite (fun _ => ⟨rfl, fun h => absurd rfl h⟩) fun h4 => ?_
  have hk : 2 ≤ k := by
    by_contra hlt
    exact h4 (lt_of_lt_of_le (pow_lt_pow_right₀ (by decide) (not_le.1 hlt)) (by decide))
  refine Protocol.outline_bind (outline_ctzl fun _ => ?_)
  refine Protocol.outline_iterate (fun s n' => n' = n ∧ 0 ≤ s.2) ⟨rfl, by dsimp only; omega⟩ ?_
  rintro ⟨retries, index⟩ n' ⟨rfl, hindex⟩
  dsimp only at hindex ⊢
  refine Protocol.outline_ite (fun hmore => ?_) fun _ => ⟨rfl, fun h => absurd rfl h⟩
  have hhd : IsHead (MEM_BKT_START + 2 * index) := by
    have hlt := hmore.2
    refine ⟨?_, .inl ⟨?_, ?_⟩⟩ <;> simp only [MEM_BKT_START, BASE, MEM_SLOTS] at * <;> omega
  refine Protocol.outline_bind (outline_quiet trivial fun array => ?_)
  refine Protocol.outline_bind (outline_quiet trivial fun head => ?_)
  refine Protocol.outline_ite (fun _ => ⟨rfl, fun _ => hhd⟩) fun _ => ⟨rfl, ?_⟩
  dsimp only
  omega

/-- `lookup_freed_data` returns the block that it has popped, or 0 and has popped none. -/
theorem outline_lookupFreedData {k : ℕ} (hdid : .did e ∈ n) :
    (inside G proc).outline t (lookupFreedData (2 ^ k))
      (fun slot n => (slot = 0 → .did e ∈ n) ∧ (slot ≠ 0 → .hand slot ∈ n ∧ ∃ hd v, .did (.pop hd slot v) ∈ n)) n := by
  unfold lookupFreedData
  refine Protocol.outline_bind (Protocol.outline_mono outline_findFirstFit ?_)
  rintro bucket _ ⟨rfl, hhd⟩
  refine Protocol.outline_ite (fun _ => ⟨fun _ => hdid, fun h => absurd rfl h⟩) fun hbucket => ?_
  have hhd := hhd hbucket
  refine Protocol.outline_bind (outline_quiet trivial fun array => ?_)
  refine Protocol.outline_iterate (fun _ n => .did e ∈ n) hdid ?_
  rintro array n hdid
  unfold loadDWORD
  -- the counter is read after the head
  refine Protocol.outline_bind (Protocol.outline_bind (outline_quiet trivial fun top => ?_))
  refine Protocol.outline_bind (outline_gen hhd fun g => ?_)
  refine Protocol.outline_ite (fun _ => ⟨fun _ => List.mem_cons_of_mem _ hdid, fun h => absurd rfl h⟩) fun htop => ?_
  refine Protocol.outline_bind (outline_quietly (quiet_insureInRange _) fun view => ?_)
  refine Protocol.outline_bind (outline_glance (add_zero _).symm List.mem_cons_self ⟨le_rfl, by decide⟩ fun link => ?_)
  refine Protocol.outline_bind (outline_pop hhd List.mem_cons_self htop (fun v _ => ?_) ?_)
  · refine Protocol.outline_ite (fun _ => ?_) fun h => absurd rfl h
    refine Protocol.outline_bind (outline_shl1 fun size => ?_)
    refine Protocol.outline_bind (outline_store (add_zero _).symm List.mem_cons_self ⟨le_rfl, .inl (by decide)⟩ fun n' _ hkeep => ?_)
    exact ⟨fun h => absurd h htop, fun _ => ⟨hkeep _ List.mem_cons_self rfl, bucket, v, hkeep _ (by simp) rfl⟩⟩
  · exact List.mem_cons_of_mem _ (List.mem_cons_of_mem _ hdid)

/-- `remove_top` returns the node that it has popped, or 0 and has popped none. The value of the node is what was read with
the same counter. -/
theorem outline_removeTop {d : ℤ} (hgen : .gen STACK_HEAD g ∈ n) (hvalue : .glance STACK_HEAD g top 3 d ∈ n) (hdid : .did e ∈ n) :
    (inside G proc).outline t (removeTop top g)
      (fun r n => (r = 0 → .did e ∈ n) ∧ (r ≠ 0 → .hand top ∈ n ∧ .did (.pop STACK_HEAD top d) ∈ n)) n := by
  have hhd : IsHead STACK_HEAD := ⟨by decide, .inr rfl⟩
  have hnone : ∀ {n : List Fact}, .did e ∈ n →
      ((0 : ℤ) = 0 → .did e ∈ n) ∧ ((0 : ℤ) ≠ 0 → .hand top ∈ n ∧ .did (.pop STACK_HEAD top d) ∈ n) :=
    fun hdid => ⟨fun _ => hdid, fun h => absurd rfl h⟩
  unfold removeTop
  refine Protocol.outline_bind (outline_quiet trivial fun array => ?_)
  refine Protocol.outline_ite (fun hge => ?_) fun _ => hnone hdid
  have htop : top ≠ 0 := by
    rintro rfl
    revert hge
    decide
  refine Protocol.outline_bind (outline_quiet trivial fun head => ?_)
  refine Protocol.outline_ite (fun _ => ?_) fun _ => hnone hdid
  refine Protocol.outline_bind (outline_quiet trivial fun gen => ?_)
  refine Protocol.outline_ite (fun _ => ?_) fun _ => hnone hdid
  refine Protocol.outline_bind (outline_quietly (quiet_insureInRange _) fun view => ?_)
  refine Protocol.outline_bind (outline_glance (add_zero _).symm hgen ⟨le_rfl, by decide⟩ fun link => ?_)
  refine Protocol.outline_bind (outline_pop hhd List.mem_cons_self htop (fun v hv => ?_) ?_)
  · obtain rfl := hv d (List.mem_cons_of_mem _ hvalue)
    refine Protocol.outline_ite (fun _ => ?_) fun h => absurd rfl h
    unfold memset0 memset0 memset0
    refine Protocol.outline_bind (Protocol.outline_bind ?_)
    refine outline_store (add_zero _).symm List.mem_cons_self ⟨le_rfl, .inl (by decide)⟩ fun n₁ _ hkeep₁ => ?_
    refine Protocol.outline_bind ?_
    refine outline_store rfl (hkeep₁ _ List.mem_cons_self rfl) ⟨by decide, .inl (by decide)⟩ fun n₂ _ hkeep₂ => ?_
    exact ⟨fun h => absurd h htop, fun _ => ⟨hkeep₂ _ (hkeep₁ _ List.mem_cons_self rfl) rfl, hkeep₂ _ (hkeep₁ _ (by simp) rfl) rfl⟩⟩
  · refine Protocol.outline_ite (fun h => absurd h Bool.false_ne_true) fun _ => hnone (List.mem_cons_of_mem _ hdid)

/-! ### The calls -/

theorem outline_begin {c : Call} {post : Unit → List Fact → Prop} (hpost : post () [.did (.begin c)]) :
    (calls G proc).outline t (op (StackOp.begin c)) post n := by
  rintro w ν hI - - r w' h
  obtain ⟨-, rfl⟩ := Prod.mk.inj (Option.some.inj h)
  refine ⟨_, hI.moved ⟨fun _ _ _ h => h, fun _ _ _ _ _ _ => rfl, fun _ _ => .inr ⟨rfl, rfl, fun _ _ _ => rfl⟩, fun u hu => ?_⟩ hI.blocks
    (fun hd hhd => ?_) fun f hf => ?_, hpost⟩
  · exact Yard.last_append w.custody hu
  · obtain ⟨L, hL⟩ := hI.holding hd hhd
    exact ⟨L, hL.frame rfl (fun _ _ _ _ => rfl) ((Yard.moves_append _).trans (List.append_nil _)) fun _ => Iff.rfl⟩
  · rw [List.mem_singleton.1 hf]
    exact Yard.last_append_self w.custody

theorem outline_take {sized : Bool} {post : Unit → List Fact → Prop}
    (hpost : ∀ n', .hand slot ∈ n' → (sized = true → ∃ k : ℕ, k < 48 ∧ .word slot 0 (2 ^ (k + 2)) ∈ n') → post () n') :
    (calls G proc).outline t (op (StackOp.take slot sized)) post n := by
  rintro w ν hI - - r w' h
  obtain ⟨⟨hloose, hsized⟩, h⟩ := Option.ite_none_right_eq_some.1 h
  obtain ⟨-, rfl⟩ := Prod.mk.inj (Option.some.inj h)
  have hhand : (Function.update w.custody slot (.hand t)) slot = .hand t := Function.update_self _ _ _
  refine ⟨[.hand slot, .word slot 0 (w.mem slot)], hI.update (fun u _ => ?_) (hI.block hloose (by simp)) (fun hd => ?_) (fun hd => ?_) ?_,
    hpost _ List.mem_cons_self fun hs => ?_⟩
  · simp [hloose]
  · simp [hloose]
  · simp
  · intro f hf
    rcases List.mem_pair.1 hf with rfl | rfl
    · exact hhand
    · exact ⟨hhand, ⟨le_rfl, by decide⟩, by rw [add_zero]⟩
  · obtain ⟨k, hk, hsize⟩ := List.any_eq_true.1 (hsized hs)
    refine ⟨k, List.mem_range.1 hk, ?_⟩
    rw [of_decide_eq_true hsize]
    simp

/-- What `give` and `release` do to a block the thread has. -/
theorem outline_back {o : StackOp} {post : o.Res → List Fact → Prop} (hhand : .hand slot ∈ n)
    (ho : ∀ w : Yard Pr T, ∀ r w', stage proc t o w = some (r, w') → w' = { w with custody := Function.update w.custody slot .loose })
    (hpost : ∀ r n', (∀ e, .did e ∈ n → .did e ∈ n') → post r n') : (calls G proc).outline t (op o) post n := by
  rintro w ν hI rfl - r w' h
  obtain rfl := ho w r w' h
  have hslot : w.custody slot = .hand t := hI.known t _ hhand
  refine ⟨(ν t).filter Fact.isDid, hI.update (fun u hu => ?_) (hI.block hslot (by simp)) (fun hd => ?_) (fun hd => ?_) ?_,
    hpost r _ fun e he => List.mem_filter.2 ⟨he, rfl⟩⟩
  · rw [hslot]
    intro he
    exact hu (Custody.hand.inj he).symm
  · simp [hslot]
  · simp
  · intro f hf
    obtain ⟨hf, hdid⟩ := List.mem_filter.1 hf
    cases f with
    | did e => exact hI.known t _ hf
    | _ => cases hdid

theorem outline_give {post : Unit → List Fact → Prop} (hhand : .hand slot ∈ n)
    (hpost : ∀ n', (∀ e, .did e ∈ n → .did e ∈ n') → post () n') :
    (calls G proc).outline t (op (StackOp.give slot)) post n :=
  outline_back hhand (fun _ _ _ h => (Prod.mk.inj (Option.some.inj h)).2.symm) fun _ => hpost

theorem outline_release {post : Unit → List Fact → Prop} (hhand : .hand slot ∈ n)
    (hpost : ∀ n', (∀ e, .did e ∈ n → .did e ∈ n') → post () n') :
    (calls G proc).outline t (op (StackOp.release slot)) post n :=
  outline_back hhand (fun _ _ _ h => (Prod.mk.inj (Option.some.inj h)).2.symm) fun _ => hpost

/-- `lifo_remove` returns the value of the node that it has popped and given back, or 0 and has popped none. -/
theorem outline_lifoRemove (hdid : .did e ∈ n) :
    (calls G proc).outline t lifoRemoveText
      (fun d n => (d = 0 → .did e ∈ n) ∧ (d ≠ 0 → ∃ node, .did (.pop STACK_HEAD node d) ∈ n)) n := by
  have hhd : IsHead STACK_HEAD := ⟨by decide, .inr rfl⟩
  unfold lifoRemoveText
  refine Protocol.outline_bind (outline_machine (outline_quiet trivial fun array => ?_))
  refine Protocol.outline_bind (outline_machine (outline_gen hhd fun g => ?_))
  refine Protocol.outline_bind (outline_machine (outline_quiet trivial fun top => ?_))
  refine Protocol.outline_bind (outline_machine (outline_quietly (quiet_insureInRange _) fun view => ?_))
  refine Protocol.outline_bind (outline_machine (outline_glance rfl List.mem_cons_self ⟨by decide, by decide⟩ fun d => ?_))
  have hdid := List.mem_cons_of_mem (.glance STACK_HEAD g top VALUE_OFFSET d) (List.mem_cons_of_mem (.gen STACK_HEAD g) hdid)
  refine Protocol.outline_ite (fun _ => ⟨fun _ => hdid, fun h => absurd rfl h⟩) fun hd => ?_
  refine Protocol.outline_bind (Protocol.outline_mono (outline_machine
    (outline_removeTop (List.mem_cons_of_mem _ List.mem_cons_self) List.mem_cons_self hdid)) ?_)
  rintro r n ⟨hzero, hr⟩
  refine Protocol.outline_ite (fun h => ⟨fun _ => hzero h, fun h => absurd rfl h⟩) fun hne => ?_
  obtain ⟨hhand, hpop⟩ := hr hne
  exact Protocol.outline_bind (outline_release hhand fun n' hn' => ⟨fun h => absurd h hd, fun _ => ⟨top, hn' _ hpop⟩⟩)

def Returns (answer : Answer) (n : List Fact) : Prop :=
  match answer with
  | .void => True
  | .pushed slot => ∃ hd v, .did (.push hd slot v) ∈ n
  | .block slot => (slot = 0 → ∃ k, .did (.begin (.lookupFreedData k)) ∈ n) ∧ (slot ≠ 0 → ∃ hd v, .did (.pop hd slot v) ∈ n)
  | .data d => (d = 0 → .did (.begin .lifoRemove) ∈ n) ∧ (d ≠ 0 → ∃ node, .did (.pop STACK_HEAD node d) ∈ n)

/-- Every call keeps the invariant. -/
theorem outline_text (c : Call) : (calls G proc).outline t (text G t c) Returns n := by
  unfold text
  refine Protocol.outline_bind (outline_begin ?_)
  cases c with
  | freeDataSlots slot =>
    refine Protocol.outline_bind (outline_take fun n' hhand hsize => ?_)
    obtain ⟨k, hk, hsize⟩ := hsize rfl
    exact Protocol.outline_bind (Protocol.outline_mono (outline_machine (outline_freeDataSlots hk hhand hsize)) fun _ _ h => h)
  | lookupFreedData k =>
    refine Protocol.outline_bind (Protocol.outline_mono (outline_machine (outline_lookupFreedData List.mem_cons_self)) ?_)
    rintro slot n' ⟨hzero, hslot⟩
    refine Protocol.outline_ite (fun hne => ?_) fun hz => ⟨fun h => ⟨k, hzero h⟩, fun h => absurd h hz⟩
    obtain ⟨hhand, hd, v, hdid⟩ := hslot hne
    exact Protocol.outline_bind (outline_give hhand fun n'' hn'' => ⟨fun h => absurd h hne, fun _ => ⟨hd, v, hn'' _ hdid⟩⟩)
  | lifoAdd node =>
    refine Protocol.outline_bind (outline_take fun n' hhand _ => ?_)
    exact Protocol.outline_bind (Protocol.outline_mono (outline_machine (outline_lifoAdd hhand)) fun _ _ h => h)
  | lifoRemove => exact Protocol.outline_bind (Protocol.outline_mono (outline_lifoRemove List.mem_cons_self) fun _ _ h => h)
  | write slot off v =>
    refine Protocol.outline_ite (fun hoff => ?_) fun _ => trivial
    refine Protocol.outline_bind (outline_take fun n' hhand _ => ?_)
    refine Protocol.outline_bind (outline_machine (Protocol.outline_bind (outline_quiet trivial fun array => ?_)))
    refine outline_store rfl hhand ⟨hoff.1, .inr hoff.2⟩ fun n'' _ hkeep => ?_
    exact Protocol.outline_bind (outline_give (hkeep _ hhand rfl) fun _ _ => trivial)

end

/-! ## Runs -/

section
variable {Pr T : Type} [DecidableEq Pr] [DecidableEq T] {G : Ground} {proc : T → Pr} {S₀ S : Threads Pr T} {ls : List (T × Move Call)}

omit [DecidableEq Pr] in
theorem Start.inv (h₀ : Start G S₀) : Inv G S₀.world fun _ => [] := by
  refine ⟨fun s hs => ?_, fun hd hhd => ⟨[], ?_, ⟨h₀.empty hd hhd, trivial⟩, List.nodup_nil, fun x hx => ?_, fun s => ?_⟩, fun t f hf => ?_⟩
  · rw [h₀.custody] at hs
    by_contra hsize
    exact hs (if_neg hsize)
  · rw [Yard.moves, h₀.log]
    rfl
  · cases hx
  · rw [h₀.custody]
    split <;> simp
  · cases hf

/-- What holds at any time, for some notes of the threads. -/
theorem Start.fits (h₀ : Start G S₀) (h : Trace (Step G proc) S₀ ls S) : ∃ ν, (calls G proc).Fits (fun _ => Returns) S ν := by
  have hfits : (calls G proc).Fits (fun _ => Returns) S₀ fun _ => [] := by
    refine ⟨h₀.inv, fun _ _ => trivial, fun t p hp => ?_⟩
    rw [h₀.idle t] at hp
    cases hp
  have hrun : Trace ((calls G proc).Step (text G)) S₀ ls S :=
    h.mono fun S l S' hs => ⟨fun _ _ _ => trivial, fun _ _ => trivial, hs⟩
  refine hfits.run (fun w ν t c hI _ _ => ⟨ν t, ?_, outline_text c⟩) (fun _ _ _ _ => trivial) hrun
  rw [Function.update_eq_self]
  exact hI

/-- **The tagged stacks.** In every run, each stack is a finite chain without repetition of the blocks that were pushed
on it and not popped since: the pushes and pops can be replayed in the order of their `DWCAS`, each pop taking
what is on top, so that nothing is lost, and nothing is popped twice for one push. A call that returns a block has
popped that block, one that returns a data slot has popped a node with that data slot in it, and one that returns 0
has popped nothing. -/
theorem tagged_stacks (h₀ : Start G S₀) (h : Trace (Step G proc) S₀ ls S) :
    (∀ hd, IsHead hd → ∃ L : List (ℤ × ℤ), Lifo.replay (S.world.moves hd) = some L ∧ StackAt S.world.mem hd (L.map Prod.fst) ∧
      (L.map Prod.fst).Nodup ∧ (∀ x ∈ L, x.1 ≠ 0 ∧ S.world.mem (x.1 + VALUE_OFFSET) = x.2) ∧
      ∀ x, (S.world.moves hd).count (.push x) = (S.world.moves hd).count (.pop x) + L.count x) ∧
    (∀ t slot, S.result t = some (.pushed slot) → ∃ hd v, S.world.last t = some (.push hd slot v)) ∧
    (∀ t slot, S.result t = some (.block slot) → if slot = 0 then ∃ k, S.world.last t = some (.begin (.lookupFreedData k))
      else ∃ hd v, S.world.last t = some (.pop hd slot v)) ∧
    (∀ t d, S.result t = some (.data d) → if d = 0 then S.world.last t = some (.begin .lifoRemove)
      else ∃ node, S.world.last t = some (.pop STACK_HEAD node d)) := by
  obtain ⟨ν, hF⟩ := h₀.fits h
  have hI : Inv G S.world ν := hF.inv
  have hreturns : ∀ {t a}, S.result t = some a → Returns a (ν t) := fun hr => hF.task _ _ (Pool.task_of_result hr)
  refine ⟨fun hd hhd => ?_, fun t slot hr => ?_, fun t slot hr => ?_, fun t d hr => ?_⟩
  · obtain ⟨L, hL⟩ := hI.holding hd hhd
    refine ⟨L, hL.replay, hL.chain, hL.nodup, fun x hx => ⟨?_, hL.value x hx⟩, fun x => Lifo.count_replay x hL.replay⟩
    have hb := hI.block ((hL.custody x.1).1 (List.mem_map_of_mem hx)) (by simp)
    have := (G.start hb).1
    simp only [HDR_END] at this
    omega
  · obtain ⟨hd, v, hdid⟩ := hreturns hr
    exact ⟨hd, v, hI.known t _ hdid⟩
  · obtain ⟨hzero, hpop⟩ := hreturns hr
    split
    · next h =>
      obtain ⟨k, hdid⟩ := hzero h
      exact ⟨k, hI.known t _ hdid⟩
    · next h =>
      obtain ⟨hd, v, hdid⟩ := hpop h
      exact ⟨hd, v, hI.known t _ hdid⟩
  · obtain ⟨hzero, hpop⟩ := hreturns hr
    split
    · next h => exact hI.known t _ (hzero h)
    · next h =>
      obtain ⟨node, hdid⟩ := hpop h
      exact ⟨node, hI.known t _ hdid⟩

end

/-! ## Two threads -/

/-- One node, at slot 176. -/
def oneNode : Ground where
  size := fun s => if s = 176 then 4 else 0
  start := by
    intro s hs
    split at hs
    · next h =>
      subst h
      decide
    · cases hs
  apart := by
    intro s s' hs hs' hne
    split at hs <;> split at hs' <;> omega

/-- An object with nothing on its stacks. -/
def emptyObject : Threads Unit Bool where
  world :=
    { site := ⟨fun _ => 0, fun _ => 0, 4096, fun _ => ⟨fun _ => 0, fun _ => 0, ⟨512, [], 4096, fun _ _ => .ok, fun _ => true⟩, 0,
        fun _ => ⟨0, 0⟩, fun _ => true, []⟩⟩
      custody := fun s => if 0 < oneNode.size s then .loose else .nowhere
      log := [] }
  task := fun _ => none

/-- A call and its first steps. -/
def begun (t : Bool) (c : Call) (steps : ℕ) : List (Bool × Move Call) := (t, .call c) :: List.replicate steps (t, .op)

/-- The node is filled and pushed. Thread `true` reads the counter, the head and the data slot of the node; before it looks
again, thread `false` pops the node and pushes it once more. -/
def popAndPush : List (Bool × Move Call) :=
  begun false (.write 176 3 555) 5 ++ [(false, .ret)] ++ begun false (.lifoAdd 176) 13 ++ [(false, .ret)] ++ begun true .lifoRemove 8 ++
    begun false .lifoRemove 19 ++ [(false, .ret)] ++ begun false (.lifoAdd 176) 13 ++ List.replicate 3 (true, .op)

/-- Thread `true` finds the head it has read, but another counter: it pops nothing, and the node is on the stack. -/
theorem tagged_stacks_pushed_again :
    ∃ S, popAndPush.foldlM (Pool.step (stage fun _ => ()) (text oneNode)) emptyObject = some S ∧ S.result true = some (.data 0) ∧
      S.world.last true = some (.begin .lifoRemove) ∧ S.world.mem STACK_HEAD = 176 ∧
      ∃ L : List (ℤ × ℤ), Lifo.replay (S.world.moves STACK_HEAD) = some L ∧ StackAt S.world.mem STACK_HEAD (L.map Prod.fst) := by
  have hstart : Start oneNode emptyObject := ⟨fun _ _ => rfl, fun _ => rfl, rfl, fun _ => rfl⟩
  have hrun : ∃ S, popAndPush.foldlM (Pool.step (stage fun _ => ()) (text oneNode)) emptyObject = some S ∧
      S.result true = some (.data 0) ∧ S.world.mem STACK_HEAD = 176 := ⟨_, rfl, rfl, rfl⟩
  obtain ⟨S, hS, hdata, hhead⟩ := hrun
  obtain ⟨hstack, -, -, hpops⟩ := tagged_stacks hstart (Trace.of_foldlM (fun _ _ _ h => h) hS)
  obtain ⟨L, hreplay, hchain, -⟩ := hstack STACK_HEAD ⟨by decide, .inr rfl⟩
  exact ⟨S, hS, hdata, hpops true 0 hdata, hhead, L, hreplay, hchain⟩

end LibShr.Stacks
