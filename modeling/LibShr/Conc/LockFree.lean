import LibShr.Conc.Handing

/-!
# The functions on the lists

What each of the list functions keeps, step by step, and what holds of the lists after any run.
-/

namespace LibShr.Lists

open Prog Fifo Links

section
variable {Pr T : Type} [DecidableEq Pr] [DecidableEq T] {start : QId → List Entry} {proc : T → Pr} {n : List Fact} {t : T}
  {i : QId} {array slot extent first slots v g h c ref next : ℤ} {l : List Deed}

/-! ## Extents -/

theorem outline_resizeExtent {post : View → List Fact → Prop} (hpost : ∀ view : View, view.slot = 0 → post view n) :
    (inside start proc).outline t (resizeExtent extent) post n := by
  unfold resizeExtent
  refine Protocol.outline_bind (outline_calm trivial fun cur => ?_)
  refine Protocol.outline_ite (fun _ => hpost _ rfl) fun _ => ?_
  refine Protocol.outline_bind (outline_calm trivial fun size => ?_)
  refine Protocol.outline_ite (fun _ => hpost _ rfl) fun _ => ?_
  refine Protocol.outline_bind (outline_calm trivial fun size => ?_)
  refine Protocol.outline_bind (outline_calm trivial fun status => ?_)
  refine Protocol.outline_ite (fun _ => hpost _ rfl) fun _ => ?_
  exact Protocol.outline_bind (outline_calm trivial fun cur => hpost _ rfl)

theorem outline_insureInRange {post : View → List Fact → Prop} (hpost : ∀ view : View, view.slot = slot ∨ view.slot = 0 → post view n) :
    (inside start proc).outline t (insureInRange slot) post n := by
  unfold insureInRange
  refine Protocol.outline_bind (outline_calm trivial fun _ => ?_)
  refine Protocol.outline_bind (outline_calm trivial fun cur => ?_)
  refine Protocol.outline_ite (fun _ => ?_) fun _ => ?_
  · exact Protocol.outline_bind (outline_calm trivial fun cur => hpost _ (.inl rfl))
  · refine Protocol.outline_bind (outline_calm trivial fun cur => ?_)
    refine Protocol.outline_bind (outline_resizeExtent fun view hview => ?_)
    exact Protocol.outline_ite (fun _ => hpost _ (.inl rfl)) fun _ => hpost _ (.inr hview)

theorem outline_extendObject {post : Bool → List Fact → Prop} (hpost : ∀ done, post done n) :
    (inside start proc).outline t (extendObject array) post n := by
  unfold extendObject
  refine Protocol.outline_iterate (fun _ n' => n' = n) rfl ?_
  rintro _ _ rfl
  refine Protocol.outline_bind (outline_calm trivial fun size => ?_)
  refine Protocol.outline_bind (outline_calm trivial fun r => ?_)
  cases r with
  | done => exact hpost true
  | eintr => exact rfl
  | failed => exact hpost false

theorem outline_expand {post : View → List Fact → Prop} (hpost : ∀ view : View, view.slot = 0 → post view n) :
    (inside start proc).outline t (expand extent slots) post n := by
  unfold expand
  refine Protocol.outline_bind (outline_calm trivial fun _ => ?_)
  refine Protocol.outline_bind (outline_calm trivial fun cur => ?_)
  refine Protocol.outline_ite (fun _ => Protocol.outline_bind (outline_calm trivial fun cur => hpost _ rfl)) fun _ => ?_
  refine Protocol.outline_bind (outline_calm trivial fun size => ?_)
  refine Protocol.outline_ite (fun _ => outline_resizeExtent hpost) fun _ => ?_
  refine Protocol.outline_bind (outline_calm trivial fun size => ?_)
  have hrest : ∀ prev : ℤ, (inside start proc).outline t (do
      if !(← extendObject extent) then return ⟨.errNomem, 0, extent⟩
      let _ ← cas extent SIZE (prev / 8) ((← load extent EXPAND_SIZE) / 8)
      if extent ≠ (← load extent SIZE) then resizeExtent extent else return ⟨.ok, 0, extent⟩) post n := by
    intro prev
    refine Protocol.outline_bind (outline_extendObject fun done => ?_)
    refine Protocol.outline_ite (fun _ => hpost _ rfl) fun _ => ?_
    refine Protocol.outline_bind (outline_calm trivial fun target => ?_)
    refine Protocol.outline_bind (outline_calm (.inl rfl) fun _ => ?_)
    refine Protocol.outline_bind (outline_calm trivial fun size => ?_)
    exact Protocol.outline_ite (fun _ => outline_resizeExtent hpost) fun _ => hpost _ rfl
  refine Protocol.outline_ite (fun _ => ?_) fun _ => hrest _
  exact Protocol.outline_bind (outline_calm (.inr rfl) fun _ => hrest _)

/-- `insure_fit` returns the slot, or 0 when the object could not be expanded or mapped. -/
theorem outline_insureFit {post : View → List Fact → Prop}
    (hpost : ∀ view : View, view.slot = first ∨ view.slot = 0 → (view.status ≠ .ok → view.slot = 0) → post view n) :
    (inside start proc).outline t (insureFit first slots) post n := by
  unfold insureFit
  refine Protocol.outline_bind (outline_calm trivial fun _ => ?_)
  refine Protocol.outline_bind (outline_calm trivial fun _ => ?_)
  refine Protocol.outline_bind (outline_calm trivial fun cur => ?_)
  have hleave : ∀ view : View, view.slot = 0 → (inside start proc).outline t (do
      if view.status ≠ .ok then return view
      return { view with slot := first, extent := ← current }) post n := by
    intro view hview
    refine Protocol.outline_ite (fun _ => hpost _ (.inr hview) fun _ => hview) fun hok => ?_
    refine Protocol.outline_bind (outline_calm trivial fun cur => hpost _ (.inl rfl) fun h => ?_)
    exact absurd h hok
  refine Protocol.outline_bind (Protocol.outline_iterate (fun (view : View) n' => n' = n ∧ view.slot = 0) ⟨rfl, rfl⟩ ?_)
  rintro view _ ⟨rfl, hview⟩
  refine Protocol.outline_ite (fun _ => ?_) fun _ => hleave view hview
  refine Protocol.outline_bind (outline_expand fun view' hview' => ?_)
  exact Protocol.outline_ite (fun _ => hleave view' hview') fun _ => ⟨rfl, hview'⟩

/-! ## Putting a node into a list -/

/-- The thread has the node `slot`, the second word of the node is 0, and this is what the thread has done. -/
structure Given (slot : ℤ) (l : List Deed) (n : List Fact) : Prop where
  prompt : .prompt ∈ n
  hand : .hand slot ∈ n
  zero : .word slot 1 0 ∈ n
  did : .did l ∈ n

theorem Given.mono {n' : List Fact} (hg : Given slot l n) (hn : n ⊆ n') : Given slot l n' :=
  ⟨hn hg.prompt, hn hg.hand, hn hg.zero, hn hg.did⟩

/-- A node is given 0 in one of its words. -/
theorem outline_zero {off a : ℤ} {post : Unit → List Fact → Prop} (hg : Given slot l n) (hslot : slot ≠ 0) (ha : a = slot + off)
    (hoff : 0 ≤ off ∧ off < 4) (hpost : ∀ n', Given slot l n' → post () n') : (inside start proc).outline t (store array a 0) post n := by
  refine outline_store ha hg.prompt hg.hand hoff (fun _ => .inl (Ne.symm hslot)) (fun _ => .inl rfl) fun n' hword hkeep => hpost n' ?_
  refine ⟨hkeep _ hg.prompt rfl, hkeep _ hg.hand rfl, ?_, hkeep _ hg.did rfl⟩
  by_cases h1 : off = 1
  · subst h1
    exact hword
  · exact hkeep _ hg.zero (by simp [Fact.gone, Ne.symm h1])

theorem outline_memset0 {post : Unit → List Fact → Prop} (hslot : slot ≠ 0) (hpost : ∀ n', Given slot l n' → post () n') :
    ∀ (k : ℕ) {off : ℤ} {n : List Fact}, Given slot l n → 0 ≤ off → off + k ≤ 4 →
      (inside start proc).outline t (memset0 array (slot + off) k) post n
  | 0, _, _, hg, _, _ => hpost _ hg
  | k + 1, off, n, hg, h0, h4 => by
    refine Protocol.outline_bind (outline_zero hg hslot rfl ⟨h0, by omega⟩ fun n' hg' => ?_)
    rw [add_assoc]
    exact outline_memset0 hslot hpost k hg' (by omega) (by push_cast at h4; omega)

/-- `add_end` of a node whose second word is 0. -/
theorem outline_addEnd (hg : Given slot l n) :
    (inside start proc).outline t (addEnd slot i.tail) (fun _ n' => .prompt ∈ n' ∧ ∃ e : Entry, e.slot = slot ∧
      (∀ d, .word slot i.payload d ∈ n → e.value = d) ∧ .did (l ++ [.link i e]) ∈ n') n := by
  have hpay : ∀ d, (Fact.word slot i.payload d).gone slot 0 slot = false ∧ ∀ g, (Fact.word slot i.payload d).gone slot 1 g = false := by
    intro d
    obtain ⟨-, -, -, -, -, -, -, -, -, -, -, -, hlow, -⟩ := QId.bounds i
    have h₀ : i.payload ≠ 0 := by omega
    have h₁ : i.payload ≠ 1 := by omega
    exact ⟨by simp [Fact.gone, h₀], fun g => by simp [Fact.gone, h₁]⟩
  obtain ⟨hprompt, hhand, hzero, hdid⟩ := hg
  unfold addEnd
  refine Protocol.outline_bind (outline_calm trivial fun array => ?_)
  refine Protocol.outline_bind (outline_afa hprompt fun g n₁ hn₁ hstamp hfresh => ?_)
  refine Protocol.outline_bind (outline_store (add_zero _).symm (hn₁ hprompt) (hn₁ hhand) ⟨le_rfl, by decide⟩ (fun _ => .inr (hn₁ hzero))
    (fun h => absurd h (by decide)) fun n₂ hself hkeep₂ => ?_)
  refine Protocol.outline_bind (outline_store rfl (hkeep₂ _ (hn₁ hprompt) rfl) (hkeep₂ _ (hn₁ hhand) rfl) ⟨by decide, by decide⟩
    (fun h => absurd h (by decide)) (fun _ => .inr ⟨hkeep₂ _ hstamp rfl, hkeep₂ _ hfresh rfl⟩) fun n₃ hword hkeep₃ => ?_)
  -- what the thread knows while it looks for the end of the list
  refine Protocol.outline_iterate (fun _ n' => n₃ ⊆ n') (List.Subset.refl _) ?_
  intro array n' hn'
  have hprompt' : .prompt ∈ n' := hn' (hkeep₃ _ (hkeep₂ _ (hn₁ hprompt) rfl) rfl)
  refine Protocol.outline_bind (Protocol.outline_bind (outline_tailLow hprompt' fun next n₄ hn₄ hnode => ?_))
  refine Protocol.outline_bind (outline_tailHigh (hn₄ hprompt') fun h n₅ hn₅ htail => ?_)
  refine Protocol.outline_bind (outline_insureInRange fun view _ => ?_)
  refine Protocol.outline_bind (outline_peek (hn₅ (hn₄ hprompt')) htail fun v n₆ hn₆ hfollow => ?_)
  have hold : ∀ {f : Fact}, f ∈ n₃ → f ∈ n₆ := fun hf => hn₆ (hn₅ (hn₄ (hn' hf)))
  refine Protocol.outline_ite (fun _ => ?_) fun hne => ?_
  · have hd := hold (hkeep₃ _ (hkeep₂ _ (hn₁ hdid) rfl) rfl)
    have hs := hold (hkeep₃ _ hself (by simp [Fact.gone]))
    have hg := hold (hkeep₃ _ (hkeep₂ _ hstamp rfl) rfl)
    refine Protocol.outline_bind (outline_link (hn₆ (hn₅ (hn₄ hprompt'))) hd hs (hold hword) hg (hn₆ htail) (hn₆ (hn₅ hnode))
      (fun e heslot _ hvalue => ?_) ?_)
    · refine Protocol.outline_ite (fun _ => ?_) fun h => absurd rfl h
      refine Protocol.outline_bind (outline_swing (l := l ++ [.link i e]) List.mem_cons_self (by simp) (by simp) (by simp) fun b => ?_)
      refine ⟨List.mem_cons_self, e, heslot, fun d hd => hvalue d ?_, by simp⟩
      exact hold (hkeep₃ _ (hkeep₂ _ (hn₁ hd) (hpay d).1) ((hpay d).2 g))
    · exact Protocol.outline_ite (fun h => absurd h Bool.false_ne_true) fun _ => fun _ hf => hold hf
  · have hfollow := hfollow (Ne.symm hne)
    have hp₆ := hn₆ (hn₅ (hn₄ hprompt'))
    refine Protocol.outline_bind (Protocol.outline_bind (outline_follow hp₆ hfollow (.inl ⟨rfl, rfl⟩) fun low n₇ hn₇ hlow => ?_))
    refine Protocol.outline_bind (outline_follow (hn₇ hp₆) hlow (.inr ⟨rfl, rfl⟩) fun high n₈ hn₈ hhigh => ?_)
    refine Protocol.outline_bind (outline_help (hn₈ (hn₇ hp₆)) (hn₈ hlow) hhigh fun b => ?_)
    exact fun _ hf => hn₈ (hn₇ (hold hf))

/-! ## Taking the dummy out of a list -/

def Removed (i : QId) (c ref : ℤ) (l : List Deed) (n : List Fact) (r : ℤ) (n' : List Fact) : Prop :=
  (r = 0 → n ⊆ n') ∧ (r ≠ 0 → r = ref ∧ 0 < ref ∧
    ∃ y : Entry, (∀ d, .glance i c ref Entry.value d ∈ n → y.value = d) ∧ Given ref (l ++ [.unlink i ref y]) n')

/-- `remove_front` with the counter that was read before. -/
theorem outline_removeFront (hprompt : .prompt ∈ n) (hdid : .did l ∈ n) (hcount : .count i c ∈ n) :
    (inside start proc).outline t (removeFront ref c i.head i.tail) (Removed i c ref l n) n := by
  have hnone : ∀ {n' : List Fact}, n ⊆ n' → Removed i c ref l n 0 n' := fun h => ⟨fun _ => h, fun h => absurd rfl h⟩
  unfold removeFront
  refine Protocol.outline_bind (outline_calm trivial fun array => ?_)
  refine Protocol.outline_ite (fun hge => ?_) fun _ => hnone (List.Subset.refl _)
  have href : 0 < ref := lt_of_lt_of_le (by decide) hge
  refine Protocol.outline_bind (outline_beyond ref hprompt hcount fun v n₁ hn₁ hbeyond => ?_)
  refine Protocol.outline_ite (fun hne => ?_) fun _ => hnone hn₁
  refine Protocol.outline_bind (outline_insureInRange fun view _ => ?_)
  refine Protocol.outline_bind (outline_next (hn₁ hprompt) (hbeyond hne) fun link n₂ hn₂ hlink => ?_)
  refine Protocol.outline_bind (outline_unlink (hn₂ (hn₁ hprompt)) (hn₂ (hn₁ hdid)) (hn₂ (hbeyond hne)) hlink (fun y hy => ?_) ?_)
  · refine Protocol.outline_ite (fun _ => ?_) fun h => absurd rfl h
    have hhand : Fact.hand ref ∈ [Fact.prompt, .hand ref, .did (l ++ [.unlink i ref y])] := by simp
    have hdid' : Fact.did (l ++ [.unlink i ref y]) ∈ [Fact.prompt, .hand ref, .did (l ++ [.unlink i ref y])] := by simp
    unfold memset0 memset0 memset0
    refine Protocol.outline_bind (Protocol.outline_bind ?_)
    refine outline_store (add_zero _).symm List.mem_cons_self hhand ⟨le_rfl, by decide⟩ (fun _ => .inl href.ne)
      (fun h => absurd h (by decide)) fun n₃ _ hkeep₃ => ?_
    refine Protocol.outline_bind ?_
    refine outline_store rfl (hkeep₃ _ List.mem_cons_self rfl) (hkeep₃ _ hhand rfl) ⟨by decide, by decide⟩
      (fun h => absurd h (by decide)) (fun _ => .inl rfl) fun n₄ hword hkeep₄ => ?_
    refine ⟨fun h => absurd h href.ne', fun _ => ⟨rfl, href, y, fun d hd => hy _ d (hn₂ (hn₁ hd)), ?_, ?_, hword, ?_⟩⟩
    · exact hkeep₄ _ (hkeep₃ _ List.mem_cons_self rfl) rfl
    · exact hkeep₄ _ (hkeep₃ _ hhand rfl) rfl
    · exact hkeep₄ _ (hkeep₃ _ hdid' rfl) rfl
  · exact Protocol.outline_ite (fun h => absurd h Bool.false_ne_true) fun _ => hnone fun _ hf => hn₂ (hn₁ hf)

/-! ## New nodes -/

theorem outline_allocNewData (hprompt : .prompt ∈ n) (hdid : .did l ∈ n) (hslots : 4 ≤ slots) :
    (inside start proc).outline t (allocNewData slots) (fun view n' => (view.slot = 0 → .prompt ∈ n' ∧ .did l ∈ n') ∧
      (view.slot ≠ 0 → Given view.slot (l ++ [.carve view.slot slots]) n')) n := by
  have hnone : ∀ {s : ℤ}, s = 0 → (s = 0 → .prompt ∈ n ∧ .did l ∈ n) ∧ (s ≠ 0 → Given s (l ++ [.carve s slots]) n) :=
    fun h => ⟨fun _ => ⟨hprompt, hdid⟩, fun hne => absurd h hne⟩
  unfold allocNewData
  refine Protocol.outline_bind (outline_calm trivial fun array => ?_)
  refine Protocol.outline_bind (outline_calm trivial fun nodeAlloc => ?_)
  refine Protocol.outline_bind (outline_insureFit fun view _ hview => ?_)
  refine Protocol.outline_ite (fun hne => hnone (hview hne)) fun _ => ?_
  refine Protocol.outline_iterate (fun _ n' => n' = n) rfl ?_
  rintro ⟨view, nodeAlloc⟩ n' rfl
  refine Protocol.outline_ite (fun _ => hnone rfl) fun _ => ?_
  refine Protocol.outline_bind (outline_calm trivial fun size => ?_)
  refine Protocol.outline_ite (fun _ => ?_) fun _ => hnone rfl
  refine Protocol.outline_bind (outline_carve rfl hprompt hdid hslots (fun hne => ?_) ?_)
  · refine Protocol.outline_ite (fun _ => ?_) fun h => absurd rfl h
    refine Protocol.outline_bind (outline_store (add_zero _).symm List.mem_cons_self (by simp) ⟨le_rfl, by decide⟩ (fun _ => .inr (by simp))
      (fun h => absurd h (by decide)) fun n₁ _ hkeep => ?_)
    refine ⟨fun h => absurd h hne, fun _ => ⟨?_, ?_, ?_, ?_⟩⟩
    · exact hkeep _ List.mem_cons_self rfl
    · exact hkeep (.hand nodeAlloc) (by simp) rfl
    · exact hkeep (.word nodeAlloc 1 0) (by simp) (by simp [Fact.gone])
    · exact hkeep (.did (l ++ [.carve nodeAlloc slots])) (by simp) rfl
  · refine Protocol.outline_ite (fun h => absurd h Bool.false_ne_true) fun _ => ?_
    refine Protocol.outline_bind (outline_calm trivial fun array => ?_)
    refine Protocol.outline_bind (outline_calm trivial fun nodeAlloc => ?_)
    exact Protocol.outline_bind (outline_insureFit fun view _ _ => rfl)

/-- What has been done for the node `slot`: it comes from the free list, or it is a new block. Before that a node of the free
list may have been lost, which could not be mapped. -/
inductive Source (slot : ℤ) : List Deed → Prop
  | free (y : Entry) : Source slot [.unlink .free slot y]
  | carved : Source slot [.carve slot IDX_SIZE]
  | lost (s : ℤ) (y : Entry) : Source slot [.unlink .free s y, .carve slot IDX_SIZE]

/-- What has been done for no node. -/
inductive Spent : List Deed → Prop
  | nothing : Spent []
  | lost (s : ℤ) (y : Entry) : Spent [.unlink .free s y]

def Allotted (l : List Deed) (view : View) (n : List Fact) : Prop :=
  (view.slot = 0 → .prompt ∈ n ∧ ∃ l', Spent l' ∧ .did (l ++ l') ∈ n) ∧
    (view.slot ≠ 0 → ∃ l', Source view.slot l' ∧ Given view.slot (l ++ l') n)

/-- `realloc_pooled_mem` on the free list. -/
theorem outline_reallocPooledMem (hprompt : .prompt ∈ n) (hdid : .did l ∈ n) :
    (inside start proc).outline t (reallocPooledMem IDX_SIZE QId.free.head (QId.free.head + 1) QId.free.tail) (Allotted l) n := by
  unfold reallocPooledMem
  refine Protocol.outline_bind (outline_calm trivial fun array => ?_)
  refine Protocol.outline_bind (outline_count hprompt fun c n₁ hn₁ hcount => ?_)
  refine Protocol.outline_bind (outline_calm trivial fun node => ?_)
  refine Protocol.outline_iterate (fun s n' => .prompt ∈ n' ∧ .did l ∈ n' ∧ .count .free s.1 ∈ n') ⟨hn₁ hprompt, hn₁ hdid, hcount⟩ ?_
  rintro ⟨c, node⟩ n' ⟨hprompt, hdid, hcount⟩
  refine Protocol.outline_bind (outline_calm trivial fun tail => ?_)
  refine Protocol.outline_ite (fun _ => ?_) fun _ => ⟨fun _ => ⟨hprompt, [], .nothing, by rwa [List.append_nil]⟩, fun h => absurd rfl h⟩
  refine Protocol.outline_bind (Protocol.outline_mono (outline_removeFront hprompt hdid hcount) ?_)
  rintro r n₂ ⟨hzero, hremoved⟩
  refine Protocol.outline_ite (fun hr => ?_) fun hr => ?_
  · obtain ⟨rfl, hpos, y, -, hg⟩ := hremoved hr.ne'
    refine Protocol.outline_bind (outline_insureFit fun view hview _ => ?_)
    refine Protocol.outline_ite (fun hne => ?_) fun hnone => ?_
    · obtain hslot : view.slot = r := hview.resolve_right hne
      have hzero : (inside start proc).outline t (memset0 view.extent (r + 0) IDX_SIZE) (fun _ => Given r (l ++ [.unlink .free r y])) n₂ :=
        outline_memset0 hr.ne' (fun _ hg => hg) IDX_SIZE hg le_rfl (by decide)
      rw [add_zero] at hzero
      refine Protocol.outline_bind (Protocol.outline_mono hzero fun _ n₃ hg₃ => ?_)
      refine ⟨fun h => absurd h hne, fun _ => ⟨[.unlink .free r y], ?_, ?_⟩⟩
      · rw [hslot]
        exact .free y
      · rw [hslot]
        exact hg₃
    · have hnone : view.slot = 0 := not_not.1 hnone
      exact ⟨fun _ => ⟨hg.prompt, _, .lost r y, hg.did⟩, fun h => absurd hnone h⟩
  · have hr : r = 0 := by
      by_contra hne
      obtain ⟨rfl, hpos, -⟩ := hremoved hne
      exact hr hpos
    have hn₂ := hzero hr
    refine Protocol.outline_bind (outline_count (hn₂ hprompt) fun c n₃ hn₃ hcount => ?_)
    refine Protocol.outline_bind (outline_calm trivial fun node => ?_)
    exact ⟨hn₃ (hn₂ hprompt), hn₃ (hn₂ hdid), hcount⟩

theorem outline_allocIdxSlots (hprompt : .prompt ∈ n) (hdid : .did l ∈ n) :
    (inside start proc).outline t allocIdxSlots (Allotted l) n := by
  unfold allocIdxSlots
  refine Protocol.outline_bind (Protocol.outline_mono (outline_reallocPooledMem hprompt hdid) ?_)
  rintro view n₁ ⟨hnone, hsome⟩
  refine Protocol.outline_ite (fun hne => ⟨fun h => absurd h hne, fun _ => hsome hne⟩) fun hz => ?_
  obtain ⟨hprompt₁, l', hl', hdid₁⟩ := hnone (not_not.1 hz)
  refine Protocol.outline_mono (outline_allocNewData hprompt₁ hdid₁ (by decide)) ?_
  rintro view n₂ ⟨hnone, hsome⟩
  refine ⟨fun h => ⟨(hnone h).1, l', hl', (hnone h).2⟩, fun h => ?_⟩
  have hg := hsome h
  rw [List.append_assoc] at hg
  cases hl' with
  | nothing => exact ⟨_, .carved, hg⟩
  | lost s y => exact ⟨_, .lost s y, hg⟩

/-! ## Adding -/

/-- What is known after an item or an event was added to the list `i`, or was not. -/
def Added (i : QId) (v : ℤ) (l : List Deed) (r : ℤ) (n : List Fact) : Prop :=
  .prompt ∈ n ∧ ((r = 0 ∧ ∃ l', Spent l' ∧ .did (l ++ l') ∈ n) ∨
    r ≠ 0 ∧ ∃ l' e, Source r l' ∧ e.slot = r ∧ e.value = v ∧ .did (l ++ l' ++ [.link i e]) ∈ n)

/-- A node is allocated, filled and put into the list `i`. -/
theorem outline_added (hprompt : .prompt ∈ n) (hdid : .did l ∈ n) :
    (inside start proc).outline t (do
      let view ← allocIdxSlots
      if view.slot = 0 then return 0
      store view.extent (view.slot + i.payload) v
      addEnd view.slot i.tail
      return view.slot) (Added i v l) n := by
  obtain ⟨-, -, -, -, -, -, -, -, -, -, -, -, hlow, hhigh⟩ := QId.bounds i
  refine Protocol.outline_bind (Protocol.outline_mono (outline_allocIdxSlots hprompt hdid) ?_)
  rintro view n₁ ⟨hnone, hsome⟩
  refine Protocol.outline_ite (fun hz => ?_) fun hne => ?_
  · obtain ⟨hprompt₁, hspent⟩ := hnone hz
    exact ⟨hprompt₁, .inl ⟨rfl, hspent⟩⟩
  · obtain ⟨l', hsource, hg⟩ := hsome hne
    have h₁ : i.payload ≠ 1 := by omega
    refine Protocol.outline_bind (outline_store rfl hg.prompt hg.hand ⟨by omega, hhigh⟩ (fun h => absurd h (by omega))
      (fun h => absurd h h₁) fun n₂ hword hkeep => ?_)
    have hg₂ : Given view.slot (l ++ l') n₂ :=
      ⟨hkeep _ hg.prompt rfl, hkeep _ hg.hand rfl, hkeep _ hg.zero (by simp [Fact.gone, Ne.symm h₁]), hkeep _ hg.did rfl⟩
    refine Protocol.outline_bind (Protocol.outline_mono (outline_addEnd hg₂) ?_)
    rintro - n₃ ⟨hprompt₃, e, hslot, hvalue, hdid₃⟩
    exact ⟨hprompt₃, .inr ⟨hne, l', e, hsource, hslot, hvalue v hword, hdid₃⟩⟩

/-! ## Removing -/

/-- `fifo_remove` has removed nothing, or the dummy, with the data slot of the entry behind it. -/
def Fetched (l : List Deed) (r : ℤ) (n : List Fact) : Prop :=
  .prompt ∈ n ∧ ((r = 0 ∧ .did l ∈ n) ∨ r ≠ 0 ∧ ∃ s y x, y.value = r ∧ x.slot = s ∧ .did (l ++ [.unlink .item s y] ++ [.link .free x]) ∈ n)

theorem outline_fifoRemove (hprompt : .prompt ∈ n) (hdid : .did l ∈ n) : (inside start proc).outline t fifoRemove (Fetched l) n := by
  have hnone : ∀ {n' : List Fact}, n ⊆ n' → Fetched l 0 n' := fun h => ⟨h hprompt, .inl ⟨rfl, h hdid⟩⟩
  unfold fifoRemove
  refine Protocol.outline_bind (outline_calm trivial fun array => ?_)
  refine Protocol.outline_bind (outline_count (i := .item) hprompt fun c n₁ hn₁ hcount => ?_)
  refine Protocol.outline_bind (outline_calm trivial fun head => ?_)
  refine Protocol.outline_bind (outline_beyond (i := .item) head (hn₁ hprompt) hcount fun tail n₂ hn₂ hbeyond => ?_)
  have h₂ : n ⊆ n₂ := fun _ hf => hn₂ (hn₁ hf)
  refine Protocol.outline_ite (fun _ => hnone h₂) fun hne => ?_
  refine Protocol.outline_bind (outline_insureInRange fun _ _ => ?_)
  -- `next_item`
  refine Protocol.outline_bind (Protocol.outline_bind (outline_insureInRange fun view _ => ?_))
  refine Protocol.outline_ite (fun _ => Protocol.outline_ite (fun _ => hnone h₂) fun h => absurd rfl h) fun _ => ?_
  refine Protocol.outline_bind (outline_next (h₂ hprompt) (hbeyond hne) fun next n₃ hn₃ hnext => ?_)
  have h₃ : n ⊆ n₃ := fun _ hf => hn₃ (h₂ hf)
  refine Protocol.outline_ite (fun _ => Protocol.outline_ite (fun _ => hnone h₃) fun h => absurd rfl h) fun _ => ?_
  refine Protocol.outline_bind (outline_insureInRange fun view _ => ?_)
  refine Protocol.outline_ite (fun _ => Protocol.outline_ite (fun _ => hnone h₃) fun h => absurd rfl h) fun _ => ?_
  refine Protocol.outline_ite (fun _ => Protocol.outline_ite (fun _ => hnone h₃) fun h => absurd rfl h) fun _ => ?_
  refine outline_value (i := .item) (h₃ hprompt) hnext fun d n₄ hn₄ hvalue => ?_
  have h₄ : n ⊆ n₄ := fun _ hf => hn₄ (h₃ hf)
  refine Protocol.outline_ite (fun _ => hnone h₄) fun hd => ?_
  refine Protocol.outline_bind (Protocol.outline_mono
    (outline_removeFront (i := .item) (h₄ hprompt) (h₄ hdid) (hn₄ (hn₃ (hn₂ hcount)))) ?_)
  rintro r n₅ ⟨hzero, hremoved⟩
  refine Protocol.outline_ite (fun hr => hnone fun _ hf => hzero hr (h₄ hf)) fun hr => ?_
  obtain ⟨rfl, -, y, hy, hg⟩ := hremoved hr
  refine Protocol.outline_bind (Protocol.outline_mono (outline_addEnd (i := .free) hg) ?_)
  rintro - n₆ ⟨hprompt₆, x, hx, -, hdid₆⟩
  exact ⟨hprompt₆, .inr ⟨hd, r, y, x, hy d hvalue, hx, hdid₆⟩⟩

/-- The search for an event has removed nothing, or the dummy; then it tells of the entry behind it, unless that could not be mapped. -/
def Taken (l : List Deed) (r : Event) (n : List Fact) : Prop :=
  .prompt ∈ n ∧ ((r = .none ∧ .did l ∈ n) ∨ ∃ s y x, (r = Event.ofCode y.value ∨ r = .none) ∧ x.slot = s ∧
    .did (l ++ [.unlink .event s y] ++ [.link .free x]) ∈ n)

theorem outline_nextEvent (hprompt : .prompt ∈ n) (hbeyond : .beyond .event c ref ∈ n) {post : Event → List Fact → Prop}
    (hpost : ∀ e n', n ⊆ n' → (e = .none ∨ ∃ d, e = Event.ofCode d ∧ .glance .event c ref Entry.value d ∈ n') → post e n') :
    (inside start proc).outline t (nextEvent ref) post n := by
  unfold nextEvent
  refine Protocol.outline_bind (outline_insureInRange fun view _ => ?_)
  refine Protocol.outline_ite (fun _ => hpost _ _ (List.Subset.refl _) (.inl rfl)) fun _ => ?_
  refine Protocol.outline_bind (outline_next hprompt hbeyond fun next n₁ hn₁ hnext => ?_)
  refine Protocol.outline_bind (outline_insureInRange fun view _ => ?_)
  refine Protocol.outline_ite (fun _ => hpost _ _ hn₁ (.inl rfl)) fun _ => ?_
  refine Protocol.outline_bind (outline_value (i := .event) (hn₁ hprompt) hnext fun d n₂ hn₂ hvalue => ?_)
  exact hpost _ _ (fun _ hf => hn₂ (hn₁ hf)) (.inr ⟨d, rfl, hvalue⟩)

theorem outline_takeEvent (hprompt : .prompt ∈ n) (hdid : .did l ∈ n) :
    (inside start proc).outline t (LibShr.takeEvent array) (Taken l) n := by
  unfold LibShr.takeEvent
  refine Protocol.outline_bind (outline_count (i := .event) hprompt fun c n₁ hn₁ hcount => ?_)
  refine Protocol.outline_bind (outline_calm trivial fun head => ?_)
  refine Protocol.outline_iterate (fun s n' => .prompt ∈ n' ∧ .did l ∈ n' ∧ .count .event s.1 ∈ n') ⟨hn₁ hprompt, hn₁ hdid, hcount⟩ ?_
  rintro ⟨c, head⟩ n' ⟨hprompt, hdid, hcount⟩
  refine Protocol.outline_bind (outline_beyond (i := .event) head hprompt hcount fun tail n₂ hn₂ hbeyond => ?_)
  refine Protocol.outline_ite (fun hne => ?_) fun _ => ⟨hn₂ hprompt, .inl ⟨rfl, hn₂ hdid⟩⟩
  refine Protocol.outline_bind (outline_nextEvent (hn₂ hprompt) (hbeyond hne) fun e n₃ hn₃ he => ?_)
  refine Protocol.outline_bind (Protocol.outline_mono
    (outline_removeFront (i := .event) (hn₃ (hn₂ hprompt)) (hn₃ (hn₂ hdid)) (hn₃ (hn₂ hcount))) ?_)
  rintro r n₄ ⟨hzero, hremoved⟩
  refine Protocol.outline_ite (fun hr => ?_) fun hr => ?_
  · obtain ⟨rfl, -, y, hy, hg⟩ := hremoved hr
    refine Protocol.outline_bind (Protocol.outline_mono (outline_addEnd (i := .free) hg) ?_)
    rintro - n₅ ⟨hprompt₅, x, hx, -, hdid₅⟩
    refine ⟨hprompt₅, .inr ⟨r, y, x, ?_, hx, hdid₅⟩⟩
    rcases he with rfl | ⟨d, rfl, hd⟩
    · exact .inr rfl
    · rw [hy d hd]
      exact .inl rfl
  · have hn₄ := hzero (not_not.1 hr)
    have h₄ : n' ⊆ n₄ := fun _ hf => hn₄ (hn₃ (hn₂ hf))
    refine Protocol.outline_bind (outline_count (i := .event) (h₄ hprompt) fun c n₅ hn₅ hcount => ?_)
    refine Protocol.outline_bind (outline_calm trivial fun head => ?_)
    exact ⟨hn₅ (h₄ hprompt), hn₅ (h₄ hdid), hcount⟩

/-! ## The calls -/

/-- What a thread has done since it began a call that has returned this. A node that could not be mapped is lost, and the event behind such a node is not seen. -/
inductive Tells : List Deed → Answer → Prop
  | noItemNode {d : ℤ} {l : List Deed} : Spent l → Tells (.begin (.addItem d) :: l) (.node 0)
  | noEventNode {e : Event} {l : List Deed} : Spent l → Tells (.begin (.addEvent e) :: l) (.node 0)
  | added {x : Entry} {l : List Deed} : x.slot ≠ 0 → Source x.slot l → Tells (.begin (.addItem x.value) :: l ++ [.link .item x]) (.node x.slot)
  | raised {e : Event} {x : Entry} {l : List Deed} : x.slot ≠ 0 → x.value = e.code → Source x.slot l →
      Tells (.begin (.addEvent e) :: l ++ [.link .event x]) (.node x.slot)
  | noItem : Tells [.begin .removeItem] (.item 0)
  | removed {y x : Entry} : y.value ≠ 0 → Tells [.begin .removeItem, .unlink .item x.slot y, .link .free x] (.item y.value)
  | noEvent : Tells [.begin .takeEvent] (.event .none)
  | taken {y x : Entry} : Tells [.begin .takeEvent, .unlink .event x.slot y, .link .free x] (.event (Event.ofCode y.value))
  | unseen {y x : Entry} : Tells [.begin .takeEvent, .unlink .event x.slot y, .link .free x] (.event .none)
  | noBlock {k : ℕ} : Tells [.begin (.carve k)] (.block 0)
  | block {k : ℕ} {s : ℤ} : s ≠ 0 → Tells [.begin (.carve k), .carve s (max k IDX_SIZE)] (.block s)

def Returns (answer : Answer) (n : List Fact) : Prop := .prompt ∈ n ∧ ∃ l, Tells l answer ∧ .did l ∈ n

theorem Added.returns {k : Call} {r : ℤ} (h : Added i v [.begin k] r n) (hnone : ∀ l, Spent l → Tells (.begin k :: l) (.node 0))
    (hsome : ∀ (x : Entry) l, x.slot ≠ 0 → x.value = v → Source x.slot l → Tells (.begin k :: l ++ [.link i x]) (.node x.slot)) :
    Returns (.node r) n := by
  obtain ⟨hprompt, ⟨rfl, l, hl, hdid⟩ | ⟨hr, l, x, hl, rfl, hv, hdid⟩⟩ := h
  · exact ⟨hprompt, _, hnone l hl, hdid⟩
  · exact ⟨hprompt, _, hsome x l hr hv hl, hdid⟩

/-- Every call keeps the invariant. -/
theorem outline_text (k : Call) (hprompt : .prompt ∈ n) : (calls start proc).outline t (text t k) Returns n := by
  unfold text
  refine Protocol.outline_bind (outline_begin hprompt ?_)
  have hp : Fact.prompt ∈ [Fact.prompt, .did [.begin k]] := List.mem_cons_self
  have hd : Fact.did [.begin k] ∈ [Fact.prompt, .did [.begin k]] := by simp
  cases k with
  | addItem d =>
    refine Protocol.outline_bind (Protocol.outline_mono (outline_machine (outline_added (i := .item) (v := d) hp hd)) fun r n' h => ?_)
    refine Added.returns h (fun l hl => .noItemNode hl) fun x l hx hv hl => ?_
    rw [← hv]
    exact .added hx hl
  | removeItem =>
    refine Protocol.outline_bind (Protocol.outline_mono (outline_machine (outline_fifoRemove hp hd)) ?_)
    rintro r n' ⟨hprompt', ⟨rfl, hdid⟩ | ⟨hr, s, y, x, rfl, rfl, hdid⟩⟩
    · exact ⟨hprompt', _, .noItem, hdid⟩
    · exact ⟨hprompt', _, .removed hr, hdid⟩
  | addEvent e =>
    refine Protocol.outline_bind (Protocol.outline_mono (outline_machine (outline_added (i := .event) (v := e.code) hp hd)) fun r n' h => ?_)
    exact Added.returns h (fun l hl => .noEventNode hl) fun x l hx hv hl => .raised hx hv hl
  | takeEvent =>
    refine Protocol.outline_bind (Protocol.outline_mono (outline_machine (Protocol.outline_bind
      (outline_calm trivial fun array => outline_takeEvent hp hd))) ?_)
    rintro r n' ⟨hprompt', ⟨rfl, hdid⟩ | ⟨s, y, x, rfl | rfl, rfl, hdid⟩⟩
    · exact ⟨hprompt', _, .noEvent, hdid⟩
    · exact ⟨hprompt', _, .taken, hdid⟩
    · exact ⟨hprompt', _, .unseen, hdid⟩
  | carve k =>
    refine Protocol.outline_bind (Protocol.outline_mono (outline_machine (outline_allocNewData hp hd (le_max_right _ _))) ?_)
    rintro view n' ⟨hnone, hsome⟩
    by_cases hz : view.slot = 0
    · change Returns (.block view.slot) n'
      rw [hz]
      exact ⟨(hnone hz).1, _, .noBlock, (hnone hz).2⟩
    · exact ⟨(hsome hz).prompt, _, .block hz, (hsome hz).did⟩

end

/-! ## Runs -/

section
variable {Pr T : Type} [DecidableEq Pr] [DecidableEq T] {start : QId → List Entry} {proc : T → Pr} {S₀ S : Threads Pr T}
  {ls : List (T × Move Call)}

/-- No call is in progress, the lists are whole and at rest. The stamp 0 is nobody's, so it is not that of an entry. -/
structure Start (start : QId → List Entry) (S : Threads Pr T) : Prop where
  idle : ∀ t, S.task t = none
  log : S.world.log = []
  sound : Sound start S.world
  settled : ∀ i : QId, QueueAt S.world.mem i.head i.tail ((start i).map Entry.slot)

omit [DecidableEq Pr] in
theorem Start.inv (h₀ : Start start S₀) : Inv start S₀.world fun _ => [.prompt] := by
  have hhist : ∀ i, S₀.world.history start i = start i := fun i => by simp [Yard.history, Yard.links, h₀.log]
  have htaken : ∀ i, S₀.world.taken i = 0 := fun i => by simp [Yard.taken, Yard.unlinks, h₀.log]
  refine ⟨h₀.sound, fun t f hf => ?_, fun i => .inl ((h₀.sound.holding i).laid.past_last ?_)⟩
  · rw [List.mem_singleton.1 hf]
    trivial
  · rw [hhist, htaken]
    exact h₀.settled i

/-- What holds at any time, for some notes of the threads. -/
theorem Start.fits (h₀ : Start start S₀) (h : Trace (Step proc) S₀ ls S) : ∃ ν, (calls start proc).Fits (fun _ => Returns) S ν := by
  have hfits : (calls start proc).Fits (fun _ => Returns) S₀ fun _ => [.prompt] := by
    refine ⟨h₀.inv, fun _ _ => List.mem_singleton_self _, fun t p hp => ?_⟩
    rw [h₀.idle t] at hp
    cases hp
  have hrun : Trace ((calls start proc).Step text) S₀ ls S :=
    h.mono fun S l S' hs => ⟨fun _ _ _ => trivial, fun _ _ => trivial, hs⟩
  refine hfits.run (fun w ν t c hI hidle _ => ⟨ν t, ?_, outline_text c hidle⟩) (fun _ _ _ hr => hr.1) hrun
  rw [Function.update_eq_self]
  exact hI

/-- The dummy of the list `i`, and the entries that were not taken out. -/
def Yard.entries (start : QId → List Entry) (w : Yard Pr T) (i : QId) : List Entry := (w.history start i).drop (w.taken i)

/-- **The lists.** In every run, the entries of each list are taken out in the order of their links, each at most once; behind
its dummy the list has in memory exactly the entries that are left, with their payloads, from the head word to an entry that
leads to itself, and its tail word leads to one of them, to the last one when no call is in progress. Nodes of different
lists do not meet, and no stamp is that of two links. A call that has returned has done to the lists what its answer
tells, and no more. -/
theorem Start.whole (h₀ : Start start S₀) (h : Trace (Step proc) S₀ ls S) :
    (∀ i : QId, (start i).tail ++ S.world.links i = S.world.unlinks i ++ (S.world.entries start i).tail ∧
      Chained i.place S.world.mem (S.world.entries start i) ∧
      ((∀ t, S.task t = none) → QueueAt S.world.mem i.head i.tail ((S.world.entries start i).map Entry.slot))) ∧
    (∀ i j, i ≠ j → ∀ x ∈ S.world.entries start i, ∀ y ∈ S.world.entries start j, x.slot + 4 ≤ y.slot ∨ y.slot + 4 ≤ x.slot) ∧
    (∀ i j, ∀ x ∈ start i ++ S.world.links i, ∀ y ∈ start j ++ S.world.links j, x.stamp = y.stamp → i = j ∧ x = y) ∧
    ∀ t a, S.result t = some a → Tells (S.world.deeds t) a := by
  obtain ⟨ν, hF⟩ := h₀.fits h
  have hI : Inv start S.world ν := hF.inv
  have hne : ∀ i, start i ≠ [] := by
    intro i hi
    obtain ⟨x, hx, -⟩ := (h₀.sound.holding i).laid.first
    rw [Yard.history, Yard.links, h₀.log, hi] at hx
    cases hx
  have hentry : ∀ i, ∀ x ∈ S.world.entries start i, S.world.custody x.slot = .list i := by
    intro i x hx
    obtain ⟨k, hk⟩ := List.mem_iff_getElem?.1 hx
    rw [Yard.entries, List.getElem?_drop] at hk
    exact (hI.holding i).inside (Nat.le_add_right _ _) hk
  refine ⟨fun i => ⟨?_, (hI.holding i).laid.chained, fun hidle => (hI.holding i).laid.queueAt ?_⟩, fun i j hij x hx y hy => ?_,
    fun i j x hx y hy hxy => ?_, fun t a hr => ?_⟩
  · have hout := (hI.holding i).out
    have hdrop : (S.world.history start i).drop 1 = (start i).tail ++ S.world.links i := by
      rw [List.drop_one, Yard.history, List.tail_append_of_ne_nil (hne i)]
    rw [Yard.entries, List.tail_drop, ← hdrop]
    conv_rhs => rw [hout]
    rw [Nat.add_comm, ← List.drop_drop]
    exact (List.take_append_drop _ _).symm
  · rcases hI.behind i with hp | ⟨-, t, ht, -⟩
    · exact hp
    · exact absurd (hF.rest t (hidle t)) ht
  · refine hI.apart _ _ (by rw [hentry i x hx]; simp) (by rw [hentry j y hy]; simp) fun he => ?_
    have hx := hentry i x hx
    rw [he, hentry j y hy] at hx
    exact hij (Custody.list.inj hx).symm
  · obtain ⟨k, hk⟩ := List.mem_iff_getElem?.1 hx
    obtain ⟨k', hk'⟩ := List.mem_iff_getElem?.1 hy
    have hi := (hI.holding i).stamped k x hk
    rw [hxy, (hI.holding j).stamped k' y hk'] at hi
    obtain rfl := Stamp.link.inj hi
    exact ⟨rfl, ((hI.holding j).laid.place hk hk' hxy).2⟩
  · obtain ⟨-, l, hl, hdid⟩ := hF.task _ _ (Pool.task_of_result hr)
    have hdid : S.world.deeds t = l := hI.known t _ hdid
    rwa [hdid]

end

end LibShr.Lists
