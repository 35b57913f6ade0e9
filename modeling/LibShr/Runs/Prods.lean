import LibShr.Runs.History

/-!
# Prods

`shr_q_prod` puts a token into `DEQ_SEM` that stands for no item. A remover that takes it finds the
queue empty, and gives it back. So the token is never used up: `DEQ_SEM` always counts the items and
all the prods there ever were.
-/

namespace LibShr

open Prog

/-- Prods made so far, and removals that came back with nothing although their last attempt passed the
gate. -/
structure Prods where
  prods : ℕ := 0
  spent : ℕ := 0

/-- Each item a removal drops costs it a token, so the last attempt passed the gate if there were more
tokens than it dropped items. -/
def countProds (w : World) (e : Made) (w' : World) (n : Prods) : Prods :=
  match e.call, e.reply with
  | .prod, .status .ok => { n with prods := n.prods + 1 }
  | .remove _ _, .item i _ =>
    if i.status = .errEmpty ∧ w.mem COUNT - w'.mem COUNT < w.sem .deq then { n with spent := n.spent + 1 } else n
  | _, _ => n

/-- A removal that finds a token behind the last item: there is one too many, and every item is too old. -/
def Starved (w : World) (e : Made) : Prop :=
  ∃ g u v, e.call = .remove g u ∧ Queue.Removal e.caller.q g u v ∧ ((itemBlocks w.mem).length : ℤ) < w.sem .deq ∧
    survivingBlocks w.mem e.caller.clock g = []

section
variable {w w' w₀ : World} {Q Q' : Queue} {e : Made} {es : List Made} {n n' : Prods} {depth : ℤ}

/-- The tokens are those of the items and of the prods. -/
def Balanced (Q : Queue) (n : Prods) : Prop := Q.sem .deq = Q.items.length + n.prods

/-- A call other than a removal or a prod is not counted. -/
theorem countProds_other (h : ∀ g u, e.call ≠ .remove g u) (h' : e.call ≠ .prod) : countProds w e w' n = n := by
  unfold countProds
  split
  · next hc _ => exact absurd hc h'
  · next hc _ => exact absurd hc (h _ _)
  · rfl

theorem countProds_remove {g : Gate} {u : Option UserBuffer} {i : SqItem} {v : UserBuffer} (hc : e.call = .remove g u)
    (hr : e.reply = .item i v) : countProds w e w' n =
      if i.status = .errEmpty ∧ w.mem COUNT - w'.mem COUNT < w.sem .deq then { n with spent := n.spent + 1 } else n := by
  unfold countProds
  rw [hc, hr]

/-- **A removal is counted exactly if it was starved.** -/
theorem spent_step (hR : Represents w Q) (hR' : Represents w' Q') (hs : Q.Sane) (hs' : Q'.Sane) (hd : Q.Did e Q') :
    (countProds w e w' n).spent ≠ n.spent ↔ Starved w e := by
  obtain ⟨a, ha, hm⟩ := hd
  by_cases hrem : ∃ g u, e.call = .remove g u
  swap
  · have hno : ∀ g u, e.call ≠ .remove g u := fun g u h => hrem ⟨g, u, h⟩
    have hsame : (countProds w e w' n).spent = n.spent := by
      unfold countProds
      split
      · rfl
      · next hc _ => exact absurd hc (hno _ _)
      · rfl
    refine ⟨fun h => absurd hsame h, ?_⟩
    rintro ⟨g, u, -, hc, -⟩
    exact absurd hc (hno _ _)
  obtain ⟨g, u, hc⟩ := hrem
  rw [hc] at ha
  have hcount : w.mem COUNT = (itemBlocks w.mem).length := by rw [hR.count, hs.count, hR.length]
  have hcount' : w'.mem COUNT = (itemBlocks w'.mem).length := by rw [hR'.count, hs'.count, hR'.length]
  rcases Queue.step_remove ha with ⟨⟨st, v, hok, hne, rfl⟩, -, hno⟩ | ⟨v, r, hrm, hr, rfl, rfl⟩
  · -- refused for its arguments
    rw [countProds_remove hc hm.noItem, if_neg fun h => hne h.1]
    refine ⟨fun h => absurd rfl h, ?_⟩
    rintro ⟨g', u', v'', hc', hrm, -⟩
    rw [hc] at hc'
    cases hc'
    exact absurd hrm (hno _)
  · obtain ⟨hhead, htail⟩ := Queue.removeLoop_survivors hr hs.count hs.deq
    have hsur := hR.survivors e.caller.clock g
    have hstarved : Starved w e ↔ ((itemBlocks w.mem).length : ℤ) < w.sem .deq ∧ (Q.reading e.caller.clock).survivors g = [] := by
      constructor
      · rintro ⟨g', u', v', hc', -, hlt, hnil⟩
        rw [hc] at hc'
        cases hc'
        rw [hnil] at hsur
        exact ⟨hlt, List.forall₂_nil_left_iff.1 hsur⟩
      · rintro ⟨hlt, hnil⟩
        rw [hnil] at hsur
        exact ⟨g, u, v, hc, hrm, hlt, List.forall₂_nil_right_iff.1 hsur⟩
    rw [hstarved]
    cases hl : (Q.reading e.caller.clock).survivors g with
    | nil =>
      rw [hl] at hhead htail
      rw [hhead] at hm
      have hnone : w'.mem COUNT = 0 := by rw [hcount', hR'.length, htail]; rfl
      rw [countProds_remove hc hm.noItem, hnone, hcount, sub_zero]
      by_cases hlt : ((itemBlocks w.mem).length : ℤ) < w.sem .deq
      · rw [if_pos ⟨rfl, hlt⟩]
        simp [hlt]
      · rw [if_neg fun h => hlt h.2]
        simp [hlt]
    | cons it l =>
      rw [hl] at hhead
      rw [hhead] at hm
      obtain ⟨i, hrep, hi⟩ := hm.item
      rw [countProds_remove hc hrep, if_neg fun h => by rw [hi.status] at h; exact absurd h.1 (by decide)]
      simp

/-- The balance is kept by every call. -/
theorem balanced_step (hs : Q.Sane) (hb : Balanced Q n) (hd : Q.Did e Q') : Balanced Q' (countProds w e w' n) := by
  obtain ⟨a, ha, hm⟩ := hd
  have hmoved : ∀ {δ : Delta}, (Q.reading e.caller.clock).Change Q' δ → δ.deq = δ.count → (countProds w e w' n).prods = n.prods →
      Balanced Q' (countProds w e w' n) := fun h hδ hp => by
    have hdeq := h.deq
    have hlen := h.len
    simp only [Balanced] at hb ⊢
    rw [hdeq, hlen, hp, hδ]
    show Q.sem .deq + _ = Q.items.length + _ + _
    omega
  have hother : (∀ g u, e.call ≠ .remove g u) → e.call ≠ .prod → (countProds w e w' n).prods = n.prods := fun h h' => by
    rw [countProds_other h h']
  have hadd : ∀ {m v : ℕ}, e.call.request = some (m, v) → e.call ≠ .prod → (∀ g u, e.call ≠ .remove g u) →
      Balanced Q' (countProds w e w' n) := fun hc hp hr => by
    obtain ⟨st, -, ⟨-, it, es, hch, -, -⟩ | ⟨-, hch⟩⟩ := Queue.step_added hc ha
    · exact hmoved hch rfl (hother hr hp)
    · exact hmoved hch rfl (hother hr hp)
  cases hc : e.call with
  | add g value length => exact hadd (by rw [hc]; rfl) (by simp [hc]) (by simp [hc])
  | addv g vector => exact hadd (by rw [hc]; rfl) (by simp [hc]) (by simp [hc])
  | remove g u =>
    rw [hc] at ha
    obtain ⟨k, es, hch, -, -⟩ := Queue.step_left (Q := Q.reading e.caller.clock) hs.count ha
    refine hmoved hch rfl ?_
    unfold countProds
    split
    · next h _ => rw [hc] at h; cases h
    · split <;> rfl
    · rfl
  | clean t =>
    rw [hc] at ha
    obtain ⟨k, hch⟩ := Queue.step_cleaned ha
    exact hmoved hch rfl (hother (by simp [hc]) (by simp [hc]))
  | prod =>
    rw [hc] at ha
    rcases Queue.step_prod ha with ⟨-, rfl, rfl⟩ | ⟨-, rfl, rfl⟩
    · have hp : countProds w e w' n = { n with prods := n.prods + 1 } := by
        unfold countProds
        rw [hc, hm.status]
      rw [hp, Balanced]
      show Q.sem .deq + 1 = Q.items.length + ((n.prods + 1 : ℕ) : ℤ)
      rw [hb, Nat.cast_add, add_assoc]
      rfl
    · have hp : countProds w e w' n = n := by
        unfold countProds
        rw [hc, hm.status]
      rw [hp]
      exact hb
  | event =>
    rw [hc] at ha
    rw [countProds_other (by simp [hc]) (by simp [hc])]
    rcases Queue.step_event ha with ⟨-, -, rfl⟩ | ⟨-, -, rfl⟩
    · rcases Queue.takeEvent_cases (hs.reading _) with ⟨-, he⟩ | ⟨ev, l, -, he⟩
      · rw [he]
        exact hb
      · rw [he]
        exact hb
    · exact hb
  | _ =>
    rw [countProds_other (by simp [hc]) (by simp [hc])]
    obtain ⟨hd, rfl, -⟩ := Queue.step_resets (by rw [hc]; rfl) (by simp [hc]) ha
    exact hb

/-- A call with the record that does not starve. -/
def Fed (s : World × Prods) (e : Made) (s' : World × Prods) : Prop := Recorded countProds s e s' ∧ ¬Starved s.1 e

/-- Removals that came back with nothing are exactly the starved ones, over a whole run. -/
theorem spent_run {s s' : World × Prods} (h : Trace (Recorded countProds) s es s') (hR : Represents s.1 Q) (hs : Q.Sane) :
    s.2.spent ≤ s'.2.spent ∧ (s'.2.spent = s.2.spent ↔ Trace Fed s es s') := by
  induction h generalizing Q with
  | nil s => exact ⟨le_refl _, fun _ => .nil s, fun _ => rfl⟩
  | @cons s s₁ s' e es hstep hrest ih =>
    obtain ⟨hran, hnote⟩ := hstep
    obtain ⟨Q₁, hd, hR₁⟩ := hR.ran hran
    have hs₁ := hd.sane hs
    obtain ⟨hle, hiff⟩ := ih hR₁ hs₁
    have hone := spent_step (n := s.2) hR hR₁ hs hs₁ hd
    rw [← hnote] at hone
    have hmono : s.2.spent ≤ s₁.2.spent := by
      rw [hnote]
      unfold countProds
      split
      · exact le_refl _
      · split
        · exact Nat.le_succ _
        · exact le_refl _
      · exact le_refl _
    refine ⟨hmono.trans hle, fun heq => ?_, fun ht => ?_⟩
    · have h₁ : s₁.2.spent = s.2.spent := by omega
      exact .cons ⟨⟨hran, hnote⟩, fun hst => hone.2 hst h₁⟩ (hiff.1 (by omega))
    · cases ht with
      | @cons _ s₂ _ _ _ hfed hrest' =>
        -- the run is determined by its calls
        obtain ⟨⟨hran', hnote'⟩, hnot⟩ := hfed
        have hw : s₂.1 = s₁.1 := (hran.runs.det hran'.runs).2
        have heq : s₂ = s₁ := Prod.ext hw (by rw [hnote', hnote, hw])
        subst heq
        have h₁ : s₂.2.spent = s.2.spent := by
          by_contra hne
          exact hnot (hone.1 hne)
        rw [hiff.2 hrest', h₁]

/-- **A prod is used up as long as no removal starves**, and only then. -/
theorem prod_used_up (hw : Created depth w₀) (h : Trace (Recorded countProds) (w₀, {}) es (w, n)) :
    w.sem .deq = (itemBlocks w.mem).length + n.prods - n.spent ↔ Trace Fed (w₀, {}) es (w, n) := by
  obtain ⟨Q, hR, hs, hb⟩ : ∃ Q, Represents w Q ∧ Q.Sane ∧ Balanced Q n := by
    refine Recorded.invariant Balanced (fun _ _ => ?_) (fun _ _ hs _ hb hd => balanced_step hs hb hd) hw h
    rfl
  obtain ⟨ids, clock, hR₀⟩ := hw.represents
  have hrun := (spent_run h hR₀ (Queue.start_sane depth ids clock)).2
  rw [← hrun, hR.sem, hR.length, hb]
  show _ ↔ n.spent = 0
  omega

theorem prod_used_up_pending : ∃ w₀ es w n, Created 4 w₀ ∧ Trace (Recorded countProds) (w₀, {}) es (w, n) ∧ n.prods = 1 ∧
    w.sem .deq = (itemBlocks w.mem).length + n.prods - n.spent := by
  obtain ⟨w₀, hw, hR₀⟩ := fresh_represents
  obtain ⟨r₁, w₁, h₁, hm₁, -⟩ := hR₀.next (fun _ => ⟨1, 0⟩) .prod trivial (by decide +kernel)
  have hr₁ : r₁ = .status .ok := replied hm₁ (by decide +kernel)
  subst hr₁
  have hfed : Trace Fed (w₀, {}) [_] (w₁, _) := .cons ⟨h₁.noted, fun ⟨_, _, _, hc, _⟩ => by cases hc⟩ (.nil _)
  exact ⟨w₀, _, w₁, _, hw, .cons h₁.noted (.nil _), rfl, (prod_used_up hw (.cons h₁.noted (.nil _))).2 hfed⟩

/-- After a prod a removal comes back with nothing, but the token stays. -/
theorem prod_not_used_up : ∃ w₀ es w n, Created 4 w₀ ∧ Trace (Recorded countProds) (w₀, {}) es (w, n) ∧
    n.prods = 1 ∧ n.spent = 1 ∧ itemBlocks w.mem = [] ∧ w.sem .deq = 1 := by
  obtain ⟨w₀, hw, hR₀⟩ := fresh_represents
  obtain ⟨r₁, w₁, h₁, hm₁, hR₁⟩ := hR₀.next (fun _ => ⟨1, 0⟩) .prod trivial (by decide +kernel)
  obtain ⟨r₂, w₂, h₂, hm₂, hR₂⟩ := hR₁.next (fun _ => ⟨1, 0⟩) (.remove .wait (some ⟨false, 0⟩)) trivial (by decide +kernel)
  have hr₁ : r₁ = .status .ok := replied hm₁ (by decide +kernel)
  obtain ⟨v, rfl⟩ : ∃ v, r₂ = .item (SqItem.ofStatus .errEmpty) v := ⟨⟨false, 0⟩, Answer.Matches.noItem (hm₂ (.noItem .errEmpty ⟨false, 0⟩) rfl)⟩
  subst hr₁
  have hcount₁ : w₁.mem COUNT = 0 := hR₁.count.trans (by decide +kernel)
  have hcount₂ : w₂.mem COUNT = 0 := hR₂.count.trans (by decide +kernel)
  have hdeq₁ : w₁.sem .deq = 1 := (hR₁.sem _).trans (by decide +kernel)
  have hspent : countProds w₁ ⟨.page ⟨.readwrite⟩ fun _ => ⟨1, 0⟩, .remove .wait (some ⟨false, 0⟩), .item (SqItem.ofStatus .errEmpty) v⟩ w₂
      ⟨1, 0⟩ = ⟨1, 1⟩ := by
    rw [countProds_remove rfl rfl, hcount₁, hcount₂, hdeq₁]
    rfl
  have hlen : (itemBlocks w₂.mem).length = 0 := hR₂.length.trans (by decide +kernel)
  refine ⟨w₀, _, w₂, ⟨1, 1⟩, hw, .cons h₁.noted (.cons ⟨h₂, hspent.symm⟩ (.nil _)), rfl, rfl, List.length_eq_zero_iff.1 hlen, ?_⟩
  exact (hR₂.sem _).trans (by decide +kernel)

end

end LibShr
