import LibShr.Spec.Change

/-!
# Which items a removal drops

A remove function drops items from the front until one is not too old. Whether an item is too old
depends on the settings of the header, on the clock reading of its attempt, and on whether it is the
last item; dropping the items before it does not change this. So the items that are left can be told
in advance, from the settings and the time stamps.
-/

namespace LibShr

/-- What is left when elements are dropped from the front of a list as long as `p` says so, given the
number of the element and whether it is the last one. -/
def dropFrom {α : Type} (p : ℕ → Bool → α → Bool) : ℕ → List α → List α
  | _, [] => []
  | i, x :: l => if p i l.isEmpty x then dropFrom p (i + 1) l else x :: l

section
variable {α β : Type} {p p' : ℕ → Bool → α → Bool} {q : ℕ → Bool → β → Bool} {R : α → β → Prop}

/-- Where only the element itself matters, a longest prefix is dropped. -/
theorem dropFrom_const {f : α → Bool} {l : List α} {i : ℕ} : dropFrom (fun _ _ => f) i l = l.dropWhile f := by
  induction l generalizing i with
  | nil => rfl
  | cons x l ih =>
    unfold dropFrom
    rw [List.dropWhile_cons, ih]

/-- Elements that stand for each other are dropped alike. -/
theorem dropFrom_rel (hpq : ∀ i last a b, R a b → p i last a = q i last b) : ∀ {l : List α} {l' : List β} {i : ℕ},
    List.Forall₂ R l l' → List.Forall₂ R (dropFrom p i l) (dropFrom q i l')
  | _, _, _, .nil => .nil
  | a :: l, b :: l', i, .cons hab h => by
    have he : l.isEmpty = l'.isEmpty := by cases h <;> rfl
    rw [dropFrom, dropFrom, hpq i _ a b hab, he]
    split
    · exact dropFrom_rel hpq h
    · exact .cons hab h

/-- The numbers may be counted from elsewhere. -/
theorem dropFrom_shift : ∀ {l : List α} {i j : ℕ}, (∀ n last a, a ∈ l → (last = true ∨ 1 < l.length) → p (i + n) last a = p' (j + n) last a) →
    dropFrom p i l = dropFrom p' j l
  | [], _, _, _ => rfl
  | a :: l, i, j, h => by
    have h₀ : p i l.isEmpty a = p' j l.isEmpty a := h 0 _ a (by simp) (by cases l <;> simp)
    rw [dropFrom, dropFrom, h₀, dropFrom_shift (i := i + 1) (j := j + 1) fun n last b hb hl => ?_]
    have := h (n + 1) last b (by simp [hb]) (hl.imp_right fun h => by simp; omega)
    rwa [← add_assoc, ← add_assoc, add_right_comm, add_right_comm j] at this

/-- How many are dropped: all before are, and the next one is not. -/
theorem dropFrom_drop {l : List α} {i : ℕ} : ∃ k ≤ l.length, dropFrom p i l = l.drop k ∧
    (∀ j x, j < k → l[j]? = some x → p (i + j) (j + 1 = l.length) x = true) ∧
    ∀ x, l[k]? = some x → p (i + k) (k + 1 = l.length) x = false := by
  induction l generalizing i with
  | nil => exact ⟨0, le_refl _, rfl, by simp, by simp⟩
  | cons a l ih =>
    have hlast : l.isEmpty = decide (0 + 1 = (a :: l).length) := by cases l <;> simp
    unfold dropFrom
    split
    · next ha =>
      obtain ⟨k, hk, hdrop, hbefore, hnext⟩ := ih (i := i + 1)
      refine ⟨k + 1, Nat.succ_le_succ hk, hdrop, fun j x hj hx => ?_, fun x hx => ?_⟩
      · cases j with
        | zero =>
          cases hx
          rw [← hlast]
          exact ha
        | succ j =>
          have h := hbefore j x (Nat.lt_of_succ_lt_succ hj) hx
          rw [Nat.add_assoc, Nat.add_comm 1 j] at h
          simpa using h
      · have h := hnext x hx
        rw [Nat.add_assoc, Nat.add_comm 1 k] at h
        simpa using h
    · next ha =>
      refine ⟨0, Nat.zero_le _, rfl, by simp, fun x hx => ?_⟩
      cases hx
      rw [← hlast]
      exact Bool.not_eq_true _ ▸ ha

theorem dropFrom_length_le {l : List α} {i : ℕ} : (dropFrom p i l).length ≤ l.length := by
  obtain ⟨k, -, h, -⟩ := dropFrom_drop (p := p) (l := l) (i := i)
  rw [h]
  exact (List.drop_sublist k l).length_le

end

/-- A time stamp is older than `t`, which is a limit unless it is 0. -/
def olderThan (t now stamp : Timespec) : Bool :=
  if t.sec = 0 ∧ t.nsec = 0 then false else timespecgt (timespecsub now stamp) t

namespace Header

variable (h : Header)

def codel : Bool := (h.target.sec ≠ 0 || h.target.nsec ≠ 0) && (h.limit.sec ≠ 0 || h.limit.nsec ≠ 0)

/-- The age an item may have at `now`; `last` tells that no other item remains. -/
def ageLimit (last : Bool) (now : Timespec) : Timespec :=
  if !last && h.codel && h.empty.sec ≠ 0 && timespecgt (timespecsub now h.limit) h.empty then h.target else h.limit

/-- An item with this time stamp is dropped at `now`. -/
def expires (last : Bool) (now stamp : Timespec) : Bool :=
  Int.land h.flags FLAG_DISCARD_EXPIRED ≠ 0 && olderThan (h.ageLimit last now) now stamp

end Header

/-- The number of the clock reading at which the item number `i` is judged: a gate that waits for so
long reads the clock before each attempt. -/
def Gate.judged : Gate → ℕ → ℕ
  | .timed _, i => 2 * i + 1
  | _, i => i

/-- What a removal through the gate `g` leaves of the items `l`, the first of which it takes. -/
def Header.survivors {α : Type} (h : Header) (stamp : α → Timespec) (clock : ℕ → Timespec) (g : Gate) (l : List α) : List α :=
  dropFrom (fun i last x => h.expires last (clock (g.judged i)) (stamp x)) 0 l

theorem Gate.judged_succ (g : Gate) (n : ℕ) : g.judged (n + 1) = g.judged n + 1 + g.judged 0 := by
  cases g <;> simp only [Gate.judged] <;> omega

/-- The verdict depends on the settings it uses. -/
theorem Header.expires_congr {h h' : Header} {last : Bool} {now stamp : Timespec}
    (hf : Int.land h'.flags FLAG_DISCARD_EXPIRED = Int.land h.flags FLAG_DISCARD_EXPIRED) (hl : h'.limit = h.limit)
    (ht : h'.target = h.target) (he : last = true ∨ h'.empty = h.empty) :
    h'.expires last now stamp = h.expires last now stamp := by
  unfold Header.expires Header.ageLimit Header.codel
  rw [hf, hl, ht]
  rcases he with rfl | he
  · simp
  · rw [he]

namespace Queue

variable {Q Q' Q₁ : Queue} {it : Item} {g : Gate} {e : Event} {b : Bool}

/-- The items that a removal does not drop. -/
def survivors (Q : Queue) (g : Gate) : List Item := Q.hdr.survivors Item.stamp Q.clock g Q.items

/-! ## Judging one item -/

@[simp] theorem empty_raise {c : Prop} [Decidable c] : (Q.raise c e).hdr.empty = Q.hdr.empty := by
  unfold raise addEvent
  split
  · split <;> rfl
  · rfl

@[simp] theorem clock_raise {c : Prop} [Decidable c] : (Q.raise c e).clock = Q.clock := by
  unfold raise addEvent
  split
  · split <;> rfl
  · rfl

theorem expired_fst : (Q.expired it).1 = (Q.discards && it.exceeds (Q.ageLimit Q.now) Q.now) := by
  unfold expired
  cases Q.discards <;> rfl

theorem expired_hdr : (Q.expired it).2.hdr = Q.hdr := by
  unfold expired
  split <;> rfl

theorem expired_clock : (Q.expired it).2.clock = if Q.discards then rest Q.clock else Q.clock := by
  unfold expired
  split <;> rfl

theorem ageLimit_eq (now : Timespec) : Q.ageLimit now = Q.hdr.ageLimit false now := rfl

/-- Without a time stamp the target is not used. -/
theorem ageLimit_clearEmpty (now : Timespec) : Q.clearEmpty.ageLimit now = Q.hdr.limit := by
  unfold clearEmpty
  split
  · unfold ageLimit
    simp [setHdr]
  · next hc =>
    unfold ageLimit
    simp [hc]

theorem clearEmpty_discards : Q.clearEmpty.discards = Q.discards := by
  unfold clearEmpty
  split <;> rfl

theorem clearEmpty_now : Q.clearEmpty.now = Q.now := by
  unfold clearEmpty
  split <;> rfl

/-- The verdict on an item just taken. -/
theorem postDeq_fst : (Q.postDeq it).1 = Q.hdr.expires (Q.hdr.count = 1) Q.now it.stamp := by
  set Q₁ := Q.setHdr { Q.hdr with count := Q.hdr.count - 1 } with hQ₁
  have hfst : (Q.postDeq it).1 = ((if Q.hdr.count = 1 then Q₁.clearEmpty else Q₁).expired it).1 := rfl
  rw [hfst, expired_fst]
  by_cases h₁ : Q.hdr.count = 1
  · have hlast : Q.hdr.ageLimit true Q.now = Q.hdr.limit := by simp [Header.ageLimit]
    rw [if_pos h₁, ageLimit_clearEmpty, clearEmpty_discards, clearEmpty_now]
    simp only [h₁, decide_true, Header.expires, hlast]
    rfl
  · rw [if_neg h₁, ageLimit_eq]
    simp only [h₁, decide_false, Header.expires]
    rfl

theorem postDeq_empty (h : Q.hdr.count ≠ 1) : (Q.postDeq it).2.hdr.empty = Q.hdr.empty := by
  unfold postDeq
  simp only [h, if_false, decide_false]
  show ((((Q.setHdr _).expired it).2.raise False .empty).raise _ .time).hdr.empty = _
  rw [empty_raise, empty_raise, expired_hdr]
  rfl

theorem postDeq_clock : (Q.postDeq it).2.clock = if Q.discards then rest Q.clock else Q.clock := by
  unfold postDeq
  show (((_ : Queue).raise _ .empty).raise _ .time).clock = _
  rw [clock_raise, clock_raise, expired_clock]
  split
  · rw [clearEmpty]
    split <;> rfl
  · rfl

/-- An item that is dropped is reported. -/
theorem postDeq_time : (Q.postDeq it).2.subscribed .time = true ↔ Q.subscribed .time = true ∧ (Q.postDeq it).1 = false := by
  set Q₁ := Q.setHdr { Q.hdr with count := Q.hdr.count - 1 } with hQ₁
  set Q₂ := ((if Q.hdr.count = 1 then Q₁.clearEmpty else Q₁).expired it).2 with hQ₂
  have hsub : Q₂.subscribed .time = Q.subscribed .time := by
    have hh : Q₂.hdr = (if Q.hdr.count = 1 then Q₁.clearEmpty else Q₁).hdr := expired_hdr
    have hf : Q₂.hdr.flags = Q.hdr.flags := by
      rw [hh]
      unfold clearEmpty
      split
      · split <;> rfl
      · rfl
    unfold subscribed
    rw [hf]
  have hempty := (raise_change (Q := Q₂) (Q.hdr.count = 1) (e := .empty) (by decide) (by decide)).subs .time (by decide)
  have htime := (raise_change (Q := Q₂.raise (Q.hdr.count = 1) .empty) ((Q.postDeq it).1 = true) (e := .time) (by decide) (by decide)).subs
    .time (by decide)
  show ((Q₂.raise (Q.hdr.count = 1) .empty).raise ((Q.postDeq it).1 = true) .time).subscribed .time = true ↔ _
  rw [htime, hempty, mem_raisesIf, mem_raisesIf, hempty, mem_raisesIf, hsub]
  cases (Q.postDeq it).1 <;> simp

/-! ## Judging the items in turn -/

theorem pass_true {s : Sem} (h : Q.pass s g = some (true, Q₁)) :
    0 < Q.sem s ∧ Q₁.hdr = Q.hdr ∧ ∀ i, Q₁.clock i = Q.clock (i + g.judged 0) := by
  cases g with
  | poll => rw [pass] at h; split at h <;> cases h; exact ⟨‹_›, rfl, fun _ => rfl⟩
  | wait => rw [pass] at h; split at h <;> cases h; exact ⟨‹_›, rfl, fun _ => rfl⟩
  | timed t => rw [pass] at h; split at h <;> cases h; exact ⟨‹_›, rfl, fun _ => rfl⟩

theorem pass_false {s : Sem} (h : Q.pass s g = some (false, Q₁)) : ¬0 < Q.sem s := by
  cases g with
  | poll => rw [pass] at h; split at h <;> cases h; assumption
  | wait => rw [pass] at h; split at h <;> cases h
  | timed t => rw [pass] at h; split at h <;> cases h; assumption

/-- The next item in turn: whether it is dropped, and how the others are judged then. -/
theorem survivors_cons (hc : Q.hdr.count = Q.items.length) (hp : Q.pass .deq g = some (true, Q₁))
    (ht : Q₁.takeItem = some (it, Q')) : ∃ l, Q.items = it :: l ∧ (Q'.postDeq it).2.items = l ∧
      ((Q'.postDeq it).1 = false → Q.survivors g = it :: l) ∧
      ((Q'.postDeq it).1 = true → Q.survivors g = ((Q'.postDeq it).2.up .enq).survivors g) := by
  obtain ⟨-, hh₁, hclk⟩ := pass_true hp
  obtain ⟨hh₂, -⟩ := taken_change ht
  have hitems : Q.items = it :: Q'.items := (items_pass hp).symm.trans (items_takeItem ht)
  have hclk' : Q'.clock = Q₁.clock := by
    rw [takeItem] at ht
    split at ht <;> cases ht <;> rfl
  have hh : Q'.hdr = Q.hdr := hh₂.trans hh₁
  have hcount : Q'.hdr.count = 1 ↔ Q'.items = [] := by
    rw [hh, hc, hitems, List.length_cons, ← List.length_eq_zero_iff]
    omega
  have hverdict : (Q'.postDeq it).1 = Q.hdr.expires Q'.items.isEmpty (Q.clock (g.judged 0)) it.stamp := by
    have hlast : (decide (Q'.hdr.count = 1)) = Q'.items.isEmpty := by
      rw [Bool.eq_iff_iff, decide_eq_true_iff, List.isEmpty_iff, hcount]
    rw [postDeq_fst, hlast, hh, now, hclk', hclk 0, Nat.zero_add]
  have hfrom : Q.survivors g = if (Q'.postDeq it).1 then
      dropFrom (fun i last x => Q.hdr.expires last (Q.clock (g.judged i)) x.stamp) 1 Q'.items else it :: Q'.items := by
    rw [survivors, Header.survivors, hitems, dropFrom, ← hverdict]
  refine ⟨Q'.items, hitems, items_postDeq, fun hx => by rw [hfrom, hx]; rfl, fun hx => ?_⟩
  rw [hfrom, if_pos hx, survivors, Header.survivors, items_up, items_postDeq]
  -- what was dropped left the settings as they were, and used up its readings
  obtain ⟨es, hch, -, -⟩ := postDeq_change ht
  have hd : Q'.discards = true := by
    rw [hverdict] at hx
    have := (Bool.and_eq_true_iff.1 hx).1
    rwa [discards, hh]
  refine dropFrom_shift fun n last x _ hlast => ?_
  have hread : ((Q'.postDeq it).2.up .enq).clock (g.judged (0 + n)) = Q.clock (g.judged (1 + n)) := by
    show (Q'.postDeq it).2.clock _ = _
    rw [postDeq_clock, if_pos hd, hclk', rest, hclk, Nat.zero_add, Nat.add_comm 1 n, Gate.judged_succ]
  rw [hread]
  refine (Header.expires_congr (hch.modes _ (by simp) |>.trans (by rw [hh₁])) (hch.limit.trans (by rw [hh₁]))
    (hch.target.trans (by rw [hh₁])) (hlast.imp_right fun hlen => ?_)).symm
  show (Q'.postDeq it).2.hdr.empty = _
  have hne : Q'.hdr.count ≠ 1 := fun h1 => by
    rw [hcount.1 h1] at hlen
    simp at hlen
  rw [postDeq_empty hne, hh]

/-- **A removal takes the first item it does not drop**, by induction on the attempts that are left. -/
theorem removeLoop_survivors {n : ℕ} {u : UserBuffer} {r : Option Item × UserBuffer × Queue} (h : Q.removeLoop g n u = some r)
    (hc : Q.hdr.count = Q.items.length) (hd : Q.items.length ≤ Q.sem .deq) :
    r.1 = (Q.survivors g).head? ∧ r.2.2.items = (Q.survivors g).tail := by
  induction n generalizing Q u with
  | zero => cases h
  | succ n ih =>
    rw [removeLoop] at h
    split at h
    · cases h
    · next Q₁ hp =>
      -- no token, so no item
      have hnil : Q.items = [] := List.length_eq_zero_iff.1 (by have := pass_false hp; omega)
      cases h
      simp only [survivors, Header.survivors, items_pass hp, hnil, dropFrom]
      exact ⟨rfl, rfl⟩
    · next Q₁ hp =>
      cases ht : Q₁.takeItem with
      | none =>
        have hnil : Q.items = [] := (items_pass hp).symm.trans (takeItem_none ht)
        simp only [ht, Option.some.injEq] at h
        subst h
        simp only [survivors, Header.survivors, items_up, items_pass hp, hnil, dropFrom]
        exact ⟨rfl, rfl⟩
      | some p =>
        obtain ⟨it, Q₂⟩ := p
        obtain ⟨l, hl, hl', hkeep, hdrop⟩ := survivors_cons hc hp ht
        simp only [ht] at h
        split at h
        · next hx =>
          rw [hdrop hx]
          obtain ⟨es, hch, -, -⟩ := postDeq_change ht
          have h₁ := pass_change hp (by decide)
          simp only [if_true] at h₁
          have hall := (h₁.trans hch).trans (.upEnq _)
          refine ih h ?_ ?_
          · rw [hall.count, hall.len, hc]
          · rw [hall.len, hall.deq]
            simp only [Delta.and]
            omega
        · next hx =>
          cases h
          rw [hkeep (Bool.not_eq_true _ ▸ hx), items_up, hl']
          exact ⟨rfl, rfl⟩

/-- **Dropping an item ends the subscription for it**, by induction on the attempts that are left. -/
theorem removeLoop_time {n : ℕ} {u : UserBuffer} {r : Option Item × UserBuffer × Queue} (h : Q.removeLoop g n u = some r)
    (hc : Q.hdr.count = Q.items.length) (hd : Q.items.length ≤ Q.sem .deq) :
    r.2.2.subscribed .time = true ↔ Q.subscribed .time = true ∧ Q.survivors g = Q.items := by
  induction n generalizing Q u with
  | zero => cases h
  | succ n ih =>
    rw [removeLoop] at h
    split at h
    · cases h
    · next Q₁ hp =>
      have hnil : Q.items = [] := List.length_eq_zero_iff.1 (by have := pass_false hp; omega)
      cases h
      rw [(pass_change hp (by decide)).subs .time (by decide), survivors, hnil]
      simp [Header.survivors, dropFrom]
    · next Q₁ hp =>
      have h₁ := pass_change hp (by decide)
      simp only [if_true] at h₁
      cases ht : Q₁.takeItem with
      | none =>
        have hnil : Q.items = [] := (items_pass hp).symm.trans (takeItem_none ht)
        simp only [ht, Option.some.injEq] at h
        subst h
        rw [(h₁.trans (.upDeq _)).subs .time (by decide), survivors, hnil]
        simp [Header.survivors, dropFrom, Delta.and]
      | some p =>
        obtain ⟨it, Q₂⟩ := p
        obtain ⟨l, hl, hl', hkeep, hdrop⟩ := survivors_cons hc hp ht
        have hsub : Q₂.subscribed .time = Q.subscribed .time := by
          unfold subscribed
          rw [(taken_change ht).1, (pass_true hp).2.1]
        have htime : ((Q₂.postDeq it).2.up .enq).subscribed .time = true ↔ Q.subscribed .time = true ∧ (Q₂.postDeq it).1 = false := by
          rw [← hsub]
          exact postDeq_time
        simp only [ht] at h
        split at h
        · next hx =>
          -- what is left is shorter than what there was
          obtain ⟨es, hch, -, -⟩ := postDeq_change ht
          have hall := (h₁.trans hch).trans (.upEnq _)
          have hrest := ih h (by rw [hall.count, hall.len, hc]) (by rw [hall.len, hall.deq]; simp only [Delta.and]; omega)
          rw [hrest, htime, hx]
          have hlen : (Q.survivors g).length < Q.items.length := by
            rw [hdrop hx, hl]
            refine Nat.lt_succ_of_le (dropFrom_length_le.trans ?_)
            rw [items_up, hl']
          simp only [Bool.true_eq_false, and_false, false_and, false_iff]
          rintro ⟨-, heq⟩
          exact absurd (congrArg List.length heq) hlen.ne
        · next hx =>
          cases h
          have hx' : (Q₂.postDeq it).1 = false := Bool.not_eq_true _ ▸ hx
          rw [htime, hkeep hx', hl, hx']
          simp

/-- **What a removal drops, one by one**: the first `k` items are too old, the next one is not, and is taken. -/
theorem remove_drops {u : UserBuffer} {r : Option Item × UserBuffer × Queue} (h : Q.remove g u = some r)
    (hc : Q.hdr.count = Q.items.length) (hd : Q.items.length ≤ Q.sem .deq) : ∃ k ≤ Q.items.length,
      (∀ i it, i < k → Q.items[i]? = some it → Q.hdr.expires (i + 1 = Q.items.length) (Q.clock (g.judged i)) it.stamp = true) ∧
      (∀ it, Q.items[k]? = some it → Q.hdr.expires (k + 1 = Q.items.length) (Q.clock (g.judged k)) it.stamp = false) ∧
      Q.survivors g = Q.items.drop k ∧ r.1 = Q.items[k]? ∧ r.2.2.items = Q.items.drop (k + 1) := by
  obtain ⟨hfirst, hrest⟩ := removeLoop_survivors h hc hd
  obtain ⟨k, hk, hdrop, hbefore, hnext⟩ := dropFrom_drop (l := Q.items) (i := 0)
    (p := fun i last x => Q.hdr.expires last (Q.clock (g.judged i)) (Item.stamp x))
  have hsurv : Q.survivors g = Q.items.drop k := hdrop
  rw [hsurv, List.head?_drop] at hfirst
  rw [hsurv, List.tail_drop] at hrest
  refine ⟨k, hk, fun i it hi hit => ?_, fun it hit => ?_, hsurv, hfirst, hrest⟩
  · have h := hbefore i it hi hit
    rwa [Nat.zero_add] at h
  · have h := hnext it hit
    rwa [Nat.zero_add] at h

/-! ## Cleaning -/

/-- **A clean drops items from the front of the FIFO**, by induction on its turns. -/
theorem cleanLoop_fifo {t : Timespec} {n : ℕ} (hn : Q.fifo.length < n) (hd : Q.fifo.length ≤ Q.sem .deq) :
    (Q.cleanLoop t n).stack = Q.stack ∧
      (Q.cleanLoop t n).fifo = dropFrom (fun i _ it => it.exceeds t (Q.clock i)) 0 Q.fifo := by
  induction n generalizing Q with
  | zero => exact absurd hn (Nat.not_lt_zero _)
  | succ n ih =>
    rw [cleanLoop]
    cases hf : Q.fifo with
    | nil =>
      split
      · exact ⟨rfl, hf⟩
      · exact ⟨rfl, hf⟩
    | cons it l =>
      have hpos : 0 < Q.sem .deq := by rw [hf, List.length_cons] at hd; omega
      rw [if_pos hpos, dropFrom]
      dsimp only
      split
      · next hx =>
        have hx' : it.exceeds t (Q.clock 0) = true := hx
        rw [if_pos hx']
        have hsem : ((Q.down .deq).tick.drop it l).sem .deq = Q.sem .deq - 1 := rfl
        obtain ⟨hs, hl⟩ := ih (Q := (Q.down .deq).tick.drop it l) (by rw [hf, List.length_cons] at hn; show l.length < n; omega)
          (by rw [hf, List.length_cons] at hd; rw [hsem]; show (l.length : ℤ) ≤ _; omega)
        refine ⟨hs, hl.trans ?_⟩
        -- the readings of the other items are one further on
        show dropFrom (fun i _ it => it.exceeds t (Q.clock (i + 1))) 0 l = _
        exact dropFrom_shift fun n _ x _ _ => by rw [Nat.zero_add, Nat.add_comm]
      · next hx =>
        have hx' : ¬it.exceeds t (Q.clock 0) = true := hx
        rw [if_neg hx']
        exact ⟨rfl, hf⟩

end Queue

end LibShr
