import LibShr.Spec.Change

/-!
# What a call does to the counts

The calls that move items, by the amounts of `Change`, and the invariant of the counts that every call
keeps: `COUNT` items, at least as many tokens to take them, one token for each pending event.
-/

namespace LibShr

/-- Slots and elements of the item a call adds. -/
def Call.request : Call → Option (ℕ × ℕ)
  | .add _ _ n => some (7 + slotsFor n.toNat, 1)
  | .addv _ vs => some (Queue.vectorRequest (vs.getD []), (vs.getD []).length)
  | _ => none

/-- The calls that move items or their tokens. -/
def Call.moves : Call → Bool
  | .add .. | .addv .. | .remove .. | .clean _ | .prod => true
  | _ => false

/-- The vectors that are copied: a single element may be of any type. -/
def acceptsVector : List SqVec → Bool
  | [] => false
  | [v] => v.base.isSome && 0 < v.len
  | vs => !vs.any SqVec.invalid

/-- A call that adds an item once it has passed the gate. -/
def Call.adds (q : Option ShrQ) : Call → Bool
  | .add g value length => q.any (·.mode.canWrite) && g ≠ .timed none && value.isSome && 0 < length
  | .addv g vector => q.any (·.mode.canWrite) && g ≠ .timed none && vector.any acceptsVector
  | _ => false

namespace Queue

/-- What always holds of the counts. -/
structure Sane (Q : Queue) : Prop where
  count : Q.hdr.count = Q.items.length
  deq : Q.items.length ≤ Q.sem .deq
  evnt : Q.sem .evnt = Q.events.length
  known : ∀ e ∈ Q.events, e ≠ .none

variable {Q Q' Q₁ : Queue} {δ : Delta} {q : Option ShrQ} {g : Gate} {c : Call} {a : Answer}

theorem addCall_added {n v : ℕ} {ok : Bool} {enqueue : Queue → Status × Queue} (h : Q.addCall q g ok enqueue = some (a, Q'))
    (hq : ∀ Q, Queued Q n v (enqueue Q)) : ∃ st, a = .status st ∧ Added Q n v (st, Q') := by
  have hrefused : ∀ {st : Status}, st ≠ .ok → Added Q n v (st, Q) := fun hne => .inr ⟨hne, .refl Q⟩
  unfold addCall at h
  cases q with
  | none => cases h; exact ⟨_, rfl, hrefused (by decide)⟩
  | some q =>
    dsimp only at h
    split at h
    · cases h
      exact ⟨_, rfl, hrefused (by decide)⟩
    · split at h
      · obtain ⟨r, hr, he⟩ := Option.map_eq_some_iff.1 h
        cases he
        exact ⟨_, rfl, add_added hr hq⟩
      · cases h
        exact ⟨_, rfl, hrefused (by decide)⟩

/-- **A call that adds.** -/
theorem step_added {n v : ℕ} (hc : c.request = some (n, v)) (h : Q.step q c = some (a, Q')) :
    ∃ st, a = .status st ∧ Added Q n v (st, Q') := by
  cases c with
  | add g value length =>
    cases hc
    exact addCall_added h fun _ => enq_queued
  | addv g vector =>
    cases hc
    exact addCall_added h fun _ => enqVector_queued
  | _ => cases hc

theorem enq_fst {value : Option (List UInt8)} {length type : ℤ} : (Q.enq value length type).1 = .ok ↔ value.isSome = true ∧ 0 < length := by
  cases value with
  | none => simp [enq]
  | some value =>
    rw [enq]
    split
    · next h => simp [h]
    · next h => simpa using h

theorem enqVector_fst {vs : List SqVec} : (Q.enqVector vs).1 = .ok ↔ acceptsVector vs = true := by
  match vs with
  | [] => simp [enqVector, enqv, acceptsVector]
  | [v] => simp [enqVector, enq_fst, acceptsVector]
  | v :: v' :: vs =>
    have hlen : ¬(v :: v' :: vs).length < 2 := by simp
    show (Q.enqv (v :: v' :: vs)).1 = .ok ↔ (!(v :: v' :: vs).any SqVec.invalid) = true
    rw [enqv, if_neg hlen]
    dsimp only
    split
    · next h => simp only [h, reduceCtorEq, Bool.not_true, Bool.false_eq_true]
    · next h => simp only [Bool.not_eq_true] at h; simp only [h, Bool.not_false]

/-- A gate is passed if there is a token. -/
theorem pass_fst {s : Sem} {b : Bool} (h : Q.pass s g = some (b, Q₁)) : b = true ↔ 0 < Q.sem s := by
  cases g <;> rw [pass] at h <;> split at h <;> cases h <;> simp_all

theorem add_fst {enqueue : Queue → Status × Queue} {r : Status × Queue} {p : Prop} (h : Q.add g enqueue = some r)
    (hp : ∀ Q, (enqueue Q).1 = .ok ↔ p) : r.1 = .ok ↔ p ∧ 0 < Q.sem .enq := by
  obtain ⟨⟨b, Q₁⟩, hpass, rfl⟩ := Option.map_eq_some_iff.1 h
  rw [← pass_fst hpass]
  cases b with
  | false => simp
  | true =>
    simp only [if_true, and_true, added]
    rw [← hp Q₁]
    split
    · next h => simp [h]
    · next h => exact Iff.rfl

theorem addCall_fst {ok : Bool} {enqueue : Queue → Status × Queue} {p : Prop} {st : Status}
    (h : Q.addCall q g ok enqueue = some (.status st, Q')) (hp : ∀ Q, (enqueue Q).1 = .ok ↔ p) :
    st = .ok ↔ (q.any (·.mode.canWrite) = true ∧ g ≠ .timed none ∧ ok = true ∧ p) ∧ 0 < Q.sem .enq := by
  unfold addCall at h
  cases q with
  | none => cases h; simp
  | some q =>
    dsimp only at h
    split at h
    · next hbad =>
      cases h
      simp only [reduceCtorEq, false_iff]
      rintro ⟨⟨-, hg, hok, -⟩, -⟩
      rcases hbad with hb | hb
      · exact hg hb
      · rw [hb] at hok
        cases hok
    · next hok =>
      obtain ⟨hg, hb⟩ := not_or.1 hok
      have hb' : ok = true := by simpa using hb
      split at h
      · next hm =>
        obtain ⟨r, hr, he⟩ := Option.map_eq_some_iff.1 h
        cases he
        rw [add_fst hr hp]
        simp [hm, hg, hb']
      · next hm =>
        cases h
        simp [hm]

/-- **An add succeeds** if its arguments are accepted and there is room. -/
theorem step_adds {n v : ℕ} {st : Status} (hc : c.request = some (n, v)) (h : Q.step q c = some (.status st, Q')) :
    st = .ok ↔ c.adds q = true ∧ 0 < Q.sem .enq := by
  cases c with
  | add g value length =>
    rw [addCall_fst h fun Q => enq_fst (Q := Q)]
    simp only [Call.adds, Bool.and_eq_true, decide_eq_true_eq, ne_eq, and_assoc]
    tauto
  | addv g vector =>
    rw [addCall_fst h fun Q => enqVector_fst (Q := Q)]
    cases vector with
    | none => simp [Call.adds]
    | some vs => cases vs <;> simp [Call.adds, acceptsVector, and_assoc]
  | _ => cases hc

def Removal (q : Option ShrQ) (g : Gate) (u : Option UserBuffer) (v : UserBuffer) : Prop :=
  u = some v ∧ g ≠ .timed none ∧ ¬(v.present = true ∧ v.size ≤ 0) ∧ ∃ q', q = some q' ∧ q'.mode.canRead = true

/-- A removal is refused for its arguments, or goes through the loop. -/
theorem step_remove {u : Option UserBuffer} (h : Q.step q (.remove g u) = some (a, Q')) :
    ((∃ st v, st ≠ .ok ∧ st ≠ .errEmpty ∧ a = .noItem st v) ∧ Q' = Q ∧ ∀ v, ¬Removal q g u v) ∨
    ∃ v r, Removal q g u v ∧ Q.remove g v = some r ∧ a = r.1.elim (.noItem .errEmpty r.2.1) (fun it => .item it r.2.1) ∧ Q' = r.2.2 := by
  simp only [step, removeCall] at h
  split at h
  · next q' v =>
    split at h
    · next hbad =>
      cases h
      refine .inl ⟨⟨_, _, by decide, by decide, rfl⟩, rfl, ?_⟩
      rintro v ⟨hv, hg, hn, -⟩
      cases hv
      exact hbad.elim hg hn
    · next hok =>
      obtain ⟨hg, hn⟩ := not_or.1 hok
      split at h
      · next hm =>
        obtain ⟨r, hr, he⟩ := Option.map_eq_some_iff.1 h
        cases he
        exact .inr ⟨v, r, ⟨rfl, hg, hn, q', rfl, hm⟩, hr, rfl, rfl⟩
      · next hm =>
        cases h
        refine .inl ⟨⟨_, _, by decide, by decide, rfl⟩, rfl, ?_⟩
        rintro v ⟨-, -, -, q'', hq, hm'⟩
        cases hq
        exact hm hm'
  · next hno =>
    cases h
    refine .inl ⟨⟨_, _, by decide, by decide, rfl⟩, rfl, ?_⟩
    rintro v ⟨hv, -, -, q', hq, -⟩
    exact hno q' v hq hv

/-- **A call that removes.** -/
theorem step_left {u : Option UserBuffer} (hn : Q.hdr.count = Q.items.length) (h : Q.step q (.remove g u) = some (a, Q')) :
    Left Q Q' := by
  rcases step_remove h with ⟨-, rfl, -⟩ | ⟨v, r, -, hr, -, rfl⟩
  · exact left_of_change (.refl _)
  · exact removeLoop_left hr hn

/-- A clean is refused for its arguments, or goes through the loop. -/
theorem step_clean {t : Option Timespec} (h : Q.step q (.clean t) = some (a, Q')) :
    (Q' = Q ∧ ¬∃ q' t', q = some q' ∧ t = some t' ∧ q'.mode.canRead = true) ∨
    ∃ q' t', q = some q' ∧ t = some t' ∧ q'.mode.canRead = true ∧ Q' = Q.clean t' := by
  simp only [step] at h
  split at h
  · next q' t' =>
    split at h <;> cases h
    · next hm => exact .inr ⟨q', t', rfl, rfl, hm, rfl⟩
    · next hm =>
      refine .inl ⟨rfl, ?_⟩
      rintro ⟨q'', t'', hq, -, hm'⟩
      cases hq
      exact hm hm'
  · next hno =>
    cases h
    refine .inl ⟨rfl, ?_⟩
    rintro ⟨q', t', hq, ht, -⟩
    exact hno q' t' hq ht

/-- **A call that cleans.** -/
theorem step_cleaned {t : Option Timespec} (h : Q.step q (.clean t) = some (a, Q')) :
    ∃ k : ℕ, Change Q Q' { count := -k, deq := -k, enq := k } := by
  rcases step_clean h with ⟨rfl, -⟩ | ⟨q', t', -, -, -, rfl⟩
  · exact ⟨0, .refl _⟩
  · exact cleanLoop_change

/-- What a call that only needs a handle does. -/
theorem handled_cases {ok : Bool} (h : Q.handled q ok Q₁ = some (a, Q')) :
    (q.isSome = true ∧ ok = true ∧ a = .status .ok ∧ Q' = Q₁) ∨ ((q.isSome && ok) = false ∧ a = .status .errArg ∧ Q' = Q) := by
  unfold handled at h
  split at h
  · next hok =>
    cases h
    exact .inl ⟨(Bool.and_eq_true_iff.1 hok).1, (Bool.and_eq_true_iff.1 hok).2, rfl, rfl⟩
  · next hno =>
    cases h
    exact .inr ⟨Bool.eq_false_iff.2 hno, rfl, rfl⟩

/-- `Q'` is `Q` with other settings, but the same counts. -/
def Resets (Q Q' : Queue) : Prop := ∃ h, Q' = Q.setHdr h ∧ h.count = Q.hdr.count ∧ h.buffer = Q.hdr.buffer ∧ h.empty = Q.hdr.empty

theorem Resets.refl (Q : Queue) : Resets Q Q := ⟨Q.hdr, rfl, rfl, rfl, rfl⟩

theorem Resets.setFlag (h : Resets Q Q') (f : ℤ) : Resets Q (Q'.setFlag f) := by
  obtain ⟨h, rfl, hc, hb, he⟩ := h
  unfold Queue.setFlag
  split
  · exact ⟨_, rfl, hc, hb, he⟩
  · exact ⟨h, rfl, hc, hb, he⟩

theorem Resets.clearFlag (h : Resets Q Q') (f : ℤ) : Resets Q (Q'.clearFlag f) := by
  obtain ⟨h, rfl, hc, hb, he⟩ := h
  unfold Queue.clearFlag
  split
  · exact ⟨h, rfl, hc, hb, he⟩
  · exact ⟨_, rfl, hc, hb, he⟩

/-- **The calls that move nothing.** -/
theorem step_resets (hc : c.moves = false) (he : c ≠ .event) (h : Q.step q c = some (a, Q')) : Resets Q Q' := by
  have hhandled : ∀ {ok : Bool} {Q₁ : Queue}, Resets Q Q₁ → Q.handled q ok Q₁ = some (a, Q') → Resets Q Q' := fun hs h => by
    rcases handled_cases h with ⟨-, -, -, rfl⟩ | ⟨-, -, rfl⟩
    · exact hs
    · exact .refl _
  cases c with
  | add g value length => cases hc
  | addv g vector => cases hc
  | remove g u => cases hc
  | clean t => cases hc
  | prod => cases hc
  | event => exact absurd rfl he
  | count => cases h; exact .refl _
  | buffer => cases h; exact .refl _
  | isSubscribed e => cases h; exact .refl _
  | level n => exact hhandled ⟨{ Q.hdr with level := n }, rfl, rfl, rfl, rfl⟩ h
  | timelimit s n => exact hhandled ⟨{ Q.hdr with limit := ⟨s, n⟩ }, rfl, rfl, rfl, rfl⟩ h
  | targetDelay s n => exact hhandled (Resets.setFlag ⟨{ Q.hdr with target := ⟨s, n⟩ }, rfl, rfl, rfl, rfl⟩ _) h
  | discard b => exact hhandled (by cases b; exacts [(Resets.refl Q).clearFlag _, (Resets.refl Q).setFlag _]) h
  | limitLifo b => exact hhandled (by cases b; exacts [(Resets.refl Q).clearFlag _, (Resets.refl Q).setFlag _]) h
  | subscribe e => exact hhandled ((Resets.refl Q).setFlag _) h
  | unsubscribe e => exact hhandled ((Resets.refl Q).clearFlag _) h
  | monitor s => exact hhandled (.refl Q) h
  | listen s => exact hhandled (.refl Q) h
  | call s => exact hhandled (.refl Q) h

theorem step_event (h : Q.step q .event = some (a, Q')) :
    (q.isSome = true ∧ a = .event Q.takeEvent.1 ∧ Q' = Q.takeEvent.2) ∨ (q = none ∧ a = .event .none ∧ Q' = Q) := by
  simp only [step, Option.some.injEq] at h
  cases q with
  | none => cases h; exact .inr ⟨rfl, rfl, rfl⟩
  | some q => cases h; exact .inl ⟨rfl, rfl, rfl⟩

theorem step_prod (h : Q.step q .prod = some (a, Q')) :
    (q.isSome = true ∧ a = .status .ok ∧ Q' = Q.up .deq) ∨ (q = none ∧ a = .status .errArg ∧ Q' = Q) := by
  rcases handled_cases h with ⟨hq, -, ha, hQ⟩ | ⟨hq, ha, hQ⟩
  · exact .inl ⟨hq, ha, hQ⟩
  · rw [Bool.and_true, Option.isSome_eq_false_iff, Option.isNone_iff_eq_none] at hq
    exact .inr ⟨hq, ha, hQ⟩

/-- **The calls that move items or tokens**: only one that added marks the queue as used. -/
theorem step_change (hn : Q.hdr.count = Q.items.length) (hc : c.moves = true) (h : Q.step q c = some (a, Q')) :
    ∃ δ, Change Q Q' δ ∧ (δ.uses = true → c.request.isSome = true ∧ a = .status .ok) := by
  have hadd : ∀ {n v : ℕ}, c.request = some (n, v) → ∃ δ, Change Q Q' δ ∧ (δ.uses = true → c.request.isSome = true ∧ a = .status .ok) :=
    fun hr => by
      obtain ⟨st, rfl, ⟨hok, it, es, hch, -, -⟩ | ⟨-, hch⟩⟩ := step_added hr h
      · exact ⟨_, hch, fun _ => ⟨by rw [hr]; rfl, congrArg _ hok⟩⟩
      · exact ⟨_, hch, fun hu => by cases hu⟩
  cases c with
  | add g value length => exact hadd rfl
  | addv g vector => exact hadd rfl
  | remove g u =>
    obtain ⟨k, es, hch, -, -⟩ := step_left hn h
    exact ⟨_, hch, fun hu => by cases hu⟩
  | clean t =>
    obtain ⟨k, hch⟩ := step_cleaned h
    exact ⟨_, hch, fun hu => by cases hu⟩
  | prod =>
    rcases step_prod h with ⟨-, -, rfl⟩ | ⟨-, -, rfl⟩
    · exact ⟨_, .upDeq Q, fun hu => by cases hu⟩
    · exact ⟨_, .refl _, fun hu => by cases hu⟩
  | _ => cases hc

/-- Only `shr_q_event` answers with an event. -/
theorem step_answer (h : Q.step q c = some (a, Q')) (hc : c ≠ .event) (ev : Event) : a ≠ .event ev := by
  have hhandled : ∀ {ok : Bool} {Q₁ : Queue}, Q.handled q ok Q₁ = some (a, Q') → a ≠ .event ev := fun h => by
    rcases handled_cases h with ⟨-, -, rfl, -⟩ | ⟨-, rfl, -⟩ <;> simp
  have hadd : ∀ {n v : ℕ}, c.request = some (n, v) → a ≠ .event ev := fun hr => by
    obtain ⟨st, rfl, -⟩ := step_added hr h
    simp
  cases c with
  | add g value length => exact hadd rfl
  | addv g vector => exact hadd rfl
  | remove g u =>
    rcases step_remove h with ⟨⟨st, v, -, -, rfl⟩, -⟩ | ⟨v, r, -, -, rfl, -⟩
    · simp
    · cases r.1 <;> simp
  | clean t =>
    simp only [step] at h
    split at h
    · split at h <;> cases h <;> simp
    · cases h
      simp
  | event => exact absurd rfl hc
  | count => cases h; simp
  | buffer => cases h; simp
  | isSubscribed e => cases h; simp
  | level n => exact hhandled h
  | timelimit s n => exact hhandled h
  | targetDelay s n => exact hhandled h
  | discard b => exact hhandled h
  | limitLifo b => exact hhandled h
  | subscribe e => exact hhandled h
  | unsubscribe e => exact hhandled h
  | prod => exact hhandled h
  | monitor s => exact hhandled h
  | listen s => exact hhandled h
  | call s => exact hhandled h

/-- **What a call does to the items**: it adds one, moves none in, or moves none at all. -/
theorem step_items (hn : Q.hdr.count = Q.items.length) (h : Q.step q c = some (a, Q')) :
    (∃ n v it es, c.request = some (n, v) ∧ a = .status .ok ∧
      Change Q Q' { new := [it], count := 1, deq := 1, enq := -1, events := es, uses := true } ∧ Came Q Q' n v it) ∨
    (∃ δ, Change Q Q' δ ∧ δ.new = []) ∨ (Q'.items = Q.items ∧ Q'.hdr.buffer = Q.hdr.buffer) := by
  have hadd : ∀ {n v : ℕ}, c.request = some (n, v) → (∃ n v it es, c.request = some (n, v) ∧ a = .status .ok ∧
      Change Q Q' { new := [it], count := 1, deq := 1, enq := -1, events := es, uses := true } ∧ Came Q Q' n v it) ∨
      (∃ δ, Change Q Q' δ ∧ δ.new = []) ∨ (Q'.items = Q.items ∧ Q'.hdr.buffer = Q.hdr.buffer) := fun {n v} hr => by
    obtain ⟨st, rfl, ⟨hok, it, es, hch, hcame, -⟩ | ⟨-, hch⟩⟩ := step_added hr h
    · exact .inl ⟨n, v, it, es, hr, congrArg _ hok, hch, hcame⟩
    · exact .inr (.inl ⟨_, hch, rfl⟩)
  cases c with
  | add g value length => exact hadd rfl
  | addv g vector => exact hadd rfl
  | remove g u =>
    obtain ⟨k, es, hch, -, -⟩ := step_left hn h
    exact .inr (.inl ⟨_, hch, rfl⟩)
  | clean t =>
    obtain ⟨k, hch⟩ := step_cleaned h
    exact .inr (.inl ⟨_, hch, rfl⟩)
  | prod =>
    rcases step_prod h with ⟨-, -, rfl⟩ | ⟨-, -, rfl⟩
    · exact .inr (.inl ⟨_, .upDeq Q, rfl⟩)
    · exact .inr (.inl ⟨_, .refl _, rfl⟩)
  | event =>
    rcases step_event h with ⟨-, -, rfl⟩ | ⟨-, -, rfl⟩
    · refine .inr (.inr ?_)
      unfold takeEvent
      split
      · split <;> exact ⟨rfl, rfl⟩
      · exact ⟨rfl, rfl⟩
    · exact .inr (.inr ⟨rfl, rfl⟩)
  | _ =>
    obtain ⟨hd, rfl, -, hb, -⟩ := step_resets rfl (by simp) h
    exact .inr (.inr ⟨rfl, hb⟩)

/-! ## The counts stay right -/

theorem Sane.change (hs : Q.Sane) (h : Change Q Q' δ) (hδ : δ.deq = δ.count) : Q'.Sane where
  count := by rw [h.count, h.len, hs.count]
  deq := by
    have := hs.deq
    rw [h.deq, h.len, hδ]
    omega
  evnt := by rw [h.evnt, h.events, hs.evnt, List.length_append, Nat.cast_add]
  known := fun e he => by
    rw [h.events] at he
    rcases List.mem_append.1 he with he | he
    · exact hs.known e he
    · exact (h.raised e he).1

/-- The front event is taken if there is one. -/
theorem takeEvent_cases (hs : Q.Sane) : (Q.events = [] ∧ Q.takeEvent = (.none, Q)) ∨
    ∃ e l, Q.events = e :: l ∧ Q.takeEvent = (e, { Q.down .evnt with events := l, ids := Q.ids + 1 }) := by
  have hev := hs.evnt
  unfold takeEvent
  cases hl : Q.events with
  | nil =>
    rw [hl] at hev
    have hz : ¬0 < Q.sem .evnt := by rw [hev]; simp
    exact .inl ⟨rfl, if_neg hz⟩
  | cons e l =>
    rw [hl] at hev
    have hz : 0 < Q.sem .evnt := by rw [hev]; simp
    exact .inr ⟨e, l, rfl, if_pos hz⟩

/-- Every call keeps the counts right. -/
theorem step_sane (hs : Q.Sane) (h : Q.step q c = some (a, Q')) : Q'.Sane := by
  have hadd : ∀ {n v : ℕ}, c.request = some (n, v) → Q'.Sane := fun hc => by
    obtain ⟨st, -, ⟨-, it, es, hch, -, -⟩ | ⟨-, hch⟩⟩ := step_added hc h
    · exact hs.change hch rfl
    · exact hs.change hch rfl
  have hstill : c.moves = false → c ≠ .event → Q'.Sane := fun hc he => by
    obtain ⟨hd, rfl, hcount, -, -⟩ := step_resets hc he h
    exact ⟨hcount.trans hs.count, hs.deq, hs.evnt, hs.known⟩
  cases c with
  | add g value length => exact hadd rfl
  | addv g vector => exact hadd rfl
  | remove g u =>
    obtain ⟨k, es, hch, -, -⟩ := step_left hs.count h
    exact hs.change hch rfl
  | clean t =>
    obtain ⟨k, hch⟩ := step_cleaned h
    exact hs.change hch rfl
  | prod =>
    rcases handled_cases h with ⟨-, -, -, rfl⟩ | ⟨-, -, rfl⟩
    · exact ⟨hs.count, hs.deq.trans (Int.le_add_one (le_refl _)), hs.evnt, hs.known⟩
    · exact hs
  | event =>
    rcases step_event h with ⟨-, -, rfl⟩ | ⟨-, -, rfl⟩
    · rcases takeEvent_cases hs with ⟨-, he⟩ | ⟨e, l, hl, he⟩
      · rw [he]
        exact hs
      · rw [he]
        refine ⟨hs.count, hs.deq, ?_, fun e' he' => hs.known e' (hl ▸ List.mem_cons_of_mem _ he')⟩
        have hev := hs.evnt
        rw [hl, List.length_cons] at hev
        show Q.sem .evnt - 1 = l.length
        omega
    · exact hs
  | _ => exact hstill rfl (by simp)

end Queue

end LibShr
