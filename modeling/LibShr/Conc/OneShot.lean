import LibShr.Lib.Pool
import LibShr.Refine.Events
import LibShr.Spec.Change

/-!
# Many threads raising events

Any number of threads in `add_event`, each for an event of its own. The subscriptions share one word
with each other: a thread reads it twice, and clears the subscription of its event by a `CAS` on the
second value. Reading the word, the `CAS`, and appending the event are one step each.

| here | there |
| --- | --- |
| `FlagOp.load`   | the reads of `array[ FLAGS ]` (`shared_q.c:531`, `:554`) |
| `FlagOp.cas`    | `CAS( &array[ FLAGS ], &prev, prev & ~flag )` (`:556`) |
| `FlagOp.append` | the rest of `add_event` (`:562-579`), where the allocation succeeds |
-/

namespace LibShr.OneShot

open Prog

/-! ## The text -/

/-- What `add_event` does to the queue. -/
inductive FlagOp
  | load
  | cas (prev next : ℤ)
  | append (event : Event)

@[reducible] def FlagOp.Res : FlagOp → Type
  | .load => ℤ
  | .cas .. | .append _ => Bool

/-- `add_event` (`shared_q.c:535`). -/
def addEventText (event : Event) : Prog FlagOp FlagOp.Res Bool := do
  if event = .none then return false
  let flags ← op FlagOp.load
  if Int.land flags (getEventFlag event) = 0 then return false
  let prev ← op FlagOp.load
  if !(← op (FlagOp.cas prev (Int.land prev (Int.lnot (getEventFlag event))))) then return false
  op (FlagOp.append event)

def FlagOp.text (array : ℤ) : (o : FlagOp) → M o.Res
  | .load => LibShr.load array FLAGS
  | .cas prev next => LibShr.cas array FLAGS prev next
  | .append event => appendEvent event

/-- Made of the texts of its steps, this is `add_event`. -/
theorem addEvent_eq_subst (event : Event) : addEvent event = (do
    let array ← current
    (addEventText event).subst (FlagOp.text array)) := by
  rw [addEvent_eq]
  simp only [addEventText, subst_ite, subst_pure, subst_bind, subst_op, FlagOp.text, eventDisabled, LawfulMonad.bind_assoc, LawfulMonad.pure_bind,
    decide_eq_true_eq]

/-! ## The steps -/

/-- The word with the subscriptions, and the pending events. -/
structure Board where
  flags : ℤ
  events : List Event

/-- The steps as they happen: nothing comes between. -/
def atomically : Handler FlagOp FlagOp.Res Board
  | .load, b => some (b.flags, b)
  | .cas prev next, b => if b.flags = prev then some (true, { b with flags := next }) else some (false, b)
  | .append event, b => some (true, { b with events := b.events ++ [event] })

/-- What the steps see of a queue. -/
def boardOf (Q : Queue) : Board := ⟨Q.hdr.flags, Q.events⟩

/-- **A step is what its text does** to the queue when it runs alone. -/
theorem FlagOp.text_spec {tot : Prop} {w : World} {H : Heap} {Q : Queue} {a : ℤ} (hS : Sim w H Q) (ha : 512 ≤ a) (o : FlagOp) :
    Wp tot (o.text a) (fun r w' => ∃ H' Q', Sim w' H' Q' ∧ atomically o (boardOf Q) = some (r, boardOf Q')) w := by
  have hflags : w.mem 9 = Q.hdr.flags := hS.hdr.flags
  cases o with
  | load => exact (wp_load (by decide) (by simp only [FLAGS]; omega)).2 ⟨H, Q, hS, by rw [FLAGS, hflags]; rfl⟩
  | cas prev next =>
    refine (wp_cas (by decide) (by simp only [FLAGS]; omega)).2 ?_
    rw [FLAGS, hflags]
    split
    · next h =>
      obtain ⟨H', hS', -⟩ := hS.setOne (s := 9) (by decide) (hS.hdr.setFlags next)
      exact ⟨H', _, hS', if_pos h⟩
    · next h => exact ⟨H, Q, hS, if_neg h⟩
  | append event =>
    refine wp_mono ?_ (hS.appendEvent event)
    rintro r w' ⟨rfl, H', hS', -⟩
    exact ⟨H', _, hS', rfl⟩

/-! ## The control flow -/

/-- The places of the text, for an event that is not `SQ_EVNT_NONE`. -/
inductive Place
  | check
  | load
  | cas (prev : ℤ)
  | append
  | done (raised : Bool)

def casText (event : Event) (prev : ℤ) : Prog FlagOp FlagOp.Res Bool := do
  if !(← op (FlagOp.cas prev (Int.land prev (Int.lnot (getEventFlag event))))) then return false
  op (FlagOp.append event)

def loadText (event : Event) : Prog FlagOp FlagOp.Res Bool := do
  let prev ← op FlagOp.load
  casText event prev

def Place.text (event : Event) : Place → Prog FlagOp FlagOp.Res Bool
  | check => do
    let flags ← op FlagOp.load
    if Int.land flags (getEventFlag event) = 0 then return false
    loadText event
  | load => loadText event
  | cas prev => casText event prev
  | append => op (FlagOp.append event)
  | done raised => return raised

/-- Where a step leads. -/
def Place.next (event : Event) (p : Place) (b : Board) : Option (Place × Board) :=
  match p with
  | check => some (if Int.land b.flags (getEventFlag event) = 0 then done false else load, b)
  | load => some (cas b.flags, b)
  | cas prev =>
    if b.flags = prev then some (append, { b with flags := Int.land prev (Int.lnot (getEventFlag event)) }) else some (done false, b)
  | append => some (done true, { b with events := b.events ++ [event] })
  | done _ => none

section
variable {T : Type} (ev : T → Event)

/-- The threads with the board. They were all called at the start, and make no other call. -/
abbrev Threads (T : Type) := Pool FlagOp FlagOp.Res Board T Bool

def noCall (_ : T) (c : Empty) : Prog FlagOp FlagOp.Res Bool := c.elim

/-- The control flow of the threads. -/
def flow : ControlFlow (fun _ : T => atomically) noCall Place where
  place := fun t p => p.text (ev t)
  start := fun _ c => c.elim
  next := fun t p b => p.next (ev t) b
  text_eq := fun _ c => c.elim
  step_eq := by
    intro t p b
    cases p with
    | check =>
      change some ((if Int.land b.flags (getEventFlag (ev t)) = 0 then return false else loadText (ev t) : Prog FlagOp FlagOp.Res Bool), b) = _
      unfold Place.next
      split <;> rfl
    | cas prev =>
      change (atomically (.cas prev _) b).map _ = _
      unfold Place.next atomically
      dsimp only
      split <;> rfl
    | _ => rfl

variable [DecidableEq T]

def Step (s : Threads T) (l : T × Move Empty) (s' : Threads T) : Prop := Pool.Step (fun _ => atomically) noCall s l s'

/-- The operations a thread has made. -/
def made (ls : List (T × Move Empty)) (t : T) : ℕ := ls.count (t, .op)

/-- `u` makes its third operation, the `CAS`, when `t` has made its second, the read before the `CAS`. -/
def Between (ls : List (T × Move Empty)) (u t : T) : Prop :=
  ∃ i < ls.length, ls[i]? = some (u, .op) ∧ made (ls.take i) u = 2 ∧ made (ls.take i) t = 2

/-- The `CAS` of `u` comes between the second read of `t` and the `CAS` of `t`. -/
def Overtakes (ls : List (T × Move Empty)) (u t : T) : Prop := u ≠ t ∧ 3 ≤ made ls t ∧ Between ls u t

instance (ls : List (T × Move Empty)) (u t : T) : Decidable (Overtakes ls u t) := by
  unfold Overtakes Between
  infer_instance

/-- The call of the thread is over. -/
def Returned (s : Threads T) (t : T) : Prop := s.task t = none ∨ ∃ raised, s.task t = some (.ret raised)

/-- What is known of a thread at its place, when the events `l` have been appended. -/
def Fits (b : Board) (l : List Event) (ls : List (T × Move Empty)) (t : T) : Option Place → Prop
  | some .check => (ev t ∉ l ∧ Int.land b.flags (getEventFlag (ev t)) ≠ 0) ∧ made ls t = 0
  | some .load => (ev t ∉ l ∧ Int.land b.flags (getEventFlag (ev t)) ≠ 0) ∧ made ls t = 1
  | some (.cas prev) => (ev t ∉ l ∧ Int.land b.flags (getEventFlag (ev t)) ≠ 0) ∧ made ls t = 2 ∧
    ((∀ u, u ≠ t → ¬Between ls u t) → b.flags = prev) ∧
    ∀ e, Int.land b.flags (getEventFlag e) ≠ 0 → Int.land prev (getEventFlag e) ≠ 0
  | some .append => (ev t ∉ l ∧ Int.land b.flags (getEventFlag (ev t)) = 0) ∧ made ls t = 3
  | some (.done true) => (ev t ∈ l ∧ Int.land b.flags (getEventFlag (ev t)) = 0) ∧ 3 ≤ made ls t
  | some (.done false) => ev t ∉ l ∧ ∃ u, Overtakes ls u t
  | none => (ev t ∈ l ∧ Int.land b.flags (getEventFlag (ev t)) = 0) ∧ 3 ≤ made ls t ∨ ev t ∉ l ∧ ∃ u, Overtakes ls u t

/-- The call of the thread has returned false, or is about to. -/
def Lost (l : List Event) (t : T) : Option Place → Prop
  | some (.done false) => True
  | none => ev t ∉ l
  | _ => False

/-- The thread waits with a value that is not in the word any more. -/
def Stale (b : Board) : Option Place → Prop
  | some (.cas prev) => ∃ e, Int.land prev (getEventFlag e) ≠ 0 ∧ Int.land b.flags (getEventFlag e) = 0
  | _ => False

structure Inv (b₀ b : Board) (l : List Event) (ls : List (T × Move Empty)) (pos : T → Option Place) : Prop where
  events : b.events = b₀.events ++ l
  nodup : l.Nodup
  raised : ∀ e ∈ l, ∃ t, ev t = e
  fits : ∀ t, Fits ev b l ls t (pos t)
  between : ∀ u t, u ≠ t → Between ls u t → Lost ev l u (pos u) ∨ Lost ev l t (pos t) ∨ Stale b (pos t)

end

section
variable {T : Type} [DecidableEq T] {ev : T → Event} {b b' b₀ : Board} {l l' : List Event} {ls ls' : List (T × Move Empty)}
  {pos : T → Option Place} {s s' : Threads T} {m : T × Move Empty} {t u v : T} {p p' : Option Place} {e : Event}

/-! ## What a schedule says -/

theorem made_snoc : made (ls ++ [m]) t = made ls t + if m = (t, .op) then 1 else 0 := by
  rw [made, made, List.count_append, List.count_singleton]
  simp only [beq_iff_eq]

theorem between_snoc : Between (ls ++ [m]) u t ↔ Between ls u t ∨ m = (u, .op) ∧ made ls u = 2 ∧ made ls t = 2 := by
  constructor
  · rintro ⟨i, hi, hm, hu, ht⟩
    rw [List.length_append, List.length_singleton] at hi
    rcases Nat.lt_succ_iff_lt_or_eq.1 hi with hi | rfl
    · rw [List.getElem?_append_left hi] at hm
      rw [List.take_append_of_le_length (Nat.le_of_lt hi)] at hu ht
      exact .inl ⟨i, hi, hm, hu, ht⟩
    · rw [List.getElem?_concat_length] at hm
      rw [List.take_left] at hu ht
      exact .inr ⟨Option.some.inj hm, hu, ht⟩
  · rintro (⟨i, hi, hm, hu, ht⟩ | ⟨rfl, hu, ht⟩)
    · refine ⟨i, by rw [List.length_append]; omega, ?_, ?_, ?_⟩
      · rwa [List.getElem?_append_left hi]
      · rwa [List.take_append_of_le_length (Nat.le_of_lt hi)]
      · rwa [List.take_append_of_le_length (Nat.le_of_lt hi)]
    · refine ⟨ls.length, by rw [List.length_append, List.length_singleton]; omega, List.getElem?_concat_length, ?_, ?_⟩
      · rwa [List.take_left]
      · rwa [List.take_left]

theorem Overtakes.snoc (h : Overtakes ls u t) : Overtakes (ls ++ [m]) u t :=
  ⟨h.1, h.2.1.trans (by rw [made_snoc]; omega), between_snoc.2 (.inl h.2.2)⟩

/-! ## What a move keeps -/

/-- A thread that has made two operations has read the word and is at its `CAS`. -/
theorem Fits.cas_of_made (h : Fits ev b l ls t p) (ht : made ls t = 2) : ∃ prev, p = some (.cas prev) := by
  unfold Fits at h
  split at h
  · omega
  · omega
  · next prev => exact ⟨prev, rfl⟩
  · omega
  · omega
  · obtain ⟨-, u, -, hle, -⟩ := h
    omega
  · obtain h | ⟨-, u, -, hle, -⟩ := h <;> omega

/-- What is known of a thread outlives a move of another, which clears no flag of its, and changes the word by its `CAS` only. -/
theorem Fits.congr (h : Fits ev b l ls u p) (hu : m.1 ≠ u) (hf : Int.land b'.flags (getEventFlag (ev u)) = Int.land b.flags (getEventFlag (ev u)))
    (hl : ev u ∈ l' ↔ ev u ∈ l) (hle : ∀ e, Int.land b'.flags (getEventFlag e) ≠ 0 → Int.land b.flags (getEventFlag e) ≠ 0)
    (hcas : b'.flags = b.flags ∨ m.2 = .op ∧ made ls m.1 = 2) : Fits ev b' l' (ls ++ [m]) u p := by
  have hmade : made (ls ++ [m]) u = made ls u := by
    rw [made_snoc, if_neg fun h => hu (congrArg Prod.fst h), Nat.add_zero]
  unfold Fits at *
  split at h
  · rwa [hf, hl, hmade]
  · rwa [hf, hl, hmade]
  · obtain ⟨hsub, htwo, hread, hprev⟩ := h
    refine ⟨by rwa [hf, hl], hmade.trans htwo, fun hno => ?_, fun e he => hprev e (hle e he)⟩
    rcases hcas with hsame | ⟨hop, hm⟩
    · exact hsame.trans (hread fun x hx hb => hno x hx (between_snoc.2 (.inl hb)))
    · exact absurd (between_snoc.2 (.inr ⟨(Prod.ext rfl hop : m = (m.1, .op)), hm, htwo⟩)) (hno m.1 hu)
  · rwa [hf, hl, hmade]
  · rwa [hf, hl, hmade]
  · exact ⟨by rw [hl]; exact h.1, h.2.imp fun _ => Overtakes.snoc⟩
  · rw [hf, hl, hmade]
    exact h.imp_right fun h => ⟨h.1, h.2.imp fun _ => Overtakes.snoc⟩

omit [DecidableEq T] in
theorem Lost.congr (h : Lost ev l t p) (hl : ev t ∈ l' ↔ ev t ∈ l) : Lost ev l' t p := by
  unfold Lost at *
  rwa [hl]

theorem Stale.congr (h : Stale b p) (hle : ∀ e, Int.land b'.flags (getEventFlag e) ≠ 0 → Int.land b.flags (getEventFlag e) ≠ 0) : Stale b' p := by
  unfold Stale at *
  split at h
  · obtain ⟨e, hprev, hclear⟩ := h
    exact ⟨e, hprev, not_not.1 fun hne => hle e hne hclear⟩
  · exact h

theorem Inv.moved (hI : Inv ev b₀ b l ls pos) (hp : pos t = p) (hm : m.1 = t) (hevents : b'.events = b₀.events ++ l') (hnodup : l'.Nodup)
    (hraised : ∀ e ∈ l', ∃ t, ev t = e) (hfit : Fits ev b' l' (ls ++ [m]) t p')
    (hothers : ∀ u, u ≠ t → Int.land b'.flags (getEventFlag (ev u)) = Int.land b.flags (getEventFlag (ev u)) ∧ (ev u ∈ l' ↔ ev u ∈ l))
    (hle : ∀ e, Int.land b'.flags (getEventFlag e) ≠ 0 → Int.land b.flags (getEventFlag e) ≠ 0)
    (hcas : b'.flags = b.flags ∨ m.2 = .op ∧ made ls t = 2) (hlost : Lost ev l t p → Lost ev l' t p')
    (hmine : Stale b p → Lost ev l' t p' ∨ Stale b' p')
    (hnew : ∀ u, u ≠ t → m = (t, .op) → made ls t = 2 → made ls u = 2 → Lost ev l' t p' ∨ Stale b' (pos u)) :
    Inv ev b₀ b' l' (ls ++ [m]) (Function.update pos t p') := by
  have hlost' : ∀ u, Lost ev l u (pos u) → Lost ev l' u (Function.update pos t p' u) := by
    intro u h
    by_cases hu : u = t
    · subst hu
      rw [hp] at h
      rw [Function.update_self]
      exact hlost h
    · rw [Function.update_of_ne hu]
      exact h.congr (hothers u hu).2
  refine ⟨hevents, hnodup, hraised, fun u => ?_, fun u v huv hb => ?_⟩
  · by_cases hu : u = t
    · subst hu
      rwa [Function.update_self]
    · rw [Function.update_of_ne hu]
      exact (hI.fits u).congr (by rw [hm]; exact Ne.symm hu) (hothers u hu).1 (hothers u hu).2 hle (by rwa [hm])
  · rcases between_snoc.1 hb with hb | ⟨rfl, hu, hv⟩
    · rcases hI.between u v huv hb with h | h | h
      · exact .inl (hlost' u h)
      · exact .inr (.inl (hlost' v h))
      · by_cases hvt : v = t
        · subst hvt
          rw [hp] at h
          rw [Function.update_self]
          exact .inr (hmine h)
        · rw [Function.update_of_ne hvt]
          exact .inr (.inr (h.congr hle))
    · change u = t at hm
      subst hm
      rw [Function.update_self, Function.update_of_ne (Ne.symm huv)]
      exact (hnew v (Ne.symm huv) rfl hu hv).imp_right .inr

/-- **A move** keeps the invariant. -/
theorem Inv.step (hinj : Function.Injective ev) (hev : ∀ t, ev t ≠ .none) (hI : Inv ev b₀ s.world l ls pos) (hat : (flow ev).At s pos)
    (hs : Step s m s') : ∃ l' pos', (flow ev).At s' pos' ∧ Inv ev b₀ s'.world l' (ls ++ [m]) pos' := by
  obtain ⟨pos', hat', hmv⟩ := hat.step hs
  suffices ∃ l', Inv ev b₀ s'.world l' (ls ++ [m]) pos' from this.imp fun _ h => ⟨pos', hat', h⟩
  clear hs hat' hat
  generalize s'.world = b' at hmv ⊢
  cases hmv with
  | call hp =>
    next t c => exact c.elim
  | ret hp hret =>
    next t p a =>
    have hfit := hI.fits t
    rw [hp] at hfit
    have hmade : made (ls ++ [(t, .ret)]) t = made ls t := by rw [made_snoc, if_neg (by simp), Nat.add_zero]
    cases p with
    | done raised =>
      refine ⟨l, hI.moved hp rfl hI.events hI.nodup hI.raised ?_ (fun _ _ => ⟨rfl, Iff.rfl⟩) (fun _ h => h) (.inl rfl) ?_ False.elim ?_⟩
      · cases raised with
        | true => exact .inl ⟨hfit.1, by rw [hmade]; exact hfit.2⟩
        | false => exact .inr ⟨hfit.1, hfit.2.imp fun _ => Overtakes.snoc⟩
      · intro hlost
        cases raised with
        | true => exact hlost.elim
        | false => exact hfit.1
      · intro u _ hm
        cases hm
    | _ => cases hret
  | op hp hnext =>
    next t p p' =>
    have hfit := hI.fits t
    rw [hp] at hfit
    have hmade : made (ls ++ [(t, .op)]) t = made ls t + 1 := by rw [made_snoc, if_pos rfl]
    change Place.next (ev t) p s.world = _ at hnext
    cases p with
    | done raised => cases hnext
    | check =>
      obtain ⟨⟨hnew, hsub⟩, hzero⟩ := hfit
      rw [Place.next, if_neg hsub] at hnext
      cases hnext
      exact ⟨l, hI.moved hp rfl hI.events hI.nodup hI.raised ⟨⟨hnew, hsub⟩, by omega⟩ (fun _ _ => ⟨rfl, Iff.rfl⟩) (fun _ h => h) (.inl rfl)
        False.elim False.elim fun _ _ _ _ _ => by omega⟩
    | load =>
      obtain ⟨⟨hnew, hsub⟩, hone⟩ := hfit
      cases hnext
      exact ⟨l, hI.moved hp rfl hI.events hI.nodup hI.raised ⟨⟨hnew, hsub⟩, by omega, fun _ => rfl, fun _ h => h⟩ (fun _ _ => ⟨rfl, Iff.rfl⟩)
        (fun _ h => h) (.inl rfl) False.elim False.elim fun _ _ _ _ _ => by omega⟩
    | cas prev =>
      obtain ⟨⟨hnew, hsub⟩, htwo, hread, hprev⟩ := hfit
      by_cases hsame : s.world.flags = prev
      · rw [Place.next, if_pos hsame, ← hsame] at hnext
        cases hnext
        have hothers : ∀ e, e ≠ ev t → e ≠ .none → Int.land (Int.land s.world.flags (Int.lnot (getEventFlag (ev t)))) (getEventFlag e) =
            Int.land s.world.flags (getEventFlag e) := fun e he hnone => Bits.land_clear (Queue.getEventFlag_disjoint (hev t) hnone (Ne.symm he))
        refine ⟨l, hI.moved hp rfl hI.events hI.nodup hI.raised ⟨⟨hnew, Bits.land_clear_self _ _⟩, by omega⟩
          (fun u hu => ⟨hothers _ (fun h => hu (hinj h)) (hev u), Iff.rfl⟩) (fun e he => ?_) (.inr ⟨rfl, htwo⟩) False.elim ?_ ?_⟩
        · exact fun hzero => he (Bits.land_clear_eq_zero hzero _)
        · rintro ⟨e, he, hclear⟩
          exact absurd (hsame ▸ hclear) he
        · intro u hu _ _ hcas
          have hfitu := hI.fits u
          obtain ⟨prevu, hpu⟩ := hfitu.cas_of_made hcas
          rw [hpu] at hfitu ⊢
          exact .inr ⟨ev t, hfitu.2.2.2 (ev t) hsub, Bits.land_clear_self _ _⟩
      · rw [Place.next, if_neg hsame] at hnext
        cases hnext
        obtain ⟨u, hu⟩ := not_forall.1 fun h => hsame (hread h)
        obtain ⟨hut, hb⟩ := Classical.not_imp.1 hu
        exact ⟨l, hI.moved hp rfl hI.events hI.nodup hI.raised ⟨hnew, u, hut, by omega, between_snoc.2 (.inl (not_not.1 hb))⟩
          (fun _ _ => ⟨rfl, Iff.rfl⟩) (fun _ h => h) (.inl rfl) False.elim (fun _ => .inl trivial) fun _ _ _ _ _ => .inl trivial⟩
    | append =>
      obtain ⟨⟨hnew, hclear⟩, hthree⟩ := hfit
      cases hnext
      refine ⟨l ++ [ev t], hI.moved hp rfl ?_ ?_ ?_ ⟨⟨?_, hclear⟩, by omega⟩ (fun u hu => ⟨rfl, ?_⟩) (fun _ h => h) (.inl rfl) False.elim
        False.elim fun _ _ _ _ _ => by omega⟩
      · rw [← List.append_assoc, ← hI.events]
      · exact List.nodup_append.2 ⟨hI.nodup, List.nodup_singleton _, by rintro e he _ ht rfl; rw [List.mem_singleton] at ht; exact hnew (ht ▸ he)⟩
      · intro e he
        rcases List.mem_append.1 he with he | he
        · exact hI.raised e he
        · exact ⟨t, (List.mem_singleton.1 he).symm⟩
      · exact List.mem_append_right _ (List.mem_singleton_self _)
      · rw [List.mem_append, List.mem_singleton]
        exact or_iff_left fun h => hu (hinj h)

/-- **No event is lost exactly where no thread overtakes another.** The events that were appended are different ones, each that of a
thread; every call that is over returned true, its event was appended, and the subscription is cleared. -/
theorem events_not_lost {s₀ : Threads T} (hinj : Function.Injective ev) (hev : ∀ t, ev t ≠ .none)
    (hstart : ∀ t, s₀.task t = some (addEventText (ev t))) (hsub : ∀ t, Int.land s₀.world.flags (getEventFlag (ev t)) ≠ 0)
    (h : Trace Step s₀ ls s) :
    (∀ u t, ¬Overtakes ls u t) ↔
      ∃ l, s.world.events = s₀.world.events ++ l ∧ l.Nodup ∧ (∀ e ∈ l, ∃ t, ev t = e) ∧
        ∀ t, (∀ raised, s.task t = some (.ret raised) → raised = true) ∧
          (Returned s t → ev t ∈ l ∧ Int.land s.world.flags (getEventFlag (ev t)) = 0) := by
  have hinv := h.history (fun ls s => ∃ l pos, (flow ev).At s pos ∧ Inv ev s₀.world s.world l ls pos) ?_ ?_
  · obtain ⟨l, pos, hat, hI⟩ := hinv
    have hplace : ∀ t r, s.task t = some (.ret r) → pos t = some (.done r) := by
      intro t r hret
      have htask := hat t
      rw [hret] at htask
      obtain ⟨p, hp, htext⟩ := Option.map_eq_some_iff.1 htask.symm
      cases p with
      | done r' =>
        cases htext
        exact hp
      | _ => cases htext
    have hnone : ∀ t, s.task t = none → pos t = none := by
      intro t hidle
      have htask := hat t
      rw [hidle] at htask
      exact Option.map_eq_none_iff.1 htask.symm
    constructor
    · intro hno
      refine ⟨l, hI.events, hI.nodup, hI.raised, fun t => ?_⟩
      have hfit := hI.fits t
      have htrue : ∀ raised, s.task t = some (.ret raised) → raised = true := by
        intro raised hret
        rw [hplace t raised hret] at hfit
        cases raised with
        | true => rfl
        | false =>
          obtain ⟨-, u, hu⟩ := hfit
          exact absurd hu (hno u t)
      refine ⟨htrue, ?_⟩
      rintro (hidle | ⟨raised, hret⟩)
      · rw [hnone t hidle] at hfit
        rcases hfit with hfit | ⟨-, u, hu⟩
        · exact hfit.1
        · exact absurd hu (hno u t)
      · have hraised := htrue raised hret
        subst hraised
        rw [hplace t true hret] at hfit
        exact hfit.1
    · rintro ⟨l', hevents, -, -, hcalls⟩ u t ⟨hut, hthree, hb⟩
      obtain rfl : l = l' := List.append_cancel_left (hI.events.symm.trans hevents)
      have hkept : ∀ v, ¬Lost ev l v (pos v) := by
        intro v hlost
        have htask := hat v
        unfold Lost at hlost
        split at hlost
        · next hp =>
          rw [hp] at htask
          exact Bool.false_ne_true ((hcalls v).1 false htask)
        · next hp =>
          rw [hp] at htask
          exact hlost ((hcalls v).2 (.inl htask)).1
        · exact hlost
      rcases hI.between u t hut hb with h | h | h
      · exact hkept u h
      · exact hkept t h
      · have hfit := hI.fits t
        unfold Stale at h
        split at h
        · next prev hp =>
          rw [hp] at hfit
          have := hfit.2.1
          omega
        · exact h
  · rintro ls s m s' ⟨l, pos, hat, hI⟩ hs
    exact hI.step hinj hev hat hs
  · refine ⟨[], fun _ => some .check, fun t => ?_, (List.append_nil _).symm, List.nodup_nil, by simp,
      fun t => ⟨⟨List.not_mem_nil, hsub t⟩, rfl⟩, ?_⟩
    · rw [hstart t, addEventText, if_neg (hev t)]
      rfl
    · rintro u t - ⟨i, hi, -⟩
      exact absurd hi (Nat.not_lt_zero i)

end

/-! ## Two threads -/

def limitAndTime : Bool → Event
  | false => .limit
  | true => .time

/-- Both events are subscribed, and both calls begin. -/
def called : Threads Bool := ⟨⟨48, []⟩, fun t => some (addEventText (limitAndTime t))⟩

def steps (t : Bool) (n : ℕ) : List (Bool × Move Empty) := List.replicate n (t, .op)

/-- One thread reads the word for the first time before the other changes it, and for the second time after that. -/
def inTurn : List (Bool × Move Empty) := steps true 1 ++ steps false 3 ++ steps true 3 ++ steps false 1

/-- Both read the word before one of them changes it. -/
def atOnce : List (Bool × Move Empty) := steps false 2 ++ steps true 2 ++ steps false 2 ++ steps true 1

def run (s : Threads Bool) (l : Bool × Move Empty) : Option (Threads Bool) := s.step (fun _ => atomically) noCall l

theorem events_not_lost_in_turn : ∃ s l, Trace Step called inTurn s ∧ (∀ u t, ¬Overtakes inTurn u t) ∧ (∀ t, s.task t = some (.ret true)) ∧
    s.world.events = l ∧ l.Nodup ∧ ∀ t, limitAndTime t ∈ l ∧ Int.land s.world.flags (getEventFlag (limitAndTime t)) = 0 := by
  have hrun : (inTurn.foldlM run called).map (fun s => (s.result false, s.result true)) = some (some true, some true) := by decide +kernel
  obtain ⟨s, hs, hresults⟩ := Option.map_eq_some_iff.1 hrun
  obtain ⟨h₀, h₁⟩ := Prod.mk.inj hresults
  have htrace : Trace Step called inTurn s := Trace.of_foldlM (fun _ _ _ h => h) hs
  have hno : ∀ u t, ¬Overtakes inTurn u t := by decide +kernel
  have hret : ∀ t, s.task t = some (.ret true) := Bool.forall_bool.2 ⟨Pool.task_of_result h₀, Pool.task_of_result h₁⟩
  obtain ⟨l, hevents, hnodup, -, hthreads⟩ := (events_not_lost (by decide) (by decide) (fun _ => rfl) (by decide +kernel) htrace).1 hno
  exact ⟨s, l, htrace, hno, hret, hevents, hnodup, fun t => (hthreads t).2 (.inr ⟨true, hret t⟩)⟩

/-- One of two events that are raised at once is lost: its call returns false, and it is still subscribed. -/
theorem event_lost : ∃ s, Trace Step called atOnce s ∧ s.task false = some (.ret true) ∧ s.task true = some (.ret false) ∧
    s.world.events = [.limit] ∧ Int.land s.world.flags (getEventFlag .time) ≠ 0 := by
  have hrun : (atOnce.foldlM run called).map (fun s => (s.result false, s.result true, s.world.events, s.world.flags)) =
      some (some true, some false, [.limit], 32) := by decide +kernel
  obtain ⟨s, hs, hresults⟩ := Option.map_eq_some_iff.1 hrun
  simp only [Prod.mk.injEq] at hresults
  obtain ⟨h₀, h₁, hevents, hflags⟩ := hresults
  refine ⟨s, Trace.of_foldlM (fun _ _ _ h => h) hs, Pool.task_of_result h₀, Pool.task_of_result h₁, hevents, ?_⟩
  rw [hflags]
  decide +kernel

end LibShr.OneShot
