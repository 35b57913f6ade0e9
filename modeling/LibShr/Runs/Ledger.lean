import LibShr.Runs.History
import LibShr.Spec.Moves

/-!
# The book of a queue

What was added, what was handed over and how many items were dropped, as seen from outside: the payloads
of the calls that were accepted, those the replies show, and how the number of items changed. The book
balances after any history, and as long as adaptive LIFO was never on nothing overtakes.
-/

namespace LibShr

open Prog

/-- The elements a removed item shows to the caller. -/
def SqItem.payload (x : SqItem) : Payload :=
  x.vector.map fun v => (v.type, ((x.buffer.getD []).drop v.base.toNat).take v.len.toNat)

/-- The payload a reply hands over. -/
def Reply.handed : Reply → Option Payload
  | .item x _ => if x.status = .ok then some x.payload else none
  | _ => none

/-- The payload a call brought in. -/
def Made.brought (e : Made) : Option Payload := if e.reply = .status .ok then e.call.payload else none

/-- Only a clean, and a removal while the queue discards, may drop items. -/
def mayDrop (m : ℤ → ℤ) : Call → Bool
  | .clean _ => true
  | .remove .. => Int.land (m FLAGS) FLAG_DISCARD_EXPIRED ≠ 0
  | _ => false

/-- What was added and handed over so far, the number of items dropped, and whether adaptive LIFO was on
after one of the calls. -/
structure Book where
  added : List Payload := []
  handed : List Payload := []
  dropped : ℤ := 0
  lifo : Bool := false

/-- A call that may drop items has dropped those that are gone and were not handed over. -/
def noteBook (w : World) (e : Made) (w' : World) (g : Book) : Book where
  added := g.added ++ e.brought.toList
  handed := g.handed ++ e.reply.handed.toList
  dropped := g.dropped +
    if mayDrop w.mem e.call then ((itemBlocks w.mem).length : ℤ) - (itemBlocks w'.mem).length - e.reply.handed.toList.length else 0
  lifo := g.lifo || Int.land (w'.mem FLAGS) FLAG_LIFO_ON_LEVEL ≠ 0

/-- The payloads of the queued items in the order of service. -/
def Queued (w : World) (ps : List Payload) : Prop := List.Forall₂ (Stores w.mem) (itemBlocks w.mem) ps

/-- The book fits the queue. -/
structure Booked (Q : Queue) (g : Book) : Prop where
  balance : ∃ dropped : List Payload, (g.added : Multiset Payload) = g.handed + Q.items.map Item.payload + dropped ∧
    (dropped.length : ℤ) = g.dropped
  order : g.lifo = false → Q.stack = [] ∧ Int.land Q.hdr.flags FLAG_LIFO_ON_LEVEL = 0 ∧
    (g.handed ++ Q.items.map Item.payload).Sublist g.added

section
variable {w w' w₀ : World} {Q Q' : Queue} {e : Made} {es : List Made} {depth : ℤ} {g : Book} {a : Answer} {x : SqItem} {p : Payload}
  {it : Item} {k : ℕ → Timespec}

theorem Shows1.payload {bytes : List UInt8} {v : VecView} {y : ℤ × List UInt8} (h : Shows1 bytes v y) :
    (v.type, (bytes.drop v.base.toNat).take v.len.toNat) = y := by
  obtain ⟨htype, hlen, -, -, hbytes⟩ := h
  rw [htype, hlen, Int.toNat_natCast, hbytes]

/-- What an item shows is the payload it delivers. -/
theorem SqItem.Delivers.payload (h : x.Delivers p) : x.payload = p := by
  obtain ⟨-, -, bytes, hb, hshow⟩ := h
  have heach : List.Forall₂ (fun v y => (v.type, (bytes.drop v.base.toNat).take v.len.toNat) = y) x.vector p :=
    hshow.imp fun v y hv => hv.payload
  rw [← List.forall₂_map_left_iff (f := fun v : VecView => (v.type, (bytes.drop v.base.toNat).take v.len.toNat))] at heach
  unfold SqItem.payload
  rw [hb, Option.getD_some]
  exact List.forall₂_eq_eq_eq ▸ heach

/-- The reply hands over what the answer hands over. -/
theorem Answer.Matches.handed {r : Reply} (h : a.Matches r) (hn : ∀ v, a ≠ .noItem .ok v) : r.handed = a.handed.map Item.payload := by
  cases a with
  | item it v =>
    obtain ⟨x, rfl, hshows⟩ := h.item
    show (if x.status = .ok then some x.payload else none) = some it.payload
    rw [if_pos hshows.status, hshows.delivers.payload]
  | noItem st v =>
    rw [h.noItem]
    have hst : st ≠ .ok := fun he => hn v (he ▸ rfl)
    exact if_neg hst
  | status st => rw [h.status]; rfl
  | event ev => rw [h.event]; rfl
  | number n => rw [h.number]; rfl
  | flag b => rw [h.flag]; rfl

/-- No answer without an item is `SH_OK`. -/
theorem Queue.step_noItem {q : Option ShrQ} {c : Call} (h : Q.step q c = some (a, Q')) (v : UserBuffer) : a ≠ .noItem .ok v := by
  rintro rfl
  cases c with
  | remove gate u =>
    rcases step_remove h with ⟨⟨st, v', hst, -, ha⟩, -, -⟩ | ⟨v', r, -, -, ha, -⟩
    · cases ha
      exact hst rfl
    · cases hr : r.1 <;> rw [hr] at ha <;> cases ha
  | add gate value length =>
    obtain ⟨st, hst, -⟩ := step_added (c := .add gate value length) rfl h
    cases hst
  | addv gate vector =>
    obtain ⟨st, hst, -⟩ := step_added (c := .addv gate vector) rfl h
    cases hst
  | event => rcases step_event h with ⟨-, ha, -⟩ | ⟨-, ha, -⟩ <;> cases ha
  | clean t =>
    simp only [step] at h
    split at h
    · split at h <;> cases h
    · cases h
  | count => cases h
  | buffer => cases h
  | isSubscribed ev => cases h
  | _ => rcases handled_cases h with ⟨-, -, ha, -⟩ | ⟨-, ha, -⟩ <;> cases ha

theorem Answer.Matches.ok_iff {r : Reply} (h : a.Matches r) : r = .status .ok ↔ a = .status .ok := by
  constructor
  · rintro rfl
    cases a with
    | status st => rw [Reply.status.inj h.status]
    | _ => exact h.elim
  · rintro rfl
    exact h.status

theorem mayDrop_of (hR : Represents w Q) {c : Call} (h : (Q.reading k).MayDrop c) : mayDrop w.mem c = true := by
  cases c with
  | clean t => rfl
  | remove gate u =>
    unfold mayDrop
    rw [hR.flags]
    exact h
  | _ => exact h.elim

/-! ## One call -/

/-- An item is put in. -/
theorem Booked.puts (hg : Booked Q g) (hputs : Queue.Puts Q it Q') {lifo : Bool} (hl : lifo = false → g.lifo = false)
    (hflag : lifo = false → Int.land Q'.hdr.flags FLAG_LIFO_ON_LEVEL = 0) :
    Booked Q' ⟨g.added ++ [it.payload], g.handed, g.dropped, lifo⟩ := by
  have hitems : (Q'.items.map Item.payload : Multiset Payload) = Q.items.map Item.payload + [it.payload] := by
    unfold Queue.items
    rw [hputs.stack, hputs.fifo]
    split
    · rw [List.cons_append, List.map_cons, Multiset.coe_add, Multiset.coe_eq_coe]
      exact (List.perm_append_singleton _ _).symm
    · rw [← List.append_assoc, List.map_append, ← Multiset.coe_add]
      rfl
  refine ⟨?_, fun hno => ?_⟩
  · obtain ⟨dropped, hbal, hlen⟩ := hg.balance
    refine ⟨dropped, ?_, hlen⟩
    rw [← Multiset.coe_add, hbal, hitems]
    abel
  · obtain ⟨hstack, hoff, hsub⟩ := hg.order (hl hno)
    have hqueue : Q.onStack = false := by
      unfold Queue.onStack
      rw [hoff]
      rfl
    have hs := hputs.stack
    have hf := hputs.fifo
    rw [hqueue, if_neg Bool.false_ne_true] at hs hf
    have hend : Q'.items = Q.items ++ [it] := by
      unfold Queue.items
      rw [hs, hf, List.append_assoc]
    refine ⟨hs.trans hstack, hflag hno, ?_⟩
    rw [hend, List.map_append, ← List.append_assoc]
    exact hsub.append (.refl _)

/-- Items leave. -/
theorem Booked.leaves (hg : Booked Q g) {dropped : List Item} {handed : Option Item} (hleaves : Queue.Leaves Q (dropped ++ handed.toList) Q')
    {lifo : Bool} (hl : lifo = false → g.lifo = false) (hflag : lifo = false → Int.land Q'.hdr.flags FLAG_LIFO_ON_LEVEL = 0) :
    Booked Q' ⟨g.added, g.handed ++ (handed.map Item.payload).toList, g.dropped + dropped.length, lifo⟩ := by
  refine ⟨?_, fun hno => ?_⟩
  · obtain ⟨before, hbal, hlen⟩ := hg.balance
    refine ⟨before ++ dropped.map Item.payload, ?_, ?_⟩
    · have hitems := congrArg (Multiset.map Item.payload) hleaves.items
      rw [Multiset.map_coe, Multiset.map_add, Multiset.map_coe, Multiset.map_coe, List.map_append] at hitems
      have hone : handed.toList.map Item.payload = (handed.map Item.payload).toList := by cases handed <;> rfl
      rw [hbal, hitems, hone, ← Multiset.coe_add, ← Multiset.coe_add, ← Multiset.coe_add]
      abel
    · rw [List.length_append, List.length_map]
      push_cast
      omega
  · obtain ⟨hstack, hoff, hsub⟩ := hg.order (hl hno)
    obtain ⟨s, f, hgone, hs, hf⟩ := hleaves
    rw [hstack] at hs
    obtain ⟨rfl, hnil⟩ := List.append_eq_nil_iff.1 hs.symm
    rw [List.nil_append] at hgone
    have hitems : Q.items = dropped ++ (handed.toList ++ Q'.items) := by
      unfold Queue.items
      rw [hstack, hnil, hf, ← hgone, List.nil_append, List.nil_append, List.append_assoc]
    refine ⟨hnil, hflag hno, List.Sublist.trans ?_ hsub⟩
    have hone : (handed.map Item.payload).toList = handed.toList.map Item.payload := by cases handed <;> rfl
    rw [hitems, List.map_append, List.map_append, List.append_assoc, hone]
    exact (List.Sublist.refl _).append (List.sublist_append_right _ _)

/-- **A call keeps the book right.** -/
theorem booked_step (hR : Represents w Q) (hR' : Represents w' Q') (hs : Q.Sane) (hg : Booked Q g) (hd : Q.Did e Q') :
    Booked Q' (noteBook w e w' g) := by
  obtain ⟨a, ha, hm⟩ := hd
  have hhanded := hm.handed (Queue.step_noItem ha)
  have hflag : (noteBook w e w' g).lifo = false → g.lifo = false ∧ Int.land Q'.hdr.flags FLAG_LIFO_ON_LEVEL = 0 := fun hno => by
    obtain ⟨hold, hnow⟩ := Bool.or_eq_false_iff.1 hno
    rw [hR'.flags] at hnow
    exact ⟨hold, not_not.1 (of_decide_eq_false hnow)⟩
  have hreading : Booked (Q.reading e.caller.clock) g := ⟨hg.balance, hg.order⟩
  have hbefore : (itemBlocks w.mem).length = Q.items.length := hR.length
  have hafter : (itemBlocks w'.mem).length = Q'.items.length := hR'.length
  rcases Queue.step_moves (hs.reading _) ha with ⟨rfl, it, hpay, hputs⟩ | ⟨hno, dropped, hleaves, hdrop⟩
  · have hbrought : e.brought = some it.payload := by
      unfold Made.brought
      rw [if_pos (hm.ok_iff.2 rfl), hpay]
    have hnone : e.reply.handed = none := hhanded
    have hkeep : mayDrop w.mem e.call = false := by
      cases hc : e.call <;> rw [hc] at hpay <;> first | rfl | cases hpay
    have hb := hreading.puts hputs (fun h => (hflag h).1) fun h => (hflag h).2
    unfold noteBook at hb ⊢
    rw [hbrought, hnone, hkeep]
    simpa using hb
  · have hbrought : e.brought = none := by
      unfold Made.brought
      split
      · next hok =>
        refine Option.not_isSome_iff_eq_none.1 fun hsome => hno ⟨hsome, hm.ok_iff.1 hok⟩
      · rfl
    have hb := hreading.leaves hleaves (fun h => (hflag h).1) fun h => (hflag h).2
    have hnumber : (if mayDrop w.mem e.call then ((itemBlocks w.mem).length : ℤ) - (itemBlocks w'.mem).length - e.reply.handed.toList.length else 0) =
        dropped.length := by
      have hlen := congrArg Multiset.card hleaves.items
      rw [Multiset.coe_card, Multiset.card_add, Multiset.coe_card, Multiset.coe_card, List.length_append, Queue.reading_items] at hlen
      have hone : e.reply.handed.toList.length = a.handed.toList.length := by
        rw [hhanded]
        cases a.handed <;> rfl
      by_cases hmay : mayDrop w.mem e.call = true
      · rw [if_pos hmay, hbefore, hafter, hone]
        omega
      · rw [if_neg hmay]
        have hnil : dropped = [] := by
          by_contra hne
          exact hmay (mayDrop_of hR (hdrop hne))
        rw [hnil]
        rfl
    unfold noteBook at hb ⊢
    rw [hbrought, hnumber, hhanded]
    simpa using hb

theorem booked_start (ids : ℤ) (clock : ℕ → Timespec) : Booked (.start depth ids clock) {} :=
  ⟨⟨[], rfl, rfl⟩, fun _ => ⟨rfl, rfl, .slnil⟩⟩

theorem Represents.queued (hR : Represents w Q) : Queued w (Q.items.map Item.payload) := by
  unfold Queued
  rw [List.forall₂_map_right_iff]
  exact hR.items.imp fun b it h => h.stores

/-! ## Any history -/

/-- **The book balances**: each item that was added was handed over once, or is queued, or was dropped, and
nothing else was handed over or is queued. -/
theorem book_balances (hw : Created depth w₀) (h : Trace (Recorded noteBook) (w₀, {}) es (w, g)) :
    ∃ queued dropped : List Payload, Queued w queued ∧ (g.added : Multiset Payload) = g.handed + queued + dropped ∧ (dropped.length : ℤ) = g.dropped := by
  obtain ⟨Q, hR, -, hg⟩ := Recorded.invariant Booked booked_start (fun hR hR' hs _ => booked_step hR hR' hs) hw h
  obtain ⟨dropped, hbal, hlen⟩ := hg.balance
  exact ⟨_, dropped, hR.queued, hbal, hlen⟩

/-- **First in, first out**: while adaptive LIFO was never on, what was handed over and what is queued are in
the order in which they were added; where nothing was dropped they are all that was added. -/
theorem first_in_first_out (hw : Created depth w₀) (h : Trace (Recorded noteBook) (w₀, {}) es (w, g)) (hl : g.lifo = false) :
    ∃ queued, Queued w queued ∧ (g.handed ++ queued).Sublist g.added ∧ (g.dropped = 0 → g.handed ++ queued = g.added) := by
  obtain ⟨Q, hR, -, hg⟩ := Recorded.invariant Booked booked_start (fun hR hR' hs _ => booked_step hR hR' hs) hw h
  obtain ⟨dropped, hbal, hlen⟩ := hg.balance
  obtain ⟨-, -, hsub⟩ := hg.order hl
  refine ⟨_, hR.queued, hsub, fun hzero => hsub.eq_of_length ?_⟩
  have hcard := congrArg Multiset.card hbal
  rw [Multiset.coe_card, Multiset.card_add, Multiset.card_add, Multiset.coe_card, Multiset.coe_card, Multiset.coe_card] at hcard
  rw [List.length_append]
  omega

/-! ## Two bytes -/

/-- A call of a queue that stays in order and does not discard. -/
theorem Represents.entered (hR : Represents w Q) (c : Call) (hv : c.Valid) (h : (Q.answer (fun _ => ⟨1, 0⟩) c).isSome = true)
    (hl : g.lifo = false) (hoff : Int.land (Q.after (fun _ => ⟨1, 0⟩) c).hdr.flags FLAG_LIFO_ON_LEVEL = 0)
    (hkeep : Int.land Q.hdr.flags FLAG_DISCARD_EXPIRED = 0) (hc : ∀ t, c ≠ .clean t) :
    ∃ e w' g', Recorded noteBook (w, g) e (w', g') ∧ Represents w' (Q.after (fun _ => ⟨1, 0⟩) c) ∧ g'.lifo = false ∧ g'.dropped = g.dropped ∧
      ((Q.answer (fun _ => ⟨1, 0⟩) c).bind Answer.plain = some (.status .ok) → g'.added = g.added ++ c.payload.toList ∧ g'.handed = g.handed) ∧
      (c.payload = none → g'.added = g.added ∧
        g'.handed = g.handed ++ (((Q.answer (fun _ => ⟨1, 0⟩) c).bind Answer.handed).map Item.payload).toList) := by
  obtain ⟨r, w', hr, hm, hR'⟩ := hR.next (fun _ => ⟨1, 0⟩) c hv h
  have hnone : mayDrop w.mem c = false := by
    cases c with
    | clean t => exact absurd rfl (hc t)
    | remove gate u =>
      unfold mayDrop
      rw [hR.flags, hkeep]
      rfl
    | _ => rfl
  refine ⟨_, w', _, hr.noted, hR', ?_, ?_, fun hok => ?_, fun hpay => ?_⟩
  · show (g.lifo || decide (Int.land (w'.mem FLAGS) FLAG_LIFO_ON_LEVEL ≠ 0)) = false
    rw [hl, hR'.flags, hoff]
    rfl
  · show g.dropped + (if mayDrop w.mem c then _ else 0) = g.dropped
    rw [hnone]
    exact add_zero _
  · cases replied hm hok
    exact ⟨rfl, List.append_nil _⟩
  · have hbrought : (⟨.page ⟨.readwrite⟩ fun _ => ⟨1, 0⟩, c, r⟩ : Made).brought = none := by
      unfold Made.brought
      rw [hpay]
      exact ite_self _
    obtain ⟨a, ha⟩ := Option.isSome_iff_exists.1 h
    obtain ⟨⟨a', Q'⟩, hstep, hfst⟩ := Option.map_eq_some_iff.1 ha
    cases hfst
    have hhanded := (hm _ ha).handed (Queue.step_noItem hstep)
    unfold noteBook
    dsimp only
    rw [hbrought, hhanded, ha]
    exact ⟨List.append_nil _, rfl⟩

/-- Two bytes are added, and the first one is removed. -/
theorem two_bytes_booked : ∃ w₀ es w g, Created 4 w₀ ∧ Trace (Recorded noteBook) (w₀, {}) es (w, g) ∧ es.length = 3 ∧ g.lifo = false ∧
    g.dropped = 0 ∧ g.added = [[(SH_STRM_T, [65])], [(SH_STRM_T, [66])]] ∧ g.handed = [[(SH_STRM_T, [65])]] := by
  obtain ⟨w₀, hw, hR₀⟩ := fresh_represents
  obtain ⟨e₁, w₁, g₁, h₁, hR₁, hl₁, hd₁, hok₁, -⟩ := hR₀.entered (g := {}) (.putByte 65) (Call.putByte_valid 65) (by decide +kernel) rfl (by decide +kernel)
    (by decide +kernel) (by simp [Call.putByte])
  obtain ⟨e₂, w₂, g₂, h₂, hR₂, hl₂, hd₂, hok₂, -⟩ := hR₁.entered (.putByte 66) (Call.putByte_valid 66) (by decide +kernel) hl₁ (by decide +kernel)
    (by decide +kernel) (by simp [Call.putByte])
  obtain ⟨e₃, w₃, g₃, h₃, -, hl₃, hd₃, -, hp₃⟩ := hR₂.entered .pull trivial (by decide +kernel) hl₂ (by decide +kernel)
    (by decide +kernel) (by simp [Call.pull])
  obtain ⟨ha₁, hh₁⟩ := hok₁ (by decide +kernel)
  obtain ⟨ha₂, hh₂⟩ := hok₂ (by decide +kernel)
  obtain ⟨ha₃, hh₃⟩ := hp₃ rfl
  refine ⟨w₀, _, w₃, g₃, hw, .cons h₁ (.cons h₂ (.cons h₃ (.nil _))), rfl, hl₃, ?_, ?_, ?_⟩
  · rw [hd₃, hd₂, hd₁]
  · rw [ha₃, ha₂, ha₁]
    decide
  · rw [hh₃, hh₂, hh₁]
    decide +kernel

theorem book_balances_two : ∃ w₀ es w g, ∃ queued dropped : List Payload, Created 4 w₀ ∧ Trace (Recorded noteBook) (w₀, {}) es (w, g) ∧ es.length = 3 ∧
    Queued w queued ∧ (g.added : Multiset Payload) = g.handed + queued + dropped ∧ (dropped.length : ℤ) = g.dropped := by
  obtain ⟨w₀, es, w, g, hw, h, hn, -⟩ := two_bytes_booked
  obtain ⟨queued, dropped, hq⟩ := book_balances hw h
  exact ⟨w₀, es, w, g, queued, dropped, hw, h, hn, hq⟩

/-- The second byte is still queued. -/
theorem first_in_first_out_two : ∃ w₀ es w g, Created 4 w₀ ∧ Trace (Recorded noteBook) (w₀, {}) es (w, g) ∧ g.handed = [[(SH_STRM_T, [65])]] ∧
    Queued w [[(SH_STRM_T, [66])]] := by
  obtain ⟨w₀, es, w, g, hw, h, -, hl, hd, hadded, hhanded⟩ := two_bytes_booked
  obtain ⟨queued, hq, -, hall⟩ := first_in_first_out hw h hl
  have heq := hall hd
  rw [hhanded, hadded, List.singleton_append, List.cons.injEq] at heq
  exact ⟨w₀, es, w, g, hw, h, hhanded, heq.2 ▸ hq⟩

end

end LibShr
