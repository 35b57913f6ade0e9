import LibShr.Runs.Ledger
import LibShr.Spec.Blocks

/-!
# What a reader receives

A reader is given the whole data block of an item. The part that was asked for was cleared before the
item was copied in; what lies behind it, where a larger block was found free, is left from items before.
-/

namespace LibShr

open Prog

/-- The slots an add needs. -/
def Call.needs (c : Call) : ℕ := (c.request.map Prod.fst).getD 0

/-- The class of the block it asks for. -/
def Call.cls (c : Call) : ℕ := classOf c.needs

/-- The slots it asks for. -/
def Call.room (c : Call) : ℤ := 2 ^ (c.cls + 2)

/-- What an add leaves in a block that was zero. -/
def Call.image (c : Call) (now : Timespec) (uid : ℤ) : ℤ → ℤ :=
  match c with
  | .add _ value length => valueWords (fun _ => 0) now uid SH_STRM_T ((value.getD []).take length.toNat)
  | .addv _ (some [v]) => valueWords (fun _ => 0) now uid v.type v.elem.2
  | .addv _ vector => vectorWords (fun _ => 0) now uid (vector.getD [])
  | _ => fun _ => 0

/-- Slot `a` of a block is as one of the accepted adds of `es` left it. -/
def LeftBy (es : List Made) (words : ℤ → ℤ) (a : ℤ) : Prop :=
  ∃ e ∈ es, e.brought.isSome = true ∧ a < e.call.room ∧ ∃ now uid, words a = e.call.image now uid a

/-- The item was added by one of the calls `es`: as far as it asked for slots they are its own, and the others
are left from calls of `es`. -/
structure Item.From (it : Item) (es : List Made) : Prop where
  own : ∃ e ∈ es, e.brought = some it.payload ∧ (e.call.needs : ℤ) ≤ e.call.room ∧ e.call.cls ≤ it.cls ∧ it.cls ≤ e.call.cls + 2 ∧
    ∃ now uid, ∀ a < e.call.room, it.words a = e.call.image now uid a
  left : ∀ a < it.slots, LeftBy es it.words a

/-- Whatever is in a block, queued or free, is from the calls `es`. -/
structure Queue.Inked (Q : Queue) (es : List Made) : Prop where
  items : ∀ it ∈ Q.items, it.From es
  free : ∀ k, ∀ words ∈ Q.free k, ∀ a < 2 ^ (k + 2), LeftBy es words a

/-- `fill` copies what the add `c` brings, `p`, into a block of `n` slots. -/
structure Call.Fills (c : Call) (n : ℕ) (fill : (ℤ → ℤ) → Timespec → ℤ → ℤ → ℤ) (p : Payload) : Prop where
  payload : c.payload = some p
  needs : c.needs = n
  fits : (n : ℤ) ≤ c.room
  image : ∀ now uid, fill (fun _ => 0) now uid = c.image now uid
  congr : ∀ {P : ℤ → Prop} {f g : ℤ → ℤ} {now uid}, (∀ i, P i → f i = g i) → ∀ i, P i → fill f now uid i = fill g now uid i
  above : ∀ {f now uid a}, (n : ℤ) ≤ a → fill f now uid a = f a

section
variable {w w' w₀ : World} {Q Q' Q₁ : Queue} {e : Made} {es es' : List Made} {it : Item} {words : ℤ → ℤ} {x : ℤ} {n : ℕ} {depth : ℤ}
  {fill : (ℤ → ℤ) → Timespec → ℤ → ℤ → ℤ} {p : Payload} {g : Gate} {q : Option ShrQ} {a : Answer} {c : Call}

/-! ## Copying -/

theorem headerWords_above {f : ℤ → ℤ} {now : Timespec} {uid type vcnt length : ℤ} (h : 7 ≤ x) :
    headerWords f now uid type vcnt length x = f x := by
  unfold headerWords
  simp only [TM_SEC, TM_NSEC, UID, TYPE, VEC_CNT, DATA_LENGTH]
  simp (disch := omega) only [setSlot_ne]

theorem valueWords_above {f : ℤ → ℤ} {now : Timespec} {uid type : ℤ} {bs : List UInt8} (h : 7 + (slotsFor bs.length : ℤ) ≤ x) :
    valueWords f now uid type bs x = f x := by
  have hlen : ((Words.chunks bs).length : ℤ) = slotsFor bs.length := by rw [Words.length_chunks, slotsFor]
  unfold valueWords
  rw [stored_ne (.inr (by simp only [DATA_HDR]; omega)), headerWords_above (by omega)]

/-- The copy loop stays within the slots that are reserved for the elements. -/
theorem elemsStored_above : ∀ {vs : List SqVec} {m : ℤ → ℤ} {s : ℤ}, (∀ v ∈ vs, v.invalid = false) → s + vectorSlots vs ≤ x →
    elemsStored m s vs x = m x
  | [], _, _, _, _ => rfl
  | v :: vs, m, s, hv, h => by
    have hvalid := hv v (by simp)
    have hrest : ∀ v ∈ vs, v.invalid = false := fun v hm => hv v (by simp [hm])
    have hone := vectorElemSlots_le (SqVec.valid_len hvalid)
    have hnonneg : (0 : ℤ) ≤ vectorSlots vs := by
      have hge := vectorSlots_ge fun v hm => (SqVec.valid_len (hrest v hm)).le
      omega
    have hsum : vectorSlots (v :: vs) = vectorElemSlots v + vectorSlots vs := by rw [vectorSlots, List.map_cons, List.sum_cons, vectorSlots]
    have hlen : ((Words.chunks v.elem.2).length : ℤ) ≤ slotsFor v.len.toNat := by
      rw [Words.length_chunks, SqVec.elem, List.length_take, slotsFor]
      omega
    rw [elemsStored, hvalid, if_neg Bool.false_ne_true, elemsStored_above hrest (by omega), stored_ne (.inr (by omega)),
      setSlot_ne _ _ (by omega), setSlot_ne _ _ (by omega)]

theorem valueWords_congr {P : ℤ → Prop} {f f' : ℤ → ℤ} {now : Timespec} {uid type : ℤ} {bs : List UInt8} (h : ∀ i, P i → f i = f' i) :
    ∀ i, P i → valueWords f now uid type bs i = valueWords f' now uid type bs i :=
  stored_congr (headerWords_congr h)

theorem vectorWords_congr {P : ℤ → Prop} {f f' : ℤ → ℤ} {now : Timespec} {uid : ℤ} {vs : List SqVec} (h : ∀ i, P i → f i = f' i) :
    ∀ i, P i → vectorWords f now uid vs i = vectorWords f' now uid vs i :=
  elemsStored_congr (headerWords_congr h)

/-- A block is as large as what it was asked for. -/
theorem Call.fits_room (h₄ : 4 ≤ n) (hn : n ≤ 2 ^ 30) (hc : c.needs = n) : (n : ℤ) ≤ c.room := by
  have hle := (classOf_spec h₄ (by omega)).2
  unfold Call.room Call.cls
  rw [hc]
  exact_mod_cast hle

theorem Call.fills_value {bs : List UInt8} {length type : ℤ} (hp : c.payload = some [(type, bs.take length.toNat)])
    (hc : c.needs = 7 + slotsFor length.toNat) (hi : ∀ now uid, c.image now uid = valueWords (fun _ => 0) now uid type (bs.take length.toNat))
    (hn : 7 + slotsFor length.toNat ≤ 2 ^ 30) :
    c.Fills (7 + slotsFor length.toNat) (fun f now uid => valueWords f now uid type (bs.take length.toNat)) [(type, bs.take length.toNat)] where
  payload := hp
  needs := hc
  fits := Call.fits_room (by omega) hn hc
  image now uid := (hi now uid).symm
  congr h := valueWords_congr h
  above h := valueWords_above (by
    have hle : slotsFor (bs.take length.toNat).length ≤ slotsFor length.toNat := by
      rw [slotsFor, slotsFor, List.length_take]
      omega
    push_cast at h
    omega)

theorem Call.fills_vector {vs : List SqVec} (h₂ : 2 ≤ vs.length) (hv : ∀ v ∈ vs, v.invalid = false) (hn : 7 + vectorSlots vs ≤ 2 ^ 30) :
    (Call.addv g (some vs)).Fills (7 + vectorSlots vs).toNat (fun f now uid => vectorWords f now uid vs) (vs.map SqVec.elem) := by
  have hge := vectorSlots_ge fun v hm => (SqVec.valid_len (hv v hm)).le
  obtain ⟨v, v', l, rfl⟩ : ∃ v v' l, vs = v :: v' :: l := by
    match vs, h₂ with
    | v :: v' :: l, _ => exact ⟨v, v', l, rfl⟩
  exact {
    payload := rfl
    needs := rfl
    fits := Call.fits_room (by omega) (by omega) rfl
    image := fun _ _ => rfl
    congr := fun h => vectorWords_congr h
    above := fun h => by
      unfold vectorWords
      rw [elemsStored_above hv (by simp only [DATA_HDR]; omega), headerWords_above (by omega)] }

theorem Call.Fills.cls (h : c.Fills n fill p) : c.cls = classOf n := by rw [Call.cls, h.needs]

/-! ## What the parts of a call leave -/

theorem LeftBy.mono (h : LeftBy es words x) (hsub : es ⊆ es') : LeftBy es' words x := by
  obtain ⟨e, he, hw⟩ := h
  exact ⟨e, hsub he, hw⟩

theorem Item.From.mono (h : it.From es) (hsub : es ⊆ es') : it.From es' := by
  obtain ⟨e, he, how⟩ := h.own
  exact ⟨⟨e, hsub he, how⟩, fun a ha => (h.left a ha).mono hsub⟩

namespace Queue.Inked

theorem mono (h : Q.Inked es) (hsub : es ⊆ es') : Q.Inked es' :=
  ⟨fun it hit => (h.items it hit).mono hsub, fun k f hf a ha => (h.free k f hf a ha).mono hsub⟩

theorem same (h : Q.Inked es) (hs : SameBlocks Q Q') : Q'.Inked es :=
  ⟨fun it hit => h.items it (hs.1 ▸ hit), fun k f hf => h.free k f (hs.2 ▸ hf)⟩

/-- A block that is taken is clear as far as it was asked for. -/
theorem takeBlock (h : Q.Inked es) (k : ℕ) : (Q.takeBlock k).2.2.Inked es ∧ k ≤ (Q.takeBlock k).1 ∧ (Q.takeBlock k).1 ≤ k + 2 ∧
    (∀ a < 2 ^ (k + 2), (Q.takeBlock k).2.1 a = 0) ∧
    ∀ a < 2 ^ ((Q.takeBlock k).1 + 2), 2 ^ (k + 2) ≤ a → LeftBy es (Q.takeBlock k).2.1 a := by
  unfold Queue.takeBlock
  split
  · exact ⟨h, le_refl k, by omega, fun _ _ => rfl, fun a ha hge => absurd ha (not_lt.2 hge)⟩
  · next j hj =>
    obtain ⟨-, hne, hle, hlt⟩ := firstFit_some hj
    refine ⟨⟨h.items, fun i f hf => ?_⟩, hle, by omega, fun a ha => if_pos ha, fun a ha hge => ?_⟩
    · dsimp only at hf
      by_cases hi : i = j
      · subst hi
        rw [Function.update_self] at hf
        exact h.free i f (List.mem_of_mem_tail hf)
      · rw [Function.update_of_ne hi] at hf
        exact h.free i f hf
    · obtain ⟨f, l, hfree⟩ := List.exists_cons_of_ne_nil hne
      obtain ⟨e, he, hb, hroom, now, uid, hw⟩ := h.free j f (by rw [hfree]; exact List.mem_cons_self) a ha
      refine ⟨e, he, hb, hroom, now, uid, ?_⟩
      dsimp only
      rw [if_neg (not_lt.2 hge), hfree]
      exact hw

/-- What is left where a block was taken to copy into. -/
theorem copyIn_rest {v : ℤ} (h : Q.Inked es) : (Q.copyIn n v fill p).2.Inked es := by
  have hset : SameBlocks Q (Q.tick.setHdr { Q.hdr with buffer := max Q.hdr.buffer (n * 8 + v) }) := ⟨rfl, rfl⟩
  exact ((h.same hset).takeBlock (classOf n)).1.same ⟨rfl, rfl⟩

/-- An item that is copied in is that of the call, in front of what was left. -/
theorem copyIn {v : ℤ} (h : Q.Inked es) (hf : e.call.Fills n fill p) (hb : e.brought = some p) :
    (Q.copyIn n v fill p).2.Inked (es ++ [e]) ∧ (Q.copyIn n v fill p).1.From (es ++ [e]) := by
  have hsub : es ⊆ es ++ [e] := List.subset_append_left _ _
  have he : e ∈ es ++ [e] := by simp
  have hset : SameBlocks Q (Q.tick.setHdr { Q.hdr with buffer := max Q.hdr.buffer (n * 8 + v) }) := ⟨rfl, rfl⟩
  obtain ⟨-, hle, hle', hclear, hold⟩ := (h.same hset).takeBlock (classOf n)
  have hroom : e.call.room = 2 ^ (classOf n + 2) := by rw [Call.room, hf.cls]
  have hown : ∀ a < e.call.room, (Q.copyIn n v fill p).1.words a = e.call.image Q.now Q.ids a := fun a ha => by
    rw [← hf.image]
    exact hf.congr (P := fun i => i < e.call.room) (fun i hi => hclear i (hroom ▸ hi)) a ha
  refine ⟨h.copyIn_rest.mono hsub, ⟨e, he, hb, ?_, ?_, ?_, Q.now, Q.ids, hown⟩, fun a ha => ?_⟩
  · rw [hf.needs]
    exact hf.fits
  · rw [hf.cls]
    exact hle
  · rw [hf.cls]
    exact hle'
  · by_cases hlt : a < e.call.room
    · exact ⟨e, he, by rw [hb]; rfl, hlt, Q.now, Q.ids, hown a hlt⟩
    · -- the copy does not reach so far
      obtain ⟨e', he', hb', hroom', now, uid, hw⟩ := (hold a ha (hroom ▸ not_lt.1 hlt)).mono hsub
      refine ⟨e', he', hb', hroom', now, uid, ?_⟩
      rw [← hw]
      exact hf.above (hf.fits.trans (not_lt.1 hlt))

theorem enqData (h : Q.Inked es) (hit : it.From es) : (Q.enqData it).Inked es := by
  have hsame : SameBlocks (Q.link it) (Q.enqData it) := sameBlocks_postEnq
  refine Inked.same ?_ hsame
  unfold link
  split
  · refine ⟨fun i hi => ?_, h.free⟩
    rcases List.mem_cons.1 hi with rfl | hi
    · exact hit
    · exact h.items i hi
  · refine ⟨fun i hi => ?_, h.free⟩
    change i ∈ Q.stack ++ (Q.fifo ++ [it]) at hi
    rw [← List.append_assoc, List.mem_append, List.mem_singleton] at hi
    rcases hi with hi | rfl
    · exact h.items i hi
    · exact hit

/-! ## Adding -/

/-- A queueing function keeps it that way where the call `e` was accepted. -/
def Adds (es : List Made) (e : Made) (enqueue : Queue → Status × Queue) : Prop :=
  ∀ Q : Queue, Q.Inked es → ((enqueue Q).1 = .ok → e.brought = e.call.payload) → (enqueue Q).2.Inked (es ++ [e])

theorem append (h : Q.Inked es) (e : Made) : Q.Inked (es ++ [e]) := h.mono (List.subset_append_left _ _)

theorem copied {v : ℤ} (h : Q.Inked es) (hf : e.call.Fills n fill p) (hb : e.brought = e.call.payload) :
    ((Q.copyIn n v fill p).2.enqData (Q.copyIn n v fill p).1).Inked (es ++ [e]) := by
  obtain ⟨hrest, hit⟩ := h.copyIn (v := v) hf (hb.trans hf.payload)
  exact hrest.enqData hit

theorem enq {value : Option (List UInt8)} {length type : ℤ}
    (hf : ∀ bs ∈ value, 0 < length → e.call.Fills (7 + slotsFor length.toNat) (fun f now uid => valueWords f now uid type (bs.take length.toNat))
      [(type, bs.take length.toNat)]) : Adds es e fun Q => Q.enq value length type := by
  intro Q h hok
  cases value with
  | none => exact h.append e
  | some bs =>
    unfold Queue.enq at hok ⊢
    dsimp only at hok ⊢
    by_cases hl : length ≤ 0
    · rw [if_pos hl]
      exact h.append e
    · rw [if_neg hl] at hok ⊢
      exact h.copied (hf bs rfl (not_le.1 hl)) (hok rfl)

theorem enqv {vs : List SqVec} (hc : e.call = .addv g (some vs)) (hn : 7 + vectorSlots vs ≤ 2 ^ 30) : Adds es e fun Q => Q.enqv vs := by
  intro Q h hok
  dsimp only at hok ⊢
  unfold Queue.enqv at hok ⊢
  by_cases hl : vs.length < 2
  · rw [if_pos hl]
    exact h.append e
  · rw [if_neg hl] at hok ⊢
    dsimp only at hok ⊢
    by_cases hv : vs.any SqVec.invalid = true
    · -- the block is lost
      rw [if_pos hv]
      have hrest : (Q.copyVector vs).2.Inked es := h.copyIn_rest
      exact hrest.append e
    · rw [if_neg hv] at hok ⊢
      have hvalid : ∀ v ∈ vs, v.invalid = false := fun v hm => by
        by_contra hne
        exact hv (List.any_eq_true.2 ⟨v, hm, Bool.not_eq_false _ ▸ hne⟩)
      exact h.copied (hc ▸ Call.fills_vector (not_lt.1 hl) hvalid hn) (hok rfl)

theorem enqVector {vs : List SqVec} (hc : e.call = .addv g (some vs)) (hv : e.call.Valid) : Adds es e fun Q => Q.enqVector vs := by
  have hok : VectorOk vs := by
    rw [hc] at hv
    exact hv vs rfl
  match vs, hok with
  | [], hok => exact enqv hc hok.2
  | [v], hok =>
    refine enq fun bs hbs hl => ?_
    have helem : v.elem = (v.type, bs.take v.len.toNat) := by
      rw [SqVec.elem, hbs]
      rfl
    refine Call.fills_value ?_ ?_ (fun now uid => ?_) hok.2.2.2
    · rw [hc, ← helem]
      rfl
    · rw [hc]
      rfl
    · rw [hc]
      show valueWords (fun _ => 0) now uid v.type v.elem.2 = _
      rw [helem]
  | v :: v' :: vs, hok => exact enqv hc hok.2

theorem addCall {ok : Bool} {enqueue : Queue → Status × Queue} (h : Q.Inked es) (ha : Q.addCall q g ok enqueue = some (a, Q'))
    (hok : a = .status .ok → e.brought = e.call.payload) (hq : Adds es e enqueue) : Q'.Inked (es ++ [e]) := by
  unfold Queue.addCall at ha
  cases q with
  | none => cases ha; exact h.append e
  | some q =>
    dsimp only at ha
    split at ha
    · cases ha
      exact h.append e
    · split at ha
      · obtain ⟨r, hr, he⟩ := Option.map_eq_some_iff.1 ha
        cases he
        obtain ⟨⟨b, Q₁⟩, hp, rfl⟩ := Option.map_eq_some_iff.1 hr
        have hpass := h.same (sameBlocks_pass hp)
        cases b with
        | false => exact hpass.append e
        | true =>
          simp only [if_true, Queue.added] at hok ⊢
          by_cases hst : (enqueue Q₁).1 = .ok
          · rw [if_pos hst] at hok ⊢
            have hup : SameBlocks (enqueue Q₁).2 ((enqueue Q₁).2.up .deq) := ⟨rfl, rfl⟩
            exact (hq Q₁ hpass fun _ => hok rfl).same (hup.trans sameBlocks_raise)
          · rw [if_neg hst]
            exact (hq Q₁ hpass fun h' => absurd h' hst).same ⟨rfl, rfl⟩
      · cases ha
        exact h.append e

/-! ## Removing -/

theorem takeItem (h : Q.Inked es) (ht : Q.takeItem = some (it, Q')) : Q'.Inked es ∧ it.From es := by
  have hitems := items_takeItem ht
  have hfree : Q'.free = Q.free := by
    rw [Queue.takeItem] at ht
    split at ht <;> cases ht <;> rfl
  exact ⟨⟨fun i hi => h.items i (by rw [hitems]; exact List.mem_cons_of_mem _ hi), fun k f hf => h.free k f (hfree ▸ hf)⟩,
    h.items it (by rw [hitems]; exact List.mem_cons_self)⟩

/-- The block of an item goes back as it is. -/
theorem putBlock (h : Q.Inked es) (hit : it.From es) : (Q.putBlock it).Inked es := by
  refine ⟨h.items, fun k f hf => ?_⟩
  unfold Queue.putBlock at hf
  dsimp only at hf
  by_cases hk : k = it.cls
  · subst hk
    rw [Function.update_self] at hf
    rcases List.mem_cons.1 hf with rfl | hf
    · exact hit.left
    · exact h.free _ f hf
  · rw [Function.update_of_ne hk] at hf
    exact h.free k f hf

theorem postDeq (h : Q.Inked es) (hit : it.From es) : (Q.postDeq it).2.Inked es := by
  have hcount : SameBlocks Q (Q.setHdr { Q.hdr with count := Q.hdr.count - 1 }) := ⟨rfl, rfl⟩
  have hclear : SameBlocks Q (if Q.hdr.count = 1 then (Q.setHdr { Q.hdr with count := Q.hdr.count - 1 }).clearEmpty
      else Q.setHdr { Q.hdr with count := Q.hdr.count - 1 }) := by
    split
    · exact hcount.trans sameBlocks_clearEmpty
    · exact hcount
  exact (h.same (((hclear.trans sameBlocks_expired).trans sameBlocks_raise).trans sameBlocks_raise)).putBlock hit

/-- The loop of a removal, by induction on the attempts that are left. -/
theorem removeLoop {u : UserBuffer} {r : Option Item × UserBuffer × Queue} (h : Q.Inked es) (hr : Q.removeLoop g n u = some r) :
    r.2.2.Inked es := by
  induction n generalizing Q u with
  | zero => cases hr
  | succ n ih =>
    rw [Queue.removeLoop] at hr
    split at hr
    · cases hr
    · next Q₁ hp =>
      cases hr
      exact h.same (sameBlocks_pass hp)
    · next Q₁ hp =>
      have hpass := h.same (sameBlocks_pass hp)
      cases ht : Q₁.takeItem with
      | none =>
        simp only [ht, Option.some.injEq] at hr
        subst hr
        exact hpass.same ⟨rfl, rfl⟩
      | some p =>
        obtain ⟨it, Q₂⟩ := p
        obtain ⟨hrest, hit⟩ := hpass.takeItem ht
        have hone : ((Q₂.postDeq it).2.up .enq).Inked es := (hrest.postDeq hit).same ⟨rfl, rfl⟩
        simp only [ht] at hr
        split at hr
        · exact ih hone hr
        · cases hr
          exact hone

theorem drop {l : List Item} (h : Q.Inked es) (hf : Q.fifo = it :: l) : (Q.drop it l).Inked es := by
  have hitems : Q.items = Q.stack ++ it :: l := by rw [Queue.items, hf]
  have hit : it.From es := h.items it (by rw [hitems]; simp)
  have hrest : ({ Q with fifo := l, ids := Q.ids + 1, hdr := { Q.hdr with count := Q.hdr.count - 1 } } : Queue).Inked es := by
    refine ⟨fun i hi => h.items i ?_, h.free⟩
    rw [hitems]
    rcases List.mem_append.1 hi with hs | hl
    · exact List.mem_append_left _ hs
    · exact List.mem_append_right _ (List.mem_cons_of_mem _ hl)
  exact (hrest.putBlock hit).same ⟨rfl, rfl⟩

theorem cleanLoop {t : Timespec} (h : Q.Inked es) : (Q.cleanLoop t n).Inked es := by
  induction n generalizing Q with
  | zero => exact h
  | succ n ih =>
    rw [Queue.cleanLoop]
    split
    · cases hf : Q.fifo with
      | nil => exact h.same ⟨rfl, rfl⟩
      | cons it l =>
        dsimp only
        split
        · have htick : (Q.down .deq).tick.Inked es := h.same ⟨rfl, rfl⟩
          exact ih (htick.drop hf)
        · exact h.same ⟨rfl, rfl⟩
    · exact h

end Queue.Inked

/-! ## Every call -/

/-- **What a call leaves in the blocks is from the calls so far.** -/
theorem inked_step (h : Q.Inked es) (hv : e.call.Valid) (hd : Q.Did e Q') : Q'.Inked (es ++ [e]) := by
  obtain ⟨a, ha, hm⟩ := hd
  have hR : (Q.reading e.caller.clock).Inked es := ⟨h.items, h.free⟩
  have hok : a = .status .ok → e.brought = e.call.payload := fun he => by
    unfold Made.brought
    rw [if_pos (hm.ok_iff.2 he)]
  have hkeep : Queue.SameBlocks (Q.reading e.caller.clock) Q' → Q'.Inked (es ++ [e]) := fun hs => (hR.same hs).append e
  obtain ⟨p, c, r⟩ := e
  cases c with
  | add g value length =>
    refine hR.addCall ha hok (.enq fun bs hbs hl => ?_)
    obtain ⟨-, hn⟩ := hv bs hbs
    have hvalue : value.getD [] = bs := by
      rw [Option.mem_def.1 hbs]
      rfl
    exact Call.fills_value (hvalue ▸ rfl) rfl (fun _ _ => hvalue ▸ rfl) hn
  | addv g vector =>
    cases vector with
    | none => exact hR.addCall ha hok fun Q h _ => h.append _
    | some vs => exact hR.addCall ha hok (.enqVector rfl hv)
  | remove g u =>
    rcases Queue.step_remove ha with ⟨-, rfl, -⟩ | ⟨v, r, -, hr, -, rfl⟩
    · exact hkeep (.refl _)
    · exact (hR.removeLoop hr).append _
  | clean t =>
    rcases Queue.step_clean ha with ⟨rfl, -⟩ | ⟨q', t', -, -, -, rfl⟩
    · exact hkeep (.refl _)
    · exact hR.cleanLoop.append _
  | event =>
    rcases Queue.step_event ha with ⟨-, -, rfl⟩ | ⟨-, -, rfl⟩
    · refine hkeep ?_
      unfold Queue.takeEvent
      split
      · split <;> exact .refl _
      · exact .refl _
    · exact hkeep (.refl _)
  | prod =>
    rcases Queue.step_prod ha with ⟨-, -, rfl⟩ | ⟨-, -, rfl⟩
    · exact hkeep ⟨rfl, rfl⟩
    · exact hkeep (.refl _)
  | _ =>
    obtain ⟨hdr, hQ, -⟩ := Queue.step_resets rfl (by simp) ha
    exact hkeep (hQ ▸ ⟨rfl, rfl⟩)

/-- An item that is handed over was queued. -/
theorem Queue.Moves.handed_mem (h : Queue.Moves Q c a Q') (ha : a.handed = some it) : it ∈ Q.items := by
  rcases h with ⟨rfl, -⟩ | ⟨-, dropped, hleaves, -⟩
  · cases ha
  · have hmem : it ∈ (Q.items : Multiset Item) := by
      rw [hleaves.items, ha]
      simp
    exact hmem

/-- A reply with an item shows the one that is handed over. -/
theorem Answer.Matches.shows {i : SqItem} {v : UserBuffer} (h : a.Matches (.item i v)) (hn : ∀ v, a ≠ .noItem .ok v) (hok : i.status = .ok) :
    ∃ it, a.handed = some it ∧ i.Shows it .ok := by
  cases a with
  | item it v' => exact ⟨it, rfl, h.1⟩
  | noItem st v' =>
    have hst : st = .ok := by rw [← hok, h.1]; rfl
    exact absurd (hst ▸ rfl) (hn v')
  | _ => exact h.elim

/-- The calls of a history leave their marks one after another. -/
theorem inked_run (hR : Represents w Q) (hs : Q.Sane) (hI : Q.Inked es) (h : Trace Ran w es' w') :
    ∃ Q', Represents w' Q' ∧ Q'.Sane ∧ Q'.Inked (es ++ es') := by
  induction h generalizing Q es with
  | nil => exact ⟨Q, hR, hs, by rwa [List.append_nil]⟩
  | @cons w w₁ w' e es' he _ ih =>
    obtain ⟨Q₁, hd, hR₁⟩ := hR.ran he
    obtain ⟨Q', hR', hs', hI'⟩ := ih hR₁ (hd.sane hs) (inked_step hI he.valid hd)
    exact ⟨Q', hR', hs', by rwa [List.append_assoc, List.singleton_append] at hI'⟩

theorem inked_start (ids : ℤ) (clock : ℕ → Timespec) : (Queue.start depth ids clock).Inked [] :=
  ⟨fun _ hit => absurd hit List.not_mem_nil, fun _ _ hf => absurd hf List.not_mem_nil⟩

/-- An item that a call hands over after a history was added by one of its calls. -/
theorem handed_from (hw : Created depth w₀) (h : Trace Ran w₀ es w) (he : Ran w e w') {i : SqItem} {v : UserBuffer}
    (hr : e.reply = .item i v) (hok : i.status = .ok) : ∃ it, i.Shows it .ok ∧ it.From es := by
  obtain ⟨ids, clock, hR₀⟩ := hw.represents
  obtain ⟨Q, hR, hs, hI⟩ := inked_run hR₀ (Queue.start_sane depth ids clock) (inked_start ids clock) h
  obtain ⟨Q', ⟨a, ha, hm⟩, -⟩ := hR.ran he
  rw [hr] at hm
  obtain ⟨it, hhanded, hshows⟩ := hm.shows (Queue.step_noItem ha) hok
  exact ⟨it, hshows, hI.items it ((Queue.step_moves (hs.reading _) ha).handed_mem hhanded)⟩

/-- The bytes of an item are those of the slots behind the first. -/
theorem Item.bytes_eq (it : Item) : it.bytes = bytesAt it.words 1 (2 ^ (it.cls + 2) - 1) := by
  have hslots : (it.slots - 1).toNat = 2 ^ (it.cls + 2) - 1 := by
    unfold Item.slots
    have hcast : ((2 ^ (it.cls + 2) : ℕ) : ℤ) = 2 ^ (it.cls + 2) := by push_cast; rfl
    omega
  rw [Item.bytes, hslots]

/-- **What a reader receives**: as far as the add of the item asked for slots it is the image of that add, whatever
the block held before, and the rest of the block, which may be four times as large, is as earlier adds left it. -/
theorem reader_receives (hw : Created depth w₀) (h : Trace Ran w₀ es w) (he : Ran w e w') (i : SqItem) (v : UserBuffer)
    (hr : e.reply = .item i v) (hok : i.status = .ok) :
    ∃ words cls, i.buffer = some (bytesAt words 1 (2 ^ (cls + 2) - 1)) ∧ i.bufSize = 2 ^ (cls + 2) * 8 - 8 ∧
      (∃ e₀ ∈ es, ∃ p, e₀.brought = some p ∧ i.Delivers p ∧ e₀.call.cls ≤ cls ∧ cls ≤ e₀.call.cls + 2 ∧
        ∃ now uid, ∀ a < e₀.call.room, words a = e₀.call.image now uid a) ∧
      ∀ a < 2 ^ (cls + 2), LeftBy es words a := by
  obtain ⟨it, hshows, hit⟩ := handed_from hw h he hr hok
  obtain ⟨e₀, he₀, hb, -, hle, hle', how⟩ := hit.own
  refine ⟨it.words, it.cls, ?_, hshows.size, ⟨e₀, he₀, it.payload, hb, hshows.delivers, hle, hle', how⟩, hit.left⟩
  rw [hshows.buffer, it.bytes_eq]

/-! ## A byte in a larger block -/

/-- Forty bytes. -/
def Call.putForty : Call := .add .poll (some (List.replicate 40 66)) 40

theorem Call.putForty_valid : Call.putForty.Valid := by
  rintro v ⟨⟩
  exact ⟨by decide, by decide⟩

/-- The reader of one byte also receives the end of the forty bytes that were in the block before. -/
theorem reader_receives_forty : ∃ w₀ es w e w' i v, Created 4 w₀ ∧ Trace Ran w₀ es w ∧ es.map Made.call = [.putForty, .pull, .putByte 65] ∧
    Ran w e w' ∧ e.reply = .item i v ∧ i.status = .ok ∧ i.Delivers [(SH_STRM_T, [65])] ∧
    ((i.buffer.getD []).drop 56).take 32 = List.replicate 32 66 ∧
    ∃ words cls, i.buffer = some (bytesAt words 1 (2 ^ (cls + 2) - 1)) ∧ i.bufSize = 2 ^ (cls + 2) * 8 - 8 ∧
      (∃ e₀ ∈ es, ∃ p, e₀.brought = some p ∧ i.Delivers p ∧ e₀.call.cls ≤ cls ∧ cls ≤ e₀.call.cls + 2 ∧
        ∃ now uid, ∀ a < e₀.call.room, words a = e₀.call.image now uid a) ∧
      ∀ a < 2 ^ (cls + 2), LeftBy es words a := by
  obtain ⟨w₀, hw, hR₀⟩ := fresh_represents
  obtain ⟨r₁, w₁, h₁, -, hR₁⟩ := hR₀.next (fun _ => ⟨1, 0⟩) .putForty Call.putForty_valid (by decide +kernel)
  obtain ⟨r₂, w₂, h₂, -, hR₂⟩ := hR₁.next (fun _ => ⟨1, 0⟩) .pull trivial (by decide +kernel)
  obtain ⟨r₃, w₃, h₃, -, hR₃⟩ := hR₂.next (fun _ => ⟨1, 0⟩) (.putByte 65) (Call.putByte_valid 65) (by decide +kernel)
  obtain ⟨r₄, w₄, h₄, hm, -⟩ := hR₃.next (fun _ => ⟨1, 0⟩) .pull trivial (by decide +kernel)
  have hshown : ((((Queue.fresh.after (fun _ => ⟨1, 0⟩) .putForty).after (fun _ => ⟨1, 0⟩) .pull).after (fun _ => ⟨1, 0⟩) (.putByte 65)).answer
      (fun _ => ⟨1, 0⟩) .pull).bind (fun a => a.handed.map fun it => (it.payload, (it.bytes.drop 56).take 32)) =
      some ([(SH_STRM_T, [65])], List.replicate 32 66) := by decide +kernel
  obtain ⟨a, ha, hsome⟩ := Option.bind_eq_some_iff.1 hshown
  obtain ⟨it, hit, hpair⟩ := Option.map_eq_some_iff.1 hsome
  obtain ⟨hpay, hbytes⟩ := Prod.mk.inj hpair
  have hmatch := hm a ha
  cases a with
  | item it' v' =>
    cases hit
    obtain ⟨i, rfl, hshows⟩ := hmatch.item
    have ht : Trace Ran w₀ _ w₃ := .cons h₁ (.cons h₂ (.cons h₃ (.nil _)))
    refine ⟨w₀, _, w₃, _, w₄, i, v', hw, ht, rfl, h₄, rfl, hshows.status, hpay ▸ hshows.delivers, ?_, ?_⟩
    · rw [hshows.buffer]
      exact hbytes
    · exact reader_receives hw ht h₄ i v' rfl hshows.status
  | _ => cases hit

end

end LibShr
