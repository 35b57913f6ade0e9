import LibShr.Runs.History
import LibShr.Spec.Asked

/-!
# The buffer size that is advertised

`shr_q_buffer` returns the largest number of bytes that was asked for, in whole slots and with room for
the elements. A reader is given the whole data block, which may be larger: a request is rounded up to a
power of two, and a larger free block may serve it. So the buffer is large enough for every item exactly as
long as the block each item is given needs no more than one of the requests so far.
-/

namespace LibShr

open Prog

/-- Bytes `resize_buffer` asks for to read the item in the data block `b`. -/
def neededAt (m : ℤ → ℤ) (b : ℤ) : ℤ := m b * 8 - 8 + m (b + VEC_CNT) * SIZEOF_VEC

/-- The class of the block that a request for `n` slots is given. -/
def servingClass (m : ℤ → ℤ) (n : ℕ) : ℕ := (firstFit (fun j => freeBlocks m j = []) (classOf n) 3).getD (classOf n)

/-- The requests so far, for slots and elements. -/
def keepRequest (w : World) (e : Made) (_ : World) (rs : List (ℕ × ℕ)) : List (ℕ × ℕ) :=
  if e.call.reserves e.caller.q = true ∧ 0 < w.sem .enq then rs ++ e.call.request.toList else rs

/-- The item that the call adds, if any, is given a block that needs no more than one of the requests so far has asked for. -/
def Fits (w : World) (rs : List (ℕ × ℕ)) (e : Made) : Prop :=
  ∀ n v, e.call.request = some (n, v) → e.call.adds e.caller.q = true → 0 < w.sem .enq →
    ∃ r ∈ rs ++ [(n, v)], (2 : ℤ) ^ (servingClass w.mem n + 2) * 8 - 8 + v * SIZEOF_VEC ≤ requestBytes r

/-- What `shr_q_buffer` returns is enough for every item, and a reader's buffer of that size is kept. -/
structure Advertises (w : World) : Prop where
  enough : ∀ e w' n, Ran w e w' → e.call = .buffer → e.caller.q.isSome = true → e.reply = .number n →
    ∀ b ∈ itemBlocks w.mem, neededAt w.mem b ≤ n
  kept : ∀ e w' g u, Ran w e w' → e.call = .remove g (some u) → u.present = true → w.mem BUFFER ≤ u.size →
    ∃ i, e.reply = .item i u

/-- A call that adds what fits, if it adds. -/
def Fitting (s : World × List (ℕ × ℕ)) (e : Made) (s' : World × List (ℕ × ℕ)) : Prop := Recorded keepRequest s e s' ∧ Fits s.1 s.2 e

/-- A call after which enough is advertised. -/
def Advertising (s : World × List (ℕ × ℕ)) (e : Made) (s' : World × List (ℕ × ℕ)) : Prop := Recorded keepRequest s e s' ∧ Advertises s'.1

/-- No item needs more than is advertised. -/
def Queue.Ample (Q : Queue) : Prop := ∀ it ∈ Q.items, it.bufferSize ≤ Q.hdr.buffer

section
variable {w w' w₀ : World} {Q Q' : Queue} {e : Made} {es : List Made} {depth : ℤ} {b : ℤ} {it : Item} {rs : List (ℕ × ℕ)}

theorem ItemAt.needed (h : ItemAt w.mem b it) : neededAt w.mem b = it.bufferSize := by
  rw [neededAt, h.size, show w.mem (b + VEC_CNT) = _ from h.stores.count h.wf.1, Item.bufferSize]

theorem Represents.servingClass (hR : Represents w Q) (n : ℕ) : LibShr.servingClass w.mem n = Q.blockClass (classOf n) := by
  obtain ⟨H, hS⟩ := hR
  have hfit : firstFit (fun j => LibShr.freeBlocks w.mem j = []) (classOf n) 3 = firstFit (fun j => Q.free j = []) (classOf n) 3 :=
    firstFit_congr (fun j hj => by rw [hS.freeBlocks hj]; exact hS.free_nil hj) _ _
  rw [LibShr.servingClass, hfit, Queue.blockClass]

/-- The blocks need no more than `n` bytes if the items need no more. -/
theorem Represents.needed_le (hR : Represents w Q) (n : ℤ) :
    (∀ b ∈ itemBlocks w.mem, neededAt w.mem b ≤ n) ↔ ∀ it ∈ Q.items, it.bufferSize ≤ n := by
  have h := hR.items
  generalize itemBlocks w.mem = l, Q.items = its at h
  induction h with
  | nil => simp
  | cons hb _ ih => simp only [List.forall_mem_cons, ih, hb.needed]

namespace Queue

/-- A reader's buffer that is large enough for every item is kept, by induction on the attempts that
are left. -/
theorem removeLoop_kept {g : Gate} {n : ℕ} {u : UserBuffer} {r : Option Item × UserBuffer × Queue} (h : Q.removeLoop g n u = some r)
    (hp : u.present = true) (hu : ∀ it ∈ Q.items, it.bufferSize ≤ u.size) : r.2.1 = u := by
  induction n generalizing Q with
  | zero => cases h
  | succ n ih =>
    rw [removeLoop] at h
    split at h
    · cases h
    · cases h
      rfl
    · next Q₁ hpass =>
      cases ht : Q₁.takeItem with
      | none =>
        simp only [ht, Option.some.injEq] at h
        subst h
        rfl
      | some p =>
        obtain ⟨it, Q₂⟩ := p
        have hitems : Q.items = it :: Q₂.items := (items_pass hpass).symm.trans (items_takeItem ht)
        have hfits : u.resized it.bufferSize = u := if_pos ⟨hp, not_lt.2 (hu it (by simp [hitems]))⟩
        simp only [ht, hfits] at h
        split at h
        · refine ih h fun x hx => hu x ?_
          rw [items_up, items_postDeq] at hx
          simp [hitems, hx]
        · cases h
          rfl

/-- A removal that is refused for its arguments leaves the reader's buffer alone. -/
theorem step_refused {q : Option ShrQ} {g : Gate} {u v : UserBuffer} {st : Status} (hst : st ≠ .errEmpty)
    (h : Q.step q (.remove g (some u)) = some (.noItem st v, Q')) : v = u := by
  cases q with
  | none => cases h; rfl
  | some q =>
    simp only [step, removeCall] at h
    split at h
    · cases h
      rfl
    · split at h
      · obtain ⟨r, -, he⟩ := Option.map_eq_some_iff.1 h
        cases hr : r.1 <;> rw [hr] at he <;> cases he
        exact absurd rfl hst
      · cases h
        rfl

/-- What fits when it is added stays within what is advertised. -/
theorem Ample.change {δ : Delta} (hA : Q.Ample) (h : Change Q Q' δ) (hnew : ∀ it ∈ δ.new, it.bufferSize ≤ Q'.hdr.buffer) : Q'.Ample :=
  fun it hit => by
    rcases h.mem it hit with hn | hold
    · exact hnew it hn
    · exact (hA it hold).trans h.buffer

end Queue

/-- What an item of `v` elements needs that was given a block for a request of `n` slots. -/
theorem Item.bufferSize_eq {n v : ℕ} (hcls : it.cls = Q.blockClass (classOf n)) (helems : it.payload.length = v) :
    it.bufferSize = 2 ^ (Q.blockClass (classOf n) + 2) * 8 - 8 + v * SIZEOF_VEC := by
  rw [Item.bufferSize, Item.slots, hcls, helems]

/-- The queue advertises enough if no item needs more than its header says. -/
theorem Represents.advertises (hR : Represents w Q) : Advertises w ↔ Q.Ample := by
  constructor
  · intro hA
    obtain ⟨r, w', hran, hm, -⟩ := hR.next Q.clock .buffer trivial rfl
    have hr : r = .number Q.hdr.buffer := Answer.Matches.number (hm (.number Q.hdr.buffer) rfl)
    exact (hR.needed_le _).1 (hA.enough _ _ _ hran rfl rfl hr)
  · intro hA
    constructor
    · intro e w' n hran hc hq hr
      obtain ⟨Q', ⟨a, ha, hm⟩, -⟩ := hR.ran hran
      rw [hc] at ha
      cases ha
      rw [hq, if_pos rfl, hr] at hm
      rw [show n = Q.hdr.buffer from hm]
      exact (hR.needed_le _).2 hA
    · intro e w' g u hran hc hp hu
      obtain ⟨Q', ⟨a, ha, hm⟩, -⟩ := hR.ran hran
      rw [hc] at ha
      have hbuf : w.mem BUFFER = Q.hdr.buffer := congrArg Header.buffer hR.header
      rcases Queue.step_remove ha with ⟨⟨st, v, -, hne, rfl⟩, -, -⟩ | ⟨v, r, hrm, hr, rfl, rfl⟩
      · exact ⟨SqItem.ofStatus st, Queue.step_refused hne ha ▸ hm.noItem⟩
      · cases hrm.1
        have hkept : r.2.1 = u := Queue.removeLoop_kept hr hp fun it hit => (hA it hit).trans (hbuf ▸ hu)
        rw [hkept] at hm
        cases ho : r.1 with
        | none =>
          rw [ho] at hm
          exact ⟨_, hm.noItem⟩
        | some it =>
          rw [ho] at hm
          obtain ⟨i, hi, -⟩ := hm.item
          exact ⟨i, hi⟩

/-- **`BUFFER` is the most that was asked for**, by what one call asks for. -/
theorem buffer_step (hR : Represents w Q) (hbuf : Q.hdr.buffer = mostAsked rs) (hd : Q.Did e Q') :
    Q'.hdr.buffer = mostAsked (keepRequest w e w' rs) := by
  obtain ⟨a, ha, -⟩ := hd
  have hsem : (Q.reading e.caller.clock).sem .enq = w.sem .enq := (hR.sem .enq).symm
  unfold keepRequest
  cases hr : e.call.request with
  | none => rw [Queue.step_buffer hr ha, Queue.reading_hdr, hbuf, Option.toList_none, List.append_nil, ite_self]
  | some r =>
    obtain ⟨n, v⟩ := r
    obtain ⟨st, -, hask⟩ := Queue.step_asks hr ha
    rw [hsem] at hask
    split
    · next h => rw [hask.asked h, Queue.reading_hdr, hbuf, Option.toList_some, mostAsked_snoc]
    · next h => rw [hask.not_asked h, Queue.reading_hdr, hbuf]

/-- **Enough is still advertised exactly if what the call adds fits.** -/
theorem ample_step (hR : Represents w Q) (hs : Q.Sane) (hA : Q.Ample) (hbuf : Q.hdr.buffer = mostAsked rs) (hd : Q.Did e Q') :
    Q'.Ample ↔ Fits w rs e := by
  have hstep : Q'.hdr.buffer = mostAsked (keepRequest w e w rs) := buffer_step hR hbuf hd
  obtain ⟨a, ha, hm⟩ := hd
  have hA₀ : (Q.reading e.caller.clock).Ample := hA
  have hsem : (Q.reading e.caller.clock).sem .enq = w.sem .enq := (hR.sem .enq).symm
  -- a call that adds has asked for what it adds
  have hasked : ∀ {n v : ℕ}, e.call.request = some (n, v) → e.call.adds e.caller.q = true → 0 < w.sem .enq →
      Q'.hdr.buffer = mostAsked (rs ++ [(n, v)]) := fun {n v} hr hadds hroom => by
    rw [hstep, keepRequest, if_pos ⟨Call.reserves_of_adds hadds, hroom⟩, hr]
    rfl
  have hpos : ∀ k v : ℕ, (0 : ℤ) < 2 ^ (k + 2) * 8 - 8 + v * SIZEOF_VEC := fun k v => by
    have h : (2 : ℤ) ^ 2 ≤ 2 ^ (k + 2) := pow_le_pow_right₀ (by decide) (by omega)
    simp only [SIZEOF_VEC]
    omega
  constructor
  · intro hample n v hr hadds hroom
    obtain ⟨st, rfl, hask⟩ := Queue.step_asks hr ha
    have hok : st = .ok := (Queue.step_adds hr ha).2 ⟨hadds, by rwa [hsem]⟩
    obtain ⟨it, hit, hcls, helems⟩ := hask.lands hok
    have hneeds : it.bufferSize = 2 ^ (Q.blockClass (classOf n) + 2) * 8 - 8 + v * SIZEOF_VEC := Item.bufferSize_eq (Q := Q) hcls helems
    have hle := hample it hit
    rw [hasked hr hadds hroom, hneeds] at hle
    rw [hR.servingClass]
    exact (le_mostAsked (hpos _ _) _).1 hle
  · intro hf
    rcases Queue.step_items (Q := Q.reading e.caller.clock) hs.count ha with ⟨n, v, it, es, hr, rfl, hch, hcame⟩ | ⟨δ, hch, hnew⟩ | ⟨hi, hb⟩
    · obtain ⟨hadds, hroom⟩ := (Queue.step_adds hr ha).1 rfl
      rw [hsem] at hroom
      have hfits := hf n v hr hadds hroom
      rw [hR.servingClass, ← le_mostAsked (hpos _ _), ← hasked hr hadds hroom] at hfits
      have hneeds : it.bufferSize = 2 ^ (Q.blockClass (classOf n) + 2) * 8 - 8 + v * SIZEOF_VEC :=
        Item.bufferSize_eq (Q := Q) hcame.cls hcame.elems
      refine hA₀.change hch fun x hx => ?_
      rw [List.mem_singleton.1 hx, hneeds]
      exact hfits
    · exact hA₀.change hch (by rw [hnew]; simp)
    · intro it hit
      rw [hi] at hit
      rw [hb]
      exact hA it hit

/-- **What `shr_q_buffer` returns is enough exactly as long as every item fits when it is added.** `BUFFER` is the most that any of the
requests so far has asked for. -/
theorem buffer_suffices (hw : Created depth w₀) (h : Trace (Recorded keepRequest) (w₀, []) es (w, rs)) :
    w.mem BUFFER = mostAsked rs ∧
      (Trace Fitting (w₀, []) es (w, rs) ↔ Advertises w₀ ∧ Trace Advertising (w₀, []) es (w, rs)) := by
  obtain ⟨ids, clock, hR₀⟩ := hw.represents
  have hA₀ : (Queue.start depth ids clock).Ample := fun it hit => by cases hit
  obtain ⟨Q, hR, -, hbuf⟩ := Recorded.invariant (fun Q rs => Q.hdr.buffer = mostAsked rs) (fun _ _ => rfl)
    (fun hR _ _ _ hbuf hd => buffer_step hR hbuf hd) hw h
  refine ⟨(congrArg Header.buffer hR.header).trans hbuf, ?_⟩
  -- the runs of the two kinds are matched step by step, from states in which the queue advertises enough
  let I : World × List (ℕ × ℕ) → World × List (ℕ × ℕ) → Prop := fun s t =>
    s = t ∧ ∃ Q, Represents s.1 Q ∧ Q.Sane ∧ Q.hdr.buffer = mostAsked s.2 ∧ Q.Ample
  have hI : I (w₀, []) (w₀, []) := ⟨rfl, _, hR₀, Queue.start_sane depth ids clock, rfl, hA₀⟩
  have hnext : ∀ s e s', Recorded keepRequest s e s' → I s s →
      (Advertises s'.1 ↔ Fits s.1 s.2 e) ∧ (Fits s.1 s.2 e → I s' s') := by
    rintro ⟨w, rs⟩ e ⟨w', rs'⟩ ⟨hran, hrs⟩ ⟨-, Q, hR, hs, hbuf, hA⟩
    obtain ⟨Q', hd, hR'⟩ := hR.ran hran
    have hstep := ample_step hR hs hA hbuf hd
    exact ⟨hR'.advertises.trans hstep, fun hf => ⟨rfl, Q', hR', hd.sane hs, hrs ▸ buffer_step hR hbuf hd, hstep.2 hf⟩⟩
  constructor
  · intro ht
    obtain ⟨s, hs, rfl, -⟩ : ∃ s, Trace Advertising (w₀, []) es s ∧ I _ s := ht.simulate I
      (fun s t e s' hst hfit => by
        obtain ⟨rfl, hQ⟩ := hst
        obtain ⟨hiff, hkeep⟩ := hnext s e s' hfit.1 ⟨rfl, hQ⟩
        exact ⟨s', ⟨hfit.1, hiff.2 hfit.2⟩, hkeep hfit.2⟩) _ hI
    exact ⟨hR₀.advertises.2 hA₀, hs⟩
  · rintro ⟨-, ht⟩
    obtain ⟨s, hs, rfl, -⟩ : ∃ s, Trace Fitting (w₀, []) es s ∧ I _ s := ht.simulate I
      (fun s t e s' hst hadv => by
        obtain ⟨rfl, hQ⟩ := hst
        obtain ⟨hiff, hkeep⟩ := hnext s e s' hadv.1 ⟨rfl, hQ⟩
        have hfit := hiff.1 hadv.2
        exact ⟨s', ⟨hadv.1, hfit⟩, hkeep hfit⟩) _ hI
    exact hs

/-- A byte asks for 8 slots and is given 8. -/
theorem buffer_suffices_byte : ∃ w₀ e w, Created 4 w₀ ∧ Trace Fitting (w₀, []) [e] (w, [(8, 1)]) ∧ e.reply = .status .ok ∧ w.mem BUFFER = 88 ∧
    Advertises w₀ ∧ Trace Advertising (w₀, []) [e] (w, [(8, 1)]) := by
  obtain ⟨w₀, hw, hR₀⟩ := fresh_represents
  obtain ⟨r₁, w₁, h₁, hm₁, -⟩ := hR₀.next (fun _ => ⟨1, 0⟩) (.add .poll (some [65]) 1) (by rintro v ⟨⟩; decide) (by decide +kernel)
  have hr₁ : r₁ = .status .ok := replied hm₁ (by decide +kernel)
  subst hr₁
  have hnote : Recorded keepRequest (w₀, []) ⟨.page ⟨.readwrite⟩ fun _ => ⟨1, 0⟩, .add .poll (some [65]) 1, .status .ok⟩ (w₁, [(8, 1)]) := by
    refine ⟨h₁, ?_⟩
    have hroom : 0 < w₀.sem .enq := by rw [hR₀.sem]; decide +kernel
    exact (if_pos ⟨by decide +kernel, hroom⟩).symm
  have hfit : Fits w₀ [] ⟨.page ⟨.readwrite⟩ fun _ => ⟨1, 0⟩, .add .poll (some [65]) 1, .status .ok⟩ := by
    intro n v hr _ _
    cases hr
    rw [hR₀.servingClass]
    exact ⟨(8, 1), by decide +kernel, by decide +kernel⟩
  have hfitting : Trace Fitting (w₀, []) [_] (w₁, [(8, 1)]) := .cons ⟨hnote, hfit⟩ (.nil _)
  obtain ⟨hbuf, hiff⟩ := buffer_suffices hw (.cons hnote (.nil _))
  exact ⟨w₀, _, w₁, hw, hfitting, rfl, hbuf, hiff.1 hfitting⟩

/-- Nine bytes ask for 9 slots and are given 16. -/
theorem buffer_too_small : ∃ w₀ e w b, Created 4 w₀ ∧ Ran w₀ e w ∧ itemBlocks w.mem = [b] ∧ w.mem BUFFER = 96 ∧ neededAt w.mem b = 144 ∧
    ¬Advertises w := by
  obtain ⟨w₀, hw, hR₀⟩ := fresh_represents
  obtain ⟨r₁, w₁, h₁, hm₁, hR₁⟩ := hR₀.next (fun _ => ⟨1, 0⟩) (.add .poll (some (List.replicate 9 65)) 9)
    (by rintro v ⟨⟩; decide) (by decide +kernel)
  have hone : (itemBlocks w₁.mem).length = 1 := hR₁.length.trans (by decide +kernel)
  obtain ⟨b, hb⟩ := List.length_eq_one_iff.1 hone
  have hbuf : w₁.mem BUFFER = 96 := (congrArg Header.buffer hR₁.header).trans (by decide +kernel)
  have hneed : ∀ n, neededAt w₁.mem b ≤ n ↔ 144 ≤ n := fun n => by
    have h := hR₁.needed_le n
    rw [hb, List.forall_mem_singleton] at h
    have hsizes : (Queue.fresh.after (fun _ => ⟨1, 0⟩) (.add .poll (some (List.replicate 9 65)) 9)).items.map Item.bufferSize = [144] := by
      decide +kernel
    rw [h, ← List.forall_mem_map (P := fun s => s ≤ n), hsizes, List.forall_mem_singleton]
  have h₁₄₄ : neededAt w₁.mem b = 144 := le_antisymm ((hneed _).2 (le_refl _)) ((hneed _).1 (le_refl _))
  refine ⟨w₀, _, w₁, b, hw, h₁, hb, hbuf, h₁₄₄, fun hA => ?_⟩
  have hle := (hR₁.needed_le _).2 (hR₁.advertises.1 hA) b (by simp [hb])
  rw [← show w₁.mem BUFFER = _ from congrArg Header.buffer hR₁.header, hbuf, h₁₄₄] at hle
  exact absurd hle (by decide)

end

end LibShr
