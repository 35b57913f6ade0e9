import LibShr.Runs.Overdue
import LibShr.Spec.Moves
import LibShr.Spec.Since
import LibShr.Spec.Order

/-!
# What a removal discards

Where the queue discards items that are too old, a removal drops items from the front until one is not.
How old an item may be is told here from outside: by the settings, the readings of a clock that does
not go back, and the last add that found the queue empty.
-/

namespace LibShr

open Prog

/-- The calls as they are watched. -/
def noteWatch (w : World) (e : Made) (_ : World) (g : Watch) : Watch :=
  ⟨e.caller.clock 0, if (e.call.request.isSome = true ∧ e.reply = .status .ok) ∧ w.mem COUNT = 0 then some (e.caller.clock 0) else g.found⟩

/-- A call during which the clock stands still, and before which it did not go back. -/
def Clocked (s : World × Watch) (e : Made) (s' : World × Watch) : Prop :=
  Recorded noteWatch s e s' ∧ Steady s.2.now e.caller.clock (e.caller.clock 0)

def Watch.start : Watch := ⟨⟨0, 0⟩, none⟩

/-- The item number `i`, which lies in the block `b`, is too old at `now`. -/
def Expired (w : World) (g : Watch) (now : Timespec) (i : ℕ) (b : ℤ) : Prop :=
  (Header.ofMem w.mem).maxAge g.found (i + 1 = (itemBlocks w.mem).length) now ≠ 0 ∧
    (Header.ofMem w.mem).maxAge g.found (i + 1 = (itemBlocks w.mem).length) now < now.nanos - (stampAt w.mem b).nanos

/-- A removal at `now` dropped the first `k` items and handed over the next one, if there was one; the
reply is `r`. -/
structure Discards (g : Watch) (now : Timespec) (k : ℕ) (w : World) (r : Reply) (w' : World) : Prop where
  le : k ≤ (itemBlocks w.mem).length
  dropped : ∀ i b, i < k → (itemBlocks w.mem)[i]? = some b → Expired w g now i b
  given : ∀ b, (itemBlocks w.mem)[k]? = some b →
    ¬Expired w g now k b ∧ ∃ it x v, ItemAt w.mem b it ∧ r = .item x v ∧ x.Shows it .ok
  empty : (∃ v, r = .item (SqItem.ofStatus .errEmpty) v) ↔ k = (itemBlocks w.mem).length
  items : itemBlocks w'.mem = (itemBlocks w.mem).drop (k + 1)
  count : w'.mem COUNT = w.mem COUNT - ((itemBlocks w.mem).take (k + 1)).length
  enq : w'.sem .enq = w.sem .enq + ((itemBlocks w.mem).take (k + 1)).length
  freed : ∀ b ∈ (itemBlocks w.mem).take (k + 1), ∃ c < 48, b ∈ freeBlocks w'.mem c
  free : ∀ c < 48, freeBlocks w'.mem c =
    (((itemBlocks w.mem).take (k + 1)).filter fun b => w.mem b = 2 ^ (c + 2)).reverse ++ freeBlocks w.mem c

section
variable {α : Type} {l l' L : List α} {n : ℕ}

/-- A list is cut where the lengths say so. -/
theorem append_eq_take_drop (h : L = l ++ l') (hn : l'.length = L.length - n) : l = L.take n ∧ l' = L.drop n := by
  refine List.append_inj (h.symm.trans (List.take_append_drop n L).symm) ?_
  have hlen := congrArg List.length h
  rw [List.length_append] at hlen
  rw [List.length_take]
  omega

end

section
variable {w w' w₀ : World} {H H' : Heap} {Q Q' : Queue} {e : Made} {es : List Made} {depth b : ℤ} {i k : ℕ} {g : Watch} {gate : Gate}
  {u : Option UserBuffer} {v : UserBuffer} {p : Caller} {now : Timespec} {r : Reply}

/-! ## The time the header shows -/

theorem Queue.Since.start {ids : ℤ} {clock : ℕ → Timespec} : (Queue.start depth ids clock).Since .start where
  nonneg := le_refl _
  normal := ⟨le_refl _, show (0 : ℤ) < 1000000000 by norm_num⟩
  past := le_refl _
  found := fun h => absurd rfl h
  stamps := fun it hit => by cases hit

/-- The clock readings to come do not matter. -/
theorem Queue.Since.reading (h : Q.Since g) (clock : ℕ → Timespec) : (Q.reading clock).Since g :=
  ⟨h.nonneg, h.normal, h.past, h.found, h.stamps⟩

theorem Answer.Matches.ok {a : Answer} (h : a.Matches (.status .ok)) : a = .status .ok := by
  cases a with
  | status st => exact congrArg Answer.status h.symm
  | _ => exact h.elim

/-- A step of a watched run: the header keeps knowing. -/
theorem since_clocked (hR : Represents w Q) (hs : Q.Sane) (hi : Q.Since g) (hd : Q.Did e Q')
    (ht : Steady g.now e.caller.clock (e.caller.clock 0)) : Q'.Since (noteWatch w e w' g) := by
  obtain ⟨a, ha, hm⟩ := hd
  unfold noteWatch
  by_cases hadd : e.call.request.isSome = true ∧ e.reply = .status .ok
  · obtain ⟨⟨n, v⟩, hreq⟩ := Option.isSome_iff_exists.1 hadd.1
    rw [hadd.2] at hm
    rw [hm.ok] at ha
    have hsince := (hi.reading e.caller.clock).adds hs.count ht hreq ha
    simp only [hadd, true_and, hR.count]
    exact hsince
  · rw [if_neg fun h => hadd h.1]
    refine (hi.reading e.caller.clock).keeps hs.count ht ha fun hreq ha => hadd ⟨hreq, ?_⟩
    rw [ha] at hm
    exact hm.status

theorem since_reached (hw : Created depth w₀) (h : Trace Clocked (w₀, .start) es (w, g)) :
    ∃ Q H, Sim w H Q ∧ Q.Sane ∧ Q.Since g := by
  have hI := h.invariant (fun s => ∃ Q, Represents s.1 Q ∧ Q.Sane ∧ Q.Since s.2) ?_ ?_
  · obtain ⟨Q, ⟨H, hS⟩, hs, hi⟩ := hI
    exact ⟨Q, H, hS, hs, hi⟩
  · rintro ⟨w, g⟩ e ⟨w', g'⟩ ⟨Q, hR, hs, hi⟩ ⟨⟨hran, hg⟩, ht⟩
    obtain ⟨Q', hd, hR'⟩ := hR.ran hran
    dsimp only at hg
    subst hg
    have hsince : Q'.Since (noteWatch w e w' g) := since_clocked hR hs hi hd ht
    exact ⟨Q', hR', hd.sane hs, hsince⟩
  · obtain ⟨ids, clock, hR⟩ := hw.represents
    exact ⟨_, hR, Queue.start_sane depth ids clock, .start⟩

/-! ## The removal -/

/-- The verdict of the removal is what is seen from outside. -/
theorem expired_iff (hR : Represents w Q) (hi : Q.Since g) (hn : now.Normal) (hd : Discarding w) (hl : (Header.ofMem w.mem).limit.Normal)
    (ht : (Header.ofMem w.mem).target.Normal) {it : Item} (hit : Q.items[i]? = some it) (hb : ItemAt w.mem b it) :
    Q.hdr.expires (i + 1 = Q.items.length) now it.stamp = true ↔ Expired w g now i b := by
  have hmem : it ∈ Q.items := List.mem_of_getElem? hit
  obtain ⟨hfound, hsec⟩ := hi.found (List.ne_nil_of_mem hmem)
  unfold Discarding at hd
  unfold Expired
  rw [hR.flags] at hd
  rw [hR.header] at hl ht
  rw [hR.header, hb.stamp, hR.length]
  exact Header.expires_iff hd hl ht hn (hi.stamps it hmem) hi.normal hsec hfound

/-- What the two heaps and the two abstract queues say together. -/
theorem Sim.removed (hS : Sim w H Q) (hS' : Sim w' H' Q') (hs : Q.Sane) (hs' : Q'.Sane) (hi : Q.Since g) {l : List ℤ} (hl : Took l H H')
    (hd : Q.Did ⟨p, .remove gate u, r⟩ Q') (hu : Queue.Removal p.q gate u v) (hclock : Steady g.now p.clock now) (hdis : Discarding w)
    (hlim : (Header.ofMem w.mem).limit.Normal) (htar : (Header.ofMem w.mem).target.Normal) : ∃ k, Discards g now k w r w' := by
  have hR : Represents w Q := ⟨H, hS⟩
  have hR' : Represents w' Q' := ⟨H', hS'⟩
  obtain ⟨a, ha, hm⟩ := hd
  dsimp only at ha hm
  obtain ⟨n, es, hch, -, -⟩ := Queue.step_left (Q := Q.reading p.clock) hs.count ha
  rcases Queue.step_remove ha with ⟨-, -, hno⟩ | ⟨v', x, -, hx, rfl, rfl⟩
  · exact absurd hu (hno v)
  obtain ⟨k, hk, hbefore, hnext, -, hfirst, hrest⟩ := Queue.remove_drops hx hs.count hs.deq
  simp only [Queue.reading_items, Queue.reading_hdr, Queue.reading_clock, hclock.still] at hk hbefore hnext hfirst hrest
  have hblocks : itemBlocks w.mem = H.stack ++ H.fifo := by rw [itemBlocks, hS.stackBlocks, hS.fifoBlocks]
  have hblocks' : itemBlocks w'.mem = H'.stack ++ H'.fifo := by rw [itemBlocks, hS'.stackBlocks, hS'.fifoBlocks]
  -- the blocks that left are those of the first `k + 1` items
  have hcut : itemBlocks w.mem = l ++ itemBlocks w'.mem := by rw [hblocks, hblocks', hl.items]
  have hlen' : (itemBlocks w'.mem).length = (itemBlocks w.mem).length - (k + 1) := by
    rw [hR'.length, hrest, List.length_drop, hR.length]
  obtain ⟨htake, hdrop⟩ := append_eq_take_drop hcut hlen'
  have hsum := congrArg List.length hcut
  rw [List.length_append, hR.length, hR'.length] at hsum
  have hin : ∀ b ∈ l, b ∈ H.live := fun b hb => by
    have hmem : b ∈ H.stack ++ H.fifo := hl.items ▸ List.mem_append_left _ hb
    exact (List.mem_append.1 hmem).elim Heap.mem_live_stack Heap.mem_live_fifo
  have hword : ∀ b ∈ l, w.mem b = H.word b := fun b hb => by
    have hpos := hS.inv.wf.live_bounds (hin b hb)
    exact hS.mem_block (hin b hb) (le_refl _) (by omega)
  have hfree : ∀ c < 48, LibShr.freeBlocks w'.mem c =
      (l.filter fun b => w.mem b = 2 ^ (c + 2)).reverse ++ LibShr.freeBlocks w.mem c := fun c hc => by
    rw [hS'.freeBlocks hc, hS.freeBlocks hc, hl.bucket]
    congr 2
    exact List.filter_congr fun b hb => by rw [hword b hb]
  refine ⟨k, ?_, fun i b hik hb => ?_, fun b hb => ?_, ?_, hdrop, ?_, ?_, ?_, ?_⟩
  · rw [hR.length]
    exact hk
  · obtain ⟨it, hit, hbit⟩ := hR.item_at hb
    exact (expired_iff hR hi hclock.normal hdis hlim htar hit hbit).1 (hbefore i it hik hit)
  · obtain ⟨it, hit, hbit⟩ := hR.item_at hb
    constructor
    · intro hexp
      have hno : Q.hdr.expires (k + 1 = Q.items.length) now it.stamp = false := hnext it hit
      rw [← expired_iff hR hi hclock.normal hdis hlim htar hit hbit, hno] at hexp
      cases hexp
    · rw [hfirst, hit] at hm
      obtain ⟨y, hy, hshows⟩ := hm.item
      exact ⟨it, y, _, hbit, hy, hshows⟩
  · rw [hfirst] at hm
    rw [hR.length]
    constructor
    · rintro ⟨v'', hv⟩
      by_contra hne
      obtain ⟨it, hit⟩ : ∃ it, Q.items[k]? = some it := ⟨_, List.getElem?_eq_getElem (by omega)⟩
      rw [hit] at hm
      obtain ⟨y, hy, hshows⟩ := hm.item
      cases hv.symm.trans hy
      cases hshows.status
    · intro heq
      have hnone : Q.items[k]? = none := List.getElem?_eq_none (by omega)
      rw [hnone] at hm
      exact ⟨_, hm.noItem⟩
  · rw [← htake, hR.count, hR'.count, hs.count, hs'.count]
    omega
  · have henq := hch.enq
    have hlen := hch.len
    simp only [Queue.reading_items] at hlen
    change x.2.2.sem .enq = Q.sem .enq + n at henq
    rw [← htake, hR.sem, hR'.sem, henq]
    omega
  · intro b hb
    rw [← htake] at hb
    obtain ⟨c, hc, hsize⟩ := hS.inv.wf.data_size _ (hS.inv.wf.header b (hin b hb)) rfl
    refine ⟨c, hc, ?_⟩
    rw [hfree c hc, List.mem_append, List.mem_reverse, List.mem_filter, decide_eq_true_iff, hword b hb]
    exact .inl ⟨hb, hsize⟩
  · rw [← htake]
    exact hfree

/-- **What a removal discards**: it drops the items before the first one that is not too old, and hands
that one over. A removal that does not wait for items returns. -/
theorem removal_discards (hw : Created depth w₀) (h : Trace Clocked (w₀, .start) es (w, g)) (hp : p.Ok w) (hu : Queue.Removal p.q gate u v)
    (hclock : Steady g.now p.clock now) (hdis : Discarding w) (hlim : (Header.ofMem w.mem).limit.Normal)
    (htar : (Header.ofMem w.mem).target.Normal) :
    (gate ≠ .wait → ∃ r w', Ran w ⟨p, .remove gate u, r⟩ w') ∧
      ∀ r w', Ran w ⟨p, .remove gate u, r⟩ w' → ∃ k, Discards g now k w r w' := by
  obtain ⟨Q, H, hS, hs, hi⟩ := since_reached hw h
  constructor
  · intro hgate
    refine Represents.run ⟨H, hS⟩ hp trivial ?_
    obtain ⟨rfl, hg, hv, q, hq, hm⟩ := hu
    have hends : ((Q.reading p.clock).remove gate v).isSome = true := Queue.removeLoop_ends hgate (Nat.lt_succ_self _)
    rw [hq]
    simp only [Queue.step, Queue.removeCall, hg, hv, hm, false_or, if_false, if_true, Option.isSome_map]
    exact hends
  · intro r w' hran
    obtain ⟨Q', H', hd, hS', l, hl⟩ := hS.ran hran
    exact hS.removed hS' hs (hd.sane hs) hi hl hd hu hclock hdis hlim htar

/-! ## Three items -/

/-- A call that is watched. -/
theorem Represents.watched (hR : Represents w Q) {t : Timespec} (c : Call) (hv : c.Valid) (ht : Steady g.now (fun _ => t) t)
    (h : (Q.answer (fun _ => t) c).isSome = true) :
    ∃ e w' g', Clocked (w, g) e (w', g') ∧ g'.now = t ∧ Represents w' (Q.after (fun _ => t) c) := by
  obtain ⟨r, w', hr, -, hR'⟩ := hR.next (fun _ => t) c hv h
  exact ⟨_, w', _, ⟨hr.noted, ht⟩, rfl, hR'⟩

/-- Times in order. -/
theorem steady_of {t t' : Timespec} (h : g.now = t) (hn : t'.Normal) (hs : 0 < t'.sec) (hle : t.nanos ≤ t'.nanos) : Steady g.now (fun _ => t') t' :=
  ⟨fun _ => rfl, hn, hs, h ▸ hle⟩

/-- A byte is added at the time `t`. -/
def Queue.byteAt (Q : Queue) (t : Timespec) : Queue := Q.after (fun _ => t) (.add .poll (some [65]) 1)

/-- Limit and target are set. -/
def Queue.controlled : Queue :=
  (Queue.fresh.after (fun _ => ⟨1, 0⟩) (.timelimit 1 0)).after (fun _ => ⟨1, 0⟩) (.targetDelay 0 500000000)

/-- Three bytes were added, the last one shortly before the time 10. -/
def Queue.threeBytes : Queue := ((Queue.controlled.byteAt ⟨1, 0⟩).byteAt ⟨9, 200000000⟩).byteAt ⟨9, 900000000⟩

theorem threeBytes_reached : ∃ w₀ es w g, Created 4 w₀ ∧ Trace Clocked (w₀, .start) es (w, g) ∧ g.now = ⟨9, 900000000⟩ ∧
    Represents w Queue.threeBytes := by
  obtain ⟨w₀, hw, hR₀⟩ := fresh_represents
  have hbyte : Call.Valid (.add .poll (some [65]) 1) := by rintro v ⟨⟩; decide
  obtain ⟨e₁, w₁, g₁, h₁, ht₁, hR₁⟩ := hR₀.watched (g := .start) (t := ⟨1, 0⟩) (.timelimit 1 0) trivial
    (steady_of rfl (by decide) (by decide) (by decide)) (by decide +kernel)
  obtain ⟨e₂, w₂, g₂, h₂, ht₂, hR₂⟩ := hR₁.watched (g := g₁) (t := ⟨1, 0⟩) (.targetDelay 0 500000000) trivial
    (steady_of ht₁ (by decide) (by decide) (by decide)) (by decide +kernel)
  obtain ⟨e₃, w₃, g₃, h₃, ht₃, hR₃⟩ := hR₂.watched (g := g₂) (t := ⟨1, 0⟩) _ hbyte
    (steady_of ht₂ (by decide) (by decide) (by decide)) (by decide +kernel)
  obtain ⟨e₄, w₄, g₄, h₄, ht₄, hR₄⟩ := hR₃.watched (g := g₃) (t := ⟨9, 200000000⟩) _ hbyte
    (steady_of ht₃ (by decide) (by decide) (by decide)) (by decide +kernel)
  obtain ⟨e₅, w₅, g₅, h₅, ht₅, hR₅⟩ := hR₄.watched (g := g₄) (t := ⟨9, 900000000⟩) _ hbyte
    (steady_of ht₄ (by decide) (by decide) (by decide)) (by decide +kernel)
  exact ⟨w₀, _, w₅, g₅, hw, .cons h₁ (.cons h₂ (.cons h₃ (.cons h₄ (.cons h₅ (.nil _))))), ht₅, hR₅⟩

/-- At the time 10 two are dropped, and the third one is handed over. -/
theorem removal_discards_two : ∃ w₀ es w g, ∃ p : Caller, ∃ r w', Created 4 w₀ ∧ Trace Clocked (w₀, .start) es (w, g) ∧
    (itemBlocks w.mem).length = 3 ∧ Ran w ⟨p, .remove .poll (some ⟨false, 0⟩), r⟩ w' ∧ Discards g ⟨10, 0⟩ 2 w r w' := by
  obtain ⟨w₀, es, w, g, hw, h, hnow, hR⟩ := threeBytes_reached
  have hp := Caller.page_ok hR ⟨.readwrite⟩ fun _ => ⟨10, 0⟩
  have hdis : Discarding w := by
    unfold Discarding
    rw [hR.flags]
    decide +kernel
  have hlim : (Header.ofMem w.mem).limit = ⟨1, 0⟩ := (congrArg Header.limit hR.header).trans (by decide +kernel)
  have htar : (Header.ofMem w.mem).target = ⟨0, 500000000⟩ := (congrArg Header.target hR.header).trans (by decide +kernel)
  have hu : Queue.Removal (some ⟨.readwrite⟩) .poll (some ⟨false, 0⟩) ⟨false, 0⟩ := ⟨rfl, by decide, by decide, _, rfl, rfl⟩
  have hclock : Steady g.now (fun _ => ⟨10, 0⟩) ⟨10, 0⟩ := steady_of hnow (by decide) (by decide) (by decide)
  obtain ⟨r, w', hran, hm, hR'⟩ := hR.next (fun _ => ⟨10, 0⟩) (.remove .poll (some ⟨false, 0⟩)) trivial (by decide +kernel)
  obtain ⟨k, hk⟩ := (removal_discards hw h hp hu hclock hdis (by rw [hlim]; decide) (by rw [htar]; decide)).2 r w' hran
  have hlen : (itemBlocks w.mem).length = 3 := hR.length.trans (by decide +kernel)
  -- the queue is empty then, and an item was handed over
  have hall : 2 ≤ k := by
    have hcount := hk.count
    rw [hR.count, hR'.count, List.length_take, hlen, show Queue.threeBytes.hdr.count = 3 by decide +kernel,
      show (Queue.threeBytes.after (fun _ => ⟨10, 0⟩) (.remove .poll (some ⟨false, 0⟩))).hdr.count = 0 by decide +kernel] at hcount
    omega
  have hsome : ((Queue.threeBytes.answer (fun _ => ⟨10, 0⟩) (.remove .poll (some ⟨false, 0⟩))).bind Answer.handed).isSome = true := by
    decide +kernel
  have hne : k ≠ 3 := by
    intro h₃
    obtain ⟨v, rfl⟩ := hk.empty.2 (h₃.trans hlen.symm)
    obtain ⟨it, hit⟩ := Option.isSome_iff_exists.1 hsome
    obtain ⟨a, ha, hit⟩ := Option.bind_eq_some_iff.1 hit
    have hmatch := hm a ha
    cases a with
    | item it u =>
      obtain ⟨i, hi, hshows⟩ := hmatch.item
      obtain ⟨rfl, -⟩ := Reply.item.inj hi
      exact absurd hshows.status (by decide)
    | _ => cases hit
  obtain rfl : k = 2 := by
    have := hk.le
    omega
  exact ⟨w₀, es, w, g, _, r, w', hw, h, hlen, hran, hk⟩

end

end LibShr
