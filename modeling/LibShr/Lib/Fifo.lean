import LibShr.Lib.Links
import Mathlib.Order.Lattice

/-!
# Linked queues with stamps

A queue in a flat memory is told by its history: the entries that were ever linked, in their order, and how
many of them were taken out. What is in the queue are the others, behind the entry that was taken out last,
which is the dummy. A node leads to the next entry and carries the stamp of it; the last one leads to itself.
The tail word may be behind the last entry.
-/

namespace Fifo

open Links

/-- A link: its node, its stamp, and the payload of the node. -/
structure Entry where
  slot : ℤ
  stamp : ℤ
  value : ℤ
deriving DecidableEq, Repr

/-- The slots of the head word and of the tail word, and where a node has its payload. -/
structure Place where
  head : ℤ
  tail : ℤ
  payload : ℤ

variable (q : Place) (mem : ℤ → ℤ) (H : List Entry) (r k : ℕ)

/-- The tail word leads to the entry `k`, or to a later one. -/
def TailPast : Prop := ∃ j x, k ≤ j ∧ H[j]? = some x ∧ mem q.tail = x.slot ∧ mem (q.tail + 1) = x.stamp

/-- The memory holds the queue of the history `H`, of which `r` entries were taken out. -/
structure Laid : Prop where
  first : ∃ x, H[r]? = some x ∧ mem q.head = x.slot
  leads : ∀ k x, r ≤ k → H[k]? = some x →
    mem x.slot = (H[k + 1]?.getD x).slot ∧ mem (x.slot + 1) = (H[k + 1]?.getD x).stamp
  tail : TailPast q mem H r
  value : ∀ k x, r ≤ k → H[k]? = some x → mem (x.slot + q.payload) = x.value
  distinct : ∀ (k k' : ℕ) (x x' : Entry), r ≤ k → r ≤ k' → H[k]? = some x → H[k']? = some x' → x.slot = x'.slot → k = k'
  once : ∀ (k k' : ℕ) (x x' : Entry), H[k]? = some x → H[k']? = some x' → x.stamp = x'.stamp → k = k'

variable {q mem H r k} {mem' : ℤ → ℤ} {H' : List Entry} {k' : ℕ} {x y e : Entry}

/-! ## Histories -/

theorem getElem?_of_prefix (hH : H <+: H') (hx : H[k]? = some x) : H'[k]? = some x := by
  obtain ⟨l, rfl⟩ := hH
  rw [List.getElem?_append_left (List.getElem?_eq_some_iff.1 hx).1]
  exact hx

/-- The last entry of the longer history, or one that was there. -/
theorem getElem?_append_one (hx : (H ++ [e])[k]? = some x) : H[k]? = some x ∨ k = H.length ∧ x = e := by
  rcases lt_or_ge k H.length with hk | hk
  · rw [List.getElem?_append_left hk] at hx
    exact .inl hx
  · rw [List.getElem?_append_right hk, List.getElem?_singleton] at hx
    split at hx
    · next h0 => exact .inr ⟨by omega, (Option.some.inj hx).symm⟩
    · cases hx

theorem getElem?_length : (H ++ [e])[H.length]? = some e := by
  rw [List.getElem?_append_right le_rfl, Nat.sub_self]
  rfl

theorem length_of_last (hx : H[k]? = some x) (hlast : H[k + 1]? = none) : H.length = k + 1 := by
  have h₁ := (List.getElem?_eq_some_iff.1 hx).1
  have h₂ := List.getElem?_eq_none_iff.1 hlast
  omega

/-! ## The tail word -/

theorem TailPast.mono (h : TailPast q mem H k) (hk : k' ≤ k) : TailPast q mem H k' := by
  obtain ⟨j, x, hj, hx⟩ := h
  exact ⟨j, x, hk.trans hj, hx⟩

theorem TailPast.frame (h : TailPast q mem H k) (hH : H <+: H') (htail : mem' q.tail = mem q.tail)
    (hstamp : mem' (q.tail + 1) = mem (q.tail + 1)) : TailPast q mem' H' k := by
  obtain ⟨j, x, hj, hx, hslot, hst⟩ := h
  exact ⟨j, x, hj, getElem?_of_prefix hH hx, htail.trans hslot, hstamp.trans hst⟩

/-! ## What the words say -/

theorem Laid.place (h : Laid q mem H r) (hx : H[k]? = some x) (hy : H[k']? = some y) (hs : x.stamp = y.stamp) : k = k' ∧ x = y := by
  obtain rfl := h.once k k' x y hx hy hs
  exact ⟨rfl, Option.some.inj (hx.symm.trans hy)⟩

/-- The stamp in the tail word says which entry it leads to. -/
theorem Laid.at_tail (h : Laid q mem H r) (ht : TailPast q mem H k) (hx : H[k']? = some x) (hs : mem (q.tail + 1) = x.stamp) :
    k ≤ k' ∧ r ≤ k' ∧ mem q.tail = x.slot := by
  have hplace : ∀ {m : ℕ}, TailPast q mem H m → m ≤ k' ∧ mem q.tail = x.slot := by
    rintro m ⟨j, z, hj, hz, hslot, hst⟩
    obtain ⟨rfl, rfl⟩ := h.place hz hx (hst.symm.trans hs)
    exact ⟨hj, hslot⟩
  exact ⟨(hplace ht).1, (hplace h.tail).1, (hplace ht).2⟩

/-- A tail word that leads to another node than the entry `k` is past it. -/
theorem TailPast.next (h : TailPast q mem H k) (hx : H[k]? = some x) (hne : mem q.tail ≠ x.slot ∨ mem (q.tail + 1) ≠ x.stamp) :
    TailPast q mem H (k + 1) := by
  obtain ⟨j, y, hj, hy, hslot, hst⟩ := h
  refine ⟨j, y, Nat.lt_of_le_of_ne hj ?_, hy, hslot, hst⟩
  rintro rfl
  obtain rfl := Option.some.inj (hy.symm.trans hx)
  rcases hne with hne | hne
  · exact hne hslot
  · exact hne hst

theorem Laid.leads_next (h : Laid q mem H r) (hk : r ≤ k) (hx : H[k]? = some x) (hy : H[k + 1]? = some y) :
    mem x.slot = y.slot ∧ mem (x.slot + 1) = y.stamp := by
  have hl := h.leads k x hk hx
  rwa [hy] at hl

/-- What leads to itself is the last entry, and carries its own stamp. -/
theorem Laid.last (h : Laid q mem H r) (hk : r ≤ k) (hx : H[k]? = some x) (hself : mem x.slot = x.slot) :
    H[k + 1]? = none ∧ mem (x.slot + 1) = x.stamp := by
  cases hy : H[k + 1]? with
  | none =>
    have hl := (h.leads k x hk hx).2
    rw [hy] at hl
    exact ⟨rfl, hl⟩
  | some y =>
    have hslot := (h.leads_next hk hx hy).1
    have := h.distinct k (k + 1) x y hk (by omega) hx hy (hself.symm.trans hslot)
    omega

/-- What does not lead to itself is followed by an entry. -/
theorem Laid.followed (h : Laid q mem H r) (hk : r ≤ k) (hx : H[k]? = some x) (hne : mem x.slot ≠ x.slot) :
    ∃ y, H[k + 1]? = some y := by
  cases hy : H[k + 1]? with
  | none =>
    have hl := (h.leads k x hk hx).1
    rw [hy] at hl
    exact absurd hl hne
  | some y => exact ⟨y, rfl⟩

/-! ## The steps -/

/-- Nothing happens to the queue. -/
theorem Laid.frame (h : Laid q mem H r) (hhead : mem' q.head = mem q.head) (htail : mem' q.tail = mem q.tail)
    (hstamp : mem' (q.tail + 1) = mem (q.tail + 1))
    (hwords : ∀ k x, r ≤ k → H[k]? = some x → mem' x.slot = mem x.slot ∧ mem' (x.slot + 1) = mem (x.slot + 1) ∧
      mem' (x.slot + q.payload) = mem (x.slot + q.payload)) : Laid q mem' H r := by
  refine ⟨?_, fun k x hk hx => ?_, h.tail.frame (List.prefix_refl H) htail hstamp, fun k x hk hx => ?_, h.distinct, h.once⟩
  · obtain ⟨x, hx, hslot⟩ := h.first
    exact ⟨x, hx, hhead.trans hslot⟩
  · obtain ⟨h₀, h₁, -⟩ := hwords k x hk hx
    rw [h₀, h₁]
    exact h.leads k x hk hx
  · exact (hwords k x hk hx).2.2.trans (h.value k x hk hx)

/-- The entry `e` is linked behind the last one. -/
theorem Laid.link (h : Laid q mem H r) (hk : r ≤ k) (hx : H[k]? = some x) (hlast : H[k + 1]? = none)
    (hslot : ∀ k y, r ≤ k → H[k]? = some y → y.slot ≠ e.slot) (hstamp : ∀ (k : ℕ) (y : Entry), H[k]? = some y → y.stamp ≠ e.stamp)
    (hto : mem' x.slot = e.slot ∧ mem' (x.slot + 1) = e.stamp) (he : mem' e.slot = e.slot ∧ mem' (e.slot + 1) = e.stamp)
    (hvalue : mem' (e.slot + q.payload) = e.value) (hhead : mem' q.head = mem q.head) (htail : mem' q.tail = mem q.tail)
    (htail₁ : mem' (q.tail + 1) = mem (q.tail + 1))
    (hwords : ∀ k y, r ≤ k → H[k]? = some y → (y.slot ≠ x.slot → mem' y.slot = mem y.slot ∧ mem' (y.slot + 1) = mem (y.slot + 1)) ∧
      mem' (y.slot + q.payload) = mem (y.slot + q.payload)) : Laid q mem' (H ++ [e]) r := by
  have hpre : H <+: H ++ [e] := List.prefix_append _ _
  have hlen := length_of_last hx hlast
  have hnew : (H ++ [e])[k + 1]? = some e := by
    rw [← hlen]
    exact getElem?_length
  refine ⟨?_, fun j y hj hy => ?_, h.tail.frame hpre htail htail₁, fun j y hj hy => ?_, fun j j' y y' hj hj' hy hy' hs => ?_,
    fun j j' y y' hy hy' hs => ?_⟩
  · obtain ⟨y, hy, hs⟩ := h.first
    exact ⟨y, getElem?_of_prefix hpre hy, hhead.trans hs⟩
  · rcases getElem?_append_one hy with hy | ⟨rfl, rfl⟩
    · by_cases hjk : j = k
      · subst hjk
        obtain rfl := Option.some.inj (hy.symm.trans hx)
        rw [hnew]
        exact hto
      · have hjlt : j + 1 < H.length := by
          have := (List.getElem?_eq_some_iff.1 hy).1
          omega
        obtain ⟨h₀, h₁⟩ := (hwords j y hj hy).1 fun hs => hjk (h.distinct j k y x hj hk hy hx hs)
        rw [List.getElem?_append_left hjlt, h₀, h₁]
        exact h.leads j y hj hy
    · rw [List.getElem?_eq_none (by simp)]
      exact he
  · rcases getElem?_append_one hy with hy | ⟨rfl, rfl⟩
    · exact (hwords j y hj hy).2.trans (h.value j y hj hy)
    · exact hvalue
  · rcases getElem?_append_one hy with h₁ | ⟨rfl, rfl⟩ <;> rcases getElem?_append_one hy' with h₂ | ⟨rfl, rfl⟩
    · exact h.distinct j j' y y' hj hj' h₁ h₂ hs
    · exact absurd hs (hslot j y hj h₁)
    · exact absurd hs.symm (hslot j' y' hj' h₂)
    · rfl
  · rcases getElem?_append_one hy with h₁ | ⟨rfl, rfl⟩ <;> rcases getElem?_append_one hy' with h₂ | ⟨rfl, rfl⟩
    · exact h.once j j' y y' h₁ h₂ hs
    · exact absurd hs (hstamp j y h₁)
    · exact absurd hs.symm (hstamp j' y' h₂)
    · rfl

/-- The tail word goes on to the next entry. -/
theorem Laid.swing (h : Laid q mem H r) (hk : r ≤ k) (hy : H[k + 1]? = some y) (hhead : mem' q.head = mem q.head)
    (htail : mem' q.tail = y.slot) (htail₁ : mem' (q.tail + 1) = y.stamp)
    (hwords : ∀ k x, r ≤ k → H[k]? = some x → mem' x.slot = mem x.slot ∧ mem' (x.slot + 1) = mem (x.slot + 1) ∧
      mem' (x.slot + q.payload) = mem (x.slot + q.payload)) : Laid q mem' H r := by
  refine ⟨?_, fun k x hk hx => ?_, ⟨k + 1, y, by omega, hy, htail, htail₁⟩, fun k x hk hx => ?_, h.distinct, h.once⟩
  · obtain ⟨x, hx, hslot⟩ := h.first
    exact ⟨x, hx, hhead.trans hslot⟩
  · obtain ⟨h₀, h₁, -⟩ := hwords k x hk hx
    rw [h₀, h₁]
    exact h.leads k x hk hx
  · exact (hwords k x hk hx).2.2.trans (h.value k x hk hx)

/-- The dummy is removed, and the next entry is the dummy. -/
theorem Laid.unlink (h : Laid q mem H r) (hpast : TailPast q mem H (r + 1)) (hy : H[r + 1]? = some y) (hhead : mem' q.head = y.slot)
    (htail : mem' q.tail = mem q.tail) (hstamp : mem' (q.tail + 1) = mem (q.tail + 1))
    (hwords : ∀ k x, r ≤ k → H[k]? = some x → mem' x.slot = mem x.slot ∧ mem' (x.slot + 1) = mem (x.slot + 1) ∧
      mem' (x.slot + q.payload) = mem (x.slot + q.payload)) : Laid q mem' H (r + 1) := by
  refine ⟨⟨y, hy, hhead⟩, fun k x hk hx => ?_, hpast.frame (List.prefix_refl H) htail hstamp, fun k x hk hx => ?_,
    fun k k' x x' hk hk' => h.distinct k k' x x' (by omega) (by omega), h.once⟩
  · obtain ⟨h₀, h₁, -⟩ := hwords k x (by omega) hx
    rw [h₀, h₁]
    exact h.leads k x (by omega) hx
  · exact (hwords k x (by omega) hx).2.2.trans (h.value k x (by omega) hx)

/-! ## The queue -/

/-- The entries of a queue, the dummy first, in memory. The tail word leads to one of them. -/
structure Chained (q : Place) (mem : ℤ → ℤ) (l : List Entry) : Prop where
  head : mem q.head = (l.map Entry.slot).headD 0
  linked : ∀ x, l.getLast? = some x → Linked mem x.slot (l.map Entry.slot)
  tail : ∃ x ∈ l, mem q.tail = x.slot ∧ mem (q.tail + 1) = x.stamp
  value : ∀ x ∈ l, mem (x.slot + q.payload) = x.value
  nodup : (l.map Entry.slot).Nodup

theorem linked_of_leads : ∀ {l : List Entry}, (∀ k x, l[k]? = some x → mem x.slot = (l[k + 1]?.getD x).slot) →
    ∀ z, l.getLast? = some z → Linked mem z.slot (l.map Entry.slot)
  | [], _, _, _ => trivial
  | [x], h, z, hz => by
    obtain rfl := Option.some.inj hz
    exact ⟨h 0 x rfl, trivial⟩
  | x :: y :: l, h, z, hz => by
    refine ⟨h 0 x rfl, linked_of_leads (fun k a ha => ?_) z hz⟩
    exact h (k + 1) a ha

/-- **The queue in memory** is what was linked and not taken out. -/
theorem Laid.chained (h : Laid q mem H r) : Chained q mem (H.drop r) := by
  have hget : ∀ {k : ℕ} {x : Entry}, (H.drop r)[k]? = some x ↔ H[r + k]? = some x := by
    intro k x
    rw [List.getElem?_drop]
  obtain ⟨d, hd, hhead⟩ := h.first
  have hzero : (H.drop r)[0]? = some d := hget.2 hd
  refine ⟨?_, linked_of_leads fun k x hx => ?_, ?_, fun x hx => ?_, ?_⟩
  · cases hl : H.drop r with
    | nil =>
      rw [hl] at hzero
      cases hzero
    | cons x l =>
      rw [hl] at hzero
      obtain rfl := Option.some.inj hzero
      exact hhead
  · have hleads := (h.leads (r + k) x (by omega) (hget.1 hx)).1
    rwa [List.getElem?_drop]
  · obtain ⟨j, x, hj, hx, hslot, hst⟩ := h.tail
    refine ⟨x, List.mem_of_getElem? (i := j - r) (hget.2 ?_), hslot, hst⟩
    rwa [Nat.add_sub_cancel' hj]
  · obtain ⟨k, hk⟩ := List.mem_iff_getElem?.1 hx
    exact h.value (r + k) x (by omega) (hget.1 hk)
  · refine List.nodup_iff_getElem?_ne_getElem?.2 fun i j hij hj he => ?_
    rw [List.length_map] at hj
    rw [List.getElem?_map, List.getElem?_map, List.getElem?_eq_getElem (by omega), List.getElem?_eq_getElem hj] at he
    have hi := hget.1 (List.getElem?_eq_getElem (lt_trans hij hj))
    have hj := hget.1 (List.getElem?_eq_getElem hj)
    have := h.distinct _ _ _ _ (by omega) (by omega) hi hj (Option.some.inj he)
    omega

/-- When the tail word has reached the last entry, the queue is at rest. -/
theorem Laid.queueAt (h : Laid q mem H r) (hlast : TailPast q mem H (H.length - 1)) :
    QueueAt mem q.head q.tail ((H.drop r).map Entry.slot) := by
  obtain ⟨j, x, hj, hx, hslot, hst⟩ := hlast
  have hjlt := (List.getElem?_eq_some_iff.1 hx).1
  obtain ⟨hrj, hjr⟩ : r ≤ j ∧ H[j + 1]? = none := by
    obtain ⟨i, y, hi, hy, hslot', hst'⟩ := h.tail
    obtain ⟨rfl, -⟩ := h.place hx hy (hst.symm.trans hst')
    exact ⟨hi, List.getElem?_eq_none (by omega)⟩
  have hgetLast : (H.drop r).getLast? = some x := by
    rw [List.getLast?_eq_getElem?, List.getElem?_drop, List.length_drop]
    rwa [show r + (H.length - r - 1) = j by omega]
  have hC := h.chained
  have hleads := h.leads j x hrj hx
  rw [hjr] at hleads
  refine ⟨hC.head, ?_, ?_, ?_⟩
  · rw [List.getLast?_map, hgetLast, hslot]
    rfl
  · rw [hslot]
    exact hC.linked x hgetLast
  · rw [hslot, hst]
    exact hleads.2

/-- A queue at rest has its tail word at the last entry. -/
theorem Laid.past_last (h : Laid q mem H r) (hq : QueueAt mem q.head q.tail ((H.drop r).map Entry.slot)) : TailPast q mem H (H.length - 1) := by
  obtain ⟨d, hd, -⟩ := h.first
  have hr := (List.getElem?_eq_some_iff.1 hd).1
  have hx : H[H.length - 1]? = some (H[H.length - 1]) := List.getElem?_eq_getElem (by omega)
  have hlast : (H.drop r).getLast? = some (H[H.length - 1]) := by
    rw [List.getLast?_eq_getElem?, List.getElem?_drop, List.length_drop, show r + (H.length - r - 1) = H.length - 1 by omega, hx]
  have hslot := hq.last
  rw [List.getLast?_map, hlast] at hslot
  have hslot : mem q.tail = H[H.length - 1].slot := (Option.some.inj hslot).symm
  have hleads := h.leads _ _ (by omega) hx
  rw [List.getElem?_eq_none (by omega)] at hleads
  refine ⟨_, _, le_rfl, hx, hslot, ?_⟩
  rw [← hq.stamp, hslot]
  exact hleads.2

end Fifo
