import LibShr.Conc.LockFree
import LibShr.Runs.History

/-!
# The lists from a history on

The threads of `LockFree` on an object as calls made one after another left it. The entries of a list are read from its
nodes: a node behind the dummy has the stamp that is found in the node that leads to it.

The stamp 0 has to be out of the lists, as `add_end` takes a node that is being prepared, with the words `slot` and 0, for the
end of a list. A queue that was just created is not such a state: `prime_list` gives the first node of the free
list the stamp 0. It is gone as soon as that node is.
-/

namespace LibShr

/-- What stands for the stamp of a dummy that is no longer the only node: it is found nowhere. -/
def QId.unstamped : QId → ℤ
  | .free => -1
  | .item => -2
  | .event => -3

namespace Lists

open Prog Fifo Links

/-! ## Reading the entries -/

/-- The entries of the nodes `l`, the first of which has the stamp `g`. -/
def entriesFrom (m : ℤ → ℤ) (payload g : ℤ) : List ℤ → List Entry
  | [] => []
  | x :: l => ⟨x, g, m (x + payload)⟩ :: entriesFrom m payload (m (x + 1)) l

/-- The entries of the list `i`, the dummy first. -/
def entriesAt (m : ℤ → ℤ) (i : QId) : List Entry :=
  entriesFrom m i.payload (if m i.head = m i.tail then m (m i.head + 1) else i.unstamped) (listNodes m i)

/-- The list that has an `s` among these. -/
def owner (f : QId → List ℤ) (s : ℤ) : Option QId := [QId.free, .item, .event].find? fun i => s ∈ f i

/-- The object `site`, no thread has begun. -/
def outset {Pr T : Type} (site : Site Pr) : Threads Pr T where
  world :=
    { site
      custody := fun s => (owner (listNodes site.mem) s).elim .nowhere .list
      stamps := fun g => (owner (fun i => (entriesAt site.mem i).map Entry.stamp) g).elim .unborn .link
      log := [] }
  task := fun _ => none

section
variable {m : ℤ → ℤ} {p g : ℤ} {l : List ℤ} {k : ℕ} {x y : Entry} {i j : QId} {f : QId → List ℤ} {s : ℤ}

@[simp] theorem map_slot_entriesFrom : ∀ {g : ℤ} {l : List ℤ}, (entriesFrom m p g l).map Entry.slot = l
  | _, [] => rfl
  | _, x :: _ => congrArg (x :: ·) map_slot_entriesFrom

theorem entriesFrom_value : ∀ {g : ℤ} {l : List ℤ}, ∀ x ∈ entriesFrom m p g l, m (x.slot + p) = x.value
  | _, [], _, hx => by cases hx
  | _, y :: l, x, hx => by
    rcases List.mem_cons.1 hx with rfl | hx
    · rfl
    · exact entriesFrom_value x hx

/-- The first entry has the given stamp. -/
theorem entriesFrom_zero (hx : (entriesFrom m p g l)[0]? = some x) : x.stamp = g := by
  cases l with
  | nil => cases hx
  | cons y l =>
    obtain rfl := Option.some.inj hx
    rfl

/-- An entry has the stamp of the node before. -/
theorem entriesFrom_succ : ∀ {k : ℕ} {g : ℤ} {l : List ℤ}, (entriesFrom m p g l)[k]? = some x → (entriesFrom m p g l)[k + 1]? = some y →
    m (x.slot + 1) = y.stamp
  | _, _, [], hx, _ => by cases hx
  | 0, _, z :: l, hx, hy => by
    obtain rfl := Option.some.inj hx
    exact (entriesFrom_zero (l := l) hy).symm
  | k + 1, _, _ :: l, hx, hy => entriesFrom_succ (l := l) hx hy

theorem slot_of_entry (hx : (entriesFrom m p g l)[k]? = some x) : l[k]? = some x.slot := by
  have h := congrArg (Option.map Entry.slot) hx
  rwa [← List.getElem?_map, map_slot_entriesFrom] at h

theorem entry_of_slot {s : ℤ} (hs : l[k]? = some s) : ∃ x, (entriesFrom m p g l)[k]? = some x ∧ x.slot = s := by
  rw [← map_slot_entriesFrom (m := m) (p := p) (g := g) (l := l), List.getElem?_map] at hs
  exact Option.map_eq_some_iff.1 hs

/-- Where no two of the lists have an element in common. -/
theorem owner_eq_some (hf : ∀ i j, s ∈ f i → s ∈ f j → i = j) : owner f s = some i ↔ s ∈ f i := by
  constructor
  · intro h
    simpa using List.find?_some h
  · intro h
    cases ho : owner f s with
    | none =>
      have hnone := List.find?_eq_none.1 ho i (by cases i <;> simp)
      simp [h] at hnone
    | some j => exact congrArg some (hf j i (by simpa using List.find?_some ho) h)

theorem owner_eq_none : owner f s = none ↔ ∀ i, s ∉ f i := by
  rw [owner, List.find?_eq_none]
  constructor
  · intro h i
    simpa using h i (by cases i <;> simp)
  · intro h i _
    simpa using h i

end

/-! ## The lists of a history -/

section
variable {Pr T : Type} {w : World} {H : Heap} {Q : Queue} {i j : QId} {k k' : ℕ} {x y : Entry}

theorem entriesAt_eq (hS : Sim w H Q) (i : QId) : ∃ g, entriesAt w.mem i = entriesFrom w.mem i.payload g (H.queue i) ∧
    (g = i.unstamped ∧ (∀ d, H.queue i ≠ [d]) ∨ ∃ d, H.queue i = [d] ∧ g = w.mem (d + 1)) := by
  have hq := hS.inv.rep.queue i
  have hone := hq.head_eq_tail (hS.inv.wf.queue_nodup i)
  rw [entriesAt, hS.listNodes]
  split
  · next he =>
    obtain ⟨d, hd⟩ := hone.1 he
    refine ⟨_, rfl, .inr ⟨d, hd, ?_⟩⟩
    rw [hq.head, hd]
    rfl
  · next hne => exact ⟨_, rfl, .inl ⟨rfl, fun d hd => hne (hone.2 ⟨d, hd⟩)⟩⟩

theorem slot_at (hS : Sim w H Q) (hx : (entriesAt w.mem i)[k]? = some x) : (H.queue i)[k]? = some x.slot := by
  obtain ⟨g, he, -⟩ := entriesAt_eq hS i
  rw [he] at hx
  exact slot_of_entry hx

theorem entry_at (hS : Sim w H Q) {s : ℤ} (hs : (H.queue i)[k]? = some s) : ∃ x, (entriesAt w.mem i)[k]? = some x ∧ x.slot = s := by
  obtain ⟨g, he, -⟩ := entriesAt_eq hS i
  rw [he]
  exact entry_of_slot hs

theorem mem_of_entry (hS : Sim w H Q) (hx : (entriesAt w.mem i)[k]? = some x) : x.slot ∈ H.queue i :=
  List.mem_of_getElem? (slot_at hS hx)

/-- An entry has the stamp of a node that leads to it, unless it is a dummy and no node does. -/
theorem entry_stamp (hS : Sim w H Q) (hx : (entriesAt w.mem i)[k]? = some x) :
    k = 0 ∧ x.stamp = i.unstamped ∧ (∀ d, H.queue i ≠ [d]) ∨
      ∃ z ∈ H.queue i, w.mem z = x.slot ∧ w.mem (z + 1) = x.stamp := by
  have hq := hS.inv.rep.queue i
  obtain ⟨g, he, hg⟩ := entriesAt_eq hS i
  cases k with
  | zero =>
    have hst : x.stamp = g := entriesFrom_zero (he ▸ hx)
    rcases hg with ⟨rfl, hne⟩ | ⟨d, hd, rfl⟩
    · exact .inl ⟨rfl, hst, hne⟩
    · have hslot := slot_at hS hx
      have hself := hq.self
      have hlast := hq.last
      rw [hd] at hslot hlast
      obtain rfl : d = x.slot := Option.some.inj hslot
      have htail : x.slot = w.mem i.tail := Option.some.inj hlast
      refine .inr ⟨x.slot, by rw [hd]; exact List.mem_singleton_self _, ?_, hst.symm⟩
      rw [htail]
      exact hself
  | succ j =>
    have hlt := (List.getElem?_eq_some_iff.1 hx).1
    obtain ⟨z, hz⟩ : ∃ z, (entriesAt w.mem i)[j]? = some z := ⟨_, List.getElem?_eq_getElem (by omega)⟩
    refine .inr ⟨z.slot, mem_of_entry hS hz, hq.linked.next (slot_at hS hz) (slot_at hS hx), ?_⟩
    rw [he] at hz hx
    exact entriesFrom_succ hz hx

/-- A node leads to the next one and carries its stamp, the last one leads to itself. -/
theorem entry_leads (hS : Sim w H Q) (hx : (entriesAt w.mem i)[k]? = some x) :
    w.mem x.slot = ((entriesAt w.mem i)[k + 1]?.getD x).slot ∧ w.mem (x.slot + 1) = ((entriesAt w.mem i)[k + 1]?.getD x).stamp := by
  have hq := hS.inv.rep.queue i
  cases hy : (entriesAt w.mem i)[k + 1]? with
  | some y =>
    refine ⟨hq.linked.next (slot_at hS hx) (slot_at hS hy), ?_⟩
    obtain ⟨g, he, -⟩ := entriesAt_eq hS i
    rw [he] at hx hy
    exact entriesFrom_succ hx hy
  | none =>
    have hnone : (H.queue i)[k + 1]? = none := by
      by_contra hne
      obtain ⟨s, hs⟩ := Option.ne_none_iff_exists'.1 hne
      obtain ⟨y, hy', -⟩ := entry_at hS hs
      rw [hy] at hy'
      cases hy'
    have hlen : (H.queue i).length = k + 1 := by
      have h₁ := (List.getElem?_eq_some_iff.1 (slot_at hS hx)).1
      have h₂ := List.getElem?_eq_none_iff.1 hnone
      omega
    have hlast : x.slot = w.mem i.tail := by
      have hl := hq.last
      rw [List.getLast?_eq_getElem?, hlen, Nat.add_sub_cancel, slot_at hS hx] at hl
      exact Option.some.inj hl
    have hself : w.mem x.slot = x.slot := by
      rw [hlast]
      exact hq.self
    refine ⟨hself, ?_⟩
    rcases entry_stamp hS hx with ⟨rfl, -, hne⟩ | ⟨z, hz, hnext, hst⟩
    · obtain ⟨d, hd⟩ := List.length_eq_one_iff.1 hlen
      exact absurd hd (hne d)
    · exact ((hS.inv.rep.numbered.leads _ _ ⟨i, mem_of_entry hS hx⟩ ⟨i, hz⟩).1 (hself.trans hnext.symm)).trans hst

/-- Entries with the same stamp are the same. -/
theorem entry_once (hS : Sim w H Q) (hx : (entriesAt w.mem i)[k]? = some x) (hy : (entriesAt w.mem j)[k']? = some y)
    (hxy : x.stamp = y.stamp) : i = j ∧ k = k' := by
  have hnum := hS.inv.rep.numbered
  have hneg : ∀ q : QId, q.unstamped < 0 := fun q => by cases q <;> decide
  rcases entry_stamp hS hx with ⟨rfl, hst, -⟩ | ⟨z, hz, hnext, hst⟩ <;>
    rcases entry_stamp hS hy with ⟨rfl, hst', -⟩ | ⟨z', hz', hnext', hst'⟩
  · rw [hst, hst'] at hxy
    refine ⟨?_, rfl⟩
    cases i <;> cases j <;> first | rfl | exact absurd hxy (by decide)
  · have := hneg i
    have := hnum.given z' ⟨j, hz'⟩
    omega
  · have := hneg j
    have := hnum.given z ⟨i, hz⟩
    omega
  · have hslot : x.slot = y.slot := hnext.symm.trans (((hnum.leads z z' ⟨i, hz⟩ ⟨j, hz'⟩).2 (hst.trans (hxy.trans hst'.symm))).trans hnext')
    have hxi := slot_at hS hx
    have hyj := slot_at hS hy
    rw [hslot] at hxi
    obtain rfl : i = j := by
      by_contra hij
      exact hS.inv.wf.queue_ne hij (List.mem_of_getElem? hxi) (List.mem_of_getElem? hyj) rfl
    exact ⟨rfl, (List.getElem?_inj (List.getElem?_eq_some_iff.1 hxi).1 (hS.inv.wf.queue_nodup i)).1 (hxi.trans hyj.symm)⟩

/-- The memory holds the entries. -/
theorem entries_laid (hS : Sim w H Q) (i : QId) : Laid i.place w.mem (entriesAt w.mem i) 0 := by
  have hq := hS.inv.rep.queue i
  refine ⟨?_, fun k x _ hx => entry_leads hS hx, ?_, fun k x _ hx => ?_, fun k k' x y _ _ hx hy he => ?_,
    fun k k' x y hx hy he => (entry_once hS hx hy he).2⟩
  · cases hl : H.queue i with
    | nil => exact absurd hl hq.ne_nil
    | cons d l =>
      obtain ⟨x, hx, hd⟩ := entry_at (k := 0) (s := d) hS (by rw [hl]; rfl)
      refine ⟨x, hx, ?_⟩
      rw [hd, show w.mem i.head = _ from hq.head, hl]
      rfl
  · have hlast := hq.last
    rw [List.getLast?_eq_getElem?] at hlast
    obtain ⟨x, hx, hs⟩ := entry_at hS hlast
    have hnone : (entriesAt w.mem i)[(H.queue i).length - 1 + 1]? = none := by
      by_contra hne
      obtain ⟨y, hy⟩ := Option.ne_none_iff_exists'.1 hne
      have := (List.getElem?_eq_some_iff.1 (slot_at hS hy)).1
      omega
    have hst := (entry_leads hS hx).2
    rw [hnone, Option.getD_none, hs, hq.stamp] at hst
    exact ⟨_, x, Nat.zero_le _, hx, hs.symm, hst⟩
  · obtain ⟨g, he, -⟩ := entriesAt_eq hS i
    rw [he] at hx
    exact entriesFrom_value x (List.mem_of_getElem? hx)
  · have hxi := slot_at hS hx
    rw [he] at hxi
    exact (List.getElem?_inj (List.getElem?_eq_some_iff.1 hxi).1 (hS.inv.wf.queue_nodup i)).1 (hxi.trans (slot_at hS hy).symm)

variable {site : Site Pr} {s g : ℤ} {t : T}

theorem nodes_apart (hS : Sim w H Q) : ∀ i j, s ∈ listNodes w.mem i → s ∈ listNodes w.mem j → i = j := by
  intro i j hi hj
  rw [hS.listNodes] at hi hj
  by_contra hij
  exact hS.inv.wf.queue_ne hij hi hj rfl

theorem stamps_apart (hS : Sim w H Q) :
    ∀ i j, g ∈ (entriesAt w.mem i).map Entry.stamp → g ∈ (entriesAt w.mem j).map Entry.stamp → i = j := by
  intro i j hi hj
  obtain ⟨x, hx, rfl⟩ := List.mem_map.1 hi
  obtain ⟨y, hy, hxy⟩ := List.mem_map.1 hj
  obtain ⟨k, hk⟩ := List.mem_iff_getElem?.1 hx
  obtain ⟨k', hk'⟩ := List.mem_iff_getElem?.1 hy
  exact (entry_once hS hk hk' hxy.symm).1

/-- A stamp was given out and is not 0, or it stands for one that is gone. -/
theorem stamp_bounds (hS : Sim w H Q) (hz : ∀ i, ∀ n ∈ listNodes w.mem i, w.mem (n + 1) ≠ 0)
    (hg : g ∈ (entriesAt w.mem i).map Entry.stamp) : g ≠ 0 ∧ g < w.mem ID_CNTR := by
  have hnum := hS.inv.rep.numbered
  obtain ⟨x, hx, rfl⟩ := List.mem_map.1 hg
  obtain ⟨k, hk⟩ := List.mem_iff_getElem?.1 hx
  rcases entry_stamp hS hk with ⟨-, hst, -⟩ | ⟨z, hzq, -, hst⟩
  · have hneg : i.unstamped < 0 := by cases i <;> decide
    have := hnum.given x.slot ⟨i, mem_of_entry hS hk⟩
    omega
  · have := hnum.given z ⟨i, hzq⟩
    have := hz i z (by rwa [hS.listNodes])
    omega

theorem outset_custody (hS : Sim w H Q) (hsite : site.mem = w.mem) :
    (outset site : Threads Pr T).world.custody s = .list i ↔ s ∈ H.queue i := by
  rw [← hS.listNodes, ← owner_eq_some (nodes_apart hS), outset, hsite]
  cases ho : owner (listNodes w.mem) s <;> simp [ho]

theorem outset_node (hS : Sim w H Q) (hsite : site.mem = w.mem) (hs : (outset site : Threads Pr T).world.custody s ≠ .nowhere) :
    ∃ i, s ∈ H.queue i := by
  rw [outset, hsite] at hs
  cases ho : owner (listNodes w.mem) s with
  | none => simp [ho] at hs
  | some i =>
    refine ⟨i, ?_⟩
    rw [← hS.listNodes]
    exact (owner_eq_some (nodes_apart hS)).1 ho

theorem outset_hand (hS : Sim w H Q) (hsite : site.mem = w.mem) : (outset site : Threads Pr T).world.custody s ≠ .hand t := by
  intro hs
  obtain ⟨i, hi⟩ := outset_node hS hsite (by rw [hs]; simp)
  rw [(outset_custody hS hsite).2 hi] at hs
  cases hs

theorem outset_stamped (hS : Sim w H Q) (hsite : site.mem = w.mem) (hg : g ∈ (entriesAt w.mem i).map Entry.stamp) :
    (outset site : Threads Pr T).world.stamps g = .link i := by
  have ho : owner (fun i => (entriesAt w.mem i).map Entry.stamp) g = some i := (owner_eq_some (stamps_apart hS)).2 hg
  simp only [outset, hsite, ho, Option.elim_some]

theorem outset_unborn (hsite : site.mem = w.mem) (hg : ∀ i, g ∉ (entriesAt w.mem i).map Entry.stamp) :
    (outset site : Threads Pr T).world.stamps g = .unborn := by
  have ho : owner (fun i => (entriesAt w.mem i).map Entry.stamp) g = none := owner_eq_none.2 hg
  simp only [outset, hsite, ho, Option.elim_none]

/-- **Where a history ends, threads may begin**, if no node of a list carries the stamp 0. -/
theorem outset_start (hS : Sim w H Q) (hz : ∀ i, ∀ n ∈ listNodes w.mem i, w.mem (n + 1) ≠ 0) (hsite : site.mem = w.mem) :
    Start (entriesAt w.mem) (outset site : Threads Pr T) := by
  have hmem : (outset site : Threads Pr T).world.mem = w.mem := hsite
  have halloc : w.mem DATA_ALLOC = H.alloc := hS.inv.rep.alloc
  have hhist : ∀ i, (outset site : Threads Pr T).world.history (entriesAt w.mem) i = entriesAt w.mem i := fun _ => List.append_nil _
  have hlaid : ∀ i, (entriesAt w.mem i).map Entry.slot = H.queue i := fun i => by
    obtain ⟨g, he, -⟩ := entriesAt_eq hS i
    rw [he, map_slot_entriesFrom]
  refine ⟨fun _ => rfl, rfl, ⟨⟨fun s hs => ?_, fun s s' hs hs' hne => ?_, ?_, fun a ha => ?_, fun g hg => ?_, ?_, ?_⟩,
    fun i => ⟨?_, fun s => ?_, fun k x hx => ?_, rfl⟩, fun t s g h => absurd h.1 (outset_hand hS hsite),
    fun t s s' g h => absurd h.1 (outset_hand hS hsite)⟩, fun i => ?_⟩
  · obtain ⟨i, hi⟩ := outset_node hS hsite hs
    have := hS.inv.wf.node_bounds (Heap.Wf.queue_mem hi)
    rw [hmem, halloc]
    simp only [HDR_END]
    omega
  · obtain ⟨i, hi⟩ := outset_node hS hsite hs
    obtain ⟨j, hj⟩ := outset_node hS hsite hs'
    exact hS.inv.wf.node_sep (Heap.Wf.queue_mem hi) (Heap.Wf.queue_mem hj) hne
  · rw [hmem, halloc]
    exact hS.inv.wf.alloc_ge
  · rw [hmem, halloc] at ha
    rw [hmem]
    exact hS.zero a ha
  · rw [hmem] at hg
    exact outset_unborn hsite fun i hi => absurd (stamp_bounds hS hz hi).2 (not_lt.2 hg)
  · have := hS.inv.rep.numbered.given _ ⟨.item, (hS.inv.rep.queue .item).tail_mem⟩
    rw [hmem]
    omega
  · exact outset_unborn hsite fun i hi => (stamp_bounds hS hz hi).1 rfl
  · rw [hhist, hmem]
    exact entries_laid hS i
  · rw [outset_custody hS hsite, hhist, ← hlaid, List.mem_map]
    constructor
    · rintro ⟨x, hx, rfl⟩
      obtain ⟨k, hk⟩ := List.mem_iff_getElem?.1 hx
      exact ⟨k, x, Nat.zero_le _, hk, rfl⟩
    · rintro ⟨k, x, -, hk, rfl⟩
      exact ⟨x, List.mem_of_getElem? hk, rfl⟩
  · rw [hhist] at hx
    exact outset_stamped hS hsite (List.mem_map_of_mem (List.mem_of_getElem? hx))
  · rw [hmem, hlaid]
    exact hS.inv.rep.queue i

/-- A queue that was just created is not such a state. -/
example : ((eval seq 400 (initQueue 4) World.fresh).map fun r => (listNodes r.2.mem .free).map fun n => r.2.mem (n + 1)) = some [0] := by
  decide +kernel

/-! ## Runs -/

variable [DecidableEq Pr] [DecidableEq T] {depth : ℤ} {w₀ : World} {es : List Made} {proc : T → Pr} {S : Threads Pr T} {ls : List (T × Move Call)}

/-- **The lists.** From the state that any calls made one after another left, if no node of a list carries the stamp 0 there: in every run,
the entries of each list are taken out in the order of their links, each at most once; behind
its dummy the list has in memory exactly the entries that are left, with their payloads, from the head word to an entry that
leads to itself, and its tail word leads to one of them, to the last one when no call is in progress. Nodes of different
lists do not meet, and no stamp is that of two links. A call that has returned has done to the lists what its answer
tells, and no more. -/
theorem lists_whole (hw : Created depth w₀) (h : Trace Ran w₀ es w) (hz : ∀ i, ∀ n ∈ listNodes w.mem i, w.mem (n + 1) ≠ 0)
    (hsite : site.mem = w.mem) (hs : Trace (Step proc) (outset site) ls S) :
    (∀ i : QId, (entriesAt w.mem i).tail ++ S.world.links i = S.world.unlinks i ++ (S.world.entries (entriesAt w.mem) i).tail ∧
      Chained i.place S.world.mem (S.world.entries (entriesAt w.mem) i) ∧
      ((∀ t, S.task t = none) → QueueAt S.world.mem i.head i.tail ((S.world.entries (entriesAt w.mem) i).map Entry.slot))) ∧
    (∀ i j, i ≠ j → ∀ x ∈ S.world.entries (entriesAt w.mem) i, ∀ y ∈ S.world.entries (entriesAt w.mem) j,
      x.slot + 4 ≤ y.slot ∨ y.slot + 4 ≤ x.slot) ∧
    (∀ i j, ∀ x ∈ entriesAt w.mem i ++ S.world.links i, ∀ y ∈ entriesAt w.mem j ++ S.world.links j,
      x.stamp = y.stamp → i = j ∧ x = y) ∧
    ∀ t a, S.result t = some a → Tells (S.world.deeds t) a := by
  obtain ⟨Q, ⟨H, hS⟩, -⟩ := hw.reaches h
  exact (outset_start hS hz hsite).whole hs

end

/-! ## Two threads -/

/-- A process that may read and write, on the object a history left. -/
def oneProcess (w : World) : Site Unit := ⟨w.mem, w.sem, w.ext.length, fun _ => (Caller.page ⟨.readwrite⟩ fun _ => ⟨0, 0⟩).enter w⟩

/-- A byte is added and taken, and another one added. -/
def turnedOver : List LibShr.Call := [.putByte 65, .pull, .putByte 66]

def begun (t : Bool) (c : Call) (steps : ℕ) : List (Bool × Move Call) := (t, .call c) :: List.replicate steps (t, .op)

/-- Thread `false` links an item. Before it moves the tail, thread `true` does that and is about to link its own; then `false` finds the tail
moved, returns, and takes out the item that was there, and `true` goes on. -/
def overtaken : List (Bool × Move Call) :=
  begun false (.addItem 555) 30 ++ begun true (.addItem 777) 39 ++ [(false, .op), (false, .ret)] ++ begun false .removeItem 38 ++
    List.replicate 2 (true, .op)

theorem lists_whole_overtaken : ∃ w₀ es w S, Created 4 w₀ ∧ Trace Ran w₀ es w ∧ es.map Made.call = turnedOver ∧
    Trace (Step fun _ => ()) (outset (oneProcess w)) overtaken S ∧ S.result false = some (.item 176) ∧ S.result true = some (.node 192) ∧
    Tells (S.world.deeds false) (.item 176) ∧ Tells (S.world.deeds true) (.node 192) ∧ (S.world.links .item).map Entry.value = [555, 777] ∧
    (entriesAt w.mem .item).tail ++ S.world.links .item = S.world.unlinks .item ++ (S.world.entries (entriesAt w.mem) .item).tail := by
  have hrun : ((eval seq 400 (initQueue 4) World.fresh).bind fun r => (r.2.plays (fun _ => ⟨0, 0⟩) turnedOver).bind fun w =>
      (overtaken.foldlM (Pool.step (stage fun _ => ()) text) (outset (oneProcess w))).map fun S => (r.1,
        [QId.free, .item, .event].all fun i => (listNodes w.mem i).all fun n => w.mem (n + 1) ≠ 0,
        S.result false, S.result true, (S.world.links .item).map Entry.value)) =
      some (.ok, true, some (.item 176), some (.node 192), [555, 777]) := by
    decide +kernel
  obtain ⟨⟨st, w₀⟩, he, hrest⟩ := Option.bind_eq_some_iff.1 hrun
  obtain ⟨w, hplays, hrest⟩ := Option.bind_eq_some_iff.1 hrest
  obtain ⟨S, hS, hends⟩ := Option.map_eq_some_iff.1 hrest
  simp only [Prod.mk.injEq] at hends
  obtain ⟨rfl, hstamps, hitem, hnode, hvalues⟩ := hends
  have hw : Created 4 w₀ := ⟨World.fresh, World.fresh_fresh, fun _ => rfl, runs_of_eval seq he⟩
  obtain ⟨ids, clock, hR⟩ := hw.represents
  have hvalid : ∀ c ∈ turnedOver, c.Valid := by
    simp only [turnedOver, List.forall_mem_cons]
    exact ⟨LibShr.Call.putByte_valid 65, trivial, LibShr.Call.putByte_valid 66, by simp⟩
  obtain ⟨es, hes, hcs⟩ := hR.plays hvalid hplays
  have hz : ∀ i, ∀ n ∈ listNodes w.mem i, w.mem (n + 1) ≠ 0 := by
    intro i n hn
    have hi := List.all_eq_true.1 hstamps i (by cases i <;> simp)
    simpa using List.all_eq_true.1 hi n hn
  have ht : Trace (Step fun _ => ()) (outset (oneProcess w)) overtaken S := Trace.of_foldlM (fun _ _ _ h => h) hS
  obtain ⟨hlists, -, -, htells⟩ := lists_whole hw hes hz rfl ht
  exact ⟨w₀, es, w, S, hw, hes, hcs, ht, hitem, hnode, htells false _ hitem, htells true _ hnode, hvalues, (hlists .item).1⟩

end Lists

end LibShr
