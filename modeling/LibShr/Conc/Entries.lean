import LibShr.Conc.Lists
import LibShr.Seq.Rules

/-!
# The entries of the lists

Of every list the entries that were ever linked are known, in their order, and how many of them were taken
out. An entry keeps its place, so what a thread has read of the entry at a place stays true as long as that
entry is not removed; and a stamp says which place was read. The stamp 0 stands for no link: it is what is
found in a node that is being prepared.

The tail word of a list is at the last entry or at the one before it, and then a thread that has linked the
last entry has still to move it.
-/

namespace LibShr.Lists

open Prog Fifo

/-! ## What holds at any time -/

/-- What a thread knows: it has a node; it has stored `v` in a node it has; it has a stamp; none of its nodes leads to
itself with that stamp; `slot` is a node; the tail of the list `i` had the stamp `h`; the entry `slot` with the stamp `h` is followed by one with `f` equal to `v`; the head of
the list had the counter `c`; the tail is beyond the dummy `ref` of the counter `c`; that dummy is followed by an entry
with `f` equal to `v`; what it has done in its call; it has no tail to move; the tail it has to move is at this entry. -/
inductive Fact
  | hand (slot : ℤ)
  | word (slot off v : ℤ)
  | stamp (g : ℤ)
  | fresh (g : ℤ)
  | node (slot : ℤ)
  | tail (i : QId) (h : ℤ)
  | follow (i : QId) (slot h : ℤ) (f : Entry → ℤ) (v : ℤ)
  | count (i : QId) (c : ℤ)
  | beyond (i : QId) (c ref : ℤ)
  | glance (i : QId) (c ref : ℤ) (f : Entry → ℤ) (v : ℤ)
  | did (l : List Deed)
  | prompt
  | owes (i : QId) (slot h : ℤ)

section
variable {Pr T : Type} (start : QId → List Entry) (w : Yard Pr T) (i : QId)

/-- All entries of the list so far: those it started with, the dummy first, and those linked since. -/
def Yard.history : List Entry := start i ++ w.links i

/-- The place of the dummy. -/
def Yard.taken : ℕ := (w.unlinks i).length

/-- The tail word is at the entry `k`, or past it. -/
abbrev Yard.Past (k : ℕ) : Prop := TailPast i.place w.mem (w.history start i) k

/-- The list `i` is whole. -/
structure Holding : Prop where
  laid : Laid i.place w.mem (w.history start i) (w.taken i)
  custody : ∀ s, w.custody s = .list i ↔ ∃ k x, w.taken i ≤ k ∧ (w.history start i)[k]? = some x ∧ x.slot = s
  stamped : ∀ (k : ℕ) (x : Entry), (w.history start i)[k]? = some x → w.stamps x.stamp = .link i
  out : w.unlinks i = ((w.history start i).drop 1).take (w.taken i)

/-- The nodes lie below `DATA_ALLOC` and do not meet, what lies above is 0, and the stamps to come are not given out. -/
structure Ground : Prop where
  room : ∀ s, w.custody s ≠ .nowhere → HDR_END ≤ s ∧ s + 4 ≤ w.mem DATA_ALLOC
  apart : ∀ s s', w.custody s ≠ .nowhere → w.custody s' ≠ .nowhere → s ≠ s' → s + 4 ≤ s' ∨ s' + 4 ≤ s
  alloc : HDR_END ≤ w.mem DATA_ALLOC
  blank : ∀ a, w.mem DATA_ALLOC ≤ a → w.mem a = 0
  unborn : ∀ g, w.mem ID_CNTR ≤ g → w.stamps g = .unborn
  positive : 0 < w.mem ID_CNTR
  zero : w.stamps 0 = .unborn

/-- The node `s`, in the hands of `t`, leads to itself and carries the stamp `g`. -/
def Yard.Signed (t : T) (s g : ℤ) : Prop := w.custody s = .hand t ∧ w.mem s = s ∧ w.mem (s + 1) = g

/-- The lists are whole, and a node that leads to itself and is in no list carries no stamp, or one that is in the same
hands and that no other node carries. -/
structure Sound : Prop extends Ground w where
  holding : ∀ i, Holding start w i
  signed : ∀ t s g, w.Signed t s g → g ≠ 0 → w.stamps g = .hand t
  single : ∀ t s s' g, w.Signed t s g → w.Signed t s' g → g ≠ 0 → s = s'

/-- The tail of the list `i` is at the last entry, or at the one before and a thread has to move it. -/
def Behind (ν : T → List Fact) : Prop :=
  w.Past start i ((w.history start i).length - 1) ∨
    w.Past start i ((w.history start i).length - 2) ∧ ∃ t, Fact.prompt ∉ ν t ∧
      ∀ j s h, .owes j s h ∈ ν t → j = i ∧ ∃ x, (w.history start i)[(w.history start i).length - 2]? = some x ∧ x.slot = s ∧ x.stamp = h

variable [DecidableEq T]

def Fact.Holds (t : T) : Fact → Prop
  | .hand s => w.custody s = .hand t
  | .word s off v => w.custody s = .hand t ∧ (0 ≤ off ∧ off < 4) ∧ w.mem (s + off) = v
  | .stamp g => w.stamps g = .hand t
  | .fresh g => g ≠ 0 ∧ ∀ s, ¬ w.Signed t s g
  | .node s => w.custody s ≠ .nowhere
  | .tail i h => ∃ k x, (w.history start i)[k]? = some x ∧ x.stamp = h ∧ w.Past start i k
  | .follow i s h f v => ∃ k x, (w.history start i)[k]? = some x ∧ x.stamp = h ∧
      (x.slot = s → w.taken i ≤ k → ∃ y, (w.history start i)[k + 1]? = some y ∧ f y = v)
  | .count i c => c ≤ w.mem (i.head + 1)
  | .beyond i c ref => c ≤ w.mem (i.head + 1) ∧
      (w.mem (i.head + 1) = c → w.mem i.head = ref → w.Past start i (w.taken i + 1))
  | .glance i c ref f v => c ≤ w.mem (i.head + 1) ∧
      (w.mem (i.head + 1) = c → w.mem i.head = ref → ∃ y, (w.history start i)[w.taken i + 1]? = some y ∧ f y = v)
  | .did l => w.deeds t = l
  | .prompt => True
  | .owes .. => True

structure Inv (ν : T → List Fact) : Prop extends Sound start w where
  known : ∀ t, ∀ f ∈ ν t, f.Holds start w t
  behind : ∀ i, Behind start w i ν

/-- What a step of `t` from `w` to `w'` is for the other threads. -/
structure Aside (w' : Yard Pr T) (t : T) : Prop where
  hand : ∀ u s, u ≠ t → (w'.custody s = .hand u ↔ w.custody s = .hand u)
  words : ∀ u s off, u ≠ t → w.custody s = .hand u → 0 ≤ off ∧ off < 4 → w'.mem (s + off) = w.mem (s + off)
  stamp : ∀ u g, u ≠ t → w.stamps g = .hand u → w'.stamps g = .hand u
  node : ∀ s, w.custody s ≠ .nowhere → w'.custody s ≠ .nowhere
  history : ∀ i, w.history start i <+: w'.history start i
  taken : ∀ i, w.taken i ≤ w'.taken i
  past : ∀ i k, w.Past start i k → w'.Past start i k
  head : ∀ i : QId, w.mem (i.head + 1) < w'.mem (i.head + 1) ∨
    w'.mem (i.head + 1) = w.mem (i.head + 1) ∧ w'.mem i.head = w.mem i.head ∧ w'.taken i = w.taken i
  deeds : ∀ u, u ≠ t → w'.deeds u = w.deeds u

end

section
variable {Pr T : Type} {start : QId → List Entry} {w w' : Yard Pr T} {ν : T → List Fact} {t u : T} {f : Fact} {n : List Fact}
  {i j : QId} {k : ℕ} {x y : Entry} {s s' off off' v g h a c ref : ℤ} {d : Deed} {site : Site Pr}

/-! ### Words of the header -/

theorem QId.bounds (i : QId) : 3 < i.head ∧ i.head + 1 < HDR_END ∧ i.head ≠ DATA_ALLOC ∧ i.head + 1 ≠ DATA_ALLOC ∧
    i.head ≠ ID_CNTR ∧ i.head + 1 ≠ ID_CNTR ∧ 3 < i.tail ∧ i.tail + 1 < HDR_END ∧ i.tail ≠ DATA_ALLOC ∧ i.tail + 1 ≠ DATA_ALLOC ∧
    i.tail ≠ ID_CNTR ∧ i.tail + 1 ≠ ID_CNTR ∧ 2 ≤ i.payload ∧ i.payload < 4 := by
  cases i <;> decide

theorem QId.head_ne_tail (i j : QId) : i.head ≠ j.tail ∧ i.head ≠ j.tail + 1 ∧ i.head + 1 ≠ j.tail ∧ i.head + 1 ≠ j.tail + 1 := by
  cases i <;> cases j <;> decide

theorem QId.tail_ne (hij : i ≠ j) : i.tail ≠ j.tail ∧ i.tail ≠ j.tail + 1 ∧ i.tail + 1 ≠ j.tail ∧ i.tail + 1 ≠ j.tail + 1 := by
  cases i <;> cases j <;> first | exact absurd rfl hij | decide

theorem QId.head_ne (hij : i ≠ j) : i.head ≠ j.head ∧ i.head ≠ j.head + 1 ∧ i.head + 1 ≠ j.head ∧ i.head + 1 ≠ j.head + 1 := by
  cases i <;> cases j <;> first | exact absurd rfl hij | decide

@[simp] theorem ofTail_tail (i : QId) : ofTail i.tail = i := by cases i <;> rfl

@[simp] theorem ofHead_head (i : QId) : ofHead i.head = i := by cases i <;> rfl

/-! ### Separation -/

/-- A node does not meet the header. -/
theorem Ground.header_ne (hG : Ground w) (hs : w.custody s ≠ .nowhere) (ho : 0 ≤ off) (ha : a < HDR_END) : s + off ≠ a := by
  have := (hG.room s hs).1
  omega

theorem Ground.below (hG : Ground w) (hs : w.custody s ≠ .nowhere) (ho : off < 4) : s + off < w.mem DATA_ALLOC := by
  have := (hG.room s hs).2
  omega

theorem Ground.word_ne (hG : Ground w) (hs : w.custody s ≠ .nowhere) (hs' : w.custody s' ≠ .nowhere) (hne : s ≠ s')
    (ho : 0 ≤ off ∧ off < 4) (ho' : 0 ≤ off' ∧ off' < 4) : s + off ≠ s' + off' := by
  have := hG.apart s s' hs hs' hne
  omega

theorem Ground.same (hG : Ground w) (hcustody : ∀ s, w'.custody s ≠ .nowhere → w.custody s ≠ .nowhere)
    (halloc : w'.mem DATA_ALLOC = w.mem DATA_ALLOC) (hids : w'.mem ID_CNTR = w.mem ID_CNTR)
    (hblank : ∀ a, w.mem DATA_ALLOC ≤ a → w'.mem a = w.mem a) (hstamps : ∀ g, w.stamps g = .unborn → w'.stamps g = .unborn) :
    Ground w' := by
  refine ⟨fun s hs => ?_, fun s s' hs hs' => hG.apart s s' (hcustody s hs) (hcustody s' hs'), ?_, fun a ha => ?_, fun g hg => ?_, ?_,
    hstamps 0 hG.zero⟩
  · rw [halloc]
    exact hG.room s (hcustody s hs)
  · rw [halloc]
    exact hG.alloc
  · rw [halloc] at ha
    rw [hblank a ha]
    exact hG.blank a ha
  · rw [hids] at hg
    exact hstamps g (hG.unborn g hg)
  · rw [hids]
    exact hG.positive

/-- An entry that was not taken out is in the list. -/
theorem Holding.inside (hH : Holding start w i) (hk : w.taken i ≤ k) (hx : (w.history start i)[k]? = some x) : w.custody x.slot = .list i :=
  (hH.custody _).2 ⟨k, x, hk, hx, rfl⟩

theorem nowhere_of_hand {z : Custody T} (h : w.custody s = z) (hz : z ≠ .nowhere) : w.custody s ≠ .nowhere := by rwa [h]

/-! ### Facts stay true -/

variable [DecidableEq T]

/-- What a thread knows of the lists stays true whoever moves. -/
def Fact.Shared : Fact → Prop
  | .hand _ | .word .. | .stamp _ | .fresh _ | .did _ => False
  | _ => True

theorem Fact.Holds.lasting (hA : Aside start w w' t) (hs : f.Shared) (hf : f.Holds start w u) : f.Holds start w' u := by
  cases f with
  | hand s => exact hs.elim
  | word s off v => exact hs.elim
  | stamp g => exact hs.elim
  | fresh g => exact hs.elim
  | did l => exact hs.elim
  | node s => exact hA.node s hf
  | tail i h =>
    obtain ⟨k, x, hx, hst, htail⟩ := hf
    exact ⟨k, x, getElem?_of_prefix (hA.history i) hx, hst, hA.past i k htail⟩
  | follow i s h f v =>
    obtain ⟨k, x, hx, hst, hnext⟩ := hf
    refine ⟨k, x, getElem?_of_prefix (hA.history i) hx, hst, fun hslot hk => ?_⟩
    obtain ⟨y, hy, hv⟩ := hnext hslot ((hA.taken i).trans hk)
    exact ⟨y, getElem?_of_prefix (hA.history i) hy, hv⟩
  | count i c =>
    have hc : c ≤ w.mem (i.head + 1) := hf
    show c ≤ w'.mem (i.head + 1)
    rcases hA.head i with hlt | ⟨he, -⟩ <;> omega
  | beyond i c ref =>
    obtain ⟨hc, hb⟩ := hf
    rcases hA.head i with hlt | ⟨he, hhead, htaken⟩
    · exact ⟨by omega, fun h => absurd h (by omega)⟩
    · rw [Fact.Holds, he, hhead, htaken]
      exact ⟨hc, fun h₁ h₂ => hA.past i _ (hb h₁ h₂)⟩
  | glance i c ref f v =>
    obtain ⟨hc, hb⟩ := hf
    rcases hA.head i with hlt | ⟨he, hhead, htaken⟩
    · exact ⟨by omega, fun h => absurd h (by omega)⟩
    · rw [Fact.Holds, he, hhead, htaken]
      refine ⟨hc, fun h₁ h₂ => ?_⟩
      obtain ⟨y, hy, hv⟩ := hb h₁ h₂
      exact ⟨y, getElem?_of_prefix (hA.history i) hy, hv⟩
  | prompt => trivial
  | owes i s h => trivial

theorem Aside.signed (hA : Aside start w w' t) (hu : u ≠ t) (h : w'.Signed u s g) : w.Signed u s g := by
  obtain ⟨hs, hself, hg⟩ := h
  rw [hA.hand u s hu] at hs
  have hword := hA.words u s 0 hu hs ⟨le_rfl, by decide⟩
  rw [add_zero] at hword
  rw [hA.words u s 1 hu hs ⟨by decide, by decide⟩] at hg
  exact ⟨hs, hword.symm.trans hself, hg⟩

theorem Fact.Holds.aside (hA : Aside start w w' t) (hu : u ≠ t) (hf : f.Holds start w u) : f.Holds start w' u := by
  cases f with
  | hand s => exact (hA.hand u s hu).2 hf
  | word s off v =>
    obtain ⟨hs, hoff, hv⟩ := hf
    exact ⟨(hA.hand u s hu).2 hs, hoff, (hA.words u s off hu hs hoff).trans hv⟩
  | stamp g => exact hA.stamp u g hu hf
  | fresh g => exact ⟨hf.1, fun s hs => hf.2 s (hA.signed hu hs)⟩
  | did l => exact (hA.deeds u hu).trans hf
  | _ => exact hf.lasting hA trivial

theorem Inv.moved (hI : Inv start w ν) (hA : Aside start w w' t) (hS : Sound start w') (hn : ∀ f ∈ n, f.Holds start w' t)
    (hb : ∀ i, Behind start w' i (Function.update ν t n)) : Inv start w' (Function.update ν t n) := by
  refine ⟨hS, fun u f hf => ?_, hb⟩
  by_cases hu : u = t
  · subst hu
    rw [Function.update_self] at hf
    exact hn f hf
  · rw [Function.update_of_ne hu] at hf
    exact (hI.known u f hf).aside hA hu

/-- The list has its entries, and its tail is where it was or further. The thread that moves had no tail to move, or keeps
its note. -/
theorem Behind.keep (h : Behind start w i ν) (hhist : w'.history start i = w.history start i)
    (hpast : ∀ k, w.Past start i k → w'.Past start i k) (hn : .prompt ∈ ν t ∨ n = ν t) : Behind start w' i (Function.update ν t n) := by
  rw [Behind, hhist]
  rcases h with h | ⟨h, u, hu, howed⟩
  · exact .inl (hpast _ h)
  · refine .inr ⟨hpast _ h, u, ?_⟩
    by_cases hut : u = t
    · subst hut
      rcases hn with hn | rfl
      · exact absurd hn hu
      · rw [Function.update_self]
        exact ⟨hu, howed⟩
    · rw [Function.update_of_ne hut]
      exact ⟨hu, howed⟩

/-- The same of all lists. -/
theorem Inv.kept (hI : Inv start w ν) (hA : Aside start w w' t) (hS : Sound start w') (hhist : ∀ i, w'.history start i = w.history start i)
    (hn : .prompt ∈ ν t ∨ n = ν t) (hknown : ∀ f ∈ n, f.Holds start w' t) : Inv start w' (Function.update ν t n) :=
  hI.moved hA hS hknown fun i => (hI.behind i).keep (hhist i) (hA.past i) hn

/-! ### What a step does to a list -/

omit [DecidableEq T] in
theorem Holding.frame (hH : Holding start w i) (hlinks : w'.links i = w.links i) (hunlinks : w'.unlinks i = w.unlinks i)
    (hhead : w'.mem i.head = w.mem i.head) (htail : w'.mem i.tail = w.mem i.tail) (hstamp : w'.mem (i.tail + 1) = w.mem (i.tail + 1))
    (hwords : ∀ s, w.custody s = .list i → ∀ off, 0 ≤ off ∧ off < 4 → w'.mem (s + off) = w.mem (s + off))
    (hcustody : ∀ s, w'.custody s = .list i ↔ w.custody s = .list i) (hstamps : ∀ g, w.stamps g = .link i → w'.stamps g = .link i) :
    Holding start w' i := by
  have hhist : w'.history start i = w.history start i := by rw [Yard.history, hlinks, Yard.history]
  have htaken : w'.taken i = w.taken i := by rw [Yard.taken, hunlinks, Yard.taken]
  obtain ⟨-, -, -, -, -, -, -, -, -, -, -, -, hlow, hhigh⟩ := QId.bounds i
  refine ⟨?_, fun s => ?_, fun k x hx => ?_, ?_⟩
  · rw [hhist, htaken]
    refine hH.laid.frame hhead htail hstamp fun k x hk hx => ?_
    have hc := hwords x.slot (hH.inside hk hx)
    have h₀ := hc 0 ⟨le_rfl, by decide⟩
    rw [add_zero] at h₀
    exact ⟨h₀, hc 1 ⟨by decide, by decide⟩, hc i.payload ⟨by omega, hhigh⟩⟩
  · rw [hhist, htaken, hcustody]
    exact hH.custody s
  · rw [hhist] at hx
    exact hstamps _ (hH.stamped k x hx)
  · rw [hhist, htaken, hunlinks]
    exact hH.out

/-! ### What is kept beside the object -/

@[simp] theorem Deed.linked_self {e : Entry} : (Deed.link i e).linked i = some e := if_pos rfl

theorem Deed.linked_ne {e : Entry} (hij : i ≠ j) : (Deed.link i e).linked j = none := if_neg hij

@[simp] theorem Deed.unlinked_link {e : Entry} : (Deed.link i e).unlinked j = none := rfl

@[simp] theorem Deed.unlinked_self {e : Entry} : (Deed.unlink i s e).unlinked i = some e := if_pos rfl

theorem Deed.unlinked_ne {e : Entry} (hij : i ≠ j) : (Deed.unlink i s e).unlinked j = none := if_neg hij

omit [DecidableEq T] in
theorem Yard.links_append (custody : ℤ → Custody T) (stamps : ℤ → Stamp T) :
    (⟨site, custody, stamps, w.log ++ [(t, d)]⟩ : Yard Pr T).links i = w.links i ++ (d.linked i).toList := by
  simp only [Yard.links, List.filterMap_append]
  cases hd : d.linked i <;> simp [hd]

omit [DecidableEq T] in
theorem Yard.unlinks_append (custody : ℤ → Custody T) (stamps : ℤ → Stamp T) :
    (⟨site, custody, stamps, w.log ++ [(t, d)]⟩ : Yard Pr T).unlinks i = w.unlinks i ++ (d.unlinked i).toList := by
  simp only [Yard.unlinks, List.filterMap_append]
  cases hd : d.unlinked i <;> simp [hd]

omit [DecidableEq T] in
theorem Yard.history_append (custody : ℤ → Custody T) (stamps : ℤ → Stamp T) :
    (⟨site, custody, stamps, w.log ++ [(t, d)]⟩ : Yard Pr T).history start i = w.history start i ++ (d.linked i).toList := by
  rw [Yard.history, Yard.links_append, ← List.append_assoc, Yard.history]

omit [DecidableEq T] in
theorem Yard.taken_append (custody : ℤ → Custody T) (stamps : ℤ → Stamp T) :
    (⟨site, custody, stamps, w.log ++ [(t, d)]⟩ : Yard Pr T).taken i = w.taken i + (d.unlinked i).toList.length := by
  rw [Yard.taken, Yard.unlinks_append, List.length_append, Yard.taken]

omit [DecidableEq T] in
theorem Yard.links_other (custody : ℤ → Custody T) (stamps : ℤ → Stamp T) (hd : d.linked i = none) :
    (⟨site, custody, stamps, w.log ++ [(t, d)]⟩ : Yard Pr T).links i = w.links i := by
  rw [Yard.links_append, hd, Option.toList_none, List.append_nil]

omit [DecidableEq T] in
theorem Yard.unlinks_other (custody : ℤ → Custody T) (stamps : ℤ → Stamp T) (hd : d.unlinked i = none) :
    (⟨site, custody, stamps, w.log ++ [(t, d)]⟩ : Yard Pr T).unlinks i = w.unlinks i := by
  rw [Yard.unlinks_append, hd, Option.toList_none, List.append_nil]

omit [DecidableEq T] in
theorem Yard.history_other (custody : ℤ → Custody T) (stamps : ℤ → Stamp T) (hd : d.linked i = none) :
    (⟨site, custody, stamps, w.log ++ [(t, d)]⟩ : Yard Pr T).history start i = w.history start i := by
  rw [Yard.history, Yard.links_other custody stamps hd, Yard.history]

theorem Yard.deeds_append (custody : ℤ → Custody T) (stamps : ℤ → Stamp T) :
    (⟨site, custody, stamps, w.log ++ [(t, d)]⟩ : Yard Pr T).deeds u = during u (w.deeds u) (t, d) := by
  simp only [Yard.deeds, List.foldl_append, List.foldl_cons, List.foldl_nil]

theorem Yard.deeds_append_ne (custody : ℤ → Custody T) (stamps : ℤ → Stamp T) (hu : u ≠ t) :
    (⟨site, custody, stamps, w.log ++ [(t, d)]⟩ : Yard Pr T).deeds u = w.deeds u := by
  rw [Yard.deeds_append, during, if_neg (Ne.symm hu)]

/-- A step that leaves the lists as they are. -/
theorem Aside.of_same (hlinks : ∀ i, w'.links i = w.links i) (hunlinks : ∀ i, w'.unlinks i = w.unlinks i)
    (hhead : ∀ i : QId, w'.mem i.head = w.mem i.head ∧ w'.mem (i.head + 1) = w.mem (i.head + 1))
    (htail : ∀ i : QId, w'.mem i.tail = w.mem i.tail ∧ w'.mem (i.tail + 1) = w.mem (i.tail + 1))
    (hhand : ∀ u s, u ≠ t → (w'.custody s = .hand u ↔ w.custody s = .hand u))
    (hwords : ∀ u s off, u ≠ t → w.custody s = .hand u → 0 ≤ off ∧ off < 4 → w'.mem (s + off) = w.mem (s + off))
    (hstamp : ∀ u g, u ≠ t → w.stamps g = .hand u → w'.stamps g = .hand u) (hnode : ∀ s, w.custody s ≠ .nowhere → w'.custody s ≠ .nowhere)
    (hdeeds : ∀ u, u ≠ t → w'.deeds u = w.deeds u) : Aside start w w' t := by
  have hhist : ∀ i, w'.history start i = w.history start i := fun i => by rw [Yard.history, hlinks, Yard.history]
  have htaken : ∀ i, w'.taken i = w.taken i := fun i => by rw [Yard.taken, hunlinks, Yard.taken]
  refine ⟨hhand, hwords, hstamp, hnode, fun i => ?_, fun i => (htaken i).ge, fun i k hp => ?_,
    fun i => .inr ⟨(hhead i).2, (hhead i).1, htaken i⟩, hdeeds⟩
  · rw [hhist]
  · rw [Yard.Past, hhist]
    exact hp.frame (List.prefix_refl _) (htail i).1 (htail i).2

end

end LibShr.Lists
