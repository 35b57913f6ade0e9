import LibShr.Conc.Stacks
import LibShr.Seq.Rules

/-!
# The chains of the stacks

Each successful `DWCAS` on a stack raises the counter beside its head. While the counter is what a
thread has read, the stack is as it was: its head, and what the thread has read in the block at its
head. So a `DWCAS` that finds both words unchanged finds the link, and the value, that the block has
had since.
-/

namespace LibShr.Stacks

open Prog Links

/-! ## What holds at any time -/

/-- What a thread knows: it has a block; it has stored `v` in a block it has; it has read the counter `g` of a
stack; it has read `v` in the block `top`, with the counter `g` in its hands; the last thing it did. -/
inductive Fact
  | hand (slot : ℤ)
  | word (slot off v : ℤ)
  | gen (hd g : ℤ)
  | glance (hd g top off v : ℤ)
  | did (e : Event)

section
variable {Pr T : Type} [DecidableEq T]

/-- What is known of this slot. -/
def Fact.isWord (slot off : ℤ) : Fact → Bool
  | .word slot' off' _ => slot' = slot && off' = off
  | _ => false

def Fact.isDid : Fact → Bool
  | .did _ => true
  | _ => false

def Fact.Holds (w : Yard Pr T) (t : T) : Fact → Prop
  | .hand slot => w.custody slot = .hand t
  | .word slot off v => w.custody slot = .hand t ∧ (0 ≤ off ∧ off < 4) ∧ w.mem (slot + off) = v
  | .gen hd g => IsHead hd ∧ g ≤ w.mem (hd + 1)
  | .glance hd g top off v => (IsHead hd ∧ g ≤ w.mem (hd + 1)) ∧ (0 ≤ off ∧ off < 4) ∧
      (w.mem (hd + 1) = g → w.mem hd = top → top ≠ 0 → w.mem (top + off) = v)
  | .did e => w.last t = some e

/-- The stack `hd` has these elements, each with the value in its fourth slot. -/
structure Holding (w : Yard Pr T) (hd : ℤ) (L : List (ℤ × ℤ)) : Prop where
  replay : Lifo.replay (w.moves hd) = some L
  chain : StackAt w.mem hd (L.map Prod.fst)
  nodup : (L.map Prod.fst).Nodup
  value : ∀ x ∈ L, w.mem (x.1 + VALUE_OFFSET) = x.2
  custody : ∀ s, s ∈ L.map Prod.fst ↔ w.custody s = .stack hd

structure Inv (G : Ground) (w : Yard Pr T) (ν : T → List Fact) : Prop where
  blocks : ∀ s, w.custody s ≠ .nowhere → 0 < G.size s
  holding : ∀ hd, IsHead hd → ∃ L, Holding w hd L
  known : ∀ t, ∀ f ∈ ν t, f.Holds w t

/-- What the others see of a step of the thread `t`: their blocks are as they were, and each stack is as it was or has
a higher counter. -/
structure Aside (w w' : Yard Pr T) (t : T) : Prop where
  hand : ∀ u s, u ≠ t → w.custody s = .hand u → w'.custody s = .hand u
  words : ∀ u s off, u ≠ t → w.custody s = .hand u → 0 ≤ off ∧ off < 4 → w'.mem (s + off) = w.mem (s + off)
  steady : ∀ hd, IsHead hd → w.mem (hd + 1) < w'.mem (hd + 1) ∨
    w'.mem (hd + 1) = w.mem (hd + 1) ∧ w'.mem hd = w.mem hd ∧
      (w.mem hd ≠ 0 → ∀ off, 0 ≤ off ∧ off < 4 → w'.mem (w.mem hd + off) = w.mem (w.mem hd + off))
  last : ∀ u, u ≠ t → w'.last u = w.last u

end

section
variable {Pr T : Type} [DecidableEq T] {G : Ground} {w w' : Yard Pr T} {ν : T → List Fact} {n : List Fact} {t u : T} {f : Fact}
  {hd hd' slot off s v g top : ℤ} {L : List (ℤ × ℤ)} {site : Site Pr} {z : Custody T} {e : Event}

/-! ### Separation -/

theorem Ground.word_ne {s s' off off' : ℤ} (hs : 0 < G.size s) (hs' : 0 < G.size s') (hne : s ≠ s') (ho : 0 ≤ off ∧ off < G.size s)
    (ho' : 0 ≤ off' ∧ off' < G.size s') : s + off ≠ s' + off' := by
  have := G.apart hs hs' hne
  omega

theorem Ground.four_le (hs : 0 < G.size s) : 4 ≤ G.size s := (G.start hs).2

theorem Ground.word_ne_head (hs : 0 < G.size s) (ho : 0 ≤ off) (hhd : IsHead hd) : s + off ≠ hd ∧ s + off ≠ hd + 1 := by
  have := (G.start hs).1
  obtain ⟨-, h | h⟩ := hhd <;> simp only [HDR_END, MEM_BKT_START, BASE, STACK_HEAD] at * <;> omega

theorem IsHead.ne (hhd : IsHead hd) (hhd' : IsHead hd') (hne : hd' ≠ hd) : hd' ≠ hd + 1 ∧ hd' + 1 ≠ hd ∧ hd' + 1 ≠ hd + 1 := by
  have h₁ := hhd.1
  have h₂ := hhd'.1
  omega

theorem Inv.block (hI : Inv G w ν) (h : w.custody s = z) (hz : z ≠ .nowhere) : 0 < G.size s := hI.blocks s (by rwa [h])

/-- What is at the head of a stack is in the stack. -/
theorem Inv.head_custody (hI : Inv G w ν) (hhd : IsHead hd) (h : w.mem hd ≠ 0) : w.custody (w.mem hd) = .stack hd := by
  obtain ⟨L, hL⟩ := hI.holding hd hhd
  refine (hL.custody _).1 ?_
  have hhead := hL.chain.1
  cases hl : L.map Prod.fst with
  | nil =>
    rw [hl] at hhead
    exact absurd hhead h
  | cons x l =>
    rw [hl] at hhead
    rw [hhead]
    exact List.mem_cons_self

/-! ### Facts stay true -/

/-- The facts about the stacks stay true whoever moves. -/
theorem Fact.Holds.glance (hA : Aside w w' t) (h : (Fact.glance hd g top off v).Holds w u) : (Fact.glance hd g top off v).Holds w' u := by
  obtain ⟨⟨hhd, hg⟩, hoff, hv⟩ := h
  rcases hA.steady hd hhd with hlt | ⟨hcnt, hhead, hwords⟩
  · exact ⟨⟨hhd, by omega⟩, hoff, fun h => absurd h (by omega)⟩
  · refine ⟨⟨hhd, by omega⟩, hoff, fun h₁ h₂ h₃ => ?_⟩
    rw [hcnt] at h₁
    rw [hhead] at h₂
    have hsame := hwords (by rwa [h₂]) off hoff
    rw [h₂] at hsame
    exact hsame.trans (hv h₁ h₂ h₃)

theorem Fact.Holds.gen (hA : Aside w w' t) (h : (Fact.gen hd g).Holds w u) : (Fact.gen hd g).Holds w' u := by
  obtain ⟨hhd, hg⟩ := h
  refine ⟨hhd, ?_⟩
  rcases hA.steady hd hhd with hlt | ⟨hcnt, -⟩ <;> omega

theorem Fact.Holds.aside (hA : Aside w w' t) (hu : u ≠ t) (h : f.Holds w u) : f.Holds w' u := by
  cases f with
  | hand slot => exact hA.hand u slot hu h
  | word slot off v =>
    obtain ⟨hslot, hoff, hv⟩ := h
    exact ⟨hA.hand u slot hu hslot, hoff, (hA.words u slot off hu hslot hoff).trans hv⟩
  | gen hd g => exact h.gen hA
  | glance hd g top off v => exact h.glance hA
  | did e => exact (hA.last u hu).trans h

/-- One thread moves, and gets another note. -/
theorem Inv.moved (hI : Inv G w ν) (hA : Aside w w' t) (hblocks : ∀ s, w'.custody s ≠ .nowhere → 0 < G.size s)
    (hholding : ∀ hd, IsHead hd → ∃ L, Holding w' hd L) (hn : ∀ f ∈ n, f.Holds w' t) : Inv G w' (Function.update ν t n) := by
  refine ⟨hblocks, hholding, fun u f hf => ?_⟩
  by_cases hu : u = t
  · subst hu
    rw [Function.update_self] at hf
    exact hn f hf
  · rw [Function.update_of_ne hu] at hf
    exact (hI.known u f hf).aside hA hu

/-! ### What a step is for the others -/

/-- Custody and history as they were. -/
theorem Aside.store (hI : Inv G w ν) (hs : w.custody slot = .hand t) (ho : 0 ≤ off ∧ off < G.size slot)
    (hm : site.mem = setSlot w.mem (slot + off) v) : Aside w ⟨site, w.custody, w.log⟩ t := by
  have hblock := hI.block hs (by simp)
  have hm' : ∀ a, a ≠ slot + off → site.mem a = w.mem a := fun a ha => by rw [hm, setSlot_ne _ _ ha]
  refine ⟨fun u s hu hsu => hsu, fun u s off' hu hsu ho' => ?_, fun hd hhd => .inr ⟨?_, ?_, fun hne off' ho' => ?_⟩, fun u _ => rfl⟩
  · have hb := hI.block hsu (by simp)
    have hfour := G.four_le hb
    refine hm' _ (G.word_ne hb hblock ?_ ⟨ho'.1, by omega⟩ ho)
    rintro rfl
    rw [hs] at hsu
    exact hu (Custody.hand.inj hsu).symm
  · exact hm' _ (Ground.word_ne_head hblock ho.1 hhd).2.symm
  · exact hm' _ (Ground.word_ne_head hblock ho.1 hhd).1.symm
  · have hc := hI.head_custody hhd hne
    have hb := hI.block hc (by simp)
    have hfour := G.four_le hb
    refine hm' _ (G.word_ne hb hblock ?_ ⟨ho'.1, by omega⟩ ho)
    intro he
    rw [he, hs] at hc
    cases hc

/-- What a thread knows after a store of its own. -/
theorem Fact.Holds.store (hI : Inv G w ν) (h : f.Holds w t) (hs : w.custody slot = .hand t) (ho : 0 ≤ off ∧ off < G.size slot)
    (hm : site.mem = setSlot w.mem (slot + off) v) (hf : f.isWord slot off = false) : f.Holds ⟨site, w.custody, w.log⟩ t := by
  have hA : Aside w ⟨site, w.custody, w.log⟩ t := .store hI hs ho hm
  cases f with
  | hand s => exact h
  | word s off' v' =>
    obtain ⟨hsc, hoff', hv⟩ := h
    have hb := hI.block hsc (by simp)
    have hfour := G.four_le hb
    refine ⟨hsc, hoff', ?_⟩
    change site.mem (s + off') = v'
    rw [hm, setSlot_ne _ _ ?_, hv]
    by_cases hss : s = slot
    · subst hss
      have hne : off' ≠ off := by
        rintro rfl
        simp [Fact.isWord] at hf
      omega
    · exact G.word_ne hb (hI.block hs (by simp)) hss ⟨hoff'.1, by omega⟩ ho
  | gen hd g => exact h.gen hA
  | glance hd g top off' v' => exact h.glance hA
  | did e => exact h

theorem Yard.last_append {w : Yard Pr T} (custody : ℤ → Custody T) (hu : u ≠ t) :
    (⟨site, custody, w.log ++ [(t, e)]⟩ : Yard Pr T).last u = w.last u := by
  simp [Yard.last, List.filter_append, hu.symm]

theorem Yard.last_append_self {w : Yard Pr T} (custody : ℤ → Custody T) :
    (⟨site, custody, w.log ++ [(t, e)]⟩ : Yard Pr T).last t = some e := by
  simp [Yard.last, List.filter_append]

/-- A successful `DWCAS`: the block that is moved was in the hands of `t`, or in the stack. -/
theorem Aside.dwcas (hI : Inv G w ν) (hhd : IsHead hd) (hslot : ∀ u, u ≠ t → w.custody slot ≠ .hand u) (hg : w.mem (hd + 1) = g)
    (hm : site.mem = setSlot (setSlot w.mem hd v) (hd + 1) (g + 1)) :
    Aside w ⟨site, Function.update w.custody slot z, w.log ++ [(t, e)]⟩ t := by
  have hm' : ∀ a, a ≠ hd → a ≠ hd + 1 → site.mem a = w.mem a := fun a h₁ h₂ => by rw [hm, setSlot_ne _ _ h₂, setSlot_ne _ _ h₁]
  refine ⟨fun u s hu hsu => ?_, fun u s off' hu hsu ho' => ?_, fun hd' hhd' => ?_, fun u hu => Yard.last_append _ hu⟩
  · refine (Function.update_of_ne ?_ _ _).trans hsu
    rintro rfl
    exact hslot u hu hsu
  · obtain ⟨h₁, h₂⟩ := Ground.word_ne_head (hI.block hsu (by simp)) ho'.1 hhd
    exact hm' _ h₁ h₂
  · by_cases hne : hd' = hd
    · subst hne
      left
      change w.mem (hd' + 1) < site.mem (hd' + 1)
      rw [hm, setSlot_same, hg]
      omega
    · obtain ⟨h₁, h₂, h₃⟩ := hhd.ne hhd' hne
      refine .inr ⟨hm' _ h₂ h₃, hm' _ hne h₁, fun hnz off' ho' => ?_⟩
      obtain ⟨h₄, h₅⟩ := Ground.word_ne_head (hI.block (hI.head_custody hhd' hnz) (by simp)) ho'.1 hhd
      exact hm' _ h₄ h₅

/-- A block is taken or given back. -/
theorem Aside.update (hslot : ∀ u, u ≠ t → w.custody slot ≠ .hand u) :
    Aside w { w with custody := Function.update w.custody slot z } t := by
  refine ⟨fun u s hu hsu => ?_, fun _ _ _ _ _ _ => rfl, fun _ _ => .inr ⟨rfl, rfl, fun _ _ _ => rfl⟩, fun _ _ => rfl⟩
  refine (Function.update_of_ne ?_ _ _).trans hsu
  rintro rfl
  exact hslot u hu hsu

/-! ### What a step does to a stack -/

omit [DecidableEq T] in
/-- Nothing happens to the stack. -/
theorem Holding.frame (h : Holding w hd L) (hhead : w'.mem hd = w.mem hd)
    (hwords : ∀ s, w.custody s = .stack hd → ∀ off, 0 ≤ off ∧ off < 4 → w'.mem (s + off) = w.mem (s + off))
    (hmoves : w'.moves hd = w.moves hd) (hcustody : ∀ s, w'.custody s = .stack hd ↔ w.custody s = .stack hd) : Holding w' hd L := by
  refine ⟨hmoves ▸ h.replay, h.chain.congr hhead fun x hx => ?_, h.nodup, fun x hx => ?_, fun s => (h.custody s).trans (hcustody s).symm⟩
  · have hword := hwords x ((h.custody x).1 hx) 0 ⟨le_rfl, by decide⟩
    rwa [add_zero] at hword
  · exact (hwords x.1 ((h.custody x.1).1 (List.mem_map_of_mem hx)) 3 ⟨by decide, by decide⟩).trans (h.value x hx)

omit [DecidableEq T] in
theorem Yard.moves_append {w : Yard Pr T} (custody : ℤ → Custody T) :
    (⟨site, custody, w.log ++ [(t, e)]⟩ : Yard Pr T).moves hd = w.moves hd ++ (e.moveAt hd).toList := by
  unfold Yard.moves
  rw [List.filterMap_append]
  cases h : e.moveAt hd <;> simp [h]

/-- A store into a block that is in nobody's stack. -/
theorem Holding.store (hI : Inv G w ν) (h : Holding w hd L) (hhd : IsHead hd) (hs : w.custody slot = .hand t) (ho : 0 ≤ off ∧ off < G.size slot)
    (hm : site.mem = setSlot w.mem (slot + off) v) : Holding ⟨site, w.custody, w.log⟩ hd L := by
  have hblock := hI.block hs (by simp)
  refine h.frame ?_ (fun s hsc off' ho' => ?_) rfl fun _ => Iff.rfl
  · change site.mem hd = w.mem hd
    rw [hm, setSlot_ne _ _ (Ground.word_ne_head hblock ho.1 hhd).1.symm]
  · have hb := hI.block hsc (by simp)
    have hfour := G.four_le hb
    change site.mem (s + off') = w.mem (s + off')
    rw [hm, setSlot_ne _ _ (G.word_ne hb hblock ?_ ⟨ho'.1, by omega⟩ ho)]
    rintro rfl
    rw [hs] at hsc
    cases hsc

omit [DecidableEq T] in
theorem Holding.update (h : Holding w hd L) (h₁ : w.custody slot ≠ .stack hd) (h₂ : z ≠ .stack hd) :
    Holding { w with custody := Function.update w.custody slot z } hd L := by
  refine h.frame rfl (fun _ _ _ _ => rfl) rfl fun s => ?_
  by_cases hs : s = slot
  · subst hs
    simp only [Function.update_self]
    exact ⟨fun h => absurd h h₂, fun h => absurd h h₁⟩
  · simp only [Function.update_of_ne hs]

omit [DecidableEq T] in
/-- A `DWCAS` on a stack leaves the blocks as they are. -/
theorem Ground.word_dwcas (hb : 0 < G.size s) (ho : 0 ≤ off) (hhd : IsHead hd) (hm : site.mem = setSlot (setSlot w.mem hd v) (hd + 1) (g + 1)) :
    site.mem (s + off) = w.mem (s + off) := by
  obtain ⟨h₁, h₂⟩ := Ground.word_ne_head hb ho hhd
  rw [hm, setSlot_ne _ _ h₂, setSlot_ne _ _ h₁]

omit [DecidableEq T] in
theorem Ground.link_dwcas (hb : 0 < G.size s) (hhd : IsHead hd) (hm : site.mem = setSlot (setSlot w.mem hd v) (hd + 1) (g + 1)) :
    site.mem s = w.mem s := by
  have := Ground.word_dwcas hb le_rfl hhd hm
  rwa [add_zero] at this

theorem Holding.other (hI : Inv G w ν) (h : Holding w hd' L) (hhd : IsHead hd) (hhd' : IsHead hd') (hne : hd' ≠ hd)
    (hm : site.mem = setSlot (setSlot w.mem hd v) (hd + 1) (g + 1)) (he : e.moveAt hd' = none) (h₁ : w.custody slot ≠ .stack hd')
    (h₂ : z ≠ .stack hd') : Holding ⟨site, Function.update w.custody slot z, w.log ++ [(t, e)]⟩ hd' L := by
  refine h.frame ?_ (fun s hsc off' ho' => ?_) ?_ fun s => ?_
  · change site.mem hd' = w.mem hd'
    rw [hm, setSlot_ne _ _ (hhd.ne hhd' hne).1, setSlot_ne _ _ hne]
  · exact Ground.word_dwcas (hI.block hsc (by simp)) ho'.1 hhd hm
  · rw [Yard.moves_append, he]
    exact List.append_nil _
  · by_cases hs : s = slot
    · subst hs
      simp only [Function.update_self]
      exact ⟨fun h => absurd h h₂, fun h => absurd h h₁⟩
    · simp only [Function.update_of_ne hs]

/-- A successful push. The link of the block is the head that the `DWCAS` found. -/
theorem Holding.push (hI : Inv G w ν) (h : Holding w hd L) (hhd : IsHead hd) (hs : w.custody slot = .hand t) (hlink : w.mem slot = w.mem hd)
    (hm : site.mem = setSlot (setSlot w.mem hd slot) (hd + 1) (g + 1)) :
    Holding ⟨site, Function.update w.custody slot (.stack hd), w.log ++ [(t, .push hd slot (w.mem (slot + VALUE_OFFSET)))]⟩ hd
      ((slot, w.mem (slot + VALUE_OFFSET)) :: L) := by
  have hblock := hI.block hs (by simp)
  have hfresh : slot ∉ L.map Prod.fst := by
    intro hmem
    have hc := (h.custody slot).1 hmem
    rw [hs] at hc
    cases hc
  have hblocks : ∀ s ∈ L.map Prod.fst, 0 < G.size s := fun s hsm => hI.block ((h.custody s).1 hsm) (by simp)
  refine ⟨?_, ?_, List.nodup_cons.2 ⟨hfresh, h.nodup⟩, fun x hx => ?_, fun s => ?_⟩
  · rw [Yard.moves_append]
    simp only [Event.moveAt, if_true, Option.toList_some]
    exact Lifo.replay_push h.replay
  · refine h.chain.push ?_ ((Ground.link_dwcas hblock hhd hm).trans hlink) fun x hx => Ground.link_dwcas (hblocks x hx) hhd hm
    change site.mem hd = slot
    rw [hm, setSlot_ne _ _ (by omega), setSlot_same]
  · rcases List.mem_cons.1 hx with rfl | hx
    · exact Ground.word_dwcas hblock (by decide) hhd hm
    · exact (Ground.word_dwcas (hblocks x.1 (List.mem_map_of_mem hx)) (by decide) hhd hm).trans (h.value x hx)
  · change s ∈ slot :: L.map Prod.fst ↔ Function.update w.custody slot (.stack hd) s = .stack hd
    by_cases hsl : s = slot
    · subst hsl
      simp
    · rw [List.mem_cons, Function.update_of_ne hsl, ← h.custody s]
      exact or_iff_right hsl

/-- A successful pop. The link that was read is the one the block has. -/
theorem Holding.pop {x : ℤ × ℤ} (hI : Inv G w ν) (h : Holding w hd (x :: L)) (hhd : IsHead hd)
    (hm : site.mem = setSlot (setSlot w.mem hd (w.mem x.1)) (hd + 1) (g + 1)) :
    Holding ⟨site, Function.update w.custody x.1 (.hand t), w.log ++ [(t, .pop hd x.1 (w.mem (x.1 + VALUE_OFFSET)))]⟩ hd L := by
  obtain ⟨hfresh, hnodup⟩ := List.nodup_cons.1 h.nodup
  have hblocks : ∀ s ∈ L.map Prod.fst, 0 < G.size s :=
    fun s hsm => hI.block ((h.custody s).1 (List.mem_cons_of_mem _ hsm)) (by simp)
  refine ⟨?_, ?_, hnodup, fun y hy => ?_, fun s => ?_⟩
  · have hvalue := h.value x List.mem_cons_self
    rw [Yard.moves_append, hvalue]
    simp only [Event.moveAt, if_true, Option.toList_some]
    exact Lifo.replay_pop h.replay
  · refine h.chain.pop ?_ fun y hy => Ground.link_dwcas (hblocks y hy) hhd hm
    change site.mem hd = w.mem x.1
    rw [hm, setSlot_ne _ _ (by omega), setSlot_same]
  · exact (Ground.word_dwcas (hblocks y.1 (List.mem_map_of_mem hy)) (by decide) hhd hm).trans (h.value y (List.mem_cons_of_mem _ hy))
  · change s ∈ L.map Prod.fst ↔ Function.update w.custody x.1 (.hand t) s = .stack hd
    by_cases hsl : s = x.1
    · subst hsl
      simp [hfresh]
    · rw [Function.update_of_ne hsl, ← h.custody s]
      simp [hsl]

/-! ### What a step is for the invariant -/

theorem Inv.same {site : Site Pr} {n' : List Fact} (hI : Inv G w ν) (hm : site.mem = w.mem) (hn : ∀ f ∈ n', f ∈ ν t ∨ f.Holds w t) :
    Inv G ⟨site, w.custody, w.log⟩ (Function.update ν t n') := by
  obtain ⟨mem, sem, length, own⟩ := site
  dsimp only at hm
  subst hm
  refine ⟨hI.blocks, fun hd hhd => ?_, fun u f hf => ?_⟩
  · obtain ⟨L, hL⟩ := hI.holding hd hhd
    exact ⟨L, hL.frame rfl (fun _ _ _ _ => rfl) rfl fun _ => Iff.rfl⟩
  · have hold : f.Holds w u := by
      by_cases hu : u = t
      · subst hu
        rw [Function.update_self] at hf
        exact (hn f hf).elim (hI.known u f) id
      · rw [Function.update_of_ne hu] at hf
        exact hI.known u f hf
    cases f <;> exact hold

/-- A block changes hands, but not with a stack. -/
theorem Inv.update {slot : ℤ} {z : Custody T} (hI : Inv G w ν) (hslot : ∀ u, u ≠ t → w.custody slot ≠ .hand u)
    (hblock : 0 < G.size slot) (h₁ : ∀ hd, w.custody slot ≠ .stack hd) (h₂ : ∀ hd, z ≠ .stack hd) {n' : List Fact}
    (hn : ∀ f ∈ n', f.Holds { w with custody := Function.update w.custody slot z } t) :
    Inv G { w with custody := Function.update w.custody slot z } (Function.update ν t n') := by
  refine hI.moved (.update hslot) (fun s hs => ?_) (fun hd hhd => ?_) hn
  · by_cases hsl : s = slot
    · rwa [hsl]
    · refine hI.blocks s fun hnone => hs ?_
      exact (Function.update_of_ne hsl _ _).trans hnone
  · obtain ⟨L, hL⟩ := hI.holding hd hhd
    exact ⟨L, hL.update (h₁ hd) (h₂ hd)⟩

end

end LibShr.Stacks
