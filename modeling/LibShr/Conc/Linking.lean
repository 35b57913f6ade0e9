import LibShr.Conc.Entries

/-!
# What the steps do to the lists

For each kind of step, what it leaves of the lists and what the other threads see of it. A link goes behind
the last entry, since only the last one leads to itself and carries its own stamp; a dummy is removed with
the counter raised; the tail word is moved by one entry.
-/

namespace LibShr.Lists

open Prog Fifo

section
variable {Pr T : Type} {start : QId → List Entry} {w w' : Yard Pr T} {t u : T} {i j : QId} {k : ℕ} {x y : Entry}
  {s off v g a c ref size : ℤ} {d : Deed} {site : Site Pr}

/-! ### Steps outside the lists -/

/-- A node whose words are as they were. -/
theorem Yard.Signed.of_words (h : w'.Signed t s g) (hs : w.custody s = .hand t)
    (hword : ∀ off, 0 ≤ off ∧ off < 4 → w'.mem (s + off) = w.mem (s + off)) : w.Signed t s g := by
  obtain ⟨-, hself, hg⟩ := h
  have h₀ := hword 0 ⟨le_rfl, by decide⟩
  rw [add_zero] at h₀
  rw [hword 1 ⟨by decide, by decide⟩] at hg
  exact ⟨hs, h₀.symm.trans hself, hg⟩

theorem Sound.of_signed (hS : Sound start w) (hG : Ground w') (hH : ∀ i, Holding start w' i)
    (hold : ∀ t s g, w'.Signed t s g → w.Signed t s g)
    (hstamps : ∀ t s g, w'.Signed t s g → g ≠ 0 → w.stamps g = .hand t → w'.stamps g = .hand t) : Sound start w' := by
  refine ⟨hG, hH, fun t s g h hg => ?_, fun t s s' g h h' => hS.single t s s' g (hold t s g h) (hold t s' g h')⟩
  exact hstamps t s g h hg (hS.signed t s g (hold t s g h) hg)

/-- The slots up to `EXPAND_SIZE` are nobody's. -/
theorem Sound.calm (hS : Sound start w) (hm : ∀ a, EXPAND_SIZE < a → site.mem a = w.mem a) :
    Sound start ⟨site, w.custody, w.stamps, w.log⟩ := by
  have hword : ∀ s off, w.custody s ≠ .nowhere → 0 ≤ off ∧ off < 4 → site.mem (s + off) = w.mem (s + off) := by
    intro s off hs ho
    have := (hS.room s hs).1
    exact hm _ (by simp only [HDR_END, EXPAND_SIZE] at *; omega)
  refine hS.of_signed (hS.toGround.same (fun _ h => h) (hm _ (by decide)) (hm _ (by decide)) (fun a ha => hm a ?_) fun _ h => h)
    (fun i => ?_) (fun t s g h => h.of_words h.1 fun off ho => ?_) fun _ _ _ _ _ h => h
  · have := hS.alloc
    simp only [HDR_END, EXPAND_SIZE] at *
    omega
  · obtain ⟨h₁, -, -, -, -, -, h₂, -⟩ := QId.bounds i
    refine (hS.holding i).frame rfl rfl (hm _ h₁) (hm _ h₂) (hm _ (by simp only [EXPAND_SIZE]; omega)) (fun s hs off ho => ?_)
      (fun _ => Iff.rfl) fun _ h => h
    exact hword s off (nowhere_of_hand hs (by simp)) ho
  · exact hword s off (nowhere_of_hand h.1 (by simp)) ho

/-- A store into a node in the hands of `t`; if the node then carries a stamp, it is one of `t` and the only one. -/
theorem Sound.store (hS : Sound start w) (hs : w.custody s = .hand t) (ho : 0 ≤ off ∧ off < 4) (hm : site.mem = setSlot w.mem (s + off) v)
    (hsigned : ∀ g, site.mem s = s → site.mem (s + 1) = g → g ≠ 0 → w.stamps g = .hand t ∧ ∀ s', w.Signed t s' g → s' = s) : Sound start ⟨site, w.custody, w.stamps, w.log⟩ := by
  have hn := nowhere_of_hand hs (by simp)
  have hm' : ∀ a, s + off ≠ a → site.mem a = w.mem a := fun a ha => by rw [hm, setSlot_ne _ _ (Ne.symm ha)]
  have hheader : ∀ a, a < HDR_END → site.mem a = w.mem a := fun a ha => hm' a (hS.header_ne hn ho.1 ha)
  have hword : ∀ s' off', w.custody s' ≠ .nowhere → s' ≠ s → 0 ≤ off' ∧ off' < 4 → site.mem (s' + off') = w.mem (s' + off') :=
    fun s' off' hs' hne ho' => hm' _ (hS.word_ne hn hs' (Ne.symm hne) ho ho')
  have hold : ∀ t' s' g, s' ≠ s → (⟨site, w.custody, w.stamps, w.log⟩ : Yard Pr T).Signed t' s' g → w.Signed t' s' g :=
    fun t' s' g hne h => h.of_words h.1 fun off' ho' => hword s' off' (nowhere_of_hand h.1 (by simp)) hne ho'
  refine ⟨hS.toGround.same (fun _ h => h) (hheader _ (by decide)) (hheader _ (by decide)) (fun a ha => hm' a ?_) fun _ h => h,
    fun i => ?_, fun t' s' g h hg => ?_, fun t' s' s'' g h h' hg => ?_⟩
  · have := hS.below hn ho.2
    omega
  · obtain ⟨-, h₁, -, -, -, -, -, h₂, -⟩ := QId.bounds i
    refine (hS.holding i).frame rfl rfl (hheader _ (by omega)) (hheader _ (by omega)) (hheader _ h₂) (fun s' hs' off' ho' => ?_)
      (fun _ => Iff.rfl) fun _ h => h
    refine hword s' off' (nowhere_of_hand hs' (by simp)) ?_ ho'
    rintro rfl
    rw [hs] at hs'
    cases hs'
  · by_cases hne : s' = s
    · subst hne
      obtain rfl := Custody.hand.inj (hs.symm.trans h.1)
      exact (hsigned g h.2.1 h.2.2 hg).1
    · exact hS.signed t' s' g (hold t' s' g hne h) hg
  · by_cases hne : s' = s <;> by_cases hne' : s'' = s
    · exact hne.trans hne'.symm
    · subst hne
      obtain rfl := Custody.hand.inj (hs.symm.trans h.1)
      exact ((hsigned g h.2.1 h.2.2 hg).2 s'' (hold t s'' g hne' h')).symm
    · subst hne'
      obtain rfl := Custody.hand.inj (hs.symm.trans h'.1)
      exact (hsigned g h'.2.1 h'.2.2 hg).2 s' (hold t s' g hne h)
    · exact hS.single t' s' s'' g (hold t' s' g hne h) (hold t' s'' g hne' h') hg

theorem Sound.afa (hS : Sound start w) (hg : w.mem ID_CNTR = g) (hm : site.mem = setSlot w.mem ID_CNTR (g + 1)) :
    Sound start ⟨site, w.custody, Function.update w.stamps g (.hand t), w.log⟩ := by
  have hm' : ∀ a, a ≠ ID_CNTR → site.mem a = w.mem a := fun a ha => by rw [hm, setSlot_ne _ _ ha]
  have halloc : site.mem DATA_ALLOC = w.mem DATA_ALLOC := hm' _ (by decide)
  have hids : site.mem ID_CNTR = g + 1 := by rw [hm, setSlot_same]
  have hword : ∀ s, w.custody s ≠ .nowhere → ∀ off, 0 ≤ off ∧ off < 4 → site.mem (s + off) = w.mem (s + off) :=
    fun s hs off ho => hm' _ (hS.header_ne hs ho.1 (by decide))
  have hpos := hS.positive
  have hborn : ∀ g', w.stamps g' ≠ .unborn → g' ≠ g := by
    rintro g' h rfl
    exact h (hS.unborn g' hg.le)
  refine hS.of_signed ⟨fun s hs => ?_, hS.apart, ?_, fun a ha => ?_, fun g' hg' => ?_, ?_, ?_⟩ (fun i => ?_)
    (fun t' s g' h => h.of_words h.1 (hword s (nowhere_of_hand h.1 (by simp)))) fun t' s g' h _ hg' => ?_
  · rw [Yard.mem, halloc]
    exact hS.room s hs
  · rw [Yard.mem, halloc]
    exact hS.alloc
  · rw [Yard.mem, halloc] at ha
    have := hS.alloc
    rw [Yard.mem, hm' a (by simp only [HDR_END, ID_CNTR] at *; omega)]
    exact hS.blank a ha
  · rw [Yard.mem, hids] at hg'
    exact (Function.update_of_ne (by omega) _ _).trans (hS.unborn g' (by omega))
  · rw [Yard.mem, hids]
    omega
  · exact (Function.update_of_ne (by omega) _ _).trans hS.zero
  · obtain ⟨-, -, -, -, h₁, h₂, -, -, -, -, h₃, h₄, -⟩ := QId.bounds i
    refine (hS.holding i).frame rfl rfl (hm' _ h₁) (hm' _ h₃) (hm' _ h₄) (fun s hs => ?_) (fun _ => Iff.rfl) fun g' hg' => ?_
    · exact hword s (nowhere_of_hand hs (by simp))
    · exact (Function.update_of_ne (hborn g' (by simp [hg'])) _ _).trans hg'
  · exact (Function.update_of_ne (hborn g' (by simp [hg'])) _ _).trans hg'

theorem Ground.uncarved (hG : Ground w) (hs : w.mem DATA_ALLOC = s) : w.custody s = .nowhere := by
  by_contra hc
  have := (hG.room s hc).2
  omega

theorem Sound.carve (hS : Sound start w) (hs : w.mem DATA_ALLOC = s) (hsize : 4 ≤ size)
    (hm : site.mem = setSlot w.mem DATA_ALLOC (s + size)) :
    Sound start ⟨site, Function.update w.custody s (.hand t), w.stamps, w.log ++ [(t, .carve s size)]⟩ := by
  have hm' : ∀ a, a ≠ DATA_ALLOC → site.mem a = w.mem a := fun a ha => by rw [hm, setSlot_ne _ _ ha]
  have halloc : site.mem DATA_ALLOC = s + size := by rw [hm, setSlot_same]
  have hids : site.mem ID_CNTR = w.mem ID_CNTR := hm' _ (by decide)
  have hroom : HDR_END ≤ s := hs ▸ hS.alloc
  have hnew := hS.uncarved hs
  have hblank : ∀ a, s ≤ a → site.mem a = 0 := by
    intro a ha
    rw [hm' a (by simp only [HDR_END, DATA_ALLOC] at *; omega)]
    exact hS.blank a (hs.le.trans ha)
  have hword : ∀ s', w.custody s' ≠ .nowhere → ∀ off, 0 ≤ off ∧ off < 4 → site.mem (s' + off) = w.mem (s' + off) :=
    fun s' hs' off ho => hm' _ (hS.header_ne hs' ho.1 (by decide))
  have hcases : ∀ s', (Function.update w.custody s (.hand t)) s' ≠ .nowhere → s' = s ∨ w.custody s' ≠ .nowhere ∧ s' + 4 ≤ s := by
    intro s' hs'
    by_cases hne : s' = s
    · exact .inl hne
    · rw [Function.update_of_ne hne] at hs'
      exact .inr ⟨hs', hs ▸ (hS.room s' hs').2⟩
  refine hS.of_signed ⟨fun s' hs' => ?_, fun s' s'' hs' hs'' hne => ?_, ?_, fun a ha => ?_, fun g hg => ?_, ?_, hS.zero⟩ (fun i => ?_)
    (fun t' s' g h => ?_) fun _ _ _ _ _ h => h
  · rw [Yard.mem, halloc]
    rcases hcases s' hs' with rfl | ⟨hn, hle⟩
    · exact ⟨hroom, by omega⟩
    · exact ⟨(hS.room s' hn).1, by omega⟩
  · rcases hcases s' hs' with rfl | ⟨hn', hle'⟩ <;> rcases hcases s'' hs'' with rfl | ⟨hn'', hle''⟩
    · exact absurd rfl hne
    · exact .inr hle''
    · exact .inl hle'
    · exact hS.apart s' s'' hn' hn'' hne
  · rw [Yard.mem, halloc]
    omega
  · rw [Yard.mem, halloc] at ha
    exact hblank a (by omega)
  · rw [Yard.mem, hids] at hg
    exact hS.unborn g hg
  · rw [Yard.mem, hids]
    exact hS.positive
  · obtain ⟨-, -, h₁, h₂, -, -, -, -, h₃, h₄, -⟩ := QId.bounds i
    refine (hS.holding i).frame ?_ ?_ (hm' _ h₁) (hm' _ h₃) (hm' _ h₄) (fun s hs => ?_) (fun s' => ?_) fun _ h => h
    · exact Yard.links_other _ _ rfl
    · exact Yard.unlinks_other _ _ rfl
    · exact hword s (nowhere_of_hand hs (by simp))
    · change Function.update w.custody s (.hand t) s' = _ ↔ _
      by_cases hne : s' = s
      · rw [hne, Function.update_self, hnew]
        simp
      · rw [Function.update_of_ne hne]
  · by_cases hne : s' = s
    · -- a new block leads to 0
      subst hne
      have hself : site.mem s' = s' := h.2.1
      rw [hblank s' le_rfl] at hself
      simp only [HDR_END] at hroom
      omega
    · have hs' : Function.update w.custody s (.hand t) s' = .hand t' := h.1
      rw [Function.update_of_ne hne] at hs'
      exact h.of_words hs' (hword s' (nowhere_of_hand hs' (by simp)))

/-! ### A link -/

/-- Both words of a pair are stored. -/
theorem setSlot_pair_ne {m : ℤ → ℤ} {a b v v' z : ℤ} (ha : z ≠ a) (hb : z ≠ b) : setSlot (setSlot m a v) b v' z = m z := by
  rw [setSlot_ne _ _ hb, setSlot_ne _ _ ha]

/-- The last entry of the list `i`, at the place `k`, and a node of `t` that is ready to be linked behind it. -/
structure Ready (start : QId → List Entry) (w : Yard Pr T) (t : T) (i : QId) (k : ℕ) (x : Entry) (s g : ℤ) : Prop where
  live : w.taken i ≤ k
  entry : (w.history start i)[k]? = some x
  last : (w.history start i)[k + 1]? = none
  signed : w.Signed t s g
  stamp : w.stamps g = .hand t

/-- The list `i` with a node linked behind the entry `x`. -/
abbrev Yard.link (w : Yard Pr T) (site : Site Pr) (t : T) (i : QId) (s g : ℤ) : Yard Pr T :=
  ⟨site, Function.update w.custody s (.list i), Function.update w.stamps g (.link i),
    w.log ++ [(t, .link i ⟨s, g, w.mem (s + i.payload)⟩)]⟩

theorem Yard.history_link : (w.link site t i s g).history start i = w.history start i ++ [⟨s, g, w.mem (s + i.payload)⟩] := by
  rw [Yard.history_append, Deed.linked_self]
  rfl

theorem Yard.taken_link : (w.link site t i s g).taken j = w.taken j := by
  rw [Yard.taken_append, Deed.unlinked_link]
  rfl

/-- What is linked is the list's, and the words of all other nodes are as they were. -/
theorem Ready.words (hR : Ready start w t i k x s g) (hS : Sound start w) (hm : site.mem = setSlot (setSlot w.mem x.slot s) (x.slot + 1) g)
    {s' off' : ℤ} (hs' : w.custody s' ≠ .nowhere) (ho : 0 ≤ off' ∧ off' < 4) (hne : s' ≠ x.slot ∨ 2 ≤ off') :
    site.mem (s' + off') = w.mem (s' + off') := by
  have hx := nowhere_of_hand ((hS.holding i).inside hR.live hR.entry) (by simp)
  rw [hm]
  rcases eq_or_ne s' x.slot with rfl | hne'
  · obtain hne | hne := hne
    · exact absurd rfl hne
    · exact setSlot_pair_ne (by omega) (by omega)
  · have h₀ := hS.word_ne hs' hx hne' ho ⟨le_refl 0, by decide⟩
    rw [add_zero] at h₀
    exact setSlot_pair_ne h₀ (hS.word_ne hs' hx hne' ho ⟨by decide, by decide⟩)

theorem Ready.header (hR : Ready start w t i k x s g) (hS : Sound start w) (hm : site.mem = setSlot (setSlot w.mem x.slot s) (x.slot + 1) g)
    (ha : a < HDR_END) : site.mem a = w.mem a := by
  have hx := nowhere_of_hand ((hS.holding i).inside hR.live hR.entry) (by simp)
  have h₀ := hS.header_ne hx (le_refl 0) ha
  rw [add_zero] at h₀
  rw [hm]
  exact setSlot_pair_ne h₀.symm (hS.header_ne hx (by decide) ha).symm

/-- The list that the node is linked to. -/
theorem Holding.link (hR : Ready start w t i k x s g) (hS : Sound start w)
    (hm : site.mem = setSlot (setSlot w.mem x.slot s) (x.slot + 1) g) : Holding start (w.link site t i s g) i := by
  have hH := hS.holding i
  have hx := hH.inside hR.live hR.entry
  have hs := hR.signed.1
  have hn := nowhere_of_hand hs (by simp)
  have hsx : s ≠ x.slot := by
    rintro rfl
    rw [hs] at hx
    cases hx
  obtain ⟨-, h₁, -, -, -, -, -, h₂, -, -, -, -, h₃, h₄⟩ := QId.bounds i
  have hword : ∀ off, 0 ≤ off ∧ off < 4 → site.mem (s + off) = w.mem (s + off) := fun off ho => hR.words hS hm hn ho (.inl hsx)
  have hlen := length_of_last hR.entry hR.last
  refine ⟨?_, fun s' => ?_, fun j y hy => ?_, ?_⟩
  · rw [Yard.history_link, Yard.taken_link]
    refine hH.laid.link hR.live hR.entry hR.last (fun j y hj hy => ?_) (fun j y hy => ?_) ⟨?_, ?_⟩ ⟨?_, ?_⟩ (hword i.payload ⟨by omega, h₄⟩)
      (hR.header hS hm (a := i.head) (by omega)) (hR.header hS hm (a := i.tail) (by omega)) (hR.header hS hm h₂)
      fun j y hj hy => ⟨fun hne => ?_, ?_⟩
    · have hy' := hH.inside hj hy
      intro he
      change y.slot = s at he
      rw [he, hs] at hy'
      cases hy'
    · have hy' := hH.stamped j y hy
      intro he
      change y.stamp = g at he
      rw [he, hR.stamp] at hy'
      cases hy'
    · change site.mem x.slot = s
      rw [hm, setSlot_ne _ _ (by omega), setSlot_same]
    · change site.mem (x.slot + 1) = g
      rw [hm, setSlot_same]
    · have h₀ := hword 0 ⟨le_rfl, by decide⟩
      rw [add_zero] at h₀
      exact h₀.trans hR.signed.2.1
    · exact (hword 1 ⟨by decide, by decide⟩).trans hR.signed.2.2
    · have hc := nowhere_of_hand (hH.inside hj hy) (by simp)
      have h₀ := hR.words hS hm hc ⟨le_refl 0, by decide⟩ (.inl hne)
      rw [add_zero] at h₀
      exact ⟨h₀, hR.words hS hm hc ⟨by decide, by decide⟩ (.inl hne)⟩
    · exact hR.words hS hm (nowhere_of_hand (hH.inside hj hy) (by simp)) ⟨(by decide : (0 : ℤ) ≤ 2).trans h₃, h₄⟩ (.inr h₃)
  · rw [Yard.history_link, Yard.taken_link]
    change Function.update w.custody s (.list i) s' = _ ↔ _
    constructor
    · intro hc
      by_cases hne : s' = s
      · refine ⟨_, _, ?_, getElem?_length, hne.symm⟩
        rw [hlen]
        exact hR.live.trans (Nat.le_succ k)
      · rw [Function.update_of_ne hne] at hc
        obtain ⟨j, y, hj, hy, hys⟩ := (hH.custody s').1 hc
        exact ⟨j, y, hj, getElem?_of_prefix (List.prefix_append _ _) hy, hys⟩
    · rintro ⟨j, y, hj, hy, rfl⟩
      rcases getElem?_append_one hy with h | ⟨-, rfl⟩
      · have hc := hH.inside hj h
        refine (Function.update_of_ne ?_ _ _).trans hc
        intro he
        rw [he, hs] at hc
        cases hc
      · exact Function.update_self _ _ _
  · rw [Yard.history_link] at hy
    change Function.update w.stamps g (.link i) y.stamp = _
    rcases getElem?_append_one hy with h | ⟨-, rfl⟩
    · by_cases hne : y.stamp = g
      · rw [hne, Function.update_self]
      · exact (Function.update_of_ne hne _ _).trans (hH.stamped j y h)
    · exact Function.update_self _ _ _
  · rw [Yard.history_link, Yard.taken_link, Yard.unlinks_append, Deed.unlinked_link, Option.toList_none, List.append_nil,
      List.drop_append_of_le_length (by omega), List.take_append_of_le_length (by rw [List.length_drop]; have := hR.live; omega)]
    exact hH.out

/-- A `DWCAS` on the last node of a list. -/
theorem Sound.link (hS : Sound start w) (hR : Ready start w t i k x s g) (hm : site.mem = setSlot (setSlot w.mem x.slot s) (x.slot + 1) g) :
    Sound start (w.link site t i s g) := by
  have hx := (hS.holding i).inside hR.live hR.entry
  have hxn := nowhere_of_hand hx (by simp)
  have hs := hR.signed.1
  have hcustody : ∀ {s' : ℤ} {z : Custody T}, (w.link site t i s g).custody s' = z → z ≠ .list i → w.custody s' = z := by
    intro s' z hs' hz
    by_cases hne : s' = s
    · rw [hne] at hs'
      exact absurd ((Function.update_self _ _ _).symm.trans hs').symm hz
    · exact (Function.update_of_ne hne _ _).symm.trans hs'
  have hstamps : ∀ {g' : ℤ}, w.stamps g' ≠ .hand t → (w.link site t i s g).stamps g' = w.stamps g' := by
    intro g' hg'
    refine Function.update_of_ne ?_ _ _
    rintro rfl
    exact hg' hR.stamp
  refine hS.of_signed (hS.toGround.same (fun s' hs' => ?_) (hR.header hS hm (by decide)) (hR.header hS hm (by decide)) (fun a ha => ?_)
    fun g' hg' => ?_) (fun j => ?_) (fun t' s' g' h => ?_) fun t' s' g' h hne hg' => ?_
  · intro hc
    by_cases hne : s' = s
    · rw [hne, hs] at hc
      cases hc
    · exact hs' ((Function.update_of_ne hne _ _).trans hc)
  · have h₁ : x.slot + 1 < w.mem DATA_ALLOC := hS.below hxn (by decide)
    change site.mem a = _
    rw [hm]
    exact setSlot_pair_ne (by omega) (by omega)
  · rw [hstamps (by simp [hg'])]
    exact hg'
  · by_cases hij : j = i
    · subst hij
      exact .link hR hS hm
    · obtain ⟨-, h₁, -, -, -, -, -, h₂, -⟩ := QId.bounds j
      refine (hS.holding j).frame ?_ ?_ (hR.header hS hm (by omega)) (hR.header hS hm (by omega)) (hR.header hS hm h₂) (fun s' hs' off ho => ?_)
        (fun s' => ⟨fun h => hcustody h ?_, fun h => ?_⟩) fun g' hg' => ?_
      · exact Yard.links_other _ _ (Deed.linked_ne (Ne.symm hij))
      · exact Yard.unlinks_other _ _ rfl
      · refine hR.words hS hm (nowhere_of_hand hs' (by simp)) ho (.inl ?_)
        rintro rfl
        rw [hx] at hs'
        exact hij (Custody.list.inj hs').symm
      · intro he
        exact hij (Custody.list.inj he)
      · refine (Function.update_of_ne ?_ _ _).trans h
        rintro rfl
        rw [hs] at h
        cases h
      · rw [hstamps (by simp [hg'])]
        exact hg'
  · have hs' := hcustody h.1 (by simp)
    refine h.of_words hs' fun off ho => hR.words hS hm (nowhere_of_hand hs' (by simp)) ho (.inl ?_)
    rintro rfl
    rw [hx] at hs'
    cases hs'
  · -- no other node carries the stamp of the link
    have hs' := hcustody h.1 (by simp)
    have hne' : s' ≠ s := by
      rintro rfl
      have hl := (Function.update_self _ _ _).symm.trans h.1
      cases hl
    have hold : w.Signed t' s' g' := by
      refine h.of_words hs' fun off ho => hR.words hS hm (nowhere_of_hand hs' (by simp)) ho (.inl ?_)
      rintro rfl
      rw [hx] at hs'
      cases hs'
    refine (Function.update_of_ne ?_ _ _).trans hg'
    rintro rfl
    obtain rfl := Stamp.hand.inj (hR.stamp.symm.trans hg')
    exact hne' (hS.single t s' s g' hold hR.signed hne)

/-! ### The tail word is moved -/

/-- The tail word of the list `i` is at the place `k`, and there is another entry behind. -/
structure Late (start : QId → List Entry) (w : Yard Pr T) (i : QId) (k : ℕ) (x y : Entry) : Prop where
  live : w.taken i ≤ k
  entry : (w.history start i)[k]? = some x
  next : (w.history start i)[k + 1]? = some y
  stamp : w.mem (i.tail + 1) = x.stamp

theorem Sound.swing (hS : Sound start w) (hL : Late start w i k x y)
    (hm : site.mem = setSlot (setSlot w.mem i.tail y.slot) (i.tail + 1) y.stamp) : Sound start ⟨site, w.custody, w.stamps, w.log⟩ := by
  obtain ⟨-, -, -, -, -, -, -, hend, halloc, halloc₁, hids, hids₁, -, hpay⟩ := QId.bounds i
  have hm' : ∀ a, a ≠ i.tail → a ≠ i.tail + 1 → site.mem a = w.mem a := fun a h₁ h₂ => by rw [hm, setSlot_pair_ne h₁ h₂]
  have hword : ∀ s, w.custody s ≠ .nowhere → ∀ off, 0 ≤ off ∧ off < 4 → site.mem (s + off) = w.mem (s + off) :=
    fun s hs off ho => hm' _ (hS.header_ne hs ho.1 (by omega)) (hS.header_ne hs ho.1 hend)
  refine hS.of_signed (hS.toGround.same (fun _ h => h) (hm' _ halloc.symm halloc₁.symm) (hm' _ hids.symm hids₁.symm) (fun a ha => ?_)
    fun _ h => h) (fun j => ?_) (fun t s g h => h.of_words h.1 (hword s (nowhere_of_hand h.1 (by simp)))) fun _ _ _ _ _ h => h
  · have := hS.alloc
    exact hm' a (by omega) (by omega)
  · have hH := hS.holding j
    obtain ⟨h₁, h₂, -⟩ := QId.head_ne_tail j i
    by_cases hij : j = i
    · subst hij
      refine ⟨hH.laid.swing hL.live hL.next (hm' _ h₁ h₂) ?_ ?_ fun k x hk hx => ?_, hH.custody, hH.stamped, hH.out⟩
      · change site.mem j.tail = _
        rw [hm, setSlot_ne _ _ (by omega), setSlot_same]
      · change site.mem (j.tail + 1) = _
        rw [hm, setSlot_same]
      · have hc := hword x.slot (nowhere_of_hand (hH.inside hk hx) (by simp))
        have h₀ := hc 0 ⟨le_rfl, by decide⟩
        rw [add_zero] at h₀
        exact ⟨h₀, hc 1 ⟨by decide, by decide⟩, hc j.payload ⟨by have := QId.bounds j; omega, hpay⟩⟩
    · obtain ⟨h₃, h₄, h₅, h₆⟩ := QId.tail_ne hij
      exact hH.frame rfl rfl (hm' _ h₁ h₂) (hm' _ h₃ h₄) (hm' _ h₅ h₆) (fun s hs => hword s (nowhere_of_hand hs (by simp)))
        (fun _ => Iff.rfl) fun _ h => h

/-! ### The dummy is removed -/

/-- The dummy `ref` of the list `i` is followed by the entry `y`, and the tail word is past it. -/
structure Due (start : QId → List Entry) (w : Yard Pr T) (i : QId) (ref c : ℤ) (y : Entry) : Prop where
  head : w.mem i.head = ref
  count : w.mem (i.head + 1) = c
  next : (w.history start i)[w.taken i + 1]? = some y
  past : w.Past start i (w.taken i + 1)

/-- The list `i` without its dummy. -/
abbrev Yard.unlink (w : Yard Pr T) (site : Site Pr) (t : T) (i : QId) (ref : ℤ) (y : Entry) : Yard Pr T :=
  ⟨site, Function.update w.custody ref (.hand t), w.stamps, w.log ++ [(t, .unlink i ref y)]⟩

theorem Due.dummy (hD : Due start w i ref c y) (hS : Sound start w) :
    ∃ x, (w.history start i)[w.taken i]? = some x ∧ x.slot = ref ∧ w.custody ref = .list i := by
  obtain ⟨x, hx, hslot⟩ := (hS.holding i).laid.first
  have he : x.slot = ref := hslot.symm.trans hD.head
  refine ⟨x, hx, he, ?_⟩
  rw [← he]
  exact (hS.holding i).inside le_rfl hx

/-- What the `DWCAS` finds in the dummy and in the node behind it. -/
theorem Due.found (hD : Due start w i ref c y) (hS : Sound start w) :
    w.mem ref = y.slot ∧ w.mem (ref + 1) = y.stamp ∧ w.mem (y.slot + i.payload) = y.value ∧ y.slot ≠ ref := by
  obtain ⟨x, hx, rfl, -⟩ := hD.dummy hS
  have hL := (hS.holding i).laid
  obtain ⟨h₁, h₂⟩ := hL.leads_next le_rfl hx hD.next
  refine ⟨h₁, h₂, hL.value _ y (Nat.le_succ _) hD.next, fun he => ?_⟩
  have := hL.distinct _ _ y x (Nat.le_succ _) le_rfl hD.next hx he
  omega

theorem Sound.unlink (hS : Sound start w) (hD : Due start w i ref c y)
    (hm : site.mem = setSlot (setSlot w.mem i.head y.slot) (i.head + 1) (c + 1)) : Sound start (w.unlink site t i ref y) := by
  obtain ⟨-, hend, halloc, halloc₁, hids, hids₁, -, -, -, -, -, -, hpay₀, hpay⟩ := QId.bounds i
  have hm' : ∀ a, a ≠ i.head → a ≠ i.head + 1 → site.mem a = w.mem a := fun a h₁ h₂ => by rw [hm, setSlot_pair_ne h₁ h₂]
  have hword : ∀ s, w.custody s ≠ .nowhere → ∀ off, 0 ≤ off ∧ off < 4 → site.mem (s + off) = w.mem (s + off) :=
    fun s hs off ho => hm' _ (hS.header_ne hs ho.1 (by omega)) (hS.header_ne hs ho.1 hend)
  obtain ⟨x, hx, hxref, hc⟩ := hD.dummy hS
  obtain ⟨hlead, -, -, hne⟩ := hD.found hS
  have hhist : ∀ j, (w.unlink site t i ref y).history start j = w.history start j := by
    intro j
    exact Yard.history_other _ _ rfl
  refine hS.of_signed (hS.toGround.same (fun s hs => ?_) (hm' _ halloc.symm halloc₁.symm) (hm' _ hids.symm hids₁.symm) (fun a ha => ?_)
    fun _ h => h) (fun j => ?_) (fun t' s g h => ?_) fun _ _ _ _ _ h => h
  · by_cases hs' : s = ref
    · rw [hs', hc]
      simp
    · rwa [← Function.update_of_ne hs' (.hand t) w.custody]
  · have := hS.alloc
    exact hm' a (by omega) (by omega)
  · have hH := hS.holding j
    obtain ⟨h₁, h₂, h₃, h₄⟩ := QId.head_ne_tail i j
    by_cases hij : j = i
    · subst hij
      have htaken : (w.unlink site t j ref y).taken j = w.taken j + 1 := by
        rw [Yard.taken_append, Deed.unlinked_self]
        rfl
      refine ⟨?_, fun s => ?_, fun k z hz => ?_, ?_⟩
      · rw [hhist, htaken]
        refine hH.laid.unlink hD.past hD.next ?_ (hm' _ h₁.symm h₃.symm) (hm' _ h₂.symm h₄.symm) fun k z hk hz => ?_
        · change site.mem j.head = _
          rw [hm, setSlot_ne _ _ (by omega), setSlot_same]
        · have hw := hword z.slot (nowhere_of_hand (hH.inside hk hz) (by simp))
          have h₀ := hw 0 ⟨le_rfl, by decide⟩
          rw [add_zero] at h₀
          exact ⟨h₀, hw 1 ⟨by decide, by decide⟩, hw j.payload ⟨by omega, hpay⟩⟩
      · rw [hhist, htaken]
        change Function.update w.custody ref (.hand t) s = _ ↔ _
        by_cases hs : s = ref
        · rw [hs, Function.update_self]
          refine iff_of_false (by simp) ?_
          rintro ⟨k, z, hk, hz, hslot⟩
          have := hH.laid.distinct _ _ z x (by omega) le_rfl hz hx (hslot.trans hxref.symm)
          omega
        · rw [Function.update_of_ne hs, hH.custody]
          constructor
          · rintro ⟨k, z, hk, hz, rfl⟩
            refine ⟨k, z, Nat.lt_of_le_of_ne hk ?_, hz, rfl⟩
            rintro rfl
            obtain rfl := Option.some.inj (hz.symm.trans hx)
            exact hs hxref
          · rintro ⟨k, z, hk, hz, hslot⟩
            exact ⟨k, z, by omega, hz, hslot⟩
      · rw [hhist] at hz
        exact hH.stamped k z hz
      · rw [hhist, htaken, Yard.unlinks_append, Deed.unlinked_self, List.take_add_one, List.getElem?_drop, Nat.add_comm 1, hD.next, hH.out]
    · obtain ⟨h₅, h₆, h₇, h₈⟩ := QId.head_ne hij
      refine hH.frame ?_ ?_ (hm' _ h₅ h₆) (hm' _ h₁.symm h₃.symm) (hm' _ h₂.symm h₄.symm)
        (fun s hs => hword s (nowhere_of_hand hs (by simp))) (fun s => ?_) fun _ h => h
      · exact Yard.links_other _ _ rfl
      · exact Yard.unlinks_other _ _ (Deed.unlinked_ne (Ne.symm hij))
      · change Function.update w.custody ref (.hand t) s = _ ↔ _
        by_cases hs : s = ref
        · rw [hs, Function.update_self, hc]
          exact iff_of_false (by simp) fun he => hij (Custody.list.inj he).symm
        · rw [Function.update_of_ne hs]
  · by_cases hs : s = ref
    · -- the node leads to the entry that took its place
      subst hs
      have hw := hword s (by rw [hc]; simp) 0 ⟨le_rfl, by decide⟩
      rw [add_zero] at hw
      have hself : site.mem s = s := h.2.1
      exact absurd (hlead.symm.trans (hw.symm.trans hself)) hne
    · have hs' : w.custody s = .hand t' := (Function.update_of_ne hs _ _).symm.trans h.1
      exact h.of_words hs' (hword s (nowhere_of_hand hs' (by simp)))

/-! ### A call begins -/

theorem Sound.begin (hS : Sound start w) (c : Call) : Sound start ⟨w.site, w.custody, w.stamps, w.log ++ [(t, .begin c)]⟩ := by
  refine ⟨hS.toGround.same (fun _ h => h) rfl rfl (fun _ _ => rfl) fun _ h => h, fun i => ?_, hS.signed, hS.single⟩
  refine (hS.holding i).frame ?_ ?_ rfl rfl rfl (fun _ _ _ _ => rfl) (fun _ => Iff.rfl) fun _ h => h
  · exact Yard.links_other _ _ rfl
  · exact Yard.unlinks_other _ _ rfl

end

/-! ### What the others see of them -/

section
variable {Pr T : Type} [DecidableEq T] {start : QId → List Entry} {w w' : Yard Pr T} {t u : T} {i j : QId} {k : ℕ} {x y : Entry}
  {s off v g a c ref size : ℤ} {d : Deed} {site : Site Pr}

theorem Aside.calm (hS : Sound start w) (hm : ∀ a, EXPAND_SIZE < a → site.mem a = w.mem a) :
    Aside start w ⟨site, w.custody, w.stamps, w.log⟩ t := by
  refine .of_same (fun _ => rfl) (fun _ => rfl) (fun i => ?_) (fun i => ?_) (fun _ _ _ => Iff.rfl) (fun u s off _ hs ho => ?_) (fun _ _ _ h => h)
    (fun _ h => h) fun _ _ => rfl
  · obtain ⟨h₁, -⟩ := QId.bounds i
    exact ⟨hm _ h₁, hm _ (by simp only [EXPAND_SIZE]; omega)⟩
  · obtain ⟨-, -, -, -, -, -, h₁, -⟩ := QId.bounds i
    exact ⟨hm _ h₁, hm _ (by simp only [EXPAND_SIZE]; omega)⟩
  · have := (hS.room s (nowhere_of_hand hs (by simp))).1
    exact hm _ (by simp only [HDR_END, EXPAND_SIZE] at *; omega)

theorem Aside.store (hS : Sound start w) (hs : w.custody s = .hand t) (ho : 0 ≤ off ∧ off < 4) (hm : site.mem = setSlot w.mem (s + off) v) :
    Aside start w ⟨site, w.custody, w.stamps, w.log⟩ t := by
  have hn := nowhere_of_hand hs (by simp)
  have hm' : ∀ a, s + off ≠ a → site.mem a = w.mem a := fun a ha => by rw [hm, setSlot_ne _ _ (Ne.symm ha)]
  refine .of_same (fun _ => rfl) (fun _ => rfl) (fun i => ?_) (fun i => ?_) (fun _ _ _ => Iff.rfl) (fun u s' off' hu hs' ho' => ?_)
    (fun _ _ _ h => h) (fun _ h => h) fun _ _ => rfl
  · obtain ⟨-, h₁, -⟩ := QId.bounds i
    exact ⟨hm' _ (hS.header_ne hn ho.1 (by omega)), hm' _ (hS.header_ne hn ho.1 h₁)⟩
  · obtain ⟨-, -, -, -, -, -, -, h₁, -⟩ := QId.bounds i
    exact ⟨hm' _ (hS.header_ne hn ho.1 (by omega)), hm' _ (hS.header_ne hn ho.1 h₁)⟩
  · refine hm' _ (hS.word_ne hn (nowhere_of_hand hs' (by simp)) ?_ ho ho')
    rintro rfl
    rw [hs] at hs'
    exact hu (Custody.hand.inj hs').symm

theorem Aside.afa (hS : Sound start w) (hg : w.mem ID_CNTR = g) (hm : site.mem = setSlot w.mem ID_CNTR (g + 1)) :
    Aside start w ⟨site, w.custody, Function.update w.stamps g (.hand t), w.log⟩ t := by
  have hm' : ∀ a, a ≠ ID_CNTR → site.mem a = w.mem a := fun a ha => by rw [hm, setSlot_ne _ _ ha]
  refine .of_same (fun _ => rfl) (fun _ => rfl) (fun i => ?_) (fun i => ?_) (fun _ _ _ => Iff.rfl) (fun u s off hu hs ho => ?_)
    (fun u g' hu hg' => ?_) (fun _ h => h) fun _ _ => rfl
  · obtain ⟨-, -, -, -, h₁, h₂, -⟩ := QId.bounds i
    exact ⟨hm' _ h₁, hm' _ h₂⟩
  · obtain ⟨-, -, -, -, -, -, -, -, -, -, h₁, h₂, -⟩ := QId.bounds i
    exact ⟨hm' _ h₁, hm' _ h₂⟩
  · exact hm' _ (hS.header_ne (nowhere_of_hand hs (by simp)) ho.1 (by decide))
  · refine (Function.update_of_ne ?_ _ _).trans hg'
    rintro rfl
    rw [hS.unborn g' hg.le] at hg'
    cases hg'

theorem Aside.carve (hS : Sound start w) (hs : w.mem DATA_ALLOC = s) (hm : site.mem = setSlot w.mem DATA_ALLOC (s + size)) :
    Aside start w ⟨site, Function.update w.custody s (.hand t), w.stamps, w.log ++ [(t, .carve s size)]⟩ t := by
  have hm' : ∀ a, a ≠ DATA_ALLOC → site.mem a = w.mem a := fun a ha => by rw [hm, setSlot_ne _ _ ha]
  have hnew := hS.uncarved hs
  have hne : ∀ s', w.custody s' ≠ .nowhere → s' ≠ s := by
    rintro s' hs' rfl
    exact hs' hnew
  refine .of_same (fun i => ?_) (fun i => ?_) (fun i => ?_) (fun i => ?_) (fun u s' hu => ?_) (fun u s' off hu hs' ho => ?_)
    (fun _ _ _ h => h) (fun s' hs' => ?_) fun u hu => Yard.deeds_append_ne _ _ hu
  · exact Yard.links_other _ _ rfl
  · exact Yard.unlinks_other _ _ rfl
  · obtain ⟨-, -, h₁, h₂, -⟩ := QId.bounds i
    exact ⟨hm' _ h₁, hm' _ h₂⟩
  · obtain ⟨-, -, -, -, -, -, -, -, h₁, h₂, -⟩ := QId.bounds i
    exact ⟨hm' _ h₁, hm' _ h₂⟩
  · change Function.update w.custody s (.hand t) s' = _ ↔ _
    by_cases hs' : s' = s
    · rw [hs', Function.update_self, hnew]
      refine iff_of_false (fun he => hu (Custody.hand.inj he).symm) (by simp)
    · rw [Function.update_of_ne hs']
  · exact hm' _ (hS.header_ne (nowhere_of_hand hs' (by simp)) ho.1 (by decide))
  · change Function.update w.custody s (.hand t) s' ≠ _
    rwa [Function.update_of_ne (hne s' hs')]

theorem Aside.begin (c : Call) : Aside start w ⟨w.site, w.custody, w.stamps, w.log ++ [(t, .begin c)]⟩ t := by
  refine .of_same (fun i => ?_) (fun i => ?_) (fun _ => ⟨rfl, rfl⟩) (fun _ => ⟨rfl, rfl⟩) (fun _ _ _ => Iff.rfl) (fun _ _ _ _ _ _ => rfl)
    (fun _ _ _ h => h) (fun _ h => h) fun u hu => Yard.deeds_append_ne _ _ hu
  · exact Yard.links_other _ _ rfl
  · exact Yard.unlinks_other _ _ rfl

theorem Aside.link (hS : Sound start w) (hR : Ready start w t i k x s g) (hm : site.mem = setSlot (setSlot w.mem x.slot s) (x.slot + 1) g) :
    Aside start w (w.link site t i s g) t := by
  have hx := (hS.holding i).inside hR.live hR.entry
  have hs := hR.signed.1
  have hpre : ∀ j, w.history start j <+: (w.link site t i s g).history start j := by
    intro j
    rw [Yard.history_append]
    exact List.prefix_append _ _
  have htail : ∀ j : QId, site.mem j.tail = w.mem j.tail ∧ site.mem (j.tail + 1) = w.mem (j.tail + 1) := by
    intro j
    obtain ⟨-, -, -, -, -, -, -, h₁, -⟩ := QId.bounds j
    exact ⟨hR.header hS hm (by omega), hR.header hS hm h₁⟩
  refine ⟨fun u s' hu => ?_, fun u s' off hu hs' ho => ?_, fun u g' hu hg' => ?_, fun s' hs' => ?_, hpre, fun j => (Yard.taken_link).ge,
    fun j k' hp => hp.frame (hpre j) (htail j).1 (htail j).2, fun j => ?_, fun u hu => Yard.deeds_append_ne _ _ hu⟩
  · by_cases hne : s' = s
    · rw [hne, hs]
      refine iff_of_false (fun he => ?_) fun he => hu (Custody.hand.inj he).symm
      cases (Function.update_self _ _ _).symm.trans he
    · rw [← Function.update_of_ne hne (.list i) w.custody]
  · refine hR.words hS hm (nowhere_of_hand hs' (by simp)) ho (.inl ?_)
    rintro rfl
    rw [hx] at hs'
    cases hs'
  · refine (Function.update_of_ne ?_ _ _).trans hg'
    rintro rfl
    exact hu (Stamp.hand.inj (hR.stamp.symm.trans hg')).symm
  · by_cases hne : s' = s
    · intro hc
      rw [hne] at hc
      cases (Function.update_self _ _ _).symm.trans hc
    · intro hc
      exact hs' ((Function.update_of_ne hne _ _).symm.trans hc)
  · obtain ⟨-, h₁, -⟩ := QId.bounds j
    exact .inr ⟨hR.header hS hm h₁, hR.header hS hm (by omega), Yard.taken_link⟩

theorem Aside.swing (hS : Sound start w) (hL : Late start w i k x y)
    (hm : site.mem = setSlot (setSlot w.mem i.tail y.slot) (i.tail + 1) y.stamp) : Aside start w ⟨site, w.custody, w.stamps, w.log⟩ t := by
  obtain ⟨-, -, -, -, -, -, -, hend, -⟩ := QId.bounds i
  have hm' : ∀ a, a ≠ i.tail → a ≠ i.tail + 1 → site.mem a = w.mem a := fun a h₁ h₂ => by rw [hm, setSlot_pair_ne h₁ h₂]
  refine ⟨fun _ _ _ => Iff.rfl, fun u s off _ hs ho => ?_, fun _ _ _ h => h, fun _ h => h, fun _ => List.prefix_refl _, fun _ => le_rfl,
    fun j k' hp => ?_, fun j => ?_, fun _ _ => rfl⟩
  · have hn := nowhere_of_hand hs (by simp)
    exact hm' _ (hS.header_ne hn ho.1 (by omega)) (hS.header_ne hn ho.1 hend)
  · by_cases hij : j = i
    · subst hij
      obtain ⟨hle, -⟩ := (hS.holding j).laid.at_tail hp hL.entry hL.stamp
      refine ⟨k + 1, y, by omega, hL.next, ?_, ?_⟩
      · change site.mem j.tail = _
        rw [hm, setSlot_ne _ _ (by omega), setSlot_same]
      · change site.mem (j.tail + 1) = _
        rw [hm, setSlot_same]
    · obtain ⟨h₁, h₂, h₃, h₄⟩ := QId.tail_ne hij
      exact hp.frame (List.prefix_refl _) (hm' _ h₁ h₂) (hm' _ h₃ h₄)
  · obtain ⟨h₁, h₂, h₃, h₄⟩ := QId.head_ne_tail j i
    exact .inr ⟨hm' _ h₃ h₄, hm' _ h₁ h₂, rfl⟩

theorem Aside.unlink (hS : Sound start w) (hD : Due start w i ref c y)
    (hm : site.mem = setSlot (setSlot w.mem i.head y.slot) (i.head + 1) (c + 1)) : Aside start w (w.unlink site t i ref y) t := by
  obtain ⟨-, hend, -⟩ := QId.bounds i
  have hm' : ∀ a, a ≠ i.head → a ≠ i.head + 1 → site.mem a = w.mem a := fun a h₁ h₂ => by rw [hm, setSlot_pair_ne h₁ h₂]
  obtain ⟨x, hx, hxref, hc⟩ := hD.dummy hS
  have hhist : ∀ j, (w.unlink site t i ref y).history start j = w.history start j := by
    intro j
    exact Yard.history_other _ _ rfl
  refine ⟨fun u s hu => ?_, fun u s off _ hs ho => ?_, fun _ _ _ h => h, fun s hs => ?_, fun j => (hhist j) ▸ List.prefix_refl _, fun j => ?_,
    fun j k' hp => ?_, fun j => ?_, fun u hu => Yard.deeds_append_ne _ _ hu⟩
  · by_cases hne : s = ref
    · rw [hne, hc]
      refine iff_of_false (fun he => ?_) (by simp)
      have he : Function.update w.custody ref (.hand t) ref = .hand u := he
      rw [Function.update_self] at he
      exact hu (Custody.hand.inj he).symm
    · rw [← Function.update_of_ne hne (.hand t) w.custody]
  · have hn := nowhere_of_hand hs (by simp)
    exact hm' _ (hS.header_ne hn ho.1 (by omega)) (hS.header_ne hn ho.1 hend)
  · by_cases hne : s = ref
    · intro he
      rw [hne] at he
      cases (Function.update_self _ _ _).symm.trans he
    · intro he
      exact hs ((Function.update_of_ne hne _ _).symm.trans he)
  · rw [Yard.taken_append]
    exact Nat.le_add_right _ _
  · obtain ⟨h₁, h₂, h₃, h₄⟩ := QId.head_ne_tail i j
    exact hp.frame ((hhist j) ▸ List.prefix_refl _) (hm' _ h₁.symm h₃.symm) (hm' _ h₂.symm h₄.symm)
  · by_cases hij : j = i
    · subst hij
      left
      change w.mem (j.head + 1) < site.mem (j.head + 1)
      rw [hm, setSlot_same, hD.count]
      omega
    · obtain ⟨h₁, h₂, h₃, h₄⟩ := QId.head_ne hij
      refine .inr ⟨hm' _ h₃ h₄, hm' _ h₁ h₂, ?_⟩
      rw [Yard.taken_append, Deed.unlinked_ne (Ne.symm hij)]
      rfl

/-! ### The invariant -/

variable {ν : T → List Fact} {n : List Fact}

/-- Who links an entry has to move the tail. -/
theorem Inv.link (hI : Inv start w ν) (hR : Ready start w t i k x s g) (hpast : w.Past start i k) (hprompt : .prompt ∈ ν t)
    (hm : site.mem = setSlot (setSlot w.mem x.slot s) (x.slot + 1) g) (hn : .prompt ∉ n)
    (howes : ∀ j s h, .owes j s h ∈ n → j = i ∧ s = x.slot ∧ h = x.stamp) (hknown : ∀ f ∈ n, f.Holds start (w.link site t i s g) t) :
    Inv start (w.link site t i s g) (Function.update ν t n) := by
  have hA : Aside start w (w.link site t i s g) t := .link hI.toSound hR hm
  refine hI.moved hA (hI.toSound.link hR hm) hknown fun j => ?_
  by_cases hij : j = i
  · subst hij
    have hlen : ((w.link site t j s g).history start j).length - 2 = k := by
      rw [Yard.history_link, List.length_append, length_of_last hR.entry hR.last]
      rfl
    refine .inr ?_
    rw [hlen]
    refine ⟨hA.past j k hpast, t, ?_⟩
    rw [Function.update_self]
    refine ⟨hn, fun j' s' h' hm' => ?_⟩
    obtain ⟨rfl, rfl, rfl⟩ := howes j' s' h' hm'
    exact ⟨rfl, x, getElem?_of_prefix (hA.history _) hR.entry, rfl, rfl⟩
  · refine (hI.behind j).keep ?_ (hA.past j) (.inl hprompt)
    exact Yard.history_other _ _ (Deed.linked_ne (Ne.symm hij))

/-- Who had to move the tail finds that it is moved, or moves it. -/
theorem Inv.paid (hI : Inv start w ν) (hA : Aside start w w' t) (hS : Sound start w') (hhist : ∀ i, w'.history start i = w.history start i)
    (howes : .owes i s a ∈ ν t)
    (hmoved : ∀ k x, (w.history start i)[k]? = some x → k + 2 = (w.history start i).length → x.slot = s → x.stamp = a →
      w.Past start i k → w'.Past start i (k + 1))
    (hknown : ∀ f ∈ n, f.Holds start w' t) : Inv start w' (Function.update ν t n) := by
  refine hI.moved hA hS hknown fun j => ?_
  rw [Behind, hhist]
  rcases hI.behind j with h | ⟨h, u, hu, howed⟩
  · exact .inl (hA.past j _ h)
  · by_cases hut : u = t
    · subst hut
      obtain ⟨rfl, x, hx, hs, ha⟩ := howed i s a howes
      have hlen := (List.getElem?_eq_some_iff.1 hx).1
      by_cases h2 : 2 ≤ (w.history start i).length
      · have hp := hmoved _ x hx (by omega) hs ha h
        exact .inl (hp.mono (by omega))
      · refine .inl (hA.past _ _ (h.mono (by omega)))
    · refine .inr ⟨hA.past j _ h, u, ?_⟩
      rw [Function.update_of_ne hut]
      exact ⟨hu, howed⟩

end

end LibShr.Lists
