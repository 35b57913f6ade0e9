import LibShr.Conc.Linking

/-!
# The steps of a thread

What each operation of the list functions needs of the note of the thread that performs it, and what the
note says after it. A load adds what it tells of the list at that moment, as long as that can become stale
only together with the counter or the stamp that was read before; a successful `DWCAS` finds the same counter
or stamp, so that what was read is still the case.
-/

namespace LibShr.Lists

open Prog Fifo

/-! ## The outline -/

section
variable {Pr T : Type} [DecidableEq Pr] [DecidableEq T]

/-- The threads, call by call. An idle thread has no tail to move. -/
def calls (start : QId → List Entry) (proc : T → Pr) : Protocol T ListOp ListOp.Res (Yard Pr T) Call (List Fact) where
  handler := stage proc
  inv := fun w ν => Inv start w ν
  may := fun _ _ _ => True
  mayCall := fun _ _ _ => True
  idle := fun _ n => .prompt ∈ n

/-- The threads inside the functions of the library. -/
def inside (start : QId → List Entry) (proc : T → Pr) : Protocol T Op Op.Res (Yard Pr T) Empty (List Fact) where
  handler := fun t o => stage proc t (.machine o)
  inv := fun w ν => Inv start w ν
  may := fun _ _ _ => True
  mayCall := fun _ _ _ => True
  idle := fun _ _ => True

end

/-- Operations on nothing but the size of the object. -/
def Calm : Op → Prop
  | .cas _ slot _ _ => slot = SIZE ∨ slot = EXPAND_SIZE
  | .ftruncate _ => True
  | o => o.Quiet

/-- What a store of `v` to the word `off` of `slot` puts an end to. -/
def Fact.gone (slot off v : ℤ) : Fact → Bool
  | .word slot' off' _ => slot' = slot && off' = off
  | .fresh g => off = 1 && g = v
  | _ => false

section
variable {Pr T : Type} [DecidableEq Pr] [DecidableEq T] {start : QId → List Entry} {proc : T → Pr} {n : List Fact} {t : T}
  {w w' : Yard Pr T} {ν : T → List Fact} {i j : QId} {a slot off s v g h c ref next link old size : ℤ} {α : Type} {f : Fact} {l : List Deed}
  {site : Site Pr}

theorem outline_machine {p : M α} {post : α → List Fact → Prop} (h : (inside start proc).outline t p post n) :
    (calls start proc).outline t (machine p) post n := by
  refine Protocol.outline_subst (P := inside start proc) ?_ h
  intro o post n h
  exact h

omit [DecidableEq T] in
theorem stage_machine {o : Op} {r : o.Res} (h : stage proc t (.machine o) w = some (r, w')) :
    ∃ site, shared (proc t) o w.site = some (r, site) ∧ w' = w.after t site o r := by
  obtain ⟨⟨r', site⟩, hs, he⟩ := Option.map_eq_some_iff.1 h
  cases he
  exact ⟨site, hs, rfl⟩

omit [DecidableEq Pr] [DecidableEq T] in
theorem Calm.mem {o : Op} {r : o.Res} {s s' : Site Pr} [DecidableEq Pr] {p : Pr} (hc : Calm o) (h : shared p o s = some (r, s')) :
    ∀ a, EXPAND_SIZE < a → s'.mem a = s.mem a := by
  intro a ha
  cases o with
  | cas array slot old new =>
    rcases shared_cas h with ⟨-, -, hm⟩ | ⟨-, -, hm⟩
    · rw [hm, setSlot_ne]
      rcases hc with rfl | rfl <;> simp only [SIZE, EXPAND_SIZE] at * <;> omega
    · rw [hm]
  | ftruncate n => rw [(shared_ftruncate h).1]
  | _ =>
    refine congrFun (shared_quiet ?_ h).1 a
    exact hc

omit [DecidableEq Pr] [DecidableEq T] in
theorem Calm.after {o : Op} (hc : Calm o) (site : Site Pr) (r : o.Res) : w.after t site o r = ⟨site, w.custody, w.stamps, w.log⟩ := by
  cases o with
  | cas array slot old new =>
    cases r with
    | false => rfl
    | true =>
      refine if_neg ?_
      rcases hc with rfl | rfl <;> decide
  | afa | dwcas => exact hc.elim
  | _ => rfl

omit [DecidableEq Pr] in
/-- What a thread knows stays true when it does nothing to it. -/
theorem Fact.Holds.still (hf : f.Holds start w t) (hA : Aside start w w' t) (hcustody : ∀ s, w.custody s = .hand t → w'.custody s = .hand t)
    (hwords : ∀ s off v, f = .word s off v → w.custody s = .hand t → 0 ≤ off ∧ off < 4 → w'.mem (s + off) = w.mem (s + off))
    (hstamps : ∀ g, w.stamps g = .hand t → w'.stamps g = .hand t)
    (hsigned : ∀ g, f = .fresh g → ∀ s, w'.Signed t s g → w.Signed t s g ∨ g = 0) (hdeeds : w'.deeds t = w.deeds t) : f.Holds start w' t := by
  cases f with
  | hand s => exact hcustody s hf
  | word s off v =>
    obtain ⟨hs, hoff, hv⟩ := hf
    exact ⟨hcustody s hs, hoff, (hwords s off v rfl hs hoff).trans hv⟩
  | stamp g => exact hstamps g hf
  | fresh g =>
    refine ⟨hf.1, fun s hs => ?_⟩
    rcases hsigned g rfl s hs with h | h
    · exact hf.2 s h
    · exact hf.1 h
  | did l => exact hdeeds.trans hf
  | _ => exact hf.lasting hA trivial

omit [DecidableEq Pr] in
/-- What is left by a step that leaves the nodes and the lists as they are. -/
theorem Inv.calm (hI : Inv start w ν) (hm : ∀ a, EXPAND_SIZE < a → site.mem a = w.mem a) (hn : .prompt ∈ ν t ∨ n = ν t)
    (hknown : ∀ f ∈ n, f ∈ ν t ∨ f.Holds start ⟨site, w.custody, w.stamps, w.log⟩ t) :
    Inv start ⟨site, w.custody, w.stamps, w.log⟩ (Function.update ν t n) := by
  have hA : Aside start w ⟨site, w.custody, w.stamps, w.log⟩ t := .calm hI.toSound hm
  refine hI.kept hA (hI.toSound.calm hm) (fun _ => rfl) hn fun f hf => ?_
  have hword : ∀ s, w.custody s = .hand t → ∀ off, 0 ≤ off ∧ off < 4 → site.mem (s + off) = w.mem (s + off) := by
    intro s hs off ho
    have := (hI.room s (nowhere_of_hand hs (by simp))).1
    exact hm _ (by simp only [HDR_END, EXPAND_SIZE] at *; omega)
  rcases hknown f hf with hf | hf
  · refine (hI.known t f hf).still hA (fun _ h => h) (fun s off v _ hs ho => hword s hs off ho) (fun _ h => h) (fun g _ s h => .inl ?_) rfl
    exact h.of_words h.1 (hword s h.1)
  · exact hf

/-! ### Loads -/

theorem outline_calm {o : Op} {post : o.Res → List Fact → Prop} (hc : Calm o) (hpost : ∀ r, post r n) :
    (inside start proc).outline t (op o) post n := by
  rintro w ν hI rfl - r w' h
  obtain ⟨site, hs, rfl⟩ := stage_machine h
  rw [hc.after]
  exact ⟨_, hI.calm (hc.mem hs) (.inr rfl) fun f hf => .inl hf, hpost r⟩

theorem outline_learn {post : ℤ → List Fact → Prop} (hprompt : .prompt ∈ n) (fact : ℤ → List Fact)
    (hfact : ∀ w : Yard Pr T, Sound start w → (∀ f ∈ n, f.Holds start w t) → ∀ f ∈ fact (w.mem slot), f.Holds start w t)
    (hpost : ∀ v n', n ⊆ n' → fact v ⊆ n' → post v n') : (inside start proc).outline t (load a slot) post n := by
  rintro w ν hI rfl - r w' h
  obtain ⟨site, hs, rfl⟩ := stage_machine h
  obtain ⟨rfl, hm⟩ := shared_load hs
  refine ⟨fact (w.mem slot) ++ ν t, hI.calm (fun a _ => congrFun hm a) (.inl hprompt) fun f hf => ?_,
    hpost _ _ (List.subset_append_right _ _) (List.subset_append_left _ _)⟩
  rcases List.mem_append.1 hf with hf | hf
  · have hS : Sound start (⟨site, w.custody, w.stamps, w.log⟩ : Yard Pr T) := hI.toSound.calm fun a _ => congrFun hm a
    have hold : ∀ f ∈ ν t, f.Holds start (⟨site, w.custody, w.stamps, w.log⟩ : Yard Pr T) t := by
      intro f hf
      have hI' : Inv start (⟨site, w.custody, w.stamps, w.log⟩ : Yard Pr T) (Function.update ν t (ν t)) :=
        hI.calm (fun a _ => congrFun hm a) (.inr rfl) fun f hf => .inl hf
      have hk := hI'.known t f
      rw [Function.update_self] at hk
      exact hk hf
    refine .inr (hfact _ hS hold f ?_)
    change f ∈ fact (site.mem slot)
    rwa [hm]
  · exact .inl hf

theorem outline_tailLow {post : ℤ → List Fact → Prop} (hprompt : .prompt ∈ n) (hpost : ∀ v n', n ⊆ n' → .node v ∈ n' → post v n') :
    (inside start proc).outline t (load a i.tail) post n := by
  refine outline_learn hprompt (fun v => [.node v]) (fun w hS _ f hf => ?_) fun v n' hn hf => hpost v n' hn (hf List.mem_cons_self)
  rw [List.mem_singleton.1 hf]
  obtain ⟨j, x, hj, hx, hslot, -⟩ := (hS.holding i).laid.tail
  change w.custody (w.mem i.place.tail) ≠ _
  rw [hslot, (hS.holding i).inside hj hx]
  simp

theorem outline_tailHigh {post : ℤ → List Fact → Prop} (hprompt : .prompt ∈ n) (hpost : ∀ h n', n ⊆ n' → .tail i h ∈ n' → post h n') :
    (inside start proc).outline t (load a (i.tail + 1)) post n := by
  refine outline_learn hprompt (fun h => [.tail i h]) (fun w hS _ f hf => ?_) fun h n' hn hf => hpost h n' hn (hf List.mem_cons_self)
  rw [List.mem_singleton.1 hf]
  obtain ⟨j, x, -, hx, hslot, hst⟩ := (hS.holding i).laid.tail
  exact ⟨j, x, hx, hst.symm, j, x, le_rfl, hx, hslot, hst⟩

theorem outline_peek {post : ℤ → List Fact → Prop} (hprompt : .prompt ∈ n) (htail : .tail i h ∈ n)
    (hpost : ∀ v n', n ⊆ n' → (v ≠ next → .follow i next h Entry.slot v ∈ n') → post v n') :
    (inside start proc).outline t (load a next) post n := by
  refine outline_learn hprompt (fun v => if v ≠ next then [.follow i next h Entry.slot v] else []) (fun w hS hn f hf => ?_)
    fun v n' hn hf => hpost v n' hn fun hv => hf ?_
  · split at hf
    · next hne =>
      rw [List.mem_singleton.1 hf]
      obtain ⟨k, x, hx, hst, -⟩ := hn _ htail
      refine ⟨k, x, hx, hst, fun hslot hk => ?_⟩
      subst hslot
      have hL := (hS.holding i).laid
      obtain ⟨y, hy⟩ := hL.followed hk hx hne
      exact ⟨y, hy, (hL.leads_next hk hx hy).1.symm⟩
    · cases hf
  · rw [if_pos hv]
    exact List.mem_singleton_self _

/-- Both words of a node that is known to be followed by an entry. -/
theorem outline_follow {post : ℤ → List Fact → Prop} {f f' : Entry → ℤ} {b : ℤ} (hprompt : .prompt ∈ n) (hfollow : .follow i next h f v ∈ n)
    (hb : b = next ∧ f' = Entry.slot ∨ b = next + 1 ∧ f' = Entry.stamp)
    (hpost : ∀ v n', n ⊆ n' → .follow i next h f' v ∈ n' → post v n') : (inside start proc).outline t (load a b) post n := by
  refine outline_learn hprompt (fun v => [.follow i next h f' v]) (fun w hS hn f hf => ?_)
    fun v n' hn hf => hpost v n' hn (hf List.mem_cons_self)
  rw [List.mem_singleton.1 hf]
  obtain ⟨k, x, hx, hst, hnext⟩ := hn _ hfollow
  refine ⟨k, x, hx, hst, fun hslot hk => ?_⟩
  obtain ⟨y, hy, -⟩ := hnext hslot hk
  obtain ⟨h₀, h₁⟩ := (hS.holding i).laid.leads_next hk hx hy
  subst hslot
  rcases hb with ⟨rfl, rfl⟩ | ⟨rfl, rfl⟩
  · exact ⟨y, hy, h₀.symm⟩
  · exact ⟨y, hy, h₁.symm⟩

theorem outline_count {post : ℤ → List Fact → Prop} (hprompt : .prompt ∈ n) (hpost : ∀ c n', n ⊆ n' → .count i c ∈ n' → post c n') :
    (inside start proc).outline t (load a (i.head + 1)) post n := by
  refine outline_learn hprompt (fun c => [.count i c]) (fun w hS _ f hf => ?_) fun c n' hn hf => hpost c n' hn (hf List.mem_cons_self)
  rw [List.mem_singleton.1 hf]
  exact le_refl (w.mem (i.head + 1))

/-- A tail word that does not lead to the node that was at the head. -/
theorem outline_beyond (ref : ℤ) {post : ℤ → List Fact → Prop} (hprompt : .prompt ∈ n) (hcount : .count i c ∈ n)
    (hpost : ∀ v n', n ⊆ n' → (ref ≠ v → .beyond i c ref ∈ n') → post v n') : (inside start proc).outline t (load a i.tail) post n := by
  refine outline_learn hprompt (fun v => if ref ≠ v then [.beyond i c ref] else []) (fun w hS hn f hf => ?_)
    fun v n' hn hf => hpost v n' hn fun hv => hf ?_
  · split at hf
    · next hne =>
      rw [List.mem_singleton.1 hf]
      refine ⟨hn _ hcount, fun _ hhead => ?_⟩
      have hL := (hS.holding i).laid
      obtain ⟨x, hx, hslot⟩ := hL.first
      refine hL.tail.next hx (.inl ?_)
      rw [← hslot]
      change w.mem i.tail ≠ w.mem i.head
      rw [hhead]
      exact Ne.symm hne
    · cases hf
  · rw [if_pos hv]
    exact List.mem_singleton_self _

omit [DecidableEq Pr] [DecidableEq T] in
/-- What the dummy leads to. -/
theorem Sound.second (hS : Sound start w) (hhead : w.mem i.head = ref) (hpast : w.Past start i (w.taken i + 1)) :
    ∃ y, (w.history start i)[w.taken i + 1]? = some y ∧ w.mem ref = y.slot := by
  have hL := (hS.holding i).laid
  obtain ⟨x, hx, hslot⟩ := hL.first
  obtain ⟨j, z, hj, hz, -⟩ := hpast
  have hlen := (List.getElem?_eq_some_iff.1 hz).1
  have hy : (w.history start i)[w.taken i + 1]? = some ((w.history start i)[w.taken i + 1]) := List.getElem?_eq_getElem (by omega)
  refine ⟨_, hy, ?_⟩
  rw [← (hL.leads_next le_rfl hx hy).1, ← hslot, ← hhead]

/-- The link of the node that was at the head, before a tail that was past it. -/
theorem outline_next {post : ℤ → List Fact → Prop} (hprompt : .prompt ∈ n) (hbeyond : .beyond i c ref ∈ n)
    (hpost : ∀ v n', n ⊆ n' → .glance i c ref Entry.slot v ∈ n' → post v n') : (inside start proc).outline t (load a ref) post n := by
  refine outline_learn hprompt (fun v => [.glance i c ref Entry.slot v]) (fun w hS hn f hf => ?_)
    fun c n' hn hf => hpost c n' hn (hf List.mem_cons_self)
  rw [List.mem_singleton.1 hf]
  obtain ⟨hc, hpast⟩ := hn _ hbeyond
  refine ⟨hc, fun hcount hhead => ?_⟩
  obtain ⟨y, hy, hslot⟩ := hS.second hhead (hpast hcount hhead)
  exact ⟨y, hy, hslot.symm⟩

/-- The payload of the entry behind it. -/
theorem outline_value {post : ℤ → List Fact → Prop} (hprompt : .prompt ∈ n) (hnext : .glance i c ref Entry.slot next ∈ n)
    (hpost : ∀ v n', n ⊆ n' → .glance i c ref Entry.value v ∈ n' → post v n') :
    (inside start proc).outline t (load a (next + i.payload)) post n := by
  refine outline_learn hprompt (fun v => [.glance i c ref Entry.value v]) (fun w hS hn f hf => ?_)
    fun c n' hn hf => hpost c n' hn (hf List.mem_cons_self)
  rw [List.mem_singleton.1 hf]
  obtain ⟨hc, hnext⟩ := hn _ hnext
  refine ⟨hc, fun hcount hhead => ?_⟩
  obtain ⟨y, hy, rfl⟩ := hnext hcount hhead
  exact ⟨y, hy, ((hS.holding i).laid.value _ y (Nat.le_succ _) hy).symm⟩

/-! ### Stores -/

/-- A store into a node the thread has. Into the word of the stamp goes 0, or a fresh stamp of the thread. -/
theorem outline_store {post : Unit → List Fact → Prop} {b : ℤ} (hb : b = slot + off) (hprompt : .prompt ∈ n) (hhand : .hand slot ∈ n)
    (hoff : 0 ≤ off ∧ off < 4) (hzero : off = 0 → v ≠ slot ∨ .word slot 1 0 ∈ n) (hone : off = 1 → v = 0 ∨ .stamp v ∈ n ∧ .fresh v ∈ n)
    (hpost : ∀ n', .word slot off v ∈ n' → (∀ f ∈ n, f.gone slot off v = false → f ∈ n') → post () n') :
    (inside start proc).outline t (store a b v) post n := by
  subst hb
  rintro w ν hI rfl - r w' h
  obtain ⟨site, hs, rfl⟩ := stage_machine h
  have hm : site.mem = setSlot w.mem (slot + off) v := shared_store hs
  have hslot : w.custody slot = .hand t := hI.known t _ hhand
  have hn := nowhere_of_hand hslot (by simp)
  have hm' : ∀ a, a ≠ slot + off → site.mem a = w.mem a := fun a ha => by rw [hm, setSlot_ne _ _ ha]
  have hv : site.mem (slot + off) = v := by rw [hm, setSlot_same]
  have hA : Aside start w ⟨site, w.custody, w.stamps, w.log⟩ t := .store hI.toSound hslot hoff hm
  -- what the node looks like after the store
  have hsigned : ∀ g, site.mem slot = slot → site.mem (slot + 1) = g → g ≠ 0 →
      w.Signed t slot g ∨ off = 1 ∧ g = v ∧ w.stamps g = .hand t ∧ ∀ s, ¬ w.Signed t s g := by
    intro g hself hg hgz
    by_cases h0 : off = 0
    · subst h0
      rw [add_zero] at hv
      rw [hm' _ (by omega)] at hg
      rcases hzero rfl with hne | hword
      · exact absurd (hv.symm.trans hself) hne
      · obtain ⟨-, -, hw⟩ := hI.known t _ hword
        exact absurd (hg.symm.trans hw) hgz
    · rw [hm' _ (by omega)] at hself
      by_cases h1 : off = 1
      · subst h1
        obtain rfl := hg.symm.trans hv
        rcases hone rfl with h | ⟨hst, hfr⟩
        · exact absurd h hgz
        · exact .inr ⟨rfl, rfl, hI.known t _ hst, (hI.known t _ hfr).2⟩
      · rw [hm' _ (by omega)] at hg
        exact .inl ⟨hslot, hself, hg⟩
  have hword : ∀ s off', w.custody s = .hand t → 0 ≤ off' ∧ off' < 4 → (s ≠ slot ∨ off' ≠ off) → site.mem (s + off') = w.mem (s + off') := by
    intro s off' hs ho' hne
    refine hm' _ ?_
    by_cases hss : s = slot
    · subst hss
      rcases hne with hne | hne
      · exact absurd rfl hne
      · omega
    · exact hI.word_ne (nowhere_of_hand hs (by simp)) hn hss ho' hoff
  refine ⟨.word slot off v :: (ν t).filter fun f => !f.gone slot off v,
    hI.kept hA (hI.toSound.store hslot hoff hm fun g hself hg hgz => ?_) (fun _ => rfl) (.inl hprompt) fun f hf => ?_,
    hpost _ List.mem_cons_self fun f hf hg => List.mem_cons_of_mem _ (List.mem_filter.2 ⟨hf, by simp [hg]⟩)⟩
  · rcases hsigned g hself hg hgz with h | ⟨-, -, hst, hfr⟩
    · exact ⟨hI.signed t slot g h hgz, fun s' h' => hI.single t s' slot g h' h hgz⟩
    · exact ⟨hst, fun s' h' => absurd h' (hfr s')⟩
  · rcases List.mem_cons.1 hf with rfl | hf
    · exact ⟨hslot, hoff, hv⟩
    · obtain ⟨hf, hg⟩ := List.mem_filter.1 hf
      refine (hI.known t f hf).still hA (fun _ h => h) (fun s off' v' he hs ho' => ?_) (fun _ h => h) (fun g he s hs => ?_) rfl
      · subst he
        refine hword s off' hs ho' ?_
        by_contra hno
        push Not at hno
        simp [Fact.gone, hno.1, hno.2] at hg
      · subst he
        by_cases hss : s = slot
        · subst hss
          by_cases hgz : g = 0
          · exact .inr hgz
          · rcases hsigned g hs.2.1 hs.2.2 hgz with h | ⟨h1, h2, -⟩
            · exact .inl h
            · simp [Fact.gone, h1, h2] at hg
        · exact .inl (hs.of_words hs.1 fun off' ho' => hword s off' hs.1 ho' (.inl hss))

/-! ### Steps on the lists -/

omit [DecidableEq T] in
theorem shared_afa {p : Pr} {site site' : Site Pr} {r : ℤ} (h : shared p (.afa a slot v) site = some (r, site')) :
    r = site.mem slot ∧ site'.mem = setSlot site.mem slot (site.mem slot + v) := by
  simp only [shared, seq] at h
  split at h
  · cases h
    exact ⟨rfl, rfl⟩
  · cases h

omit [DecidableEq T] in
/-- A `DWCAS` that fails found something else. -/
theorem shared_dwcas_failed {p : Pr} {role : Role} {before after : DWORD} {site site' : Site Pr}
    (h : shared p (.dwcas role a slot before after) site = some (false, site')) :
    site.mem slot ≠ before.low ∨ site.mem (slot + 1) ≠ before.high := by
  simp only [shared, seq] at h
  split at h
  · split at h
    · cases h
    · next hne => exact not_and_or.1 hne
  · cases h

theorem outline_afa {post : ℤ → List Fact → Prop} (hprompt : .prompt ∈ n)
    (hpost : ∀ g n', n ⊆ n' → .stamp g ∈ n' → .fresh g ∈ n' → post g n') : (inside start proc).outline t (afa a ID_CNTR 1) post n := by
  rintro w ν hI rfl - (g : ℤ) w' h
  obtain ⟨site, hs, rfl⟩ := stage_machine h
  obtain ⟨hg, hm⟩ := shared_afa hs
  have hafter : w.after t site (.afa a ID_CNTR 1) g = ⟨site, w.custody, Function.update w.stamps g (.hand t), w.log⟩ := by
    simp only [Yard.after, if_true]
  have hm : site.mem = setSlot w.mem ID_CNTR (g + 1) := by rw [hm, hg]
  have hm' : ∀ a, a ≠ ID_CNTR → site.mem a = w.mem a := fun a ha => by rw [hm, setSlot_ne _ _ ha]
  have hword : ∀ s, w.custody s = .hand t → ∀ off, 0 ≤ off ∧ off < 4 → site.mem (s + off) = w.mem (s + off) :=
    fun s hs off ho => hm' _ (hI.header_ne (nowhere_of_hand hs (by simp)) ho.1 (by decide))
  have hunborn : w.stamps g = .unborn := hI.unborn g hg.ge
  have hA : Aside start w ⟨site, w.custody, Function.update w.stamps g (.hand t), w.log⟩ t := .afa hI.toSound hg.symm hm
  have hsigned : ∀ s g', (⟨site, w.custody, Function.update w.stamps g (.hand t), w.log⟩ : Yard Pr T).Signed t s g' → w.Signed t s g' :=
    fun s g' h => h.of_words h.1 (hword s h.1)
  rw [hafter]
  refine ⟨.stamp g :: .fresh g :: ν t, hI.kept hA (hI.toSound.afa hg.symm hm) (fun _ => rfl) (.inl hprompt) fun f hf => ?_,
    hpost g _ (fun f hf => by simp [hf]) (by simp) (by simp)⟩
  have hgz : g ≠ 0 := by
    rw [hg]
    exact hI.positive.ne'
  rcases List.mem_cons.1 hf with rfl | hf
  · exact Function.update_self _ _ _
  · rcases List.mem_cons.1 hf with rfl | hf
    · refine ⟨hgz, fun s hs => ?_⟩
      rw [hI.signed t s g (hsigned s g hs) hgz] at hunborn
      cases hunborn
    · refine (hI.known t f hf).still hA (fun _ h => h) (fun s off v _ hs ho => hword s hs off ho) (fun g' hg' => ?_)
        (fun g' _ s h => .inl (hsigned s g' h)) rfl
      refine (Function.update_of_ne ?_ _ _).trans hg'
      rintro rfl
      rw [hunborn] at hg'
      cases hg'

theorem outline_carve {post : Bool → List Fact → Prop} {new : ℤ} (hnew : new = old + size) (hprompt : .prompt ∈ n) (hdid : .did l ∈ n)
    (hsize : 4 ≤ size) (hdone : old ≠ 0 → post true [.prompt, .hand old, .word old 1 0, .did (l ++ [.carve old size])])
    (hfailed : post false n) :
    (inside start proc).outline t (cas a DATA_ALLOC old new) post n := by
  subst hnew
  rintro w ν hI rfl - r w' h
  obtain ⟨site, hs, rfl⟩ := stage_machine h
  rcases shared_cas hs with ⟨rfl, hold, hm⟩ | ⟨rfl, -, hm⟩
  · have hafter : w.after t site (.cas a DATA_ALLOC old (old + size)) true =
        ⟨site, Function.update w.custody old (.hand t), w.stamps, w.log ++ [(t, .carve old size)]⟩ := by
      simp only [Yard.after, if_true, add_sub_cancel_left]
    have hA : Aside start w ⟨site, Function.update w.custody old (.hand t), w.stamps, w.log ++ [(t, .carve old size)]⟩ t :=
      .carve hI.toSound hold hm
    have halloc : HDR_END ≤ old := hold ▸ hI.alloc
    rw [hafter]
    refine ⟨_, hI.kept hA (hI.toSound.carve hold hsize hm) (fun i => ?_) (.inl hprompt) fun f hf => ?_,
      hdone (by simp only [HDR_END] at halloc; omega)⟩
    · exact Yard.history_other _ _ rfl
    · have hhand : Function.update w.custody old (.hand t) old = .hand t := Function.update_self _ _ _
      simp only [List.mem_cons, List.not_mem_nil, or_false] at hf
      rcases hf with rfl | rfl | rfl | rfl
      · trivial
      · exact hhand
      · refine ⟨hhand, ⟨by decide, by decide⟩, ?_⟩
        change site.mem (old + 1) = 0
        rw [hm, setSlot_ne _ _ (by simp only [HDR_END, DATA_ALLOC] at *; omega)]
        exact hI.blank _ (hold.le.trans (by omega))
      · refine (Yard.deeds_append _ _).trans ?_
        rw [hI.known t _ hdid, during, if_pos rfl]
  · exact ⟨_, hI.calm (fun a _ => congrFun hm a) (.inr rfl) fun f hf => .inl hf, hfailed⟩

/-- A `DWCAS` that puts a node of the thread behind the node that the tail word led to. -/
theorem outline_link {post : Bool → List Fact → Prop} (hprompt : .prompt ∈ n) (hdid : .did l ∈ n) (hself : .word slot 0 slot ∈ n)
    (hword : .word slot 1 g ∈ n) (hstamp : .stamp g ∈ n) (htail : .tail i h ∈ n) (hnode : .node next ∈ n)
    (hdone : ∀ e : Entry, e.slot = slot → e.stamp = g → (∀ d, .word slot i.payload d ∈ n → e.value = d) →
      post true [.owes i next h, .follow i next h Entry.slot slot, .follow i next h Entry.stamp g, .did (l ++ [.link i e])])
    (hfailed : post false n) : (inside start proc).outline t (dwcas (.link i.tail) a next ⟨next, h⟩ ⟨slot, g⟩) post n := by
  rintro w ν hI rfl - r w' hst
  obtain ⟨site, hs, rfl⟩ := stage_machine hst
  rcases shared_dwcas hs with ⟨rfl, hlow, hhigh, hm⟩ | ⟨rfl, hm⟩
  · have hafter : w.after t site (.dwcas (.link i.tail) a next ⟨next, h⟩ ⟨slot, g⟩) true = w.link site t i slot g := by
      change (⟨site, Function.update w.custody slot (.list (ofTail i.tail)), _, _⟩ : Yard Pr T) = _
      rw [ofTail_tail]
    have hlow : w.mem next = next := hlow
    have hhigh : w.mem (next + 1) = h := hhigh
    obtain ⟨hslot, -, hw₀⟩ := hI.known t _ hself
    obtain ⟨-, -, hw₁⟩ := hI.known t _ hword
    rw [add_zero] at hw₀
    obtain ⟨k, x, hx, hxh, hpast⟩ := hI.known t _ htail
    have hlinked : w.stamps h = .link i := by
      rw [← hxh]
      exact (hI.holding i).stamped k x hx
    have hhz : h ≠ 0 := by
      rintro rfl
      rw [hI.zero] at hlinked
      cases hlinked
    -- the node is in a list, since its stamp is that of a link
    have hR : Ready start w t i k x slot g ∧ x.slot = next := by
      cases hc : w.custody next with
      | nowhere => exact absurd hc (hI.known t _ hnode)
      | hand u =>
        have := hI.signed u next h ⟨hc, hlow, hhigh⟩ hhz
        rw [hlinked] at this
        cases this
      | list j =>
        obtain ⟨k', x', hk', hx', rfl⟩ := ((hI.holding j).custody next).1 hc
        obtain ⟨hlast, hst⟩ := (hI.holding j).laid.last hk' hx' hlow
        have hij := (hI.holding j).stamped k' x' hx'
        rw [← hst, hhigh, hlinked] at hij
        obtain rfl := Stamp.link.inj hij
        obtain ⟨rfl, rfl⟩ := (hI.holding i).laid.place hx hx' (hxh.trans (hhigh.symm.trans hst))
        exact ⟨⟨hk', hx, hlast, ⟨hslot, hw₀, hw₁⟩, hI.known t _ hstamp⟩, rfl⟩
    obtain ⟨hR, rfl⟩ := hR
    have hhist : (w.link site t i slot g).history start i = w.history start i ++ [⟨slot, g, w.mem (slot + i.payload)⟩] := Yard.history_link
    have hlen := length_of_last hR.entry hR.last
    have hold : ((w.link site t i slot g).history start i)[k]? = some x := by
      rw [hhist]
      exact getElem?_of_prefix (List.prefix_append _ _) hR.entry
    have hnew : ((w.link site t i slot g).history start i)[k + 1]? = some ⟨slot, g, w.mem (slot + i.payload)⟩ := by
      rw [hhist, ← hlen]
      exact getElem?_length
    rw [hafter]
    refine ⟨_, hI.link hR hpast hprompt hm (by simp) (fun j s a ho => ?_) fun f hf => ?_,
      hdone ⟨slot, g, w.mem (slot + i.payload)⟩ rfl rfl fun d hd => (hI.known t _ hd).2.2⟩
    · simp only [List.mem_cons, Fact.owes.injEq, List.not_mem_nil, or_false, reduceCtorEq] at ho
      exact ⟨ho.1, ho.2.1, ho.2.2.trans hxh.symm⟩
    · simp only [List.mem_cons, List.not_mem_nil, or_false] at hf
      rcases hf with rfl | rfl | rfl | rfl
      · trivial
      · exact ⟨k, x, hold, hxh, fun _ _ => ⟨_, hnew, rfl⟩⟩
      · exact ⟨k, x, hold, hxh, fun _ _ => ⟨_, hnew, rfl⟩⟩
      · refine (Yard.deeds_append _ _).trans ?_
        rw [hI.known t _ hdid, during, if_pos rfl]
  · exact ⟨_, hI.calm (fun a _ => congrFun hm a) (.inr rfl) fun f hf => .inl hf, hfailed⟩

omit [DecidableEq Pr] in
/-- What a `DWCAS` on the tail word does that knows the next entry. -/
theorem Inv.late (hI : Inv start w ν) (hslot : .follow i next h Entry.slot v ∈ ν t) (hstamp : .follow i next h Entry.stamp g ∈ ν t)
    (hlow : w.mem i.tail = next) (hhigh : w.mem (i.tail + 1) = h) :
    ∃ k x y, Late start w i k x y ∧ y.slot = v ∧ y.stamp = g ∧ x.stamp = h := by
  obtain ⟨k, x, hx, hxh, hnext⟩ := hI.known t _ hslot
  obtain ⟨k', x', hx', hxh', hnext'⟩ := hI.known t _ hstamp
  have hL := (hI.holding i).laid
  obtain ⟨rfl, rfl⟩ := hL.place hx hx' (hxh.trans hxh'.symm)
  obtain ⟨-, hk, htail⟩ := hL.at_tail hL.tail hx (hhigh.trans hxh.symm)
  have hnode : x.slot = next := htail.symm.trans hlow
  obtain ⟨y, hy, hyv⟩ := hnext hnode hk
  obtain ⟨y', hy', hyg⟩ := hnext' hnode hk
  obtain rfl := Option.some.inj (hy.symm.trans hy')
  exact ⟨k, x, y, ⟨hk, hx, hy, hhigh.trans hxh.symm⟩, hyv, hyg, hxh⟩

omit [DecidableEq Pr] in
/-- What a thread knows stays true when it moves a tail word. -/
theorem Fact.Holds.swung {z z' : ℤ} (hf : f.Holds start w t) (hS : Sound start w)
    (hm : site.mem = setSlot (setSlot w.mem i.tail z) (i.tail + 1) z') (hA : Aside start w ⟨site, w.custody, w.stamps, w.log⟩ t) :
    f.Holds start ⟨site, w.custody, w.stamps, w.log⟩ t := by
  obtain ⟨-, -, -, -, -, -, -, hend, -⟩ := QId.bounds i
  have hword : ∀ s, w.custody s = .hand t → ∀ off, 0 ≤ off ∧ off < 4 → site.mem (s + off) = w.mem (s + off) := by
    intro s hs off ho
    have hn := nowhere_of_hand hs (by simp)
    rw [hm]
    exact setSlot_pair_ne (hS.header_ne hn ho.1 (by omega)) (hS.header_ne hn ho.1 hend)
  exact hf.still hA (fun _ h => h) (fun s off v _ hs ho => hword s hs off ho) (fun _ h => h)
    (fun g _ s h => .inl (h.of_words h.1 (hword s h.1))) rfl

/-- A `DWCAS` that moves the tail word for another thread. -/
theorem outline_help {post : Bool → List Fact → Prop} (hprompt : .prompt ∈ n) (hslot : .follow i next h Entry.slot v ∈ n)
    (hstamp : .follow i next h Entry.stamp g ∈ n) (hpost : ∀ b, post b n) :
    (inside start proc).outline t (dwcas (.swing i.tail) a i.tail ⟨next, h⟩ ⟨v, g⟩) post n := by
  rintro w ν hI rfl - r w' hst
  obtain ⟨site, hs, rfl⟩ := stage_machine hst
  have hafter : w.after t site (.dwcas (.swing i.tail) a i.tail ⟨next, h⟩ ⟨v, g⟩) r = ⟨site, w.custody, w.stamps, w.log⟩ := by
    cases r <;> rfl
  rw [hafter]
  rcases shared_dwcas hs with ⟨-, hlow, hhigh, hm⟩ | ⟨-, hm⟩
  · obtain ⟨k, x, y, hL, rfl, rfl, -⟩ := hI.late hslot hstamp hlow hhigh
    have hA : Aside start w ⟨site, w.custody, w.stamps, w.log⟩ t := .swing hI.toSound hL hm
    exact ⟨_, hI.kept hA (hI.toSound.swing hL hm) (fun _ => rfl) (.inr rfl) fun f hf => (hI.known t f hf).swung hI.toSound hm hA, hpost r⟩
  · exact ⟨_, hI.calm (fun a _ => congrFun hm a) (.inr rfl) fun f hf => .inl hf, hpost r⟩

/-- A `DWCAS` that moves the tail word after a link of its own; if it fails, another thread has moved it. -/
theorem outline_swing {post : Bool → List Fact → Prop} (howes : .owes i next h ∈ n) (hslot : .follow i next h Entry.slot v ∈ n)
    (hstamp : .follow i next h Entry.stamp g ∈ n) (hdid : .did l ∈ n) (hpost : ∀ b, post b [.prompt, .did l]) :
    (inside start proc).outline t (dwcas (.swing i.tail) a i.tail ⟨next, h⟩ ⟨v, g⟩) post n := by
  rintro w ν hI rfl - r w' hst
  obtain ⟨site, hs, rfl⟩ := stage_machine hst
  have hafter : w.after t site (.dwcas (.swing i.tail) a i.tail ⟨next, h⟩ ⟨v, g⟩) r = ⟨site, w.custody, w.stamps, w.log⟩ := by
    cases r <;> rfl
  have hknown : ∀ f ∈ [Fact.prompt, .did l], f.Holds start (⟨site, w.custody, w.stamps, w.log⟩ : Yard Pr T) t := by
    intro f hf
    simp only [List.mem_cons, List.not_mem_nil, or_false] at hf
    rcases hf with rfl | rfl
    · trivial
    · exact hI.known t _ hdid
  rw [hafter]
  rcases shared_dwcas hs with ⟨-, hlow, hhigh, hm⟩ | ⟨rfl, hm⟩
  · obtain ⟨k, x, y, hL, rfl, rfl, hxh⟩ := hI.late hslot hstamp hlow hhigh
    have hA : Aside start w ⟨site, w.custody, w.stamps, w.log⟩ t := .swing hI.toSound hL hm
    refine ⟨_, hI.paid hA (hI.toSound.swing hL hm) (fun _ => rfl) howes (fun k' x' hx' _ _ hst _ => ?_) hknown, hpost r⟩
    obtain ⟨rfl, -⟩ := (hI.holding i).laid.place hL.entry hx' (hxh.trans hst.symm)
    refine ⟨k + 1, y, le_rfl, hL.next, ?_, ?_⟩
    · change site.mem i.tail = y.slot
      rw [hm, setSlot_ne _ _ (by omega), setSlot_same]
    · change site.mem (i.tail + 1) = y.stamp
      rw [hm, setSlot_same]
  · have hne := shared_dwcas_failed hs
    have hA : Aside start w ⟨site, w.custody, w.stamps, w.log⟩ t := .calm hI.toSound fun a _ => congrFun hm a
    refine ⟨_, hI.paid hA (hI.toSound.calm fun a _ => congrFun hm a) (fun _ => rfl) howes (fun k x hx _ hxs hxh hp => ?_) hknown, hpost false⟩
    refine hA.past i _ (hp.next hx ?_)
    rw [hxs, hxh]
    exact hne

/-- A `DWCAS` that removes the dummy, with the counter that was read before the links. -/
theorem outline_unlink {post : Bool → List Fact → Prop} (hprompt : .prompt ∈ n) (hdid : .did l ∈ n) (hbeyond : .beyond i c ref ∈ n)
    (hlink : .glance i c ref Entry.slot link ∈ n)
    (hdone : ∀ y : Entry, (∀ f d, .glance i c ref f d ∈ n → f y = d) → post true [.prompt, .hand ref, .did (l ++ [.unlink i ref y])])
    (hfailed : post false n) : (inside start proc).outline t (dwcas (.unlink i.head) a i.head ⟨ref, c⟩ ⟨link, c + 1⟩) post n := by
  rintro w ν hI rfl - r w' hst
  obtain ⟨site, hs, rfl⟩ := stage_machine hst
  rcases shared_dwcas hs with ⟨rfl, hlow, hhigh, hm⟩ | ⟨rfl, hm⟩
  · have hlow : w.mem i.head = ref := hlow
    have hhigh : w.mem (i.head + 1) = c := hhigh
    obtain ⟨-, hpast⟩ := hI.known t _ hbeyond
    obtain ⟨-, hnext⟩ := hI.known t _ hlink
    obtain ⟨y, hy, rfl⟩ := hnext hhigh hlow
    have hD : Due start w i ref c y := ⟨hlow, hhigh, hy, hpast hhigh hlow⟩
    obtain ⟨-, hstamp, hvalue, -⟩ := hD.found hI.toSound
    have hafter : w.after t site (.dwcas (.unlink i.head) a i.head ⟨ref, c⟩ ⟨y.slot, c + 1⟩) true = w.unlink site t i ref y := by
      simp only [Yard.after, ofHead_head, hstamp, hvalue]
    have hA : Aside start w (w.unlink site t i ref y) t := .unlink hI.toSound hD hm
    rw [hafter]
    refine ⟨_, hI.kept hA (hI.toSound.unlink hD hm) (fun j => ?_) (.inl hprompt) fun f hf => ?_, hdone y fun f d hd => ?_⟩
    · exact Yard.history_other _ _ rfl
    · simp only [List.mem_cons, List.not_mem_nil, or_false] at hf
      rcases hf with rfl | rfl | rfl
      · trivial
      · exact Function.update_self _ _ _
      · refine (Yard.deeds_append _ _).trans ?_
        rw [hI.known t _ hdid, during, if_pos rfl]
    · obtain ⟨-, hd⟩ := hI.known t _ hd
      obtain ⟨y', hy', rfl⟩ := hd hhigh hlow
      obtain rfl := Option.some.inj (hy.symm.trans hy')
      rfl
  · exact ⟨_, hI.calm (fun a _ => congrFun hm a) (.inr rfl) fun f hf => .inl hf, hfailed⟩

theorem outline_begin {k : Call} {post : Unit → List Fact → Prop} (hprompt : .prompt ∈ n) (hpost : post () [.prompt, .did [.begin k]]) :
    (calls start proc).outline t (op (ListOp.begin k)) post n := by
  rintro w ν hI rfl - r w' h
  obtain ⟨-, rfl⟩ := Prod.mk.inj (Option.some.inj h)
  refine ⟨_, hI.kept (.begin k) (hI.toSound.begin k) (fun i => ?_) (.inl hprompt) fun f hf => ?_, hpost⟩
  · exact Yard.history_other _ _ rfl
  · simp only [List.mem_cons, List.not_mem_nil, or_false] at hf
    rcases hf with rfl | rfl
    · trivial
    · refine (Yard.deeds_append _ _).trans ?_
      rw [during, if_pos rfl]

end

end LibShr.Lists
