import LibShr.Seq.Extents

/-!
# Growing the object

`insure_fit` asks for slots that the handle's extent does not cover. A round of its loop may map what
others have added to the object, finish a growth that another process left half done, or start a
growth of its own. After the first two the extent reaches behind the first slot, so the third comes
once at most, and is enough.
-/

namespace LibShr

open Prog

/-- The extent covers the object, and the object's size, the size that is advertised and the length of
its file agree. -/
structure Settled (m : ℤ → ℤ) (e : Mapping) : Prop where
  extent : e.cur = m SIZE
  advertised : m SIZE * 8 = m EXPAND_SIZE
  file : e.length = m EXPAND_SIZE

/-- What the rounds of `insure_fit` keep. -/
structure Rounds (w : World) (start slots : ℤ) (m : ℤ → ℤ) (e : Mapping) : Prop where
  grown : Grown True w.mem w.ext m e
  /-- Nothing but the mapping has changed, or the last round extended the file. -/
  settled : m = w.mem ∧ e.length = w.ext.length ∨ Settled m e
  /-- A growth of this process is the last. -/
  once : m EXPAND_SIZE = w.mem EXPAND_SIZE ∨
    start + slots < e.cur ∧ m EXPAND_SIZE ≤ w.mem EXPAND_SIZE + (slots * 8 + PAGE_SIZE)

section
variable {tot : Prop} {w : World} {start slots : ℤ} {m : ℤ → ℤ} {e : Mapping}

/-- The size this process asks for covers the slots, and is less than a page above what they need. -/
theorem Geo.asked_enough (hg : Geo True m e) (slots : ℤ) :
    e.cur + slots < calculateReallocSize e.cur slots / 8 ∧ calculateReallocSize e.cur slots ≤ e.cur * 8 + (slots * 8 + PAGE_SIZE) := by
  have := hg.cur_mod
  simp only [calculateReallocSize, PAGE_SIZE]
  omega

theorem Rounds.resize (h : Rounds w start slots m e) (hlt : e.cur ≤ start + slots) (hne : e.cur ≠ m 2) :
    Rounds w start slots m (e.remap (m 2)) where
  grown := h.grown.trans (.remap h.grown.geo (h.grown.geo.map_ok trivial _ _))
  settled := by
    rcases h.settled with hsame | hset
    · exact .inl hsame
    · exact absurd hset.extent hne
  once := by
    rcases h.once with hsame | hdone
    · exact .inl hsame
    · omega

theorem Rounds.extend (h : Rounds w start slots m e) (hs : 0 < slots) (hsz : start < w.mem SIZE) (hlt : e.cur ≤ start + slots)
    (hc : e.cur = m 2) {m₁ m' : ℤ → ℤ} (hm₁ : m₁ = LibShr.advertised m e.cur slots) (hm' : m' = setSlot m₁ 2 (m₁ 3 / 8)) :
    Rounds w start slots m' ((e.truncate (m₁ 3)).remap (m' 2)) ∧ e.cur < m' 2 := by
  have hg := h.grown.geo
  obtain ⟨hgr, h₂, h₃⟩ := Grown.advertised (w := (w.setMem m).setExt e) hg hs hc
  change Grown True m e (LibShr.advertised m e.cur slots) e at hgr
  change LibShr.advertised m e.cur slots 2 = m 2 at h₂
  change m 2 * 8 < LibShr.advertised m e.cur slots 3 at h₃
  rw [← hm₁] at hgr h₂ h₃
  have hmod := hgr.geo.exp_mod
  have hm'₂ : m' 2 = m₁ 3 / 8 := by rw [hm', setSlot_same]
  have hm'₃ : m' 3 = m₁ 3 := by rw [hm', setSlot_ne _ _ (by omega)]
  have hgr' : Grown True m e m' (e.truncate (m₁ 3)) := by
    rw [hm']
    exact (hgr.trans (Grown.truncate hgr.geo (m₁ 3))).trans (.setSize (Grown.truncate hgr.geo (m₁ 3)).geo)
  refine ⟨⟨h.grown.trans (hgr'.trans (.remap hgr'.geo (hgr'.geo.map_ok trivial _ _))), .inr ⟨rfl, ?_, ?_⟩, ?_⟩, by omega⟩
  · simp only [SIZE, EXPAND_SIZE]
    omega
  · exact hm'₃.symm
  · have hsame : m 3 = w.mem 3 := by
      rcases h.once with hsame | hdone
      · exact hsame
      · omega
    by_cases hadv : m 3 = m 2 * 8
    · -- its own growth: the extent already reached behind the first slot
      obtain ⟨hmore, hbound⟩ := hg.asked_enough slots
      have hle := h.grown.size_le
      have hask : m₁ 3 = calculateReallocSize e.cur slots := by rw [hm₁, LibShr.advertised, if_pos hadv, setSlot_same]
      simp only [SIZE] at hsz
      refine .inr ⟨?_, ?_⟩
      · change start + slots < m' 2
        omega
      · simp only [EXPAND_SIZE, PAGE_SIZE] at hbound ⊢
        omega
    · left
      rw [LibShr.advertised, if_neg hadv] at hm₁
      simp only [EXPAND_SIZE]
      rw [hm'₃, hm₁, hsame]

/-- **The growth loop ends and grows enough.** The slots are mapped in the end; and unless the object was
left as it was, the handle, the header and the file agree on its size. -/
theorem growth_ends (hg : Geo True w.mem w.ext) (h₀ : BASE ≤ start) (hsz : start < w.mem SIZE) (hs : 0 < slots) (hlim : slots < 2 ^ 48) :
    ∃ w', Runs seq (insureFit start slots) w ⟨.ok, start, w'.ext.cur⟩ w' ∧ start + slots < w'.ext.cur ∧
      (w'.mem = w.mem ∧ w'.ext.length = w.ext.length ∨
        w'.ext.cur = w'.mem SIZE ∧ w'.mem SIZE * 8 = w'.mem EXPAND_SIZE ∧ w'.ext.length = w'.mem EXPAND_SIZE) ∧
      w'.mem EXPAND_SIZE < w.mem EXPAND_SIZE + 2 ^ 52 := by
  have hspec : Wp True (insureFit start slots) (fun v w' => v = ⟨.ok, start, w'.ext.cur⟩ ∧ start + slots < w'.ext.cur ∧
      Rounds w start slots w'.mem w'.ext) w := by
    refine wp_insureFit_inv h₀ hs (Rounds w start slots) ⟨.refl hg, .inl ⟨rfl, rfl⟩, .inl rfl⟩ (fun m e h hlt => ?_)
      fun m e h hlt => ⟨rfl, hlt, h⟩
    have hgeo := h.grown.geo
    by_cases hc : e.cur = m 2
    · obtain ⟨h', hmore⟩ := h.extend hs hsz hlt hc rfl rfl
      refine (wp_expand_current (w := (w.setMem m).setExt e) hgeo hs hc rfl rfl rfl).2 ?_
      have hmap : ∀ x y, (e.truncate x).map 0 y = .ok := fun _ y => hgeo.map_ok trivial 0 y
      rw [if_pos (hgeo.trunc_ok trivial 0), if_pos (hmap _ _)]
      exact .inr ⟨_, _, rfl, h', hmore, rfl⟩
    · refine (wp_expand_stale (w := (w.setMem m).setExt e) hgeo hs hc).2 ?_
      refine (wp_resizeExtent (w := (w.setMem m).setExt e) hgeo).2 ?_
      rw [if_neg hc, if_pos (hgeo.map_ok trivial _ _)]
      have hle := hgeo.cur_le
      exact .inr ⟨m, _, rfl, h.resize hlt hc, lt_of_le_of_ne hle hc, rfl⟩
  obtain ⟨v, w', hr, rfl, hlt, h⟩ := (wp_iff_runs trivial).1 hspec
  refine ⟨w', hr, hlt, h.settled.imp_right fun hset => ⟨hset.extent, hset.advertised, hset.file⟩, ?_⟩
  rcases h.once with hsame | ⟨-, hbound⟩
  · omega
  · simp only [PAGE_SIZE] at hbound
    omega

/-- An object of one page, where a process that was to extend it to two has advertised their size and died. -/
def halfGrown : World where
  mem := fun a => if a = SIZE then 512 else if a = EXPAND_SIZE then 8192 else 0
  sem := fun _ => 0
  ext := ⟨512, [], 4096, fun _ _ => .ok, fun _ => true⟩
  accessors := 0
  clock := fun _ => ⟨0, 0⟩
  malloc := fun _ => true
  signals := []

theorem growth_ends_half_grown : ∃ w', Runs seq (insureFit 500 600) halfGrown ⟨.ok, 500, w'.ext.cur⟩ w' ∧ 500 + 600 < w'.ext.cur ∧
    (w'.mem = halfGrown.mem ∧ w'.ext.length = halfGrown.ext.length ∨
      w'.ext.cur = w'.mem SIZE ∧ w'.mem SIZE * 8 = w'.mem EXPAND_SIZE ∧ w'.ext.length = w'.mem EXPAND_SIZE) ∧
    w'.mem EXPAND_SIZE < halfGrown.mem EXPAND_SIZE + 2 ^ 52 :=
  growth_ends ⟨by decide, by decide, by decide, by decide, by decide, by decide, fun _ _ _ => rfl, fun _ _ => rfl, fun _ _ _ => .inl trivial,
    .inl trivial⟩ (by decide) (by decide) (by decide) (by decide)

end

end LibShr
