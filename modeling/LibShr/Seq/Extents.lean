import LibShr.Seq.Rules
import LibShr.Model.SharedInt

/-!
# Extents of one process: `insure_in_range` and `insure_fit`

`Geo` is what holds of the sizes in the header and of the mapping whenever no other process
runs: both are whole pages, and the mapping may be older, hence smaller, than the object. Where
`env`, no call to the system fails. Without that the only limit assumed of the system is the 47-bit
user address space, on what it can map.
-/

namespace LibShr

open Prog

/-- The sizes of the object and of the handle's current extent. -/
structure Geo (env : Prop) (m : ℤ → ℤ) (e : Mapping) : Prop where
  size_mod : m 2 % 512 = 0
  cur_mod : e.cur % 512 = 0
  cur_pos : 512 ≤ e.cur
  cur_le : e.cur ≤ m 2
  exp_mod : m 3 % 4096 = 0
  exp_le : m 2 * 8 ≤ m 3
  map_ok : env → ∀ n s, e.map n s = .ok
  trunc_ok : env → ∀ n, e.trunc n = true
  map_lim : ∀ n s, e.map n s = .ok → env ∨ s * 8 < 2 ^ 47
  cur_lim : env ∨ e.cur * 8 < 2 ^ 47

/-- What the extent functions may change: the two size words and the mapping, both growing. -/
structure Grown (env : Prop) (m : ℤ → ℤ) (e : Mapping) (m' : ℤ → ℤ) (e' : Mapping) : Prop where
  geo : Geo env m' e'
  cur_le : e.cur ≤ e'.cur
  size_le : m 2 ≤ m' 2
  same : ∀ a, a ≠ 2 → a ≠ 3 → m' a = m a

section
variable {env : Prop} {m m' m'' : ℤ → ℤ} {e e' e'' : Mapping}

/-- Only the two size words of the memory matter. -/
theorem Geo.congr (hg : Geo env m e) (h₂ : m' 2 = m 2) (h₃ : m' 3 = m 3) : Geo env m' e where
  size_mod := h₂ ▸ hg.size_mod
  cur_mod := hg.cur_mod
  cur_pos := hg.cur_pos
  cur_le := h₂ ▸ hg.cur_le
  exp_mod := h₃ ▸ hg.exp_mod
  exp_le := h₂ ▸ h₃ ▸ hg.exp_le
  map_ok := hg.map_ok
  trunc_ok := hg.trunc_ok
  map_lim := hg.map_lim
  cur_lim := hg.cur_lim

theorem Grown.refl (hg : Geo env m e) : Grown env m e m e :=
  ⟨hg, le_refl _, le_refl _, fun _ _ _ => rfl⟩

theorem Grown.trans (h₁ : Grown env m e m' e') (h₂ : Grown env m' e' m'' e'') : Grown env m e m'' e'' where
  geo := h₂.geo
  cur_le := h₁.cur_le.trans h₂.cur_le
  size_le := h₁.size_le.trans h₂.size_le
  same := fun a h h' => (h₂.same a h h').trans (h₁.same a h h')

/-- Mapping the object anew at its present size. -/
theorem Grown.remap (hg : Geo env m e) (hm : e.map 0 (m 2) = .ok) : Grown env m e m (e.remap (m 2)) where
  geo := { hg with
    cur_mod := hg.size_mod
    cur_pos := hg.cur_pos.trans hg.cur_le
    cur_le := le_refl _
    map_ok := fun ht n s => hg.map_ok ht _ s
    map_lim := fun n s => hg.map_lim _ s
    cur_lim := hg.map_lim 0 _ hm }
  cur_le := hg.cur_le
  size_le := le_refl _
  same := fun _ _ _ => rfl

theorem Grown.refuse (hg : Geo env m e) : Grown env m e m e.refuse where
  geo := { hg with
    map_ok := fun ht n s => hg.map_ok ht _ s
    map_lim := fun n s => hg.map_lim _ s }
  cur_le := le_refl _
  size_le := le_refl _
  same := fun _ _ _ => rfl

theorem Grown.truncate (hg : Geo env m e) (n : ℤ) : Grown env m e m (e.truncate n) where
  geo := { hg with trunc_ok := fun ht n => hg.trunc_ok ht _ }
  cur_le := le_refl _
  size_le := le_refl _
  same := fun _ _ _ => rfl

theorem Grown.truncFail (hg : Geo env m e) : Grown env m e m e.truncFail where
  geo := { hg with trunc_ok := fun ht n => hg.trunc_ok ht _ }
  cur_le := le_refl _
  size_le := le_refl _
  same := fun _ _ _ => rfl

/-- Raising the advertised expansion size. -/
theorem Grown.setExpand (hg : Geo env m e) {x : ℤ} (hx : x % 4096 = 0) (hle : m 2 * 8 ≤ x) :
    Grown env m e (setSlot m 3 x) e where
  geo := { hg with
    size_mod := by simpa only [setSlot_ne m x (show (2 : ℤ) ≠ 3 by omega)] using hg.size_mod
    cur_le := by simpa only [setSlot_ne m x (show (2 : ℤ) ≠ 3 by omega)] using hg.cur_le
    exp_mod := by simpa only [setSlot_same] using hx
    exp_le := by simpa only [setSlot_same, setSlot_ne m x (show (2 : ℤ) ≠ 3 by omega)] using hle }
  cur_le := le_refl _
  size_le := by rw [setSlot_ne m x (by omega)]
  same := fun a _ h₃ => setSlot_ne m x h₃

/-- Publishing the expanded size. -/
theorem Grown.setSize (hg : Geo env m e) : Grown env m e (setSlot m 2 (m 3 / 8)) e where
  geo := by
    have := hg.exp_mod
    have := hg.exp_le
    have := hg.cur_le
    exact { hg with
      size_mod := by rw [setSlot_same]; omega
      cur_le := by rw [setSlot_same]; omega
      exp_mod := by rwa [setSlot_ne m _ (by omega)]
      exp_le := by rw [setSlot_same, setSlot_ne m _ (by omega)]; omega }
  cur_le := le_refl _
  size_le := by
    have := hg.exp_le
    rw [setSlot_same]
    omega
  same := fun a h₂ _ => setSlot_ne m _ h₂

end

/-- The extents after `insure_in_range` of a slot has succeeded. -/
def Mapping.see (e : Mapping) (size slot : ℤ) : Mapping :=
  if slot < e.cur ∨ e.cur = size then e else e.remap size

theorem Mapping.see_of {e : Mapping} {size slot : ℤ} (h : slot < e.cur ∨ e.cur = size) : e.see size slot = e :=
  if_pos h

theorem Mapping.see_not {e : Mapping} {size slot : ℤ} (h : ¬(slot < e.cur ∨ e.cur = size)) :
    e.see size slot = e.remap size :=
  if_neg h

theorem Mapping.see_cur {e : Mapping} {size slot : ℤ} (h : ¬slot < e.cur) : (e.see size slot).cur = size := by
  by_cases hs : slot < e.cur ∨ e.cur = size
  · rw [see_of hs]
    exact hs.resolve_left h
  · rw [see_not hs]
    rfl

theorem Mapping.see_see {env : Prop} {m : ℤ → ℤ} {e : Mapping} {a b : ℤ} (hg : Geo env m e) (h : 0 ≤ b) :
    (e.see (m 2) a).see (m 2) (a + b) = e.see (m 2) (a + b) := by
  have := hg.cur_le
  by_cases ha : a < e.cur ∨ e.cur = m 2
  · rw [Mapping.see_of ha]
  · have hr : (e.remap (m 2)).see (m 2) (a + b) = e.remap (m 2) := Mapping.see_of (.inr rfl)
    rw [Mapping.see_not ha, hr, Mapping.see_not (by omega)]

/-- `insure_in_range` of a slot of the object will succeed: the slot is mapped, or the next call that
maps the object does not fail. -/
def CanMap (m : ℤ → ℤ) (e : Mapping) (slot : ℤ) : Prop :=
  slot < e.cur ∨ e.cur = m 2 ∨ e.map 0 (m 2) = .ok

theorem CanMap.congr {m m' : ℤ → ℤ} {e : Mapping} {slot : ℤ} (h : m' 2 = m 2) (hc : CanMap m e slot) :
    CanMap m' e slot := by
  rwa [CanMap, h]

theorem Geo.canMap {env : Prop} {m : ℤ → ℤ} {e : Mapping} (hg : Geo env m e) (h : env) (slot : ℤ) :
    CanMap m e slot :=
  .inr (.inr (hg.map_ok h 0 _))

section
variable {tot env : Prop} {w : World} {Q : View → World → Prop}

/-- `resize_extent` of the current extent. -/
theorem wp_resizeExtent (hg : Geo env w.mem w.ext) :
    Wp tot (resizeExtent w.ext.cur) Q w ↔
      if w.ext.cur = w.mem 2 then Q ⟨.ok, 0, w.ext.cur⟩ w
      else if w.ext.map 0 (w.mem 2) = .ok then
        Q ⟨.ok, 0, w.mem 2⟩ (w.setExt (w.ext.remap (w.mem 2)))
      else Q ⟨w.ext.map 0 (w.mem 2), 0, w.ext.cur⟩ (w.setExt w.ext.refuse) := by
  have h₀ := hg.cur_pos
  simp (disch := omega) only [resizeExtent, SIZE, wp_bind, wp_current, wp_load, wp_ite, wp_pure,
    wp_createExtent, ne_eq, not_true_eq_false, if_false]
  by_cases h : w.ext.cur = w.mem 2
  · simp only [h, if_true]
  · by_cases hm : w.ext.map 0 (w.mem 2) = .ok <;>
      simp [h, hm, Mapping.remap, wp_bind, wp_current, wp_pure]

/-- **`insure_in_range`, exactly.** The slot is mapped already, or one attempt is made to map the
object at its present size; a slot beyond the object is let through. -/
theorem wp_insureInRange (hg : Geo env w.mem w.ext) {slot : ℤ} (hs : 0 < slot) :
    Wp tot (insureInRange slot) Q w ↔
      if slot < w.ext.cur ∨ w.ext.cur = w.mem 2 then Q ⟨.ok, slot, w.ext.cur⟩ w
      else if w.ext.map 0 (w.mem 2) = .ok then
        Q ⟨.ok, slot, w.mem 2⟩ (w.setExt (w.ext.remap (w.mem 2)))
      else Q ⟨w.ext.map 0 (w.mem 2), 0, w.ext.cur⟩ (w.setExt w.ext.refuse) := by
  simp (disch := omega) only [insureInRange, wp_assert, wp_bind, wp_current, wp_ite, wp_pure, wp_resizeExtent hg]
  by_cases h : slot < w.ext.cur
  · simp [h]
  · by_cases hc : w.ext.cur = w.mem 2
    · simp [h, hc, wp_pure]
    · by_cases hm : w.ext.map 0 (w.mem 2) = .ok <;> simp [h, hc, hm, wp_pure]

/-- `insure_in_range` of a slot of the object, by outcome. -/
theorem wp_insureInRange_of (hg : Geo env w.mem w.ext) {slot : ℤ} (hs : 0 < slot) (hsz : slot < w.mem 2)
    (hok : ∀ e, CanMap w.mem w.ext slot → e = w.ext.see (w.mem 2) slot → Grown env w.mem w.ext w.mem e →
      slot < e.cur → Q ⟨.ok, slot, e.cur⟩ (w.setExt e))
    (hfail : ∀ st, ¬CanMap w.mem w.ext slot → st ≠ .ok → w.ext.cur ≤ slot →
      Q ⟨st, 0, w.ext.cur⟩ (w.setExt w.ext.refuse)) :
    Wp tot (insureInRange slot) Q w := by
  rw [wp_insureInRange hg hs]
  split
  · rename_i h
    exact hok w.ext (h.imp id .inl) (if_pos h).symm (.refl hg) (by rcases h with h | h <;> omega)
  · split
    · rename_i h hm
      exact hok _ (.inr (.inr hm)) (if_neg h).symm (.remap hg hm) hsz
    · rename_i h hm
      exact hfail _ (fun hc => by rcases hc with hc | hc | hc <;> simp_all) hm (by omega)

/-- The `ftruncate` loop of `expand`; alone, it needs one round. -/
theorem wp_extendObject {a : ℤ} {Q : Bool → World → Prop} (ha : 3 < a) :
    Wp tot (extendObject a) Q w ↔
      if w.ext.trunc 0 then Q true (w.setExt (w.ext.truncate (w.mem 3)))
      else Q false (w.setExt w.ext.truncFail) := by
  rw [Wp, extendObject, wp_iterate]
  simp (disch := omega) only [wp_bind, EXPAND_SIZE, wp_load, wp_ftruncate]
  split <;> simp only [wp_pure, Sum.elim_inr]

/-- `expand` of an extent that is older than the object maps the object anew. -/
theorem wp_expand_stale (hg : Geo env w.mem w.ext) {slots : ℤ} (hs : 0 < slots) (hne : w.ext.cur ≠ w.mem 2) :
    Wp tot (expand w.ext.cur slots) Q w ↔ Wp tot (resizeExtent w.ext.cur) Q w := by
  have hcur := hg.cur_pos
  simp (disch := omega) only [expand, wp_bind, wp_assert, wp_current, SIZE, wp_load, ne_eq, not_true_eq_false, hne,
    not_false_eq_true, if_true, if_false]

/-- The header once a size is advertised: this process asks for more, or somebody did before. -/
def advertised (m : ℤ → ℤ) (cur slots : ℤ) : ℤ → ℤ :=
  if m 3 = m 2 * 8 then setSlot m 3 (calculateReallocSize cur slots) else m

/-- The size this process asks for is above the present one. -/
theorem Geo.asked (hg : Geo env w.mem w.ext) {slots : ℤ} (hs : 0 < slots) (hc : w.ext.cur = w.mem 2) :
    w.mem 2 * 8 < calculateReallocSize w.ext.cur slots ∧ calculateReallocSize w.ext.cur slots % 4096 = 0 := by
  have := hg.cur_mod
  simp only [calculateReallocSize, PAGE_SIZE]
  omega

theorem Grown.advertised (hg : Geo env w.mem w.ext) {slots : ℤ} (hs : 0 < slots) (hc : w.ext.cur = w.mem 2) :
    Grown env w.mem w.ext (advertised w.mem w.ext.cur slots) w.ext ∧ advertised w.mem w.ext.cur slots 2 = w.mem 2 ∧
      w.mem 2 * 8 < advertised w.mem w.ext.cur slots 3 := by
  have hsize := hg.asked hs hc
  have hexp := hg.exp_le
  unfold LibShr.advertised
  split
  · exact ⟨.setExpand hg hsize.2 hsize.1.le, setSlot_ne _ _ (by omega), by rw [setSlot_same]; exact hsize.1⟩
  · exact ⟨.refl hg, rfl, by omega⟩

/-- **`expand`, exactly**, of an extent as large as the object: the file is extended to the size that is
advertised, which becomes the size of the object, and the object is mapped anew. -/
theorem wp_expand_current (hg : Geo env w.mem w.ext) {slots : ℤ} (hs : 0 < slots) (hc : w.ext.cur = w.mem 2)
    {m m' : ℤ → ℤ} {e : Mapping} (hm : m = advertised w.mem w.ext.cur slots) (hm' : m' = setSlot m 2 (m 3 / 8))
    (he : e = w.ext.truncate (m 3)) :
    Wp tot (expand w.ext.cur slots) Q w ↔
      if w.ext.trunc 0 then
        if e.map 0 (m' 2) = .ok then Q ⟨.ok, 0, m' 2⟩ ((w.setMem m').setExt (e.remap (m' 2)))
        else Q ⟨e.map 0 (m' 2), 0, e.cur⟩ ((w.setMem m').setExt e.refuse)
      else Q ⟨.errNomem, 0, w.ext.cur⟩ ((w.setMem m).setExt w.ext.truncFail) := by
  have h₀ := hg.cur_pos
  have hsize := hg.asked hs hc
  obtain ⟨hgr, h₂, h₃⟩ := Grown.advertised hg hs hc
  rw [← hm] at hgr h₂ h₃
  have hgr' : Grown env w.mem w.ext m' e := by
    rw [he, hm']
    exact (hgr.trans (Grown.truncate hgr.geo (m 3))).trans (.setSize (Grown.truncate hgr.geo (m 3)).geo)
  have hne : ¬w.ext.cur = m 3 / 8 := by
    have := hgr.geo.exp_mod
    omega
  have hecur : e.cur = w.ext.cur := by rw [he]; rfl
  have hm'₂ : m' 2 = m 3 / 8 := by rw [hm', setSlot_same]
  -- from the header with the advertised size on
  have hrest : Wp tot (extendObject w.ext.cur >>= fun done => if (!done) = true then pure ⟨.errNomem, 0, w.ext.cur⟩
      else load w.ext.cur 3 >>= fun x => cas w.ext.cur 2 (w.mem 2 * 8 / 8) (x / 8) >>= fun _ =>
        load w.ext.cur 2 >>= fun s =>
          if ¬w.ext.cur = s then resizeExtent w.ext.cur else pure ⟨.ok, 0, w.ext.cur⟩) Q (w.setMem m) ↔
      if w.ext.trunc 0 then
        if e.map 0 (m' 2) = .ok then Q ⟨.ok, 0, m' 2⟩ ((w.setMem m').setExt (e.remap (m' 2)))
        else Q ⟨e.map 0 (m' 2), 0, e.cur⟩ ((w.setMem m').setExt e.refuse)
      else Q ⟨.errNomem, 0, w.ext.cur⟩ ((w.setMem m).setExt w.ext.truncFail) := by
    simp (disch := omega) only [wp_bind, wp_extendObject, World.ext_setMem, World.mem_setMem]
    by_cases ht : w.ext.trunc 0 = true
    swap
    · rw [if_neg ht, if_neg ht]
      simp only [Bool.not_false, if_true, wp_pure]
    · rw [if_pos ht, if_pos ht]
      simp (disch := omega) only [Bool.not_true, Bool.false_eq_true, if_false, wp_bind, wp_load, wp_cas, World.mem_setExt,
        World.mem_setMem, h₂, setSlot_same, Int.mul_ediv_cancel, if_true, hne, not_false_eq_true]
      have hw : ((w.setMem m).setExt (w.ext.truncate (m 3))).setMem (setSlot m 2 (m 3 / 8)) = (w.setMem m').setExt e := by
        rw [hm', he]
      rw [hw, ← hecur]
      refine (wp_resizeExtent (w := (w.setMem m').setExt e) hgr'.geo).trans ?_
      simp only [World.ext_setExt, World.mem_setExt, World.mem_setMem, World.setExt_setExt]
      rw [if_neg (by rw [hecur, hm'₂]; exact hne)]
  refine Iff.trans ?_ hrest
  simp (disch := omega) only [expand, wp_assert, wp_bind, wp_current, ne_eq, not_true_eq_false, if_false,
    SIZE, EXPAND_SIZE, wp_load]
  rw [if_neg (not_not.2 hc)]
  simp (disch := omega) only [gt_iff_lt, hsize.1, if_true, wp_bind, wp_cas, wp_load]
  by_cases hadv : w.mem 3 = w.mem 2 * 8
  · rw [if_pos hadv, hm, advertised, if_pos hadv]
  · rw [if_neg hadv, hm, advertised, if_neg hadv]

/-- Every call of the loop body of `insure_fit` either fails or maps at least a page more. -/
theorem wp_expand (hg : Geo env w.mem w.ext) {slots : ℤ} (hs : 0 < slots)
    (hok : ∀ m e, Grown env w.mem w.ext m e → w.ext.cur < e.cur →
      Q ⟨.ok, 0, e.cur⟩ ((w.setMem m).setExt e))
    (hfail : ∀ m e st x, ¬env → Grown env w.mem w.ext m e → st ≠ .ok →
      Q ⟨st, 0, x⟩ ((w.setMem m).setExt e)) :
    Wp tot (expand w.ext.cur slots) Q w := by
  have hle := hg.cur_le
  by_cases hc : w.ext.cur = w.mem 2
  swap
  · refine (wp_expand_stale hg hs hc).2 ((wp_resizeExtent hg).2 ?_)
    rw [if_neg hc]
    by_cases hm : w.ext.map 0 (w.mem 2) = .ok
    · rw [if_pos hm]
      exact hok w.mem _ (.remap hg hm) (by simp only [Mapping.remap]; omega)
    · rw [if_neg hm]
      exact hfail w.mem _ _ _ (fun ht => hm (hg.map_ok ht _ _)) (.refuse hg) hm
  obtain ⟨hgr, h₂, h₃⟩ := Grown.advertised hg hs hc
  refine (wp_expand_current hg hs hc rfl rfl rfl).2 ?_
  generalize advertised w.mem w.ext.cur slots = m at hgr h₂ h₃ ⊢
  by_cases ht : w.ext.trunc 0 = true
  swap
  · rw [if_neg ht]
    exact hfail m _ _ _ (fun htot => ht (hgr.geo.trunc_ok htot 0)) (hgr.trans (.truncFail hgr.geo)) (by simp)
  rw [if_pos ht]
  have hgr' := hgr.trans (Grown.truncate hgr.geo (m 3))
  have hgr'' := hgr'.trans (.setSize hgr'.geo)
  have hlt : w.ext.cur < m 3 / 8 := by
    have := hgr.geo.exp_mod
    omega
  split
  · rename_i hm
    exact hok _ _ (hgr''.trans (.remap hgr''.geo hm)) (by simp only [Mapping.remap, setSlot_same]; exact hlt)
  · rename_i hm
    exact hfail _ _ _ _ (fun ht => hm (hgr''.geo.map_ok ht _ _)) (hgr''.trans (.refuse hgr''.geo)) hm

/-- `insure_fit` where the slots are mapped already. -/
theorem wp_insureFit_in {start slots : ℤ} (h₀ : 110 ≤ start) (hs : 0 < slots)
    (h : start + slots < w.ext.cur) :
    Wp tot (insureFit start slots) Q w ↔ Q ⟨.ok, start, w.ext.cur⟩ w := by
  have h' : ¬w.ext.cur ≤ start + slots := by omega
  simp (disch := omega) only [insureFit, BASE, wp_assert, wp_bind, wp_current]
  rw [wp_iterate]
  simp only [ge_iff_le, h', if_false, wp_pure, Sum.elim_inr, ne_eq, not_true_eq_false, wp_bind, wp_current]

/-- The loop of `insure_fit`: `expand` keeps the invariant and maps more, or fails. -/
theorem wp_insureFit_inv {start slots : ℤ} (h₀ : 110 ≤ start) (hs : 0 < slots) (I : (ℤ → ℤ) → Mapping → Prop)
    (hI : I w.mem w.ext)
    (hstep : ∀ m e, I m e → e.cur ≤ start + slots → Wp tot (expand e.cur slots) (fun view w' =>
      (view.status ≠ .ok ∧ Q view w') ∨
        ∃ m' e', w' = (w.setMem m').setExt e' ∧ I m' e' ∧ e.cur < e'.cur ∧ view = ⟨.ok, 0, e'.cur⟩) ((w.setMem m).setExt e))
    (hok : ∀ m e, I m e → start + slots < e.cur → Q ⟨.ok, start, e.cur⟩ ((w.setMem m).setExt e)) :
    Wp tot (insureFit start slots) Q w := by
  simp (disch := omega) only [insureFit, BASE, wp_assert, wp_bind, wp_current]
  refine wp_iterate_of_variant
    (fun (view : View) w' => ∃ m e, w' = (w.setMem m).setExt e ∧ I m e ∧ view = ⟨.ok, 0, e.cur⟩)
    (fun (view : View) _ => (start + slots + 1 - view.extent).toNat) ?_
    ⟨w.mem, w.ext, rfl, hI, rfl⟩
  rintro view w' ⟨m, e, rfl, hm, rfl⟩
  simp only [wp_ite]
  split
  · rename_i hle
    rw [wp_bind]
    refine wp_mono ?_ (hstep m e hm hle)
    rintro view w' (⟨hst, hQ⟩ | ⟨m', e', rfl, hm', hlt, rfl⟩)
    · simp only [ne_eq, hst, not_false_eq_true, if_true, wp_pure, Sum.elim_inr]
      exact hQ
    · simp only [ne_eq, not_true_eq_false, if_false, wp_pure, Sum.elim_inl]
      exact ⟨⟨m', e', rfl, hm', rfl⟩, fun _ => by omega⟩
  · rename_i hle
    simp only [wp_pure, Sum.elim_inr, ne_eq, not_true_eq_false, if_false, wp_bind, wp_current]
    exact hok m e hm (by omega)

/-- **`insure_fit`.** It ends with the slots mapped; where they were not, a call to the system may
have failed. -/
theorem wp_insureFit_of (hg : Geo env w.mem w.ext) {start slots : ℤ} (h₀ : 110 ≤ start) (hs : 0 < slots)
    (hok : ∀ m e, Grown env w.mem w.ext m e → start + slots < e.cur →
      Q ⟨.ok, start, e.cur⟩ ((w.setMem m).setExt e))
    (hfail : ∀ m e st x, ¬env → Grown env w.mem w.ext m e → st ≠ .ok → w.ext.cur ≤ start + slots →
      Q ⟨st, 0, x⟩ ((w.setMem m).setExt e)) :
    Wp tot (insureFit start slots) Q w := by
  by_cases hin : start + slots < w.ext.cur
  · exact (wp_insureFit_in h₀ hs hin).2 (hok w.mem w.ext (.refl hg) hin)
  refine wp_insureFit_inv h₀ hs (Grown env w.mem w.ext) (.refl hg) (fun m e hgr _ => ?_) hok
  refine wp_expand (w := (w.setMem m).setExt e) hgr.geo hs (fun m' e' hgr' hlt => ?_) fun m' e' st x ht hgr' hst => ?_
  · exact .inr ⟨m', e', rfl, hgr.trans hgr', hlt, rfl⟩
  · exact .inl ⟨hst, hfail m' e' st x ht (hgr.trans hgr') hst (not_lt.1 hin)⟩

/-- `insure_fit` of slots of the object: it comes down to `insure_in_range` of the first slot behind
them. -/
theorem wp_insureFit_near (hg : Geo env w.mem w.ext) {start slots : ℤ} (h₀ : 110 ≤ start) (hs : 0 < slots)
    (hsz : start + slots < w.mem 2)
    (hok : ∀ e, e = w.ext.see (w.mem 2) (start + slots) → Grown env w.mem w.ext w.mem e → start + slots < e.cur →
      Q ⟨.ok, start, e.cur⟩ (w.setExt e))
    (hfail : ∀ st x, ¬CanMap w.mem w.ext (start + slots) → w.ext.cur ≤ start + slots →
      Q ⟨st, 0, x⟩ (w.setExt w.ext.refuse)) :
    Wp tot (insureFit start slots) Q w := by
  by_cases hin : start + slots < w.ext.cur
  · exact (wp_insureFit_in h₀ hs hin).2 (hok w.ext (if_pos (.inl hin)).symm (.refl hg) hin)
  have hcur := hg.cur_pos
  have hne : w.ext.cur ≠ w.mem 2 := by omega
  have hin' : w.ext.cur ≤ start + slots := not_lt.1 hin
  -- the object is larger than the mapping, so `expand` maps it anew
  simp (disch := omega) only [insureFit, BASE, wp_assert, wp_bind, wp_current]
  rw [wp_iterate]
  simp only [ge_iff_le, hin', if_true, wp_bind]
  refine (wp_expand_stale hg hs hne).2 ((wp_resizeExtent hg).2 ?_)
  rw [if_neg hne]
  by_cases hm : w.ext.map 0 (w.mem 2) = .ok
  · rw [if_pos hm]
    have hout : ¬w.mem 2 ≤ start + slots := by omega
    simp only [ne_eq, not_true_eq_false, if_false, wp_pure, Sum.elim_inl]
    rw [wp_iterate]
    simp only [ge_iff_le, hout, if_false, wp_pure, Sum.elim_inr, not_true_eq_false, wp_bind, wp_current]
    exact hok _ (if_neg (by omega)).symm (.remap hg hm) hsz
  · rw [if_neg hm]
    simp only [ne_eq, hm, not_false_eq_true, if_true, wp_pure, Sum.elim_inr]
    exact hfail _ _ (fun hc => by rcases hc with hc | hc | hc <;> simp_all) hin'

end

end LibShr
