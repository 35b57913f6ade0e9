import LibShr.Life.Behind

/-!
# Opening a queue and testing a name

`shr_q_is_valid` maps the file of a name and looks at the tag and the version. `shr_q_open` does so too,
but its loop first maps the object again until the length it has mapped is the one the header gives.
The header does not change meanwhile, so a second round is the last one.
-/

namespace LibShr

open Prog

/-- Tag and version are those of a queue. -/
def Object.Marked (x : Object) : Prop := (Words.toBytes (x.world.mem TAG)).take SHRQ.length = SHRQ ∧ x.world.mem VERSION = QVERSION

instance (x : Object) : Decidable x.Marked := inferInstanceAs (Decidable (_ ∧ _))

/-- Memory is there, objects that exist can be opened, and exactly the mappings of a positive length can be made. -/
structure Host.Obliging (h : Host) : Prop where
  alloc : ∀ n, h.alloc n = true
  opens : ∀ n, h.openErr n = none
  mapped : ∀ n size, h.mmapErr n size = none ↔ 0 < size

/-- The object behind the descriptor has the content and the length of `x`, a page at least. -/
structure Host.Sees (v : Host) (x : Object) : Prop where
  page : 4096 ≤ x.world.ext.length
  opened : ∃ name y, v.opened = some (name, y) ∧ y.world.mem = x.world.mem ∧ y.world.ext.length = x.world.ext.length

/-- The length that the header gives for the object of a name. -/
def Host.headerSize (h : Host) (name : Option CString) : ℕ :=
  (name.bind fun n => h.objects (objectName n)).elim 0 fun x => sizeBytes (x.world.mem SIZE)

section
variable {h v : Host} {x : Object} {name : CString} {size : ℕ}

/-- What is mapped does not change what is behind the descriptor. -/
theorem Host.Sees.maps (hs : v.Sees x) (l : List ℕ) : ({ v with maps := l } : Host).Sees x := ⟨hs.page, hs.opened⟩

theorem wp_munmap {Q : Unit → Host → Prop} : wp host True (Os.munmap size) Q v ↔ Q () { v with maps := v.maps.erase size } :=
  wp_op_some rfl

theorem wp_close {Q : Unit → Host → Prop} : wp host True Os.close Q v ↔ Q () { v with fd := none } :=
  wp_op_some rfl

theorem Host.Sees.wp_load {slot : ℤ} {Q : ℤ → Host → Prop} (hs : v.Sees x) (hsize : 0 < size) (h₀ : 0 ≤ slot) (h₁ : slot < 512) :
    wp host True (Os.load size slot) Q v ↔ Q (x.world.mem slot) v := by
  obtain ⟨name, y, hop, hmem, hlen⟩ := hs.opened
  have hpage := hs.page
  have hin : InPages size slot ∧ InPages y.world.ext.length slot := by
    rw [hlen]
    constructor <;> exact ⟨h₀, by omega⟩
  refine wp_op_some ?_
  simp only [host, hop, hin, and_self, if_true, hmem]

theorem Host.Sees.wp_mmap {Q : Option SysErrno → Host → Prop} (hs : v.Sees x) (ho : v.Obliging) (hsize : 0 < size)
    (hQ : ∀ v', v'.Sees x → v'.Obliging → v'.maps = size :: v.maps → Q none v') : wp host True (Os.mmap size) Q v := by
  rw [LibShr.wp_mmap, (ho.mapped 0 size).2 hsize]
  obtain ⟨name, y, hop, hmem, hlen⟩ := hs.opened
  have hop' : ({ v with mmapErr := rest v.mmapErr } : Host).opened = some (name, y) := hop
  have hfd : v.fd = some name := by
    rw [Host.opened] at hop
    obtain ⟨n, hn, hy⟩ := Option.bind_eq_some_iff.1 hop
    obtain ⟨_, _, he⟩ := Option.map_eq_some_iff.1 hy
    rw [hn, (Prod.mk.inj he).1]
  simp only [Host.setExt, hop']
  refine hQ _ ⟨hs.page, name, { y with world := { y.world with ext := { y.world.ext with cur := size / 8, old := [] } } }, ?_, hmem, hlen⟩ ⟨ho.alloc, ho.opens, fun n => ho.mapped (n + 1)⟩ rfl
  simp only [Host.opened, Host.put, hfd, Option.bind_some, Function.update_self, Option.map_some]

theorem wp_shmOpen {flag : OpenFlag} {Q : Option SysErrno → Host → Prop} (ho : v.Obliging) (hx : v.objects (objectName name) = some x)
    (hpage : 4096 ≤ x.world.ext.length) (hflag : flag ≠ .createExclusive) (hQ : ∀ v', v'.Sees x → v'.Obliging → v'.maps = v.maps → Q none v') :
    wp host True (Os.shmOpen name flag) Q v := by
  refine (wp_op_some ?_).2 (hQ { ({ v with openErr := rest v.openErr } : Host) with fd := some (objectName name) } ?_ ?_ rfl)
  · simp only [host, ho.opens 0, hx, hflag, if_false]
  · refine ⟨hpage, objectName name, x, ?_, rfl, rfl⟩
    simp only [Host.opened, hx, Option.bind_some, Option.map_some]
  · exact ⟨ho.alloc, fun n => ho.opens (n + 1), ho.mapped⟩

theorem Host.Sees.wp_isValidQueue {Q : Bool → Host → Prop} (hs : v.Sees x) (hsize : 0 < size) :
    wp host True (isValidQueue size) Q v ↔ Q (decide x.Marked) v := by
  rw [isValidQueue, wp_bind, hs.wp_load hsize (by decide) (by decide), wp_ite]
  by_cases htag : (Words.toBytes (x.world.mem TAG)).take SHRQ.length = SHRQ
  · rw [if_neg (not_not.2 htag), wp_bind, hs.wp_load hsize (by decide) (by decide), wp_ite]
    by_cases hver : x.world.mem VERSION = QVERSION
    · rw [if_neg (not_not.2 hver), wp_pure, decide_eq_true (show x.Marked from ⟨htag, hver⟩)]
    · rw [if_pos hver, wp_pure, decide_eq_false (fun hm : x.Marked => hver hm.2)]
  · rw [if_pos htag, wp_pure, decide_eq_false (fun hm : x.Marked => htag hm.1)]

/-! ## The loop -/

/-- **`map_shared_memory`** maps the object with the length its header gives, or fails where that is 0. -/
theorem Host.Sees.wp_mapLoop {Q : Status × ℕ → Host → Prop} (hs : v.Sees x) (ho : v.Obliging) (hsize : 0 < size)
    (hok : 0 < sizeBytes (x.world.mem SIZE) → ∀ v', v'.Sees x → v'.maps = sizeBytes (x.world.mem SIZE) :: v.maps →
      Q (.ok, sizeBytes (x.world.mem SIZE)) v')
    (hfail : sizeBytes (x.world.mem SIZE) = 0 → ∀ st v', st ≠ .ok → Q (st, 0) v') : wp host True (iterate mapRound size) Q v := by
  -- in the second round the length is the header's
  refine wp_iterate_of_variant
    (fun s w => w.Sees x ∧ w.Obliging ∧ w.maps = v.maps ∧ (0 < s ∨ s = sizeBytes (x.world.mem SIZE)))
    (fun s _ => if s = sizeBytes (x.world.mem SIZE) then 0 else 1) ?_ ⟨hs, ho, rfl, .inl hsize⟩
  rintro s w ⟨hs, ho, hmaps, hlen⟩
  rw [mapRound, wp_bind]
  rcases Nat.eq_zero_or_pos s with rfl | hpos
  · -- the header gives 0
    have hzero : sizeBytes (x.world.mem SIZE) = 0 := by
      rcases hlen with hlt | he
      · cases hlt
      · exact he.symm
    rw [LibShr.wp_mmap]
    cases hm : w.mmapErr 0 0 with
    | none => exact absurd ((ho.mapped 0 0).1 hm) (lt_irrefl 0)
    | some e => exact wp_pure.2 (hfail hzero _ _ convertToStatus_ne)
  · refine hs.wp_mmap ho hpos fun w₁ hs₁ ho₁ hmaps₁ => ?_
    dsimp only
    rw [wp_bind, hs₁.wp_load hpos (by decide) (by decide), wp_ite]
    by_cases he : s = sizeBytes (x.world.mem SIZE)
    · subst he
      rw [if_pos rfl, wp_pure]
      exact hok hpos w₁ hs₁ (hmaps₁.trans (by rw [hmaps]))
    · rw [if_neg he, wp_bind, hs₁.wp_load hpos (by decide) (by decide), wp_bind]
      refine wp_munmap.2 (wp_pure.2 ⟨⟨hs₁.maps _, ⟨ho₁.alloc, ho₁.opens, ho₁.mapped⟩, ?_, .inr rfl⟩, fun _ => ?_⟩)
      · simp only [hmaps₁, List.erase_cons_head, hmaps]
      · rw [if_pos rfl, if_neg he]
        exact Nat.one_pos

/-! ## The two functions -/

/-- `perform_name_validations` accepts the name, which is that of `x`. -/
structure Host.Accepts (h : Host) (name : CString) (x : Object) : Prop where
  valid : validateName (some name) = .ok
  stat : h.statErr 0 = none
  object : h.objects (objectName name) = some x
  regular : x.regular = true
  page : 4096 ≤ x.world.ext.length
  pages : x.world.ext.length % 4096 = 0

/-- `perform_name_validations`, as both functions call it. -/
theorem wp_acceptsName {n : Option CString} {Q : Status × ℕ → Host → Prop} (ho : h.Obliging)
    (hok : ∀ name x size v, n = some name → h.Accepts name x → 0 < size → v.objects = h.objects → v.Obliging → v.maps = h.maps →
      Q (.ok, size) v)
    (hfail : (∀ name x, n = some name → ¬h.Accepts name x) → ∀ st size v, st ≠ .ok → v.maps = h.maps → Q (st, size) v) :
    wp host True (performNameValidations n true) Q h := by
  rcases validateName_cases n with hv | hv
  swap
  · have hne : validateName n ≠ .ok := by rw [hv]; decide
    exact (wp_performNameValidations_not hne).2 (hfail (fun name x hn ha => hne (hn ▸ ha.valid)) _ _ _ hne rfl)
  cases n with
  | none => cases hv
  | some name =>
  rw [wp_performNameValidations hv, Host.found]
  cases he : h.statErr 0 with
  | some e =>
    refine hfail (fun _ x hn ha => ?_) _ _ _ convertToStatus_ne rfl
    cases hn
    cases ha.stat.symm.trans he
  | none =>
    rw [Option.elim_none, status_path]
    cases hx : h.objects (objectName name) with
    | none =>
      refine hfail (fun _ x hn ha => ?_) _ _ _ convertToStatus_ne rfl
      cases hn
      cases ha.object.symm.trans hx
    | some x =>
      dsimp only
      have honly : ∀ {name' y}, some name = some name' → h.Accepts name' y → h.Accepts name' x := fun hn ha => by
        cases hn
        cases ha.object.symm.trans hx
        exact ha
      split
      next hreg =>
        refine hfail (fun _ y hn ha => ?_) _ _ _ (by decide) rfl
        rcases hreg with hreg | hreg
        · cases hreg
        · exact Bool.false_ne_true (hreg.symm.trans (honly hn ha).regular)
      next hreg =>
        split
        next hsize =>
          refine hfail (fun _ y hn ha => ?_) _ _ _ (by decide) rfl
          have hpage := (honly hn ha).page
          have hpages := (honly hn ha).pages
          omega
        next hsize =>
          rw [not_or, Bool.not_eq_false, Bool.not_eq_false] at hreg
          refine hok name x _ _ rfl ⟨hv, he, hx, hreg.2, by omega, by omega⟩ (by omega) rfl ⟨ho.alloc, ho.opens, ho.mapped⟩ rfl

/-- **`shr_q_is_valid`**: the name is accepted, and the marks are there. -/
theorem shrQIsValid_spec (ho : h.Obliging) (n : Option CString) :
    wp host True (shrQIsValid n) (fun valid v => v.maps = h.maps ∧ (valid = true ↔ ∃ name x, n = some name ∧ h.Accepts name x ∧ x.Marked)) h := by
  rw [shrQIsValid, wp_bind]
  refine wp_acceptsName ho (fun name x size v hn ha hpos hobj ho' hmaps => ?_) fun hno st size v hst hmaps => ?_
  swap
  · simp only [ne_eq, hst, not_false_eq_true, if_true, wp_pure]
    refine ⟨hmaps, iff_of_false Bool.false_ne_true ?_⟩
    rintro ⟨name, x, hn, ha, -⟩
    exact hno name x hn ha
  subst hn
  simp only [ne_eq, not_true_eq_false, if_false, Option.getD_some, wp_bind]
  refine wp_shmOpen ho' (hobj ▸ ha.object) ha.page (by decide) fun v₁ hs₁ ho₁ hmaps₁ => ?_
  dsimp only
  rw [wp_bind]
  refine hs₁.wp_mmap ho₁ hpos fun v₂ hs₂ _ hmaps₂ => ?_
  dsimp only
  rw [wp_bind, hs₂.wp_isValidQueue hpos, wp_bind, wp_munmap, wp_bind, wp_close, wp_pure, decide_eq_true_iff]
  refine ⟨?_, fun hm => ⟨name, x, rfl, ha, hm⟩, ?_⟩
  · simp only [hmaps₂, List.erase_cons_head, hmaps₁, hmaps]
  · rintro ⟨_, y, hn, hy, hm⟩
    cases hn
    cases ha.object.symm.trans hy.object
    exact hm

/-- **`shr_q_open`**: besides, the length in the header is not 0. It is the length that is mapped. -/
theorem shrQOpen_spec (ho : h.Obliging) (n : Option CString) (mode : Mode) :
    wp host True (shrQOpen true n mode) (fun r v =>
      (r.1 = Status.ok ↔ ∃ name x, n = some name ∧ h.Accepts name x ∧ x.Marked ∧ 0 < sizeBytes (x.world.mem SIZE)) ∧
      (r.1 = .ok → r.2 = some ⟨mode, h.headerSize n⟩ ∧ v.maps = h.headerSize n :: h.maps)) h := by
  cases n with
  | none => exact wp_pure.2 ⟨iff_of_false (by decide) (by rintro ⟨_, _, hn, -⟩; cases hn), fun hst => by cases hst⟩
  | some name =>
  have hnot : ∀ {st v} {z : Option Handle}, (∀ x, h.Accepts name x → x.Marked → ¬0 < sizeBytes (x.world.mem SIZE)) → st ≠ .ok →
      wp host True (pure (st, z)) (fun r v =>
        (r.1 = Status.ok ↔ ∃ n x, some name = some n ∧ h.Accepts n x ∧ x.Marked ∧ 0 < sizeBytes (x.world.mem SIZE)) ∧
        (r.1 = .ok → r.2 = some ⟨mode, h.headerSize (some name)⟩ ∧ v.maps = h.headerSize (some name) :: h.maps)) v := by
    intro st v z hno hst
    refine wp_pure.2 ⟨iff_of_false hst ?_, fun hok => absurd hok hst⟩
    rintro ⟨_, x, hn, ha, hm, hpos⟩
    cases hn
    exact hno x ha hm hpos
  simp only [shrQOpen, wp_bind]
  refine wp_acceptsName ho (fun _ x size v hn ha hpos hobj ho' hmaps => ?_) fun hno st size v hst hmaps => ?_
  swap
  · simp only [ne_eq, hst, not_false_eq_true, if_true]
    exact hnot (fun x ha => absurd ha (hno name x rfl)) hst
  cases hn
  simp only [ne_eq, not_true_eq_false, if_false, wp_bind, initializeQStruct, wp_alloc, ho'.alloc, Bool.not_true, Bool.false_eq_true, wp_pure,
    rest, mapSharedMemory]
  refine wp_shmOpen (x := x) ⟨fun n => ho'.alloc _, ho'.opens, ho'.mapped⟩ (hobj ▸ ha.object) ha.page (by decide) fun v₁ hs₁ ho₁ hmaps₁ => ?_
  dsimp only
  have hsame : ∀ {y}, h.Accepts name y → y = x := fun hy => by
    cases ha.object.symm.trans hy.object
    rfl
  refine hs₁.wp_mapLoop ho₁ hpos (fun hheader v₂ hs₂ hmaps₂ => ?_) fun hzero st v₂ hst => ?_
  swap
  · simp only [hst, not_false_eq_true, if_true]
    refine hnot (fun y hy _ => ?_) hst
    rw [hsame hy, hzero]
    exact lt_irrefl 0
  simp only [not_true_eq_false, if_false, wp_bind]
  rw [hs₂.wp_isValidQueue hheader]
  by_cases hm : x.Marked
  · rw [decide_eq_true hm, if_pos rfl, wp_pure]
    have hlen : h.headerSize (some name) = sizeBytes (x.world.mem SIZE) := by
      simp only [Host.headerSize, Option.bind_some, ha.object, Option.elim_some]
    refine ⟨iff_of_true rfl ⟨name, x, rfl, ha, hm, hheader⟩, fun _ => ?_⟩
    rw [hlen]
    exact ⟨rfl, hmaps₂.trans (by rw [hmaps₁, hmaps])⟩
  · rw [decide_eq_false hm, if_neg Bool.false_ne_true, shrQClose, closeBase]
    simp only [wp_bind, wp_munmap, wp_close]
    have hst : Status.errState ≠ .ok := by decide
    exact wp_pure.2 (hnot (fun y hy hmy => absurd (hsame hy ▸ hmy) hm) hst)

/-- **Test and opening agree**, for an object whose header does not give the length 0; what is opened is mapped with the
length in its header. -/
theorem valid_iff_opens (h : Host) (ho : h.Obliging) (n : Option CString) (mode : Mode) :
    ∃ valid v r v', Runs host (shrQIsValid n) h valid v ∧ Runs host (shrQOpen true n mode) h r v' ∧
      (r.1 = .ok → valid = true) ∧ (valid = true → 0 < h.headerSize n → r.1 = .ok) ∧
      (r.1 = .ok → r.2 = some ⟨mode, h.headerSize n⟩ ∧ v'.maps = h.headerSize n :: h.maps) := by
  obtain ⟨valid, v, hv, -, hvalid⟩ := (wp_iff_runs trivial).1 (shrQIsValid_spec ho n)
  obtain ⟨r, v', hr, hopens, hmapped⟩ := (wp_iff_runs trivial).1 (shrQOpen_spec ho n mode)
  refine ⟨valid, v, r, v', hv, hr, fun hok => ?_, fun htrue hheader => ?_, hmapped⟩
  · obtain ⟨name, x, hn, ha, hm, -⟩ := hopens.1 hok
    exact hvalid.2 ⟨name, x, hn, ha, hm⟩
  · obtain ⟨name, x, hn, ha, hm⟩ := hvalid.1 htrue
    refine hopens.2 ⟨name, x, hn, ha, hm, ?_⟩
    rw [Host.headerSize, hn, Option.bind_some, ha.object, Option.elim_some] at hheader
    exact hheader

/-- A system with one object, of the name `q`: a queue of two pages, were it not for the `SIZE` in its header. -/
def Host.withSize (n : ℤ) : Host where
  objects := Function.update (fun _ => none) [113] (some
    { regular := true
      world := { World.blank with
        mem := fun a => if a = TAG then 1903323251 else if a = VERSION then QVERSION else if a = SIZE then n else 0
        ext := { World.blank.ext with length := 8192 } } })
  fd := none
  maps := []
  alloc := fun _ => true
  statErr := fun _ => none
  openErr := fun _ => none
  truncErr := fun _ => none
  mmapErr := fun _ size => if size = 0 then some .einval else none
  semInit := fun _ => true

theorem Host.withSize_obliging (n : ℤ) : (Host.withSize n).Obliging where
  alloc _ := rfl
  opens _ := rfl
  mapped _ size := by
    rcases Nat.eq_zero_or_pos size with rfl | hpos
    · exact iff_of_false (fun he => by cases he) (lt_irrefl 0)
    · exact iff_of_true (if_neg (Nat.pos_iff_ne_zero.1 hpos)) hpos

theorem valid_iff_opens_one_page :
    ∃ valid v r v', Runs host (shrQIsValid (some [113])) (Host.withSize 512) valid v ∧
      Runs host (shrQOpen true (some [113]) .immutable) (Host.withSize 512) r v' ∧
      (r.1 = .ok → valid = true) ∧ (valid = true → 0 < (Host.withSize 512).headerSize (some [113]) → r.1 = .ok) ∧
      (r.1 = .ok → r.2 = some ⟨.immutable, (Host.withSize 512).headerSize (some [113])⟩ ∧
        v'.maps = (Host.withSize 512).headerSize (some [113]) :: (Host.withSize 512).maps) :=
  valid_iff_opens (Host.withSize 512) (Host.withSize_obliging 512) (some [113]) .immutable

/-- A queue whose header gives one page is opened with one page of the two; if it gives none the test succeeds and the opening fails. -/
theorem opened_by_header :
    (∃ r v, (Host.withSize 512).Obliging ∧ Runs host (shrQOpen true (some [113]) .immutable) (Host.withSize 512) r v ∧
      r = (.ok, some ⟨.immutable, 4096⟩) ∧ ((Host.withSize 512).objects [113]).map (·.world.ext.length) = some 8192) ∧
    ∃ valid v r v', (Host.withSize 0).Obliging ∧ Runs host (shrQIsValid (some [113])) (Host.withSize 0) valid v ∧
      Runs host (shrQOpen true (some [113]) .immutable) (Host.withSize 0) r v' ∧ valid = true ∧ r.1 ≠ .ok := by
  have hshort : (eval host 40 (shrQOpen true (some [113]) .immutable) (Host.withSize 512)).map Prod.fst =
      some (.ok, some ⟨.immutable, 4096⟩) := by decide +kernel
  have hvalid : (eval host 40 (shrQIsValid (some [113])) (Host.withSize 0)).map Prod.fst = some true := by decide +kernel
  have hnone : (eval host 40 (shrQOpen true (some [113]) .immutable) (Host.withSize 0)).map Prod.fst = some (.errArg, none) := by
    decide +kernel
  obtain ⟨⟨r, v⟩, hr, hres⟩ := Option.map_eq_some_iff.1 hshort
  obtain ⟨⟨valid, u⟩, hu, htrue⟩ := Option.map_eq_some_iff.1 hvalid
  obtain ⟨⟨r', v'⟩, hr', hres'⟩ := Option.map_eq_some_iff.1 hnone
  dsimp only at hres htrue hres'
  refine ⟨⟨r, v, Host.withSize_obliging 512, runs_of_eval host hr, hres, rfl⟩, valid, u, r', v', Host.withSize_obliging 0,
    runs_of_eval host hu, runs_of_eval host hr', htrue, ?_⟩
  rw [hres']
  decide

end

end LibShr
