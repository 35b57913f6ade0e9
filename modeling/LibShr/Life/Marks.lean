import LibShr.Life.Create
import LibShr.Life.Open
import LibShr.Runs.History

/-!
# What makes an object a queue

The tag, the version and the length are in the header of an object that was created, and what follows of
`shr_q_create` does not touch them. Opening, testing and closing leave the content of every object as it is.
-/

namespace LibShr

open Prog

/-- A queue: a regular file of whole pages with the marks, whose header gives its length. -/
structure Object.IsQueue (x : Object) : Prop where
  regular : x.regular = true
  marked : x.Marked
  page : 4096 ≤ x.world.ext.length
  pages : x.world.ext.length % 4096 = 0
  size : (sizeBytes (x.world.mem SIZE) : ℤ) = x.world.ext.length

/-- The system refuses nothing but mappings of no length. -/
structure Host.Willing (h : Host) : Prop extends h.Obliging where
  stat : ∀ n, h.statErr n = none
  sized : ∀ n, h.truncErr n = none
  semInit : h.semInit = fun _ => true

/-! ## Creation -/

section
variable {env : Prop} {w : World} {h v : Host} {name : CString} {maxDepth : ℤ}

/-- Tag, version and length, once the object is filled in. -/
theorem initBaseObject_marks (hf : Fresh env w) :
    Wp True (initBaseObject SHRQ QVERSION) (fun _ w' => (Words.toBytes (w'.mem TAG)).take SHRQ.length = SHRQ ∧ w'.mem VERSION = QVERSION ∧
      w'.mem SIZE = w.ext.cur ∧ w'.ext = w.ext) w := by
  have hcur := hf.cur_pos
  simp (disch := omega) only [initBaseObject, SIZE, EXPAND_SIZE, DATA_ALLOC, BASE, VERSION, TAG, wp_bind, wp_current,
    wp_store, World.setMem_setMem]
  have hver : setSlot (setSlot (setSlot (setSlot w.mem 2 w.ext.cur) 3 (w.ext.cur * 8)) 6 110) 1 QVERSION 1 = QVERSION := setSlot_same _ _ _
  have hsize : setSlot (setSlot (setSlot (setSlot w.mem 2 w.ext.cur) 3 (w.ext.cur * 8)) 6 110) 1 QVERSION 2 = w.ext.cur := by
    simp (disch := omega) only [setSlot_ne, setSlot_same]
  generalize setSlot (setSlot (setSlot (setSlot w.mem 2 w.ext.cur) 3 (w.ext.cur * 8)) 6 110) 1 QVERSION = m at hver hsize ⊢
  -- the tag is one piece
  have hchunks : Words.chunks (SHRQ.take SHRQ.length) = [SHRQ] := by decide
  refine (wp_memcpyTo (by omega) (le_refl _) (show (0 : ℤ) + ((SHRQ.length + 7) / 8 : ℕ) ≤ w.ext.cur from ?_)).2 ?_
  · have hone : (SHRQ.length + 7) / 8 = 1 := by decide
    rw [hone]
    omega
  rw [hchunks]
  simp only [stored]
  refine ⟨?_, (setSlot_ne _ _ (by decide)).trans hver, (setSlot_ne _ _ (by decide)).trans hsize, trivial⟩
  rw [setSlot_same, Words.toBytes_patch _ (by decide), List.take_left]

/-- The first three slots of the header stay as they are. -/
theorem formatAsQueue_marks (hg₁ : Geo env w.mem w.ext) :
    Wp True (formatAsQueue maxDepth) (fun _ w' => ∀ a, a < 3 → w'.mem a = w.mem a) w := by
  have hcur := hg₁.cur_pos
  rw [formatAsQueue, Wp, wp_bind]
  refine wp_mono ?_ (initDataAllocator_spec hg₁ (by decide) (by simp only [HDR_END]; omega))
  rintro _ _ ⟨m₂, rfl, k6, -, -, -, -, -, -, ksame⟩
  simp (disch := omega) only [wp_bind, wp_current, wp_semInit, Bool.not_true, Bool.false_eq_true, if_false, MAX_DEPTH, wp_store]
  generalize (if maxDepth = 0 then SEM_VALUE_MAX else maxDepth) = depth
  have l₁ : ∀ a, a ≠ 145 → setSlot m₂ 145 depth a = m₂ a := fun a h => setSlot_ne _ _ h
  have g₂ : Geo env m₂ w.ext := hg₁.congr (ksame 2 (by decide)) (ksame 3 (by decide))
  have g₃ : Geo env (setSlot m₂ 145 depth) w.ext := g₂.congr (l₁ 2 (by decide)) (l₁ 3 (by decide))
  have e₆ : setSlot m₂ 145 depth 6 = 168 := (l₁ 6 (by decide)).trans k6
  refine wp_mono ?_ (primeList_spec (w := ((w.setMem (setSlot m₂ 145 depth)).setSem _)) g₃ .event
    (.inl (by show (126 : ℤ) ≤ setSlot m₂ 145 depth 6; omega)) (by show setSlot m₂ 145 depth 6 + 4 < w.ext.cur; omega))
  rintro _ _ ⟨m₄, rfl, p6, -, -, -, -, -, -, psame⟩
  simp only [e₆] at p6 psame
  have g₄ : Geo env m₄ w.ext := g₃.congr (psame 2 (by decide)) (psame 3 (by decide))
  refine wp_mono ?_ (primeList_spec (w := ((w.setMem m₄).setSem _)) g₄ .item
    (.inl (by show (126 : ℤ) ≤ m₄ 6; omega)) (by show m₄ 6 + 4 < w.ext.cur; omega))
  rintro _ _ ⟨m₅, rfl, -, -, -, -, -, -, -, qsame⟩
  simp only [p6] at qsame
  refine wp_pure.2 fun a ha => ?_
  have hq : m₅ a = m₄ a := qsame a (by simp only [QId.head, QId.tail, HEAD, TAIL]; omega)
  have hp : m₄ a = setSlot m₂ 145 depth a := psame a (by simp only [QId.head, QId.tail, EVENT_HEAD, EVENT_TAIL]; omega)
  rw [World.mem_setMem, hq, hp, l₁ a (by omega), ksame a (by simp only [HDR_END]; omega)]

/-- The object of a page that `create_base_object` maps. -/
def World.page : World := World.blank.setExt { ({ World.blank.ext with length := (4096 : ℕ) } : Mapping) with cur := 512, old := [] }

theorem World.page_fresh : Fresh True World.page :=
  ⟨fun _ => rfl, by decide, by decide, fun _ _ _ => rfl, fun _ _ => rfl, fun _ _ _ => .inl trivial, .inl trivial⟩

/-- **A queue that is created** where the system refuses nothing and there is no object of the name: it is empty, of one page,
and has the marks. -/
theorem shrQCreate_makes (hw : h.Willing) (hv : validateName (some name) = .ok) (hdepth : maxDepth ≤ SEM_VALUE_MAX)
    (habs : h.objects (objectName name) = none) (mode : Mode) :
    wp host True (shrQCreate true (some name) maxDepth mode) (fun r v => r = (Status.ok, some ⟨mode, 4096⟩) ∧
      ∃ w, v.objects = Function.update h.objects (objectName name) (some ⟨true, w⟩) ∧ Object.IsQueue ⟨true, w⟩ ∧ w.ext.length = 4096 ∧
        Created maxDepth w) h := by
  have hfound : h.found name = .error .enoent := by rw [Host.found, hw.stat, Option.elim_none, status_path, habs]
  have hnot : ¬maxDepth > SEM_VALUE_MAX := not_lt.2 hdepth
  simp only [shrQCreate, hnot, if_false, wp_bind]
  rw [wp_performNameValidations hv, hfound]
  have htag : ¬SHRQ.length ≤ 0 := by decide
  simp only [convertToStatus, reduceCtorEq, if_false, ne_eq, not_true_eq_false, createBaseObject, htag, wp_bind, wp_initBaseStruct,
    hw.alloc, if_true]
  refine wp_allocateSharedMemory (fun _ _ _ v hB halloc hmmap => ?_) fun hno => absurd ⟨hw.opens _, habs, hw.sized _⟩ hno
  have halloc' : v.alloc 0 = true := by rw [halloc]; exact hw.alloc _
  have hmmap' : v.mmapErr 0 4096 = none := by rw [hmmap]; exact (hw.mapped _ _).2 (by decide)
  simp only [not_true_eq_false, if_false, wp_bind]
  refine wp_firstExtent hB (fun _ _ v' hB' => ?_) fun hno => absurd ⟨halloc', hmmap'⟩ hno
  simp only [not_true_eq_false, if_false, wp_bind]
  -- the object is filled in
  have hbase : Wp True (initBaseObject SHRQ QVERSION) _ World.page := initBaseObject_spec World.page_fresh (by decide) QVERSION
  refine Behind.wp_plain (w := World.page) hB' only_initBaseObject (wp_and (wp_runs hbase) (initBaseObject_marks World.page_fresh)) ?_
  rintro _ _ v₂ ⟨⟨hrun₁, m, rfl, hgeo, -, -, -, hzero⟩, htagged, hversion, hsize, -⟩ hB₂
  have hB₂' : Behind h.objects (objectName name) (fun _ => true) (World.page.setMem m) v₂ := hw.semInit ▸ hB₂
  have hcur : World.page.ext.cur = 512 := rfl
  rw [hcur] at hsize
  simp only [wp_pure, not_true_eq_false, if_false, wp_bind]
  -- and made a queue
  have hformat : Wp True (formatAsQueue maxDepth) _ (World.page.setMem m) := formatAsQueue_spec hgeo hzero maxDepth
  refine hB₂'.wp_every (wp_and (wp_runs hformat) (formatAsQueue_marks hgeo)) ?_
  rintro _ w₃ v₃ ⟨⟨hrun₂, rfl, -, hext, -⟩, hkept⟩ hB₃
  simp only [not_true_eq_false, if_false, wp_pure]
  have hlen : w₃.ext.length = 4096 := by rw [hext]; rfl
  refine ⟨trivial, w₃, hB₃.objects, ⟨rfl, ⟨?_, ?_⟩, hlen.ge, by rw [hlen]; rfl, ?_⟩, hlen, ?_⟩
  · show (Words.toBytes (w₃.mem TAG)).take SHRQ.length = SHRQ
    rw [hkept TAG (by decide)]
    exact htagged
  · exact (hkept VERSION (by decide)).trans hversion
  · show (sizeBytes (w₃.mem SIZE) : ℤ) = w₃.ext.length
    rw [hkept SIZE (by decide), hsize, hlen]
    rfl
  · exact ⟨World.page, World.page_fresh, fun _ => rfl, runs_bind.2 ⟨_, _, hrun₁, hrun₂⟩⟩

/-! ## The calls that leave the content of the objects alone -/

/-- Operations of a process that only looks at objects. -/
def HostOp.Looks : HostOp → Prop
  | .shmOpen _ flag => flag ≠ .createExclusive
  | .shmUnlink _ | .ftruncate _ => False
  | .machine o => o = .undefined
  | _ => True

/-- What every process sees of an object. -/
def Object.content (x : Object) : Bool × (ℤ → ℤ) × ℤ := (x.regular, x.world.mem, x.world.ext.length)

/-- The objects are what they were. -/
def SameContent (objects objects' : CString → Option Object) : Prop := ∀ n, (objects' n).map Object.content = (objects n).map Object.content

theorem SameContent.refl (objects : CString → Option Object) : SameContent objects objects := fun _ => rfl

/-- What a process has mapped is no content. -/
theorem SameContent.setExt {objects : CString → Option Object} (hs : SameContent objects v.objects) (f : Mapping → Mapping)
    (hf : ∀ e, (f e).length = e.length) : SameContent objects (v.setExt f).objects := by
  unfold Host.setExt
  cases hop : v.opened with
  | none => exact hs
  | some x =>
    obtain ⟨n, -, hx⟩ := Option.bind_eq_some_iff.1 hop
    obtain ⟨y, hy, rfl⟩ := Option.map_eq_some_iff.1 hx
    intro n'
    by_cases hn : n' = n
    · subst hn
      rw [← hs n', hy]
      simp only [Host.put, Function.update_self, Option.map_some, Object.content, hf]
    · simp only [Host.put, Function.update_of_ne hn]
      exact hs n'

theorem host_looks {objects : CString → Option Object} {o : HostOp} {r : o.Res} {v' : Host} (ho : o.Looks) (hs : SameContent objects v.objects)
    (h : host o v = some (r, v')) : SameContent objects v'.objects := by
  cases o with
  | alloc | munmap | close =>
    obtain ⟨rfl, rfl⟩ := Prod.mk.inj (Option.some.inj h)
    exact hs
  | stat path =>
    simp only [host] at h
    split at h <;> (obtain ⟨rfl, rfl⟩ := Prod.mk.inj (Option.some.inj h); exact hs)
  | shmOpen n flag =>
    have hflag : flag ≠ .createExclusive := ho
    simp only [host, hflag, if_false] at h
    split at h
    · obtain ⟨rfl, rfl⟩ := Prod.mk.inj (Option.some.inj h)
      exact hs
    · split at h <;> (obtain ⟨rfl, rfl⟩ := Prod.mk.inj (Option.some.inj h); exact hs)
  | shmUnlink | ftruncate => exact ho.elim
  | mmap size =>
    simp only [host] at h
    split at h
    · obtain ⟨rfl, rfl⟩ := Prod.mk.inj (Option.some.inj h)
      exact hs
    · obtain ⟨rfl, rfl⟩ := Prod.mk.inj (Option.some.inj h)
      exact SameContent.setExt (v := { v with mmapErr := rest v.mmapErr }) hs _ fun _ => rfl
  | load size slot =>
    simp only [host] at h
    split at h
    · cases h
    · split at h
      · obtain ⟨rfl, rfl⟩ := Prod.mk.inj (Option.some.inj h)
        exact hs
      · cases h
  | machine o =>
    have ho' : o = .undefined := ho
    subst ho'
    simp only [host, Host.act, seq, Option.map_none, Option.bind_eq_some_iff, reduceCtorEq, and_false, exists_false] at h

/-- A program that only looks leaves the objects as they are. -/
theorem Runs.looks {α : Type} {p : HostM α} {a : α} {v' : Host} (hr : Runs host p v a v') (hp : p.Only HostOp.Looks) :
    SameContent v.objects v'.objects :=
  hr.keeps (fun w => SameContent v.objects w.objects) (fun _ _ _ _ ho hs h => host_looks ho hs h) hp (.refl _)

theorem looks_performNameValidations {n : Option CString} {size : Bool} : (performNameValidations n size).Only HostOp.Looks := by
  unfold performNameValidations
  refine only_ite only_pure ?_
  unfold validateExistence
  cases n with
  | none => exact only_pure
  | some n =>
    refine only_bind (only_op trivial) fun r => ?_
    cases r with
    | error e => exact only_pure
    | ok st => exact only_ite only_pure (only_ite only_pure only_pure)

theorem looks_isValidQueue {size : ℕ} : (isValidQueue size).Only HostOp.Looks :=
  only_bind (only_op trivial) fun _ => only_ite only_pure (only_bind (only_op trivial) fun _ => only_ite only_pure only_pure)

theorem looks_closeBase {size : ℕ} : (closeBase size).Only HostOp.Looks :=
  only_bind (only_op trivial) fun _ => only_op trivial

theorem looks_shrQClose {q : Option Handle} : (shrQClose q).Only HostOp.Looks := by
  cases q with
  | none => exact only_pure
  | some q => exact only_bind looks_closeBase fun _ => only_pure

theorem looks_mapSharedMemory {n : CString} {size : ℕ} : (mapSharedMemory n size).Only HostOp.Looks := by
  have hround : ∀ size, (mapRound size).Only HostOp.Looks := by
    refine fun size => only_bind (only_op trivial) fun r => ?_
    cases r with
    | some e => exact only_pure
    | none =>
      refine only_bind (only_op trivial) fun _ => only_ite only_pure ?_
      exact only_bind (only_op trivial) fun _ => only_bind (only_op trivial) fun _ => only_pure
  have hopen : (HostOp.shmOpen n .readWrite).Looks := by simp [HostOp.Looks]
  unfold mapSharedMemory
  refine only_bind (only_op trivial) fun _ => ?_
  refine only_ite (only_bind (only_op rfl) fun _ => ?_) ?_
  all_goals
    refine only_bind (only_op hopen) fun r => ?_
    cases r with
    | some e => exact only_pure
    | none => exact only_iterate hround

theorem looks_shrQOpen {q : Bool} {n : Option CString} {mode : Mode} : (shrQOpen q n mode).Only HostOp.Looks := by
  unfold shrQOpen
  split
  · refine only_bind looks_performNameValidations fun _ => only_ite only_pure ?_
    refine only_bind ?_ fun _ => only_ite only_pure ?_
    · exact only_bind (only_op trivial) fun _ => only_ite only_pure (only_bind (only_op trivial) fun _ => only_ite only_pure only_pure)
    refine only_bind looks_mapSharedMemory fun _ => only_ite only_pure ?_
    refine only_bind looks_isValidQueue fun _ => only_ite only_pure ?_
    exact only_bind looks_shrQClose fun _ => only_pure
  · exact only_pure

theorem looks_shrQIsValid {n : Option CString} : (shrQIsValid n).Only HostOp.Looks := by
  have hopen : ∀ name, (HostOp.shmOpen name .readOnly).Looks := fun name => by simp [HostOp.Looks]
  refine only_bind looks_performNameValidations fun _ => only_ite only_pure ?_
  refine only_bind (only_op (hopen _)) fun r => ?_
  cases r with
  | some e => exact only_pure
  | none =>
    refine only_bind (only_op trivial) fun r => ?_
    cases r with
    | some e => exact only_bind (only_op trivial) fun _ => only_pure
    | none =>
      exact only_bind looks_isValidQueue fun _ => only_bind (only_op trivial) fun _ => only_bind (only_op trivial) fun _ => only_pure

end

end LibShr
