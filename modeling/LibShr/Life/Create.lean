import LibShr.Life.Behind

/-!
# Creating a queue

`shr_q_create` makes the object, gives it its size, maps it and fills it in. Where the size cannot be
set the object is taken away again; where a later call fails it stays.
-/

namespace LibShr

open Prog

/-- Memory is there for the handle, and the object comes into being and gets its size. -/
structure Host.Gets (h : Host) (name : CString) : Prop where
  base : h.alloc 0 = true
  copy : h.alloc 1 = true
  opens : h.openErr 0 = none
  absent : h.objects (objectName name) = none
  sized : h.truncErr 0 = none

/-- A call of `shr_q_create` with these arguments comes to the point where the object has its size. -/
structure Host.Comes (h : Host) (q : Bool) (name : CString) (maxDepth : ℤ) : Prop where
  handle : q = true
  depth : maxDepth ≤ SEM_VALUE_MAX
  valid : validateName (some name) = .ok
  stat : ∀ e, h.statErr 0 = some e → e = .enoent ∨ e = .eexist
  gets : h.Gets name

def Host.Unmapped (h : Host) : Prop := h.alloc 2 = false ∨ h.mmapErr 0 4096 ≠ none

/-- A call that is made after that fails: for the extent, for its mapping, or for a semaphore. -/
def Host.Breaks (h : Host) : Prop := h.Unmapped ∨ ∃ s, h.semInit s = false

inductive Creation (h : Host) (q : Bool) (n : Option CString) (maxDepth : ℤ) (mode : Mode) : Status × Option Handle → Host → Prop
  /-- There is a queue. -/
  | made {name : CString} {w : World} {v : Host} : n = some name → h.Comes q name maxDepth → ¬h.Breaks →
      Behind h.objects (objectName name) h.semInit w v → Inv True w (emptyHeap w.mem) →
      w.mem MAX_DEPTH = (if maxDepth = 0 then SEM_VALUE_MAX else maxDepth) → Creation h q n maxDepth mode (.ok, some ⟨mode, 4096⟩) v
  /-- There is an object, but no queue. -/
  | left {name : CString} {st : Status} {x : Object} {v : Host} : n = some name → h.Comes q name maxDepth → h.Breaks → st ≠ .ok →
      v.objects = Function.update h.objects (objectName name) (some x) → Creation h q n maxDepth mode (st, none) v
  /-- There is nothing. -/
  | refused {st : Status} {v : Host} : (∀ name, n = some name → ¬h.Comes q name maxDepth) → st ≠ .ok → v.objects = h.objects →
      Creation h q n maxDepth mode (st, none) v

section
variable {h v : Host} {name : CString} {maxDepth : ℤ} {Q : Status → Host → Prop} {objects : CString → Option Object} {sems : Sem → Bool}
  {w : World}

/-! ## The parts -/

theorem wp_initBaseStruct : wp host True initBaseStruct Q h ↔
    if h.alloc 0 = true then Q (if h.alloc 1 = true then .ok else .errNomem) { h with alloc := rest (rest h.alloc) }
    else Q .errNomem { h with alloc := rest h.alloc } := by
  simp only [initBaseStruct, wp_bind, wp_alloc, wp_ite, wp_pure, Bool.not_eq_true']
  have hnext : rest h.alloc 0 = h.alloc 1 := rfl
  by_cases h₀ : h.alloc 0 = true <;> by_cases h₁ : h.alloc 1 = true <;> simp [h₀, h₁, hnext]

/-- `allocate_shared_memory`: there is an object of the size in the end, or none that was not there before. -/
theorem wp_allocateSharedMemory {size : ℕ}
    (hok : h.openErr 0 = none → h.objects (objectName name) = none → h.truncErr 0 = none → ∀ v,
      Behind h.objects (objectName name) h.semInit (World.blank.setExt { World.blank.ext with length := size }) v →
        v.alloc = h.alloc → v.mmapErr = h.mmapErr → Q .ok v)
    (hfail : ¬(h.openErr 0 = none ∧ h.objects (objectName name) = none ∧ h.truncErr 0 = none) → ∀ st v, st ≠ .ok →
      v.objects = h.objects → Q st v) : wp host True (allocateSharedMemory name size) Q h := by
  rw [allocateSharedMemory, wp_bind]
  cases ho : h.openErr 0 with
  | some e =>
    refine (wp_op_some (by simp only [host, ho]; rfl)).2 ?_
    dsimp only
    split
    · exact wp_pure.2 (hfail (by simp [ho]) _ _ (by decide) rfl)
    · exact wp_pure.2 (hfail (by simp [ho]) _ _ convertToStatus_ne rfl)
  | none =>
    cases hx : h.objects (objectName name) with
    | some x =>
      refine (wp_op_some (by simp only [host, ho, hx, if_true]; rfl)).2 ?_
      dsimp only
      rw [if_neg (by decide)]
      exact wp_pure.2 (hfail (by simp [hx]) _ _ (by decide) rfl)
    | none =>
      refine (wp_op_some (by simp only [host, ho, hx, if_true]; rfl)).2 ?_
      dsimp only
      rw [wp_bind]
      -- the object is there now
      generalize hv₁ : ({ ({ h with openErr := rest h.openErr } : Host).put (objectName name) (some ⟨true, World.blank⟩) with
        fd := some (objectName name) } : Host) = v₁
      have hB₁ : Behind h.objects (objectName name) h.semInit World.blank v₁ := by
        rw [← hv₁]
        exact ⟨rfl, rfl, rfl⟩
      have htrunc : v₁.truncErr = h.truncErr := by rw [← hv₁]; rfl
      have halloc : v₁.alloc = h.alloc := by rw [← hv₁]; rfl
      have hmmap : v₁.mmapErr = h.mmapErr := by rw [← hv₁]; rfl
      cases ht : h.truncErr 0 with
      | some e =>
        refine (wp_op_some (by simp only [host, htrunc, ht]; rfl)).2 ?_
        dsimp only
        rw [wp_bind]
        refine (wp_op_some rfl).2 (wp_pure.2 (hfail (by simp [ht]) _ _ convertToStatus_ne ?_))
        simp only [Host.put]
        rw [hB₁.objects, Function.update_idem, ← hx, Function.update_eq_self]
      | none =>
        refine (wp_op_some (by simp only [host, htrunc, ht]; rfl)).2 (wp_pure.2 ?_)
        have hB₂ : Behind h.objects (objectName name) h.semInit World.blank { v₁ with truncErr := rest h.truncErr } :=
          ⟨hB₁.objects, hB₁.fd, hB₁.semInit⟩
        obtain ⟨hB₃, ha, hm⟩ := hB₂.setExt fun e => { e with length := size }
        exact hok ho hx ht _ hB₃ (ha.trans halloc) (hm.trans hmmap)

/-- `create_extent`: the object is mapped whole, or left as it is. -/
theorem wp_firstExtent (hB : Behind objects name sems w v)
    (hok : v.alloc 0 = true → v.mmapErr 0 4096 = none → ∀ v',
      Behind objects name sems (w.setExt { w.ext with cur := 512, old := [] }) v' → Q .ok v')
    (hfail : ¬(v.alloc 0 = true ∧ v.mmapErr 0 4096 = none) → ∀ st v', st ≠ .ok → v'.objects = v.objects → Q st v') :
    wp host True (firstExtent (4096 / 8)) Q v := by
  rw [firstExtent, wp_bind, wp_alloc]
  by_cases ha : v.alloc 0 = true
  · simp only [ha, Bool.not_true, Bool.false_eq_true, if_false, wp_bind, wp_mmap]
    cases hm : v.mmapErr 0 4096 with
    | some e =>
      simp only [wp_pure]
      exact hfail (by simp [hm]) _ _ convertToStatus_ne rfl
    | none =>
      simp only [wp_pure]
      have hB' : Behind objects name sems w { v with alloc := rest v.alloc, mmapErr := rest v.mmapErr } := ⟨hB.objects, hB.fd, hB.semInit⟩
      obtain ⟨hB'', -, -⟩ := hB'.setExt fun e => { e with cur := ((4096 / 8 * 8 : ℕ) : ℤ) / 8, old := [] }
      exact hok ha hm _ ⟨hB''.objects, hB''.fd, hB''.semInit⟩
  · rw [Bool.not_eq_true] at ha
    simp only [ha, Bool.not_false, if_true, wp_pure]
    exact hfail (by simp [ha]) _ _ (by decide) rfl

/-- `create_base_object`. The object stays if it cannot be mapped. -/
theorem wp_createBaseObject
    (hok : h.Gets name → ¬h.Unmapped → ∀ w v, Behind h.objects (objectName name) h.semInit w v → Geo True w.mem w.ext → w.ext.cur = 512 →
      (∀ a, 7 ≤ a → w.mem a = 0) → Q .ok v)
    (hleft : h.Gets name → h.Unmapped → ∀ st v x, st ≠ .ok → v.objects = Function.update h.objects (objectName name) (some x) → Q st v)
    (hfail : ¬h.Gets name → ∀ st v, st ≠ .ok → v.objects = h.objects → Q st v) :
    wp host True (createBaseObject name SHRQ QVERSION) Q h := by
  have htag : ¬SHRQ.length ≤ 0 := by decide
  simp only [createBaseObject, htag, if_false, wp_bind, wp_initBaseStruct]
  by_cases h₀ : h.alloc 0 = true
  swap
  · simp only [h₀, if_false, Bool.false_eq_true, ne_eq, reduceCtorEq, not_false_eq_true, if_true, wp_pure]
    exact hfail (fun hg => h₀ hg.base) _ _ (by decide) rfl
  by_cases h₁ : h.alloc 1 = true
  swap
  · simp only [h₀, h₁, if_true, if_false, Bool.false_eq_true, ne_eq, reduceCtorEq, not_false_eq_true, wp_pure]
    exact hfail (fun hg => h₁ hg.copy) _ _ (by decide) rfl
  simp only [h₀, h₁, if_true, ne_eq, not_true_eq_false, if_false, wp_bind]
  refine wp_allocateSharedMemory (fun ho hx ht v hB halloc hmmap => ?_) fun hno st v hst hobj => ?_
  swap
  · simp only [hst, not_false_eq_true, if_true, wp_pure]
    exact hfail (fun hg => hno ⟨hg.opens, hg.absent, hg.sized⟩) _ _ hst hobj
  -- the object has its size
  have hgets : h.Gets name := ⟨h₀, h₁, ho, hx, ht⟩
  have hv₀ : v.alloc 0 = h.alloc 2 := by rw [halloc]; rfl
  have hv₁ : v.mmapErr 0 4096 = h.mmapErr 0 4096 := by rw [hmmap]
  simp only [not_true_eq_false, if_false, wp_bind]
  refine wp_firstExtent hB (fun ha hm v' hB' => ?_) fun hno st v' hst hobj => ?_
  · simp only [not_true_eq_false, if_false, wp_bind]
    have hf : Fresh True (World.blank.setExt { ({ World.blank.ext with length := (4096 : ℕ) } : Mapping) with cur := 512, old := [] }) :=
      ⟨fun _ => rfl, by decide, by decide, fun _ _ _ => rfl, fun _ _ => rfl, fun _ _ _ => .inl trivial, .inl trivial⟩
    refine hB'.wp_plain only_initBaseObject (initBaseObject_spec hf (by decide) QVERSION) ?_
    rintro _ _ v'' ⟨m, rfl, hg, -, -, -, hzero⟩ hB''
    refine wp_pure.2 (hok hgets ?_ _ v'' hB'' hg rfl hzero)
    rintro (hbad | hbad)
    · rw [hv₀, hbad] at ha
      cases ha
    · exact hbad (hv₁ ▸ hm)
  · simp only [hst, not_false_eq_true, if_true, wp_pure]
    refine hleft hgets ?_ st v' _ hst (hobj.trans hB.objects)
    by_contra hmapped
    rw [Host.Unmapped, not_or, Bool.not_eq_false, not_not] at hmapped
    exact hno ⟨hv₀ ▸ hmapped.1, hv₁ ▸ hmapped.2⟩

/-- `format_as_queue`: it stops at the first semaphore that cannot be initialised. -/
theorem wp_formatAsQueue (hB : Behind objects name sems w v) (hg : Geo True w.mem w.ext) (hcur : w.ext.cur = 512) (hzero : ∀ a, 7 ≤ a → w.mem a = 0)
    (hok : (∀ s, sems s = true) → ∀ w' v', Behind objects name sems w' v' → Inv True w' (emptyHeap w'.mem) →
      w'.mem MAX_DEPTH = (if maxDepth = 0 then SEM_VALUE_MAX else maxDepth) → Q .ok v')
    (hfail : (∃ s, sems s = false) → ∀ st v' x, st ≠ .ok → v'.objects = Function.update objects name (some x) → Q st v') :
    wp host True (onObject (formatAsQueue maxDepth)) Q v := by
  by_cases hall : ∀ s, sems s = true
  · have hsems : sems = fun _ => true := funext hall
    subst hsems
    refine hB.wp_every (formatAsQueue_spec hg hzero maxDepth) ?_
    rintro _ w' v' ⟨rfl, hI, -, -, -, -, -, hmax, -⟩ hB'
    exact hok hall w' v' hB' hI hmax
  have hbad : ∃ s, sems s = false := by
    obtain ⟨s, hs⟩ := not_forall.1 hall
    exact ⟨s, Bool.not_eq_true _ ▸ hs⟩
  have hstop : ∀ {w'' : World} {v'' : Host}, Behind objects name sems w'' v'' → Q .errNosupport v'' := fun hB'' =>
    hfail hbad _ _ _ (by decide) hB''.objects
  have hlt : (145 : ℤ) < w.ext.cur := by omega
  simp only [formatAsQueue, onObject, subst_bind, subst_ite, subst_pure, wp_bind]
  refine hB.wp_plain only_initDataAllocator (initDataAllocator_spec hg (by decide) (by simp only [HDR_END]; omega)) ?_
  rintro _ w₁ v₁ ⟨m, rfl, -⟩ hB₁
  refine hB₁.wp_plain (p := current) (Q := fun a w' => a = w.ext.cur ∧ w' = w.setMem m) (only_op trivial) (wp_current.2 ⟨rfl, rfl⟩) ?_
  rintro _ w₂ v₂ ⟨rfl, rfl⟩ hB₂
  refine hB₂.wp_semInit (fun hdeq v₃ hB₃ => ?_) fun _ => ?_
  swap
  · simp only [Bool.not_false, if_true, wp_pure]
    exact hstop hB₂
  simp only [Bool.not_true, Bool.false_eq_true, if_false, wp_bind]
  generalize (if maxDepth = 0 then SEM_VALUE_MAX else maxDepth) = depth at hok ⊢
  refine hB₃.wp_plain (p := store w.ext.cur MAX_DEPTH depth) (Q := fun _ _ => True) (only_op trivial)
    ((wp_store (by decide) (by simp only [MAX_DEPTH]; omega)).2 trivial) ?_
  rintro _ w₄ v₄ - hB₄
  refine hB₄.wp_semInit (fun henq v₅ hB₅ => ?_) fun _ => ?_
  swap
  · simp only [Bool.not_false, if_true, wp_pure]
    exact hstop hB₄
  simp only [Bool.not_true, Bool.false_eq_true, if_false, wp_bind]
  refine hB₅.wp_semInit (fun hevnt v₆ hB₆ => ?_) fun _ => ?_
  swap
  · simp only [Bool.not_false, if_true, wp_pure]
    exact hstop hB₅
  refine absurd (fun s => ?_) hall
  cases s
  · exact hdeq
  · exact henq
  · exact hevnt

/-! ## The whole -/

/-- Where there is no object, `stat` says so unless it fails for another reason. -/
theorem Host.found_absent (hx : h.objects (objectName name) = none) :
    (∀ e, h.statErr 0 = some e → e = .enoent ∨ e = .eexist) ↔ ∃ e, h.found name = .error e ∧ convertToStatus e = .errExist := by
  cases hs : h.statErr 0 with
  | none =>
    have hf : h.found name = .error .enoent := by rw [Host.found, hs, Option.elim_none, status_path, hx]
    exact ⟨fun _ => ⟨.enoent, hf, rfl⟩, fun _ e he => by cases he⟩
  | some e =>
    have hf : h.found name = .error e := by rw [Host.found, hs, Option.elim_some]
    constructor
    · intro he
      rcases he e rfl with rfl | rfl
      · exact ⟨_, hf, rfl⟩
      · exact ⟨_, hf, rfl⟩
    · rintro ⟨e', hf', hst⟩ e'' he''
      cases he''
      rw [hf] at hf'
      cases hf'
      cases e <;> first | exact .inl rfl | exact .inr rfl | cases hst

theorem shrQCreate_spec (q : Bool) (n : Option CString) (mode : Mode) :
    wp host True (shrQCreate q n maxDepth mode) (Creation h q n maxDepth mode) h := by
  cases n with
  | none => cases q <;> exact wp_pure.2 (.refused (fun _ hn => by cases hn) (by decide) rfl)
  | some name =>
  cases q with
  | false => exact wp_pure.2 (.refused (fun _ _ hc => Bool.false_ne_true hc.handle) (by decide) rfl)
  | true =>
  have hnot : ∀ {st v}, ¬h.Comes true name maxDepth → st ≠ .ok → v.objects = h.objects →
      wp host True (pure (st, none)) (Creation h true (some name) maxDepth mode) v := fun hc hst hobj =>
    wp_pure.2 (.refused (fun _ hn => by cases hn; exact hc) hst hobj)
  by_cases hdepth : maxDepth > SEM_VALUE_MAX
  · simp only [shrQCreate, hdepth, if_true]
    exact hnot (fun hc => absurd hc.depth (not_le.2 hdepth)) (by decide) rfl
  simp only [shrQCreate, hdepth, if_false, wp_bind]
  rcases validateName_cases (some name) with hv | hv
  swap
  · have hne : validateName (some name) ≠ .ok := by rw [hv]; decide
    rw [wp_performNameValidations_not hne, hv]
    simp only [reduceCtorEq, if_false, ne_eq, not_false_eq_true, if_true]
    exact hnot (fun hc => hne hc.valid) (by decide) rfl
  rw [wp_performNameValidations hv]
  have hfound : h.Comes true name maxDepth → ∃ e, h.found name = .error e ∧ convertToStatus e = .errExist := fun hc =>
    (Host.found_absent hc.gets.absent).1 hc.stat
  cases hf : h.found name with
  | ok st =>
    simp only [true_or, if_true]
    refine hnot (fun hc => ?_) (by decide) rfl
    obtain ⟨e, he, -⟩ := hfound hc
    rw [hf] at he
    cases he
  | error e =>
    have hexist : h.Comes true name maxDepth → convertToStatus e = .errExist := fun hc => by
      obtain ⟨e', he', hst⟩ := hfound hc
      rw [hf] at he'
      cases he'
      exact hst
    dsimp only
    by_cases hstate : convertToStatus e = .errState
    · rw [if_pos hstate]
      exact hnot (fun hc => by rw [hexist hc] at hstate; cases hstate) (by decide) rfl
    rw [if_neg hstate]
    by_cases hex : convertToStatus e = .errExist
    swap
    · rw [if_pos hex]
      exact hnot (fun hc => hex (hexist hc)) convertToStatus_ne rfl
    rw [if_neg (not_not.2 hex), wp_bind]
    have hcomes : h.Gets name → h.Comes true name maxDepth := fun hg =>
      ⟨rfl, not_lt.1 hdepth, hv, (Host.found_absent hg.absent).2 ⟨e, hf, hex⟩, hg⟩
    -- what follows does not ask `stat` any more
    have hgets : ({ h with statErr := rest h.statErr } : Host).Gets name ↔ h.Gets name :=
      ⟨fun hg => ⟨hg.base, hg.copy, hg.opens, hg.absent, hg.sized⟩, fun hg => ⟨hg.base, hg.copy, hg.opens, hg.absent, hg.sized⟩⟩
    refine wp_createBaseObject (h := { h with statErr := rest h.statErr }) (fun hg hmapped w v hB hgeo hcur hzero => ?_)
      (fun hg hmapped st v x hst hobj => ?_) fun hg st v hst hobj => ?_
    · simp only [ne_eq, not_true_eq_false, if_false, wp_bind]
      refine wp_formatAsQueue hB hgeo hcur hzero (fun hall w' v' hB' hI hmax => ?_) fun hbad st v' x hst hobj => ?_
      · refine wp_pure.2 (.made rfl (hcomes (hgets.1 hg)) ?_ hB' hI hmax)
        rintro (hbad | ⟨s, hs⟩)
        · exact hmapped hbad
        · exact Bool.false_ne_true (hs.symm.trans (hall s))
      · simp only [hst, not_false_eq_true, if_true]
        exact wp_pure.2 (.left rfl (hcomes (hgets.1 hg)) (.inr hbad) hst hobj)
    · simp only [hst, ne_eq, not_false_eq_true, if_true]
      exact wp_pure.2 (.left rfl (hcomes (hgets.1 hg)) (.inl hmapped) hst hobj)
    · simp only [hst, ne_eq, not_false_eq_true, if_true]
      exact hnot (fun hc => hg (hgets.2 hc.gets)) hst hobj

theorem Creation.names {q : Bool} {n : Option CString} {mode : Mode} {r : Status × Option Handle} (hc : Creation h q n maxDepth mode r v) :
    (r.1 ≠ .ok → v.names = h.names) ↔ ¬∃ name, n = some name ∧ h.Comes q name maxDepth ∧ h.Breaks := by
  cases hc with
  | made hn hcomes hbreaks =>
    refine iff_of_true (fun hne => absurd rfl hne) ?_
    rintro ⟨_, _, _, hbad⟩
    exact hbreaks hbad
  | @left name st x _ hn hcomes hbreaks hst hobj =>
    refine iff_of_false (fun hsame => ?_) fun hnot => hnot ⟨name, hn, hcomes, hbreaks⟩
    have hin : objectName name ∈ v.names := by
      simp only [Host.names, Set.mem_ofPred_eq, hobj, Function.update_self, Option.isSome_some]
    rw [hsame hst] at hin
    simp only [Host.names, Set.mem_ofPred_eq, hcomes.gets.absent, Option.isSome_none, Bool.false_eq_true] at hin
  | refused hno hst hobj =>
    refine iff_of_true (fun _ => by rw [Host.names, Host.names, hobj]) ?_
    rintro ⟨name, hn, hcomes, -⟩
    exact hno name hn hcomes

/-- **A failed create leaves nothing behind**, unless the object has its size already and a later call fails. -/
theorem create_leaves_nothing (h : Host) (q : Bool) (n : Option CString) (maxDepth : ℤ) (mode : Mode) :
    ∃ r v, Runs host (shrQCreate q n maxDepth mode) h r v ∧
      ((r.1 ≠ .ok → v.names = h.names) ↔ ¬∃ name, n = some name ∧ h.Comes q name maxDepth ∧ h.Breaks) := by
  obtain ⟨r, v, hr, hc⟩ := (wp_iff_runs trivial).1 (shrQCreate_spec q n mode)
  exact ⟨r, v, hr, hc.names⟩

/-- A system without objects, which refuses nothing. -/
def Host.empty : Host where
  objects := fun _ => none
  fd := none
  maps := []
  alloc := fun _ => true
  statErr := fun _ => none
  openErr := fun _ => none
  truncErr := fun _ => none
  mmapErr := fun _ size => if size = 0 then some .einval else none
  semInit := fun _ => true

/-- A system that refuses the first mapping. -/
def Host.scarce : Host := { Host.empty with mmapErr := fun n _ => if n = 0 then some .enomem else none }

/-- Where the mapping is refused the object stays, and a second attempt is told that there is one. -/
theorem create_leaves_object : ∃ r v r' v', Runs host (shrQCreate true (some [113]) 4 .immutable) Host.scarce r v ∧ r.1 = .errNomem ∧
    v.names ≠ Host.scarce.names ∧ Runs host (shrQCreate true (some [113]) 4 .immutable) v r' v' ∧ r'.1 = .errExist := by
  have htwice : (eval host 40 (do
      let r ← shrQCreate true (some [113]) 4 .immutable
      let r' ← shrQCreate true (some [113]) 4 .immutable
      return (r.1, r'.1)) Host.scarce).map Prod.fst = some (.errNomem, .errExist) := by decide +kernel
  obtain ⟨⟨_, v'⟩, he, hst⟩ := Option.map_eq_some_iff.1 htwice
  obtain ⟨r, v, hr, hrest⟩ := runs_bind.1 (runs_of_eval host he)
  obtain ⟨r', v'', hr', hret⟩ := runs_bind.1 hrest
  cases hret
  obtain ⟨hst₁, hst₂⟩ := Prod.mk.inj hst
  have honce : (eval host 40 (shrQCreate true (some [113]) 4 .immutable) Host.scarce).map
      (fun r => (r.2.objects [113]).isSome) = some true := by decide +kernel
  obtain ⟨⟨_, u⟩, hu, hsome⟩ := Option.map_eq_some_iff.1 honce
  obtain ⟨rfl, rfl⟩ := hr.det (runs_of_eval host hu)
  refine ⟨_, _, r', v', hr, hst₁, fun hsame => ?_, hr', hst₂⟩
  have hin : [113] ∈ Host.scarce.names := hsame ▸ (show [113] ∈ Host.names _ from hsome)
  cases hin

end

end LibShr
