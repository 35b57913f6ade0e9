import LibShr.Model.Objects
import LibShr.Seq.Create

/-!
# The object behind a descriptor

A function of the library acts on the object its process has mapped, and on nothing else the system
knows of by a name. What was shown of it for a process that runs alone therefore holds on a `Host`.
`sem_init` is the one operation that may end otherwise there.
-/

namespace LibShr

open Prog

/-- Any operation but `sem_init`. -/
def Op.Plain : Op → Prop
  | .semInit .. => False
  | _ => True

/-- The object with the name is behind the descriptor, and is `w`; the others are as in `objects`. -/
structure Behind (objects : CString → Option Object) (name : CString) (sems : Sem → Bool) (w : World) (v : Host) : Prop where
  objects : v.objects = Function.update objects name (some ⟨true, w⟩)
  fd : v.fd = some name
  semInit : v.semInit = sems

section
variable {objects : CString → Option Object} {name : CString} {sems : Sem → Bool} {w w' : World} {v : Host} {α : Type} {o : Op} {r : o.Res}

theorem Behind.opened (hB : Behind objects name sems w v) : v.opened = some (name, ⟨true, w⟩) := by
  rw [Host.opened, hB.fd, hB.objects]
  simp only [Option.bind_some, Function.update_self, Option.map_some]

/-- The object changes. -/
theorem Behind.put (hB : Behind objects name sems w v) (w' : World) : Behind objects name sems w' (v.put name (some ⟨true, w'⟩)) where
  objects := by rw [Host.put, hB.objects, Function.update_idem]
  fd := hB.fd
  semInit := hB.semInit

theorem Behind.act (hB : Behind objects name sems w v) (ho : seq o w = some (r, w')) :
    ∃ v', v.act o = some (r, v') ∧ Behind objects name sems w' v' := by
  refine ⟨v.put name (some ⟨true, w'⟩), ?_, hB.put w'⟩
  rw [Host.act, hB.opened]
  simp only [Option.bind_some, ho, Option.map_some]

theorem host_plain (ho : o.Plain) : host (.machine o) v = v.act o := by
  cases o with
  | semInit => exact ho.elim
  | _ => rfl

theorem Behind.plain (hB : Behind objects name sems w v) (hp : o.Plain) (ho : seq o w = some (r, w')) :
    ∃ v', Runs host (op (HostOp.machine o)) v r v' ∧ Behind objects name sems w' v' := by
  obtain ⟨v', hv, hB'⟩ := hB.act ho
  exact ⟨v', .act (by rw [host_plain hp]; exact hv) (.ret _ _), hB'⟩

/-- Where `sem_init` never fails, every operation ends as it does alone. -/
theorem Behind.every (hB : Behind objects name (fun _ => true) w v) (ho : seq o w = some (r, w')) :
    ∃ v', Runs host (op (HostOp.machine o)) v r v' ∧ Behind objects name (fun _ => true) w' v' := by
  by_cases hp : o.Plain
  · exact hB.plain hp ho
  cases o with
  | semInit s x =>
    obtain ⟨v', hv, hB'⟩ := hB.act ho
    refine ⟨v', .act ?_ (.ret _ _), hB'⟩
    simp only [host, hB.semInit, if_true]
    exact hv
  | _ => exact absurd trivial hp

/-- **A function that does not call `sem_init`** does on the object what it does alone. -/
theorem Behind.wp_plain (hB : Behind objects name sems w v) {p : M α} {Q : α → World → Prop} {Q' : α → Host → Prop} (hp : p.Only Op.Plain)
    (hw : Wp True p Q w) (hQ : ∀ a w' v', Q a w' → Behind objects name sems w' v' → Q' a v') : wp host True (onObject p) Q' v :=
  wp_subst (Behind objects name sems) (fun _ _ _ _ _ hp hB ho => hB.plain hp ho) hp hB hw hQ

/-- **Any function** does, where `sem_init` never fails. -/
theorem Behind.wp_every (hB : Behind objects name (fun _ => true) w v) {p : M α} {Q : α → World → Prop} {Q' : α → Host → Prop}
    (hw : Wp True p Q w) (hQ : ∀ a w' v', Q a w' → Behind objects name (fun _ => true) w' v' → Q' a v') :
    wp host True (onObject p) Q' v :=
  wp_subst (Behind objects name fun _ => true) (fun _ _ _ _ _ _ hB ho => hB.every ho) (only_true p) hB hw hQ

/-- `sem_init` succeeds or leaves everything as it was. -/
theorem Behind.wp_semInit (hB : Behind objects name sems w v) {s : Sem} {x : ℤ} {Q : Bool → Host → Prop}
    (hok : sems s = true → ∀ v', Behind objects name sems (w.setSem (Function.update w.sem s x)) v' → Q true v')
    (hfail : sems s = false → Q false v) : wp host True (onObject (LibShr.semInit s x)) Q v := by
  by_cases hs : sems s = true
  · obtain ⟨v', hv, hB'⟩ := hB.act (o := .semInit s x) rfl
    refine (wp_op_some (r := true) ?_).2 (hok hs v' hB')
    simp only [host, hB.semInit, hs, if_true]
    exact hv
  · rw [Bool.not_eq_true] at hs
    refine (wp_op_some (r := false) ?_).2 (hfail hs)
    simp only [host, hB.semInit, hs, Bool.false_eq_true, if_false]

/-- A change to what the process sees of the object. -/
theorem Behind.setExt (hB : Behind objects name sems w v) (f : Mapping → Mapping) :
    Behind objects name sems (w.setExt (f w.ext)) (v.setExt f) ∧ (v.setExt f).alloc = v.alloc ∧ (v.setExt f).mmapErr = v.mmapErr := by
  rw [Host.setExt, hB.opened]
  exact ⟨hB.put _, rfl, rfl⟩

/-! ## Calls to the system -/

section
variable {tot : Prop} {h : Host} {e : SysErrno}

theorem wp_alloc {Q : Bool → Host → Prop} : wp host tot Os.alloc Q h ↔ Q (h.alloc 0) { h with alloc := rest h.alloc } :=
  wp_op_some rfl

theorem wp_stat {Q : Except SysErrno Stat → Host → Prop} {path : CString} :
    wp host tot (Os.stat path) Q h ↔
      Q ((h.statErr 0).elim (h.status path) .error) { h with statErr := rest h.statErr } := by
  cases he : h.statErr 0 with
  | none => exact wp_op_some (by simp only [host, he]; rfl)
  | some e => exact wp_op_some (by simp only [host, he]; rfl)

theorem wp_mmap {Q : Option SysErrno → Host → Prop} {size : ℕ} :
    wp host tot (Os.mmap size) Q h ↔
      match h.mmapErr 0 size with
      | some e => Q (some e) { h with mmapErr := rest h.mmapErr }
      | none => Q none { ({ h with mmapErr := rest h.mmapErr } : Host).setExt (fun e => { e with cur := size / 8, old := [] }) with maps := size :: h.maps } := by
  cases he : h.mmapErr 0 size with
  | none => exact wp_op_some (by simp only [host, he])
  | some e => exact wp_op_some (by simp only [host, he])

theorem convertToStatus_ne : convertToStatus e ≠ .ok := by
  cases e <;> decide

/-! ### Names -/

/-- `stat` and `shm_open` find the same object. -/
theorem objectName_path (name : CString) : objectName ((buildFilePath name).drop (SHR_OBJ_DIR.length - 1)) = objectName name := by
  unfold buildFilePath
  by_cases hs : name.head? = some 47
  · simp only [hs, if_true]
    rfl
  · simp only [hs, if_false]
    rfl

theorem status_path (name : CString) : h.status (buildFilePath name) =
    match h.objects (objectName name) with
    | none => .error .enoent
    | some x => .ok ⟨x.world.ext.length.toNat, x.regular⟩ := by
  cases hx : h.objects (objectName name) with
  | none => simp only [Host.status, objectName_path, hx]
  | some x => simp only [Host.status, objectName_path, hx]

/-- What `stat` answers for the file of a name. -/
def Host.found (h : Host) (name : CString) : Except SysErrno Stat := (h.statErr 0).elim (h.status (buildFilePath name)) .error

theorem wp_performNameValidations {Q : Status × ℕ → Host → Prop} {name : CString} {size : Bool} (hv : validateName (some name) = .ok) :
    wp host tot (performNameValidations (some name) size) Q h ↔
      match h.found name with
      | .error e => Q (convertToStatus e, 0) { h with statErr := rest h.statErr }
      | .ok st =>
        if size = false ∨ st.regular = false then Q (.errState, 0) { h with statErr := rest h.statErr }
        else if st.size < 4096 ∨ st.size % 4096 ≠ 0 then Q (.errState, st.size) { h with statErr := rest h.statErr }
        else Q (.ok, st.size) { h with statErr := rest h.statErr } := by
  simp only [performNameValidations, validateExistence, hv, ne_eq, not_true_eq_false, if_false, wp_bind, wp_stat, Host.found]
  cases (h.statErr 0).elim (h.status (buildFilePath name)) Except.error with
  | error e => simp only [wp_pure]
  | ok st => simp only [wp_ite, wp_pure]

theorem wp_performNameValidations_not {Q : Status × ℕ → Host → Prop} {name : Option CString} {size : Bool} (hv : validateName name ≠ .ok) :
    wp host tot (performNameValidations name size) Q h ↔ Q (validateName name, 0) h := by
  simp only [performNameValidations, ne_eq, hv, not_false_eq_true, if_true, wp_pure]

theorem validateName_cases (name : Option CString) : validateName name = .ok ∨ validateName name = .errPath := by
  unfold validateName
  split
  · exact .inr rfl
  · split
    · exact .inr rfl
    · split
      · exact .inr rfl
      · exact .inl rfl

end

end

/-! ## Functions that do not call `sem_init` -/

section
variable {array slot extent slots start head tail headCounter tailCounter : ℤ}

theorem only_resizeExtent : (resizeExtent extent).Only Op.Plain := by
  refine only_bind (only_op trivial) fun _ => only_ite only_pure ?_
  refine only_bind (only_op trivial) fun _ => only_ite only_pure ?_
  refine only_bind (only_op trivial) fun _ => only_bind (only_op trivial) fun _ => only_ite only_pure ?_
  exact only_bind (only_op trivial) fun _ => only_pure

theorem only_extendObject : (extendObject array).Only Op.Plain := by
  refine only_iterate fun _ => only_bind (only_op trivial) fun _ => only_bind (only_op trivial) fun r => ?_
  cases r <;> exact only_pure

theorem only_expand : (expand extent slots).Only Op.Plain := by
  refine only_bind (only_op trivial) fun _ => only_bind (only_op trivial) fun _ => ?_
  refine only_ite (only_bind (only_op trivial) fun _ => only_pure) ?_
  refine only_bind (only_op trivial) fun _ => only_ite only_resizeExtent ?_
  -- from the extension of the file on
  have hrest : ∀ prev : ℤ, (extendObject extent >>= fun done => if (!done) = true then pure (⟨.errNomem, 0, extent⟩ : View) else do
      let _ ← cas extent SIZE (prev / 8) ((← load extent EXPAND_SIZE) / 8)
      if extent ≠ (← load extent SIZE) then resizeExtent extent else return ⟨.ok, 0, extent⟩).Only Op.Plain := by
    intro prev
    refine only_bind only_extendObject fun _ => only_ite only_pure ?_
    refine only_bind (only_op trivial) fun _ => only_bind (only_op trivial) fun _ => only_bind (only_op trivial) fun _ => ?_
    exact only_ite only_resizeExtent only_pure
  refine only_bind (only_op trivial) fun _ => only_ite ?_ (hrest _)
  exact only_bind (only_op trivial) fun _ => hrest _

theorem only_insureFit : (insureFit start slots).Only Op.Plain := by
  refine only_bind (only_op trivial) fun _ => only_bind (only_op trivial) fun _ => only_bind (only_op trivial) fun _ => ?_
  refine only_bind (only_iterate fun _ => only_ite ?_ only_pure) fun _ => only_ite only_pure ?_
  · exact only_bind only_expand fun _ => only_ite only_pure only_pure
  · exact only_bind (only_op trivial) fun _ => only_pure

theorem only_allocNewData : (allocNewData slots).Only Op.Plain := by
  refine only_bind (only_op trivial) fun _ => only_bind (only_op trivial) fun _ => only_bind only_insureFit fun _ => only_ite only_pure ?_
  refine only_iterate fun _ => only_ite only_pure ?_
  refine only_bind (only_op trivial) fun _ => only_ite ?_ only_pure
  refine only_bind (only_op trivial) fun _ => only_ite ?_ ?_
  · exact only_bind (only_op trivial) fun _ => only_pure
  · exact only_bind (only_op trivial) fun _ => only_bind (only_op trivial) fun _ => only_bind only_insureFit fun _ => only_pure

theorem only_primeList : (primeList slots head headCounter tail tailCounter).Only Op.Plain := by
  refine only_bind (only_op trivial) fun _ => only_bind only_allocNewData fun _ => ?_
  refine only_bind (only_op trivial) fun _ => only_bind (only_op trivial) fun _ => only_bind (only_op trivial) fun _ => ?_
  refine only_bind (only_op trivial) fun _ => only_bind (only_op trivial) fun _ => only_bind (only_op trivial) fun _ => ?_
  refine only_bind (only_op trivial) fun _ => only_bind (only_op trivial) fun _ => only_bind (only_op trivial) fun _ => ?_
  exact only_bind (only_op trivial) fun _ => only_bind (only_op trivial) fun _ => only_op trivial

theorem only_initDataAllocator : (initDataAllocator start).Only Op.Plain :=
  only_bind (only_op trivial) fun _ => only_bind (only_op trivial) fun _ => only_primeList

theorem only_storeChunks {cs : List (List UInt8)} : (storeChunks array slot cs).Only Op.Plain := by
  induction cs generalizing slot with
  | nil => exact only_pure
  | cons c cs ih => exact only_bind (only_op trivial) fun _ => ih

theorem only_initBaseObject {tag : List UInt8} {version : ℤ} : (initBaseObject tag version).Only Op.Plain := by
  refine only_bind (only_op trivial) fun _ => only_bind (only_op trivial) fun _ => only_bind (only_op trivial) fun _ => ?_
  refine only_bind (only_op trivial) fun _ => only_bind (only_op trivial) fun _ => only_bind (only_op trivial) fun _ => ?_
  refine only_bind (only_op trivial) fun _ => only_ite (only_bind (only_op trivial) fun _ => only_storeChunks) only_storeChunks

end

end LibShr
