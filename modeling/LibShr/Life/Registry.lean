import LibShr.Lib.Trace
import LibShr.Life.Marks
import LibShr.Model.Destroy

/-!
# The names of the queues

Queues are created, opened, tested, closed and destroyed by name, by any processes, one call after another,
and used meanwhile. The names there are, with the length of the object behind each, are a directory; every call is
answered from it.

| here | there |
| --- | --- |
| `Directory`, `Directory.answer` | a name for each object under `/dev/shm`, and what each call does to it |
| `Asked`                         | a call in a system that refuses nothing |
| `Happening.used`                | processes use a queue: it stays one, and may grow |
-/

namespace LibShr

open Prog

/-! ## Destroying -/

section
variable {s : Ending} {α : Type}

/-- A function of `HostM` does what it does there. -/
theorem wp_onHost {p : HostM α} {Q : α → Host → Prop} {Q' : α → Ending → Prop} (hp : wp host True p Q s.host)
    (hQ : ∀ a v, Q a v → Q' a { s with host := v }) : wp ending True (onHost p) Q' s := by
  refine wp_subst (fun v s' => s' = { s with host := v }) ?_ (only_true p) rfl hp ?_
  · rintro o v s' r v' - rfl ho
    exact ⟨_, .act (show ending (.host o) _ = some (r, { s with host := v' }) by simp only [ending, ho, Option.map_some]) (.ret _ _), rfl⟩
  · rintro a v s' ha rfl
    exact hQ a v ha

theorem wp_semDestroy {sem : Sem} {Q : Bool → Ending → Prop} : wp ending True (semDestroy sem) Q s ↔ Q (s.semDestroy sem) s :=
  wp_op_some rfl

theorem wp_releaseSemaphores {Q : Status → Ending → Prop} (hok : (∀ sem, s.semDestroy sem = true) → Q .ok s)
    (hfail : (∃ sem, s.semDestroy sem = false) → Q .errSys s) : wp ending True releaseSemaphores Q s := by
  simp only [releaseSemaphores, wp_bind, wp_semDestroy, wp_ite, wp_pure, Bool.not_eq_true']
  split
  next hdeq => exact hfail ⟨_, hdeq⟩
  next hdeq =>
  split
  next henq => exact hfail ⟨_, henq⟩
  next henq =>
  split
  next hevnt => exact hfail ⟨_, hevnt⟩
  next hevnt =>
  refine hok fun sem => ?_
  rw [Bool.not_eq_false] at hdeq henq hevnt
  cases sem
  · exact hdeq
  · exact henq
  · exact hevnt

/-- The semaphores can be destroyed and the name can be taken away. -/
structure Ending.Removes (s : Ending) (name : CString) : Prop where
  sems : ∀ sem, s.semDestroy sem = true
  unlinks : s.unlinkErr = none
  present : (s.host.objects (objectName name)).isSome = true

/-- **`shr_q_destroy`** takes the name away, or fails and leaves all names. -/
theorem shrQDestroy_spec (q : Option (CString × Handle)) :
    wp ending True (shrQDestroy q) (fun st s' =>
      (q = none ∧ st = .errArg ∧ s'.host.objects = s.host.objects) ∨
      ∃ name handle, q = some (name, handle) ∧
        ((s.Removes name ∧ st = .ok ∧ s'.host.objects = Function.update s.host.objects (objectName name) none) ∨
          (¬s.Removes name ∧ st = .errSys ∧ s'.host.objects = s.host.objects))) s := by
  cases q with
  | none => exact wp_pure.2 (.inl ⟨rfl, rfl, rfl⟩)
  | some q =>
  obtain ⟨name, handle⟩ := q
  simp only [shrQDestroy, wp_bind]
  refine wp_releaseSemaphores (fun hsems => ?_) fun hbad => ?_
  swap
  · simp only [ne_eq, reduceCtorEq, not_false_eq_true, if_true, wp_pure]
    refine .inr ⟨name, handle, rfl, .inr ⟨fun hr => ?_, trivial, trivial⟩⟩
    obtain ⟨sem, hsem⟩ := hbad
    exact Bool.false_ne_true (hsem.symm.trans (hr.sems sem))
  simp only [ne_eq, not_true_eq_false, if_false, releaseMappedMemory, wp_bind]
  have hclose : wp host True (closeBase handle.size) (fun _ v => v.objects = s.host.objects) s.host := by
    rw [closeBase, wp_bind, wp_munmap, wp_close]
  refine wp_onHost hclose fun _ v hv => ?_
  cases hu : s.unlinkErr with
  | some e =>
    refine (wp_op_some (r := some e) (by simp only [ending]; rfl)).2 (wp_pure.2 ?_)
    refine .inr ⟨name, handle, rfl, .inr ⟨fun hr => ?_, rfl, hv⟩⟩
    cases hu.symm.trans hr.unlinks
  | none =>
    cases hx : s.host.objects (objectName name) with
    | none =>
      refine (wp_op_some (r := some SysErrno.enoent) (by simp only [ending, hv, hx]; rfl)).2 (wp_pure.2 ?_)
      refine .inr ⟨name, handle, rfl, .inr ⟨fun hr => ?_, rfl, hv⟩⟩
      have hin := hr.present
      rw [hx] at hin
      cases hin
    | some x =>
      refine (wp_op_some (r := none) (by simp only [ending, hv, hx]; rfl)).2 (wp_pure.2 ?_)
      refine .inr ⟨name, handle, rfl, .inl ⟨⟨hsems, hu, by rw [hx]; rfl⟩, rfl, ?_⟩⟩
      show Function.update v.objects (objectName name) none = _
      rw [hv]

end

/-! ## The directory -/

/-- The length of the queue behind each name there is. -/
abbrev Directory := CString → Option ℕ

/-- A file of this name can be made: glibc takes no other `/` than leading ones. -/
def ProperName (name : CString) : Prop :=
  objectName name ≠ [] ∧ objectName name ≠ [46] ∧ objectName name ≠ [46, 46] ∧ 47 ∉ objectName name ∧ (objectName name).length ≤ 255

instance (name : CString) : Decidable (ProperName name) := inferInstanceAs (Decidable (_ ∧ _))

/-- A call; `q` tells whether the pointer to the handle is not `NULL`, and a handle comes with its name. -/
inductive Visit
  | create (q : Bool) (name : Option CString) (maxDepth : ℤ) (mode : Mode)
  | opening (q : Bool) (name : Option CString) (mode : Mode)
  | closing (q : Option Handle)
  | isValid (name : Option CString)
  | destroy (q : Option (CString × Handle))
deriving DecidableEq

/-- What a call returns, and the handle it stores. -/
inductive Outcome
  | status (st : Status) (q : Option Handle)
  | flag (b : Bool)
deriving DecidableEq

def Visit.name : Visit → Option CString
  | .create _ name _ _ | .opening _ name _ | .isValid name => name
  | .closing _ => none
  | .destroy q => q.map Prod.fst

def Visit.text : Visit → EndM Outcome
  | .create q name maxDepth mode => do
    let (st, handle) ← onHost (shrQCreate q name maxDepth mode)
    return .status st handle
  | .opening q name mode => do
    let (st, handle) ← onHost (shrQOpen q name mode)
    return .status st handle
  | .closing q => do return .status (← onHost (shrQClose q)) none
  | .isValid name => do return .flag (← onHost (shrQIsValid name))
  | .destroy q => do return .status (← shrQDestroy q) none

namespace Directory

variable (D : Directory)

/-- `validate_name` takes the name. -/
def Takes (name : CString) : Prop := 0 < name.length ∧ name.length ≤ PATH_MAX

instance (name : CString) : Decidable (Takes name) := inferInstanceAs (Decidable (_ ∧ _))

def has (name : CString) : Bool := decide (Takes name) && (D (objectName name)).isSome

/-- What is answered to a call, and the directory after it. -/
def answer : Visit → Outcome × Directory
  | .create true (some name) maxDepth mode =>
    if SEM_VALUE_MAX < maxDepth then (.status .errArg none, D)
    else if ¬Takes name then (.status .errPath none, D)
    else if D.has name then (.status .errExist none, D)
    else (.status .ok (some ⟨mode, 4096⟩), Function.update D (objectName name) (some 4096))
  | .create .. => (.status .errArg none, D)
  | .opening true (some name) mode =>
    if ¬Takes name then (.status .errPath none, D)
    else match D (objectName name) with
      | none => (.status .errExist none, D)
      | some length => (.status .ok (some ⟨mode, length⟩), D)
  | .opening .. => (.status .errArg none, D)
  | .closing q => (.status (if q.isSome then .ok else .errArg) none, D)
  | .isValid name => (.flag (name.any D.has), D)
  | .destroy none => (.status .errArg none, D)
  | .destroy (some (name, _)) =>
    if (D (objectName name)).isSome then (.status .ok none, Function.update D (objectName name) none)
    else (.status .errSys none, D)

end Directory

/-- What happens to the objects. -/
inductive Happening
  | asked (r : Visit) (o : Outcome)
  | used
deriving DecidableEq

/-- A step of the directory. -/
inductive Directory.Step : Directory → Happening → Directory → Prop
  | asked (D : Directory) (r : Visit) : Step D (.asked r (D.answer r).1) (D.answer r).2
  | used {D : Directory} {name : CString} {length length' : ℕ} : D name = some length → length ≤ length' → length' % 4096 = 0 →
      Step D .used (Function.update D name (some length'))

/-- A call of a process for which everything is there: the system refuses it nothing. -/
structure Ending.Willing (s : Ending) : Prop where
  host : s.host.Willing
  sems : ∀ sem, s.semDestroy sem = true
  unlinks : s.unlinkErr = none

/-- A call on these objects, and what it leaves. -/
def Asked (objects : CString → Option Object) (r : Visit) (o : Outcome) (objects' : CString → Option Object) : Prop :=
  ∃ s s' : Ending, s.Willing ∧ s.host.objects = objects ∧ Runs ending r.text s o s' ∧ s'.host.objects = objects'

/-- A step of the system. Between the calls the processes use the queues: one of them changes, and stays a queue. -/
inductive Happens : (CString → Option Object) → Happening → (CString → Option Object) → Prop
  | asked {objects objects' : CString → Option Object} {r : Visit} {o : Outcome} :
      (∀ name, r.name = some name → ProperName name) → Asked objects r o objects' → Happens objects (.asked r o) objects'
  | used {objects : CString → Option Object} {name : CString} {x y : Object} : objects name = some x → y.IsQueue →
      x.world.ext.length ≤ y.world.ext.length → Happens objects .used (Function.update objects name (some y))

/-! ## Objects and their directory -/

/-- Every object is a queue. -/
def Queues (objects : CString → Option Object) : Prop := ∀ name x, objects name = some x → x.IsQueue

def directory (objects : CString → Option Object) : Directory := fun name => (objects name).map fun x => x.world.ext.length.toNat

section
variable {objects objects' : CString → Option Object} {name : CString} {x y : Object} {h : Host} {s : Ending} {mode : Mode} {maxDepth : ℤ}

theorem Object.IsQueue.congr (hx : x.IsQueue) (hc : y.content = x.content) : y.IsQueue := by
  obtain ⟨hreg, hrest⟩ := Prod.mk.inj hc
  obtain ⟨hmem, hlen⟩ := Prod.mk.inj hrest
  refine ⟨hreg.trans hx.regular, ?_, hlen ▸ hx.page, hlen ▸ hx.pages, ?_⟩
  · rw [Object.Marked, hmem]
    exact hx.marked
  · rw [hmem, hlen]
    exact hx.size

theorem SameContent.queues (hs : SameContent objects objects') (hq : Queues objects) : Queues objects' := by
  intro name y hy
  have hc := hs name
  rw [hy, Option.map_some] at hc
  obtain ⟨x, hx, hxy⟩ := Option.map_eq_some_iff.1 hc.symm
  exact (hq name x hx).congr hxy.symm

theorem SameContent.directory (hs : SameContent objects objects') : directory objects' = directory objects := by
  funext name
  have hlen : ∀ o : Option Object, (o.map fun x => x.world.ext.length.toNat) = (o.map Object.content).map fun c => c.2.2.toNat := by
    rintro (_ | x) <;> rfl
  rw [LibShr.directory, LibShr.directory, hlen, hlen, hs name]

theorem directory_update (o : Option Object) :
    directory (Function.update objects name o) = Function.update (directory objects) name (o.map fun x => x.world.ext.length.toNat) := by
  funext n
  by_cases hn : n = name
  · subst hn
    simp only [directory, Function.update_self]
  · simp only [directory, Function.update_of_ne hn]

theorem Queues.update (hq : Queues objects) (hx : x.IsQueue) : Queues (Function.update objects name (some x)) := by
  intro n y hy
  by_cases hn : n = name
  · rw [hn, Function.update_self] at hy
    cases hy
    exact hx
  · rw [Function.update_of_ne hn] at hy
    exact hq n y hy

theorem Queues.erase (hq : Queues objects) : Queues (Function.update objects name none) := by
  intro n y hy
  by_cases hn : n = name
  · rw [hn, Function.update_self] at hy
    cases hy
  · rw [Function.update_of_ne hn] at hy
    exact hq n y hy

theorem directory_isSome : (directory objects name).isSome = (objects name).isSome := Option.isSome_map

theorem validateName_iff : validateName (some name) = .ok ↔ Directory.Takes name := by
  unfold validateName Directory.Takes
  dsimp only
  split
  · exact iff_of_false (by decide) (by omega)
  · split
    · exact iff_of_false (by decide) (by omega)
    · exact iff_of_true rfl (by omega)

theorem validateName_errPath (hn : ¬Directory.Takes name) : validateName (some name) = .errPath :=
  (validateName_cases _).resolve_left (mt validateName_iff.1 hn)

theorem Object.IsQueue.accepts (hx : x.IsQueue) (hw : h.Willing) (ht : Directory.Takes name) (hobj : h.objects (objectName name) = some x) :
    h.Accepts name x :=
  ⟨validateName_iff.2 ht, hw.stat 0, hobj, hx.regular, hx.page, hx.pages⟩

theorem Object.IsQueue.size_pos (hx : x.IsQueue) : 0 < sizeBytes (x.world.mem SIZE) := by
  have hsize := hx.size
  have hpage := hx.page
  omega

/-! ## The calls -/

/-- What a call returns and leaves is what the directory answers. -/
def Answered (objects : CString → Option Object) (r : Visit) (o : Outcome) (objects' : CString → Option Object) : Prop :=
  (o, directory objects') = (directory objects).answer r ∧ Queues objects'

/-- A call of a function that needs no more than `HostM`. -/
theorem wp_text {β : Type} {p : HostM β} {f : β → Outcome} {r : Visit}
    (hp : wp host True p (fun b v => Answered objects r (f b) v.objects) s.host) :
    wp ending True (onHost p >>= fun b => pure (f b)) (fun o s' => Answered objects r o s'.host.objects) s :=
  wp_bind.2 (wp_onHost hp fun _ _ hb => wp_pure.2 hb)

theorem answered_same {r : Visit} {o : Outcome} (hq : Queues objects) (hs : SameContent objects objects')
    (hr : (directory objects).answer r = (o, directory objects)) : Answered objects r o objects' :=
  ⟨by rw [hs.directory, hr], hs.queues hq⟩

theorem shrQCreate_answers (hw : h.Willing) (hq : Queues h.objects) (q : Bool) (n : Option CString) :
    wp host True (shrQCreate q n maxDepth mode) (fun r v => Answered h.objects (.create q n maxDepth mode) (.status r.1 r.2) v.objects) h := by
  have hnot : ∀ {st : Status} {handle : Option Handle} {v : Host}, v.objects = h.objects →
      (directory h.objects).answer (.create q n maxDepth mode) = (.status st handle, directory h.objects) →
      Answered h.objects (.create q n maxDepth mode) (.status st handle) v.objects := fun hv hr =>
    answered_same hq (hv ▸ .refl _) hr
  cases n with
  | none => cases q <;> exact wp_pure.2 (hnot rfl rfl)
  | some name =>
  cases q with
  | false => exact wp_pure.2 (hnot rfl rfl)
  | true =>
  by_cases hdepth : SEM_VALUE_MAX < maxDepth
  · have hgt : maxDepth > SEM_VALUE_MAX := hdepth
    simp only [shrQCreate, hgt, if_true]
    exact wp_pure.2 (hnot rfl (by simp only [Directory.answer, hdepth, if_true]))
  by_cases htakes : Directory.Takes name
  swap
  · have hst := validateName_errPath htakes
    have hgt : ¬maxDepth > SEM_VALUE_MAX := hdepth
    simp only [shrQCreate, hgt, if_false, wp_bind]
    rw [wp_performNameValidations_not (by rw [hst]; decide), hst]
    simp only [reduceCtorEq, if_false, ne_eq, not_false_eq_true, if_true, wp_pure]
    exact hnot rfl (by simp only [Directory.answer, hdepth, htakes, not_false_eq_true, if_false, if_true])
  have hhas : (directory h.objects).has name = (h.objects (objectName name)).isSome := by
    rw [Directory.has, decide_eq_true htakes, Bool.true_and, directory_isSome]
  cases hx : h.objects (objectName name) with
  | some x =>
    have hgt : ¬maxDepth > SEM_VALUE_MAX := hdepth
    have hfound : h.found name = .ok ⟨x.world.ext.length.toNat, x.regular⟩ := by
      rw [Host.found, hw.stat, Option.elim_none, status_path, hx]
    simp only [shrQCreate, hgt, if_false, wp_bind]
    rw [wp_performNameValidations (validateName_iff.2 htakes), hfound]
    simp only [true_or, if_true, wp_pure]
    refine hnot rfl ?_
    rw [hx, Option.isSome_some] at hhas
    simp only [Directory.answer, hdepth, htakes, hhas, not_true_eq_false, if_false, if_true]
  | none =>
    refine wp_mono ?_ (shrQCreate_makes hw (validateName_iff.2 htakes) (not_lt.1 hdepth) hx mode)
    rintro _ v ⟨rfl, w, hv, hqueue, hlen, -⟩
    rw [hx, Option.isSome_none] at hhas
    refine ⟨?_, hv ▸ hq.update hqueue⟩
    rw [hv, directory_update]
    simp only [Directory.answer, hdepth, htakes, hhas, not_true_eq_false, if_false, Bool.false_eq_true, Option.map_some, hlen]
    rfl

theorem shrQOpen_answers (hw : h.Willing) (hq : Queues h.objects) (q : Bool) (n : Option CString) :
    wp host True (shrQOpen q n mode) (fun r v => Answered h.objects (.opening q n mode) (.status r.1 r.2) v.objects) h := by
  have hnot : ∀ {st : Status} {handle : Option Handle} {v : Host}, v.objects = h.objects →
      (directory h.objects).answer (.opening q n mode) = (.status st handle, directory h.objects) →
      Answered h.objects (.opening q n mode) (.status st handle) v.objects := fun hv hr =>
    answered_same hq (hv ▸ .refl _) hr
  cases n with
  | none => cases q <;> exact wp_pure.2 (hnot rfl rfl)
  | some name =>
  cases q with
  | false => exact wp_pure.2 (hnot rfl rfl)
  | true =>
  by_cases htakes : Directory.Takes name
  swap
  · have hst := validateName_errPath htakes
    simp only [shrQOpen, wp_bind]
    rw [wp_performNameValidations_not (by rw [hst]; decide), hst]
    simp only [reduceCtorEq, ne_eq, not_false_eq_true, if_true, wp_pure]
    exact hnot rfl (by simp only [Directory.answer, htakes, not_false_eq_true, if_true])
  cases hx : h.objects (objectName name) with
  | none =>
    have hfound : h.found name = .error .enoent := by rw [Host.found, hw.stat, Option.elim_none, status_path, hx]
    simp only [shrQOpen, wp_bind]
    rw [wp_performNameValidations (validateName_iff.2 htakes), hfound]
    simp only [convertToStatus, reduceCtorEq, ne_eq, not_false_eq_true, if_true, wp_pure]
    exact hnot rfl (by simp only [Directory.answer, htakes, not_true_eq_false, if_false, directory, hx, Option.map_none])
  | some x =>
    have hqueue := hq _ x hx
    refine wp_mono ?_ (wp_runs (shrQOpen_spec hw.toObliging (some name) mode))
    rintro ⟨st, handle⟩ v ⟨hrun, hopens, hgives⟩
    have hst : st = .ok := hopens.2 ⟨name, x, rfl, hqueue.accepts hw htakes hx, hqueue.marked, hqueue.size_pos⟩
    subst hst
    have hhandle : handle = some ⟨mode, h.headerSize (some name)⟩ := (hgives rfl).1
    have hlen : h.headerSize (some name) = x.world.ext.length.toNat := by
      have hsize := hqueue.size
      rw [Host.headerSize, Option.bind_some, hx, Option.elim_some]
      omega
    refine answered_same hq (Runs.looks hrun looks_shrQOpen) ?_
    simp only [Directory.answer, htakes, not_true_eq_false, if_false, directory, hx, Option.map_some, hhandle, hlen]

theorem shrQIsValid_answers (hw : h.Willing) (hq : Queues h.objects) (n : Option CString) :
    wp host True (shrQIsValid n) (fun b v => Answered h.objects (.isValid n) (.flag b) v.objects) h := by
  refine wp_mono ?_ (wp_runs (shrQIsValid_spec hw.toObliging n))
  rintro valid v ⟨hrun, -, hvalid⟩
  refine answered_same hq (Runs.looks hrun looks_shrQIsValid) ?_
  have hb : n.any (directory h.objects).has = valid := by
    rw [Bool.eq_iff_iff, hvalid, Option.any_eq_true]
    constructor
    · rintro ⟨name, rfl, hhas⟩
      rw [Directory.has, Bool.and_eq_true, decide_eq_true_iff, directory_isSome] at hhas
      obtain ⟨x, hx⟩ := Option.isSome_iff_exists.1 hhas.2
      exact ⟨name, x, rfl, (hq _ x hx).accepts hw hhas.1 hx, (hq _ x hx).marked⟩
    · rintro ⟨name, x, rfl, hacc, -⟩
      refine ⟨name, rfl, ?_⟩
      rw [Directory.has, Bool.and_eq_true, decide_eq_true_iff, directory_isSome, hacc.object]
      exact ⟨validateName_iff.1 hacc.valid, rfl⟩
  rw [Directory.answer, hb]

/-- **Every call is answered from the directory.** -/
theorem Visit.answered (hs : s.Willing) (hq : Queues s.host.objects) (r : Visit) :
    wp ending True r.text (fun o s' => Answered s.host.objects r o s'.host.objects) s := by
  cases r with
  | create q n maxDepth mode => exact wp_text (shrQCreate_answers hs.host hq q n)
  | opening q n mode => exact wp_text (shrQOpen_answers hs.host hq q n)
  | isValid n => exact wp_text (shrQIsValid_answers hs.host hq n)
  | closing q =>
    refine wp_text ?_
    cases q with
    | none => exact wp_pure.2 (answered_same hq (.refl _) rfl)
    | some q =>
      simp only [shrQClose, closeBase, wp_bind, wp_munmap, wp_close, wp_pure]
      exact answered_same hq (.refl _) rfl
  | destroy q =>
    refine wp_bind.2 (wp_mono ?_ (shrQDestroy_spec q))
    rintro st s' (⟨rfl, rfl, hobj⟩ | ⟨name, handle, rfl, ⟨hr, rfl, hobj⟩ | ⟨hr, rfl, hobj⟩⟩)
    · exact wp_pure.2 (answered_same hq (hobj ▸ .refl _) rfl)
    · refine wp_pure.2 ⟨?_, hobj ▸ hq.erase⟩
      rw [hobj, directory_update]
      simp only [Directory.answer, directory_isSome, hr.present, if_true, Option.map_none]
    · refine wp_pure.2 (answered_same hq (hobj ▸ .refl _) ?_)
      have habs : (s.host.objects (objectName name)).isSome = false := by
        rw [← Bool.not_eq_true]
        exact fun hin => hr ⟨hs.sems, hs.unlinks, hin⟩
      simp only [Directory.answer, directory_isSome, habs, Bool.false_eq_true, if_false]

/-! ## Runs -/

/-- What happens to the objects happens in their directory. -/
theorem Happens.step {e : Happening} (h : Happens objects e objects') (hq : Queues objects) :
    Directory.Step (directory objects) e (directory objects') ∧ Queues objects' := by
  cases h with
  | asked hproper hasked =>
    obtain ⟨s, s', hs, rfl, hrun, rfl⟩ := hasked
    obtain ⟨hans, hq'⟩ := (Visit.answered hs hq _).1 _ _ hrun
    obtain ⟨ho, hd⟩ := Prod.mk.inj hans
    rw [ho, hd]
    exact ⟨.asked _ _, hq'⟩
  | @used name x y hx hy hgrown =>
    have hold := (hq name x hx).page
    have hpages := hy.pages
    refine ⟨?_, hq.update hy⟩
    rw [directory_update, Option.map_some]
    exact .used (by rw [directory, hx, Option.map_some]) (by omega) (by omega)

/-- **The names of the queues.** Whatever calls are made one after another from no objects on, and however the queues are used
meanwhile, the calls return what a directory of names answers, every object is a queue, and no call fails to return. -/
theorem registry_refines {es : List Happening} (h : Trace Happens (fun _ => none) es objects) :
    Trace Directory.Step (fun _ => none) es (directory objects) ∧ Queues objects ∧
      ∀ (r : Visit) (s : Ending), (∀ name, r.name = some name → ProperName name) → s.Willing → s.host.objects = objects →
        ∃ o s', Runs ending r.text s o s' ∧ Happens objects (.asked r o) s'.host.objects := by
  have hstep : ∀ objects D e objects', (D = directory objects ∧ Queues objects) → Happens objects e objects' →
      ∃ D', Directory.Step D e D' ∧ D' = directory objects' ∧ Queues objects' := by
    rintro objects _ e objects' ⟨rfl, hq⟩ he
    exact ⟨_, (he.step hq).1, rfl, (he.step hq).2⟩
  obtain ⟨D, ht, rfl, hq⟩ := h.simulate (fun objects D => D = directory objects ∧ Queues objects) hstep (fun _ => none)
    ⟨rfl, fun _ _ hx => by cases hx⟩
  refine ⟨ht, hq, fun r s hproper hs hobj => ?_⟩
  subst hobj
  obtain ⟨o, s', hrun, -⟩ := (wp_iff_runs trivial).1 (Visit.answered hs hq r)
  exact ⟨o, s', hrun, .asked hproper ⟨s, s', hs, rfl, hrun, rfl⟩⟩

/-- A process for which everything is there. -/
def Ending.served (objects : CString → Option Object) : Ending := ⟨{ Host.empty with objects := objects }, fun _ => true, none⟩

theorem Ending.served_willing : (Ending.served objects).Willing where
  host :=
    { alloc := fun _ => rfl
      opens := fun _ => rfl
      mapped := fun _ size => by
        rcases Nat.eq_zero_or_pos size with rfl | hpos
        · exact iff_of_false (fun he => by cases he) (lt_irrefl 0)
        · exact iff_of_true (if_neg (Nat.pos_iff_ne_zero.1 hpos)) hpos
      stat := fun _ => rfl
      sized := fun _ => rfl
      semInit := rfl }
  sems := fun _ => rfl
  unlinks := rfl

/-- It makes a call. -/
theorem Queues.asks (hq : Queues objects) (r : Visit) (hproper : ∀ name, r.name = some name → ProperName name) :
    ∃ objects', Happens objects (.asked r ((directory objects).answer r).1) objects' ∧ Queues objects' ∧
      directory objects' = ((directory objects).answer r).2 := by
  obtain ⟨o, s', hrun, hans, hq'⟩ := (wp_iff_runs trivial).1 (Visit.answered (s := Ending.served objects) Ending.served_willing hq r)
  obtain ⟨ho, hd⟩ := Prod.mk.inj hans
  exact ⟨_, .asked hproper ⟨_, s', Ending.served_willing, rfl, ho ▸ hrun, rfl⟩, hq', hd⟩

/-- The name `q` is created, found, destroyed, and found no more. -/
theorem registry_refines_once : ∃ es objects, Trace Happens (fun _ => none) es objects ∧
    es = [.asked (.create true (some [113]) 4 .immutable) (.status .ok (some ⟨.immutable, 4096⟩)), .asked (.isValid (some [113])) (.flag true),
      .asked (.destroy (some ([113], ⟨.immutable, 4096⟩))) (.status .ok none),
      .asked (.opening true (some [113]) .immutable) (.status .errExist none)] ∧
    Trace Directory.Step (fun _ => none) es (directory objects) ∧ Queues objects := by
  have hproper : ∀ name : CString, some [113] = some name → ProperName name := by
    rintro _ ⟨⟩
    decide
  have hnone : Queues fun _ => none := fun _ _ hx => by cases hx
  obtain ⟨objects₁, h₁, hq₁, hd₁⟩ := hnone.asks (.create true (some [113]) 4 .immutable) hproper
  obtain ⟨objects₂, h₂, hq₂, hd₂⟩ := hq₁.asks (.isValid (some [113])) hproper
  obtain ⟨objects₃, h₃, hq₃, hd₃⟩ := hq₂.asks (.destroy (some ([113], ⟨.immutable, 4096⟩))) hproper
  obtain ⟨objects₄, h₄, -, -⟩ := hq₃.asks (.opening true (some [113]) .immutable) hproper
  rw [hd₃, hd₂, hd₁] at h₄
  rw [hd₂, hd₁] at h₃
  rw [hd₁] at h₂
  have ht : Trace Happens (fun _ => none) _ objects₄ := .cons h₁ (.cons h₂ (.cons h₃ (.cons h₄ (.nil _))))
  obtain ⟨hD, hq, -⟩ := registry_refines ht
  exact ⟨_, objects₄, ht, rfl, hD, hq⟩

end

end LibShr
