import LibShr.Conc.Processes
import LibShr.Lib.Outline
import LibShr.Seq.Create

/-!
# Processes that expand one object

Any number of processes in `expand`. Each reads the size of the object twice, sets `EXPAND_SIZE` by a
`CAS` if its target lies beyond what it has read, reads `EXPAND_SIZE` for its `ftruncate` and once
more for its `CAS` on `SIZE`. Every one of these is a step of its own, and so is every operation of
`resize_extent`.

A delayed process can take memory back in two ways. Between its reading of `EXPAND_SIZE` and its
`ftruncate` another one may extend the file further. And where `SIZE` was enlarged beyond its target
between its two reads, it sets no target of its own, so that the `EXPAND_SIZE` it reads after its
`ftruncate` may be the target of another process that has still to extend the file.
-/

namespace LibShr.Expansion

open Prog

/-- Where a process stands with `EXPAND_SIZE`: it has read it for its `ftruncate`, or has made that; before and after these
it is away. -/
inductive Stage
  | away | read | cut
deriving DecidableEq

/-- What is kept of a process. -/
structure Effort where
  /-- It came to its `CAS` on `EXPAND_SIZE` since it last read `base->current`. -/
  tried : Bool
  stage : Stage
  /-- Another process has changed `EXPAND_SIZE` between the two readings of this one. -/
  moved : Bool
  /-- The longest `ftruncate` another process has made since the first of them. -/
  longest : ℤ

/-- What an operation of its own shows of a process. -/
def Effort.after (e : Effort) : (o : Op) → o.Res → Effort
  | .current, _ => { e with tried := false, stage := .away }
  | .cas _ slot _ _, _ => if slot = EXPAND_SIZE then { e with tried := true } else e
  | .load _ slot, _ =>
    if slot ≠ EXPAND_SIZE then e
    else if e.stage = .cut then { e with stage := .away }
    else { e with stage := .read, moved := false, longest := 0 }
  | .ftruncate _, .done => { e with stage := .cut }
  | _, _ => e

/-- What an operation of another one shows. -/
def Effort.beside (e : Effort) : (o : Op) → o.Res → Effort
  | .cas _ slot _ _, true => if slot = EXPAND_SIZE ∧ e.stage ≠ .away then { e with moved := true } else e
  | .ftruncate n, .done => { e with longest := max e.longest n }
  | _, _ => e

/-- The object and the processes, and beside them what is kept of each, and the greatest length the file has had. -/
structure Yard (T : Type) where
  site : Site T
  effort : T → Effort
  peak : ℤ

/-- The processes. A call is one of `expand`, with the extent and the slots it is given. -/
abbrev Procs (T : Type) := Pool Op Op.Res (Yard T) T View

def text {T : Type} (_ : T) (c : ℤ × ℤ) : M View := expand c.1 c.2

section
variable {T : Type} [DecidableEq T]

def Yard.after (w : Yard T) (t : T) (o : Op) (r : o.Res) (s' : Site T) : Yard T :=
  ⟨s', Function.update (fun u => (w.effort u).beside o r) t ((w.effort t).after o r), max w.peak s'.length⟩

def logged (t : T) : Handler Op Op.Res (Yard T) := fun o w =>
  (shared t o w.site).map fun r => (r.1, w.after t o r.1 r.2)

def Step (S : Procs T) (l : T × Move (ℤ × ℤ)) (S' : Procs T) : Prop := Pool.Step logged text S l S'

/-- When a process is in time. Its `ftruncate` does not follow a longer one that another process has made since it read
`EXPAND_SIZE`. And if it never came to its `CAS` on `EXPAND_SIZE`, its `CAS` on a `SIZE` that is still the one it read does not follow a
change of `EXPAND_SIZE` between its two readings, unless another process has made an `ftruncate` for that change. -/
def Timely (t : T) (o : Op) (w : Yard T) : Prop :=
  match o with
  | .ftruncate n => (w.effort t).longest ≤ n
  | .cas _ slot old new => slot = SIZE → (w.effort t).tried = false → w.site.mem SIZE = old → (w.effort t).moved = true →
      new * 8 ≤ (w.effort t).longest
  | _ => True

/-! ## The outline -/

/-- How far a process is: it has read `base->current`; it has the second reading `prev` of `SIZE`; the value `n` of
`EXPAND_SIZE` for its `ftruncate`; it has done that; it has the value `v` for its `CAS` on `SIZE`. -/
inductive Note
  | away
  | begun
  | aimed (prev : ℤ)
  | aiming (prev n : ℤ)
  | cut (prev n : ℤ)
  | swap (prev n v : ℤ)

def size (s : Site T) : ℤ := s.mem SIZE * 8

/-- `EXPAND_SIZE` was `n`. It is still, or the object has since got that size. -/
structure Target (s : Site T) (n : ℤ) : Prop where
  le : n ≤ s.mem EXPAND_SIZE
  reached : n < s.mem EXPAND_SIZE → n ≤ size s

/-- What is known of a process from its second reading `prev` of `SIZE` and its first reading `n` of `EXPAND_SIZE` on. -/
structure Aim (s : Site T) (e : Effort) (prev n : ℤ) : Prop where
  prev_le : prev ≤ s.mem SIZE
  beyond : e.tried = true → prev * 8 < n
  target : Target s n

/-- What is known of a process. -/
def Known (s : Site T) (e : Effort) : Note → Prop
  | .away => True
  | .begun => e.tried = false ∧ e.stage = .away
  | .aimed prev => (prev ≤ s.mem SIZE ∧ (e.tried = true → prev * 8 < s.mem EXPAND_SIZE)) ∧ e.stage ≠ .cut
  | .aiming prev n => Aim s e prev n ∧ e.stage = .read ∧ (e.moved = false → s.mem EXPAND_SIZE = n) ∧ s.length ≤ max n e.longest
  | .cut prev n => Aim s e prev n ∧ e.stage = .cut ∧ (e.moved = false → s.mem EXPAND_SIZE = n) ∧ n ≤ s.length ∧ e.longest ≤ s.length
  | .swap prev n v => Aim s e prev n ∧ e.stage = .away ∧ (e.moved = false → v = n) ∧ n ≤ s.length ∧ e.longest ≤ s.length ∧
      n ≤ v ∧ prev * 8 ≤ v ∧ v ≤ s.mem EXPAND_SIZE ∧ (n < v → n ≤ size s)

structure Inv (w : Yard T) (ν : T → Note) : Prop where
  backed : size w.site ≤ w.site.length
  length_le : w.site.length ≤ w.site.mem EXPAND_SIZE
  peak : w.peak = w.site.length
  known : ∀ t, Known w.site (w.effort t) (ν t)

/-- Processes that expand an object in time. -/
def timely : Protocol T Op Op.Res (Yard T) (ℤ × ℤ) Note where
  handler := logged
  inv := Inv
  may := Timely
  mayCall := fun _ _ _ => True
  idle := fun _ _ => True

end

section
variable {T : Type} {s s' : Site T} {e e' : Effort} {n : Note} {w w' : Yard T} {ν : T → Note} {t : T} {v m prev : ℤ}

theorem Inv.size_le (hI : Inv w ν) : size w.site ≤ w.site.mem EXPAND_SIZE := hI.backed.trans hI.length_le

/-- The object only grows. -/
structure Grown (s s' : Site T) : Prop where
  size : s.mem SIZE ≤ s'.mem SIZE
  length : s.length ≤ s'.length
  expand : s'.mem EXPAND_SIZE = s.mem EXPAND_SIZE ∨ s.mem EXPAND_SIZE ≤ s'.mem EXPAND_SIZE ∧ s.mem EXPAND_SIZE ≤ Expansion.size s'

/-- What another process is told of a move. -/
structure Told (s s' : Site T) (e e' : Effort) : Prop where
  tried : e'.tried = e.tried
  stage : e'.stage = e.stage
  longest : s'.length = s.length ∧ e'.longest = e.longest ∨ e'.longest = max e.longest s'.length
  moved : e'.moved = false → e.moved = false ∧ (e.stage ≠ .away → s'.mem EXPAND_SIZE = s.mem EXPAND_SIZE)

theorem Target.mono (h : Target s m) (hg : Grown s s') : Target s' m := by
  obtain ⟨hsize, -, hexpand⟩ := hg
  obtain ⟨hle, hreached⟩ := h
  constructor
  · rcases hexpand with h | ⟨h, -⟩ <;> omega
  · intro hlt
    rcases hexpand with h | ⟨-, h⟩
    · rw [h] at hlt
      have := hreached hlt
      unfold Expansion.size at *
      omega
    · omega

theorem Aim.mono (h : Aim s e prev m) (hg : Grown s s') (ht : e'.tried = e.tried) : Aim s' e' prev m :=
  ⟨h.prev_le.trans hg.size, ht ▸ h.beyond, h.target.mono hg⟩

/-- What is known of a process stays true when another one moves. -/
theorem Known.mono (h : Known s e n) (hg : Grown s s') (ht : Told s s' e e') : Known s' e' n := by
  have hE : s.mem EXPAND_SIZE ≤ s'.mem EXPAND_SIZE := by
    rcases hg.expand with h | ⟨h, -⟩ <;> omega
  have hL := hg.length
  have hlong : e.longest ≤ s.length → e'.longest ≤ s'.length := by
    rcases ht.longest with ⟨hl, he⟩ | he <;> omega
  cases n with
  | away => trivial
  | begun => exact ⟨ht.tried.trans h.1, ht.stage.trans h.2⟩
  | aimed prev => exact ⟨⟨h.1.1.trans hg.size, fun htry => (h.1.2 (ht.tried ▸ htry)).trans_le hE⟩, ht.stage ▸ h.2⟩
  | aiming prev m =>
    obtain ⟨haim, hstage, hmoved, hlen⟩ := h
    refine ⟨haim.mono hg ht.tried, ht.stage.trans hstage, fun hno => ?_, ?_⟩
    · obtain ⟨hno, hsame⟩ := ht.moved hno
      exact (hsame (by rw [hstage]; decide)).trans (hmoved hno)
    · rcases ht.longest with ⟨hl, he⟩ | he <;> omega
  | cut prev m =>
    obtain ⟨haim, hstage, hmoved, hlen, hlongest⟩ := h
    refine ⟨haim.mono hg ht.tried, ht.stage.trans hstage, fun hno => ?_, hlen.trans hL, hlong hlongest⟩
    obtain ⟨hno, hsame⟩ := ht.moved hno
    exact (hsame (by rw [hstage]; decide)).trans (hmoved hno)
  | swap prev m v =>
    obtain ⟨haim, hstage, hmoved, hlen, hlongest, hv, hpv, hvE, hreached⟩ := h
    refine ⟨haim.mono hg ht.tried, ht.stage.trans hstage, fun hno => hmoved (ht.moved hno).1, hlen.trans hL, hlong hlongest, hv, hpv,
      hvE.trans hE, fun hlt => (hreached hlt).trans ?_⟩
    have := hg.size
    unfold Expansion.size
    omega

/-- A move that leaves the object as it is tells nothing. -/
theorem Told.same (hm : s'.mem = s.mem) (hl : s'.length = s.length) : Told s s' e e :=
  ⟨rfl, rfl, .inl ⟨hl, rfl⟩, fun h => ⟨h, fun _ => by rw [hm]⟩⟩

theorem Effort.beside_quiet {o : Op} (hq : o.Quiet) (r : o.Res) : e.beside o r = e := by
  cases o <;> first | rfl | exact hq.elim

theorem Effort.beside_cas {a slot old new : ℤ} (hs : slot ≠ EXPAND_SIZE) {b : Bool} : e.beside (.cas a slot old new) b = e := by
  cases b with
  | false => rfl
  | true => exact if_neg fun h => hs h.1

variable [DecidableEq T]

theorem logged_some {o : Op} {r : o.Res} (h : logged t o w = some (r, w')) : ∃ s', shared t o w.site = some (r, s') ∧ w' = w.after t o r s' := by
  obtain ⟨⟨r', s'⟩, hs, he⟩ := Option.map_eq_some_iff.1 h
  cases he
  exact ⟨s', hs, rfl⟩

/-- One process performs an operation, and gets another note. -/
theorem Inv.moved {o : Op} {r : o.Res} (hI : Inv w ν) (hg : Grown w.site s') (hbacked : size s' ≤ s'.length)
    (hle : s'.length ≤ s'.mem EXPAND_SIZE) (htold : ∀ u, Told w.site s' (w.effort u) ((w.effort u).beside o r))
    (hown : Known s' ((w.effort t).after o r) n) : Inv (w.after t o r s') (Function.update ν t n) := by
  refine ⟨hbacked, hle, ?_, fun u => ?_⟩
  · change max w.peak s'.length = s'.length
    rw [hI.peak]
    exact max_eq_right hg.length
  · unfold Yard.after
    dsimp only
    by_cases hu : u = t
    · subst hu
      rwa [Function.update_self, Function.update_self]
    · rw [Function.update_of_ne hu, Function.update_of_ne hu]
      exact (hI.known u).mono hg (htold u)

/-- The object is as before. -/
theorem Inv.same {o : Op} {r : o.Res} (hI : Inv w ν) (hm : s'.mem = w.site.mem) (hl : s'.length = w.site.length)
    (hbeside : ∀ e : Effort, e.beside o r = e) (hown : Known w.site ((w.effort t).after o r) n) :
    Inv (w.after t o r s') (Function.update ν t n) := by
  have hg : Grown w.site s' := ⟨by rw [hm], hl.ge, .inl (by rw [hm])⟩
  have hs : size s' = size w.site := by rw [size, hm, size]
  refine hI.moved hg (hs ▸ hl ▸ hI.backed) (by rw [hl, hm]; exact hI.length_le) (fun u => ?_) (hown.mono hg (.same hm hl))
  rw [hbeside]
  exact .same hm hl

theorem outline_quiet {o : Op} {post : o.Res → Note → Prop} (hq : o.Quiet) (n' : Note)
    (hn : ∀ (s : Site T) (e : Effort) r, Known s e n → Known s (e.after o r) n') (hpost : ∀ r, post r n') :
    (timely (T := T)).outline t (op o) post n := by
  rintro w ν hI rfl - r w' h
  obtain ⟨s', hs, rfl⟩ := logged_some h
  obtain ⟨hm, hl⟩ := shared_quiet hq hs
  exact ⟨n', hI.same hm hl (fun e => Effort.beside_quiet hq r) (hn _ _ r (hI.known t)), hpost r⟩

/-- An operation whose outcome does not matter, at a place where nothing is to be known. -/
theorem outline_away {o : Op} {post : o.Res → Note → Prop} (hq : o.Quiet) (hpost : ∀ r, post r .away) :
    (timely (T := T)).outline t (op o) post n :=
  outline_quiet hq .away (fun _ _ _ _ => trivial) hpost

theorem outline_load {a slot : ℤ} {post : ℤ → Note → Prop} (f : ℤ → Note)
    (hn : ∀ (s : Site T) (e : Effort), Known s e n → size s ≤ s.length → s.length ≤ s.mem EXPAND_SIZE →
      Known s (e.after (.load a slot) (s.mem slot)) (f (s.mem slot)))
    (hpost : ∀ r, post r (f r)) : (timely (T := T)).outline t (load a slot) post n := by
  rintro w ν hI rfl - r w' h
  obtain ⟨s', hs, rfl⟩ := logged_some h
  obtain ⟨hm, hl⟩ := shared_quiet (o := .load a slot) trivial hs
  obtain ⟨rfl, -⟩ := shared_load hs
  exact ⟨_, hI.same hm hl (fun e => Effort.beside_quiet (o := .load a slot) trivial _) (hn _ _ (hI.known t) hI.backed hI.length_le), hpost _⟩

/-- The `CAS` on `EXPAND_SIZE`, with a target beyond what was read. -/
theorem outline_aim {a target : ℤ} {post : Bool → Note → Prop} (hlt : prev * 8 < target) (hpost : ∀ r, post r (.aimed prev)) :
    (timely (T := T)).outline t (cas a EXPAND_SIZE (prev * 8) target) post (.aimed prev) := by
  intro w ν hI hn _ r w' h
  obtain ⟨s', hs, rfl⟩ := logged_some h
  have hk := hI.known t
  rw [hn] at hk
  obtain ⟨⟨hprev, -⟩, hstage⟩ := hk
  have hle := hI.size_le
  have hback := hI.backed
  have hl : s'.length = w.site.length := (shared_length hs).resolve_right fun ⟨_, h, _⟩ => nomatch h
  refine ⟨.aimed prev, ?_, hpost r⟩
  rcases shared_cas hs with ⟨rfl, hold, hm⟩ | ⟨rfl, hold, hm⟩
  · have hS : s'.mem SIZE = w.site.mem SIZE := by rw [hm]; exact if_neg (by decide)
    have hE : s'.mem EXPAND_SIZE = target := by rw [hm]; exact if_pos rfl
    have hsize : size s' = size w.site := by rw [size, hS, size]
    have hbig : prev * 8 ≤ size w.site := by unfold size; omega
    refine hI.moved ⟨hS.ge, hl.ge, .inr ⟨?_, ?_⟩⟩ ?_ ?_ (fun u => ?_) ⟨⟨?_, fun _ => ?_⟩, hstage⟩
    · rw [hE, hold]
      exact hlt.le
    · rw [hsize, hold]
      exact hbig
    · rw [hsize, hl]
      exact hback
    · rw [hl, hE]
      exact hI.length_le.trans (hold ▸ hlt.le)
    · by_cases haway : (w.effort u).stage = .away
      · rw [show (w.effort u).beside (.cas a EXPAND_SIZE (prev * 8) target) true = w.effort u from if_neg fun h => h.2 haway]
        exact ⟨rfl, rfl, .inl ⟨hl, rfl⟩, fun h => ⟨h, fun hne => absurd haway hne⟩⟩
      · rw [show (w.effort u).beside (.cas a EXPAND_SIZE (prev * 8) target) true = { w.effort u with moved := true } from
          if_pos ⟨rfl, haway⟩]
        exact ⟨rfl, rfl, .inl ⟨hl, rfl⟩, fun h => nomatch h⟩
    · rw [hS]
      exact hprev
    · rw [hE]
      exact hlt
  · refine hI.same hm hl (fun _ => rfl) ⟨⟨hprev, fun _ => lt_of_le_of_ne ?_ (Ne.symm hold)⟩, hstage⟩
    unfold size at hle
    omega

/-- An `ftruncate` that is in time. -/
theorem outline_cut {post : Trunc → Note → Prop} (hdone : post .done (.cut prev m)) (hfailed : post .failed .away) :
    (timely (T := T)).outline t (ftruncate m) post (.aiming prev m) := by
  intro w ν hI hn hmay r w' h
  obtain ⟨s', hs, rfl⟩ := logged_some h
  have hk := hI.known t
  rw [hn] at hk
  obtain ⟨haim, -, hmoved, hlen⟩ := hk
  have hlongest : (w.effort t).longest ≤ m := hmay
  -- since this process has read `m`, only others have extended the file, and none of them further
  have hlen : w.site.length ≤ m := by omega
  obtain ⟨hm, ⟨rfl, hl⟩ | ⟨rfl, hl⟩⟩ := shared_ftruncate hs
  · have hsize : size s' = size w.site := by rw [size, hm, size]
    have hg : Grown w.site s' := ⟨by rw [hm], by rw [hl]; exact hlen, .inl (by rw [hm])⟩
    refine ⟨.cut prev m, hI.moved hg ?_ ?_ (fun u => ?_) ⟨haim.mono hg rfl, rfl, ?_, hl.ge, hl ▸ hlongest⟩, hdone⟩
    · rw [hsize, hl]
      exact hI.backed.trans hlen
    · rw [hl, hm]
      exact haim.target.le
    · exact ⟨rfl, rfl, .inr (by rw [hl]; rfl), fun h => ⟨h, fun _ => by rw [hm]⟩⟩
    · rw [hm]
      exact hmoved
  · exact ⟨.away, hI.same hm hl (fun _ => rfl) trivial, hfailed⟩

/-- The `CAS` on `SIZE`. The length of the file covers what it puts there: a process that came to its `CAS` on
`EXPAND_SIZE` has a target beyond `prev`, so that `SIZE` is no longer `prev` where the target was changed. -/
theorem outline_swap {a : ℤ} {post : Bool → Note → Prop} (hpost : ∀ r, post r .away) :
    (timely (T := T)).outline t (cas a SIZE prev (v / 8)) post (.swap prev m v) := by
  intro w ν hI hn hmay r w' h
  obtain ⟨s', hs, rfl⟩ := logged_some h
  have hk := hI.known t
  rw [hn] at hk
  obtain ⟨haim, -, hmoved, hlen, hlongest, hv, hpv, hvE, hreached⟩ := hk
  have hl : s'.length = w.site.length := (shared_length hs).resolve_right fun ⟨_, h, _⟩ => nomatch h
  refine ⟨.away, ?_, hpost r⟩
  rcases shared_cas hs with ⟨rfl, hold, hm⟩ | ⟨rfl, -, hm⟩
  · have hS : s'.mem SIZE = v / 8 := by rw [hm]; exact if_pos rfl
    have hE : s'.mem EXPAND_SIZE = w.site.mem EXPAND_SIZE := by rw [hm]; exact if_neg (by decide)
    have hback : v / 8 * 8 ≤ w.site.length := by
      cases htry : (w.effort t).tried with
      | true =>
        have := haim.beyond htry
        unfold size at hreached
        omega
      | false =>
        cases hmove : (w.effort t).moved with
        | false =>
          have := hmoved hmove
          omega
        | true => exact (hmay rfl htry hold hmove).trans hlongest
    refine hI.moved ⟨?_, hl.ge, .inl hE⟩ ?_ ?_ (fun u => ?_) trivial
    · rw [hS, hold]
      omega
    · rw [size, hS, hl]
      exact hback
    · rw [hl, hE]
      exact hI.length_le
    · rw [Effort.beside_cas (by decide)]
      exact ⟨rfl, rfl, .inl ⟨hl, rfl⟩, fun h => ⟨h, fun _ => hE⟩⟩
  · exact hI.same hm hl (fun _ => rfl) trivial

/-- `resize_extent` leaves the object as it is. -/
theorem outline_resizeExtent (extent : ℤ) : (timely (T := T)).outline t (resizeExtent extent) (fun _ _ => True) n := by
  unfold resizeExtent
  refine Protocol.outline_bind (outline_away trivial fun r => ?_)
  refine Protocol.outline_ite (fun _ => trivial) fun _ => ?_
  refine Protocol.outline_bind (outline_away trivial fun r => ?_)
  refine Protocol.outline_ite (fun _ => trivial) fun _ => ?_
  refine Protocol.outline_bind (outline_away trivial fun r => ?_)
  refine Protocol.outline_bind (outline_away trivial fun status => ?_)
  refine Protocol.outline_ite (fun _ => trivial) fun _ => ?_
  exact Protocol.outline_bind (outline_away trivial fun r => trivial)

theorem outline_extendObject (array : ℤ) :
    (timely (T := T)).outline t (extendObject array) (fun b n => b = true → ∃ m, n = .cut prev m) (.aimed prev) := by
  refine Protocol.outline_iterate (fun _ n => n = .aimed prev) rfl ?_
  rintro _ _ rfl
  refine Protocol.outline_bind (outline_load (.aiming prev) ?_ fun m => ?_)
  · rintro s e ⟨⟨hprev, htried⟩, hstage⟩ - hlen
    rw [show e.after (.load array EXPAND_SIZE) (s.mem EXPAND_SIZE) = { e with stage := .read, moved := false, longest := 0 } from
      if_neg hstage]
    exact ⟨⟨hprev, htried, le_rfl, fun h => absurd h (lt_irrefl _)⟩, rfl, fun _ => rfl, hlen.trans (le_max_left _ _)⟩
  · refine Protocol.outline_bind (outline_cut ?_ ?_)
    · exact fun _ => ⟨m, rfl⟩
    · exact fun h => nomatch h

theorem outline_expand (extent slots : ℤ) : (timely (T := T)).outline t (expand extent slots) (fun _ _ => True) n := by
  unfold expand
  refine Protocol.outline_bind (outline_away trivial fun _ => ?_)
  refine Protocol.outline_bind (outline_quiet trivial .begun (fun _ _ _ _ => ⟨rfl, rfl⟩) fun r => ?_)
  refine Protocol.outline_ite (fun _ => ?_) fun _ => ?_
  · exact Protocol.outline_bind (outline_away trivial fun r => trivial)
  refine Protocol.outline_bind (outline_quiet trivial .begun (fun _ _ _ h => h) fun r => ?_)
  refine Protocol.outline_ite (fun _ => outline_resizeExtent extent) fun _ => ?_
  refine Protocol.outline_bind (outline_load .aimed ?_ fun prev => ?_)
  · rintro s e ⟨htried, haway⟩ - -
    exact ⟨⟨le_rfl, fun h => absurd (htried.symm.trans h) Bool.false_ne_true⟩, by rw [show e.after (.load extent SIZE) (s.mem SIZE) = e from rfl, haway]; decide⟩
  have hrest : (timely (T := T)).outline t (do
      if !(← extendObject extent) then return ⟨.errNomem, 0, extent⟩
      let _ ← cas extent SIZE (prev * 8 / 8) ((← load extent EXPAND_SIZE) / 8)
      if extent ≠ (← load extent SIZE) then
        resizeExtent extent
      else
        return ⟨.ok, 0, extent⟩ : M View) (fun _ _ => True) (.aimed prev) := by
    refine Protocol.outline_bind (Protocol.outline_mono (outline_extendObject extent) fun b n hb => ?_)
    refine Protocol.outline_ite (fun _ => trivial) fun hdone => ?_
    obtain ⟨m, rfl⟩ := hb (by simpa using hdone)
    refine Protocol.outline_bind (outline_load (.swap prev m) ?_ fun v => ?_)
    · rintro s e ⟨haim, hstage, hmoved, hlen, hlongest⟩ hback hle
      rw [show e.after (.load extent EXPAND_SIZE) (s.mem EXPAND_SIZE) = { e with stage := .away } from if_pos hstage]
      refine ⟨⟨haim.prev_le, haim.beyond, haim.target⟩, rfl, hmoved, hlen, hlongest, haim.target.le, ?_, le_rfl, haim.target.reached⟩
      have := haim.prev_le
      unfold size at hback
      omega
    · rw [Int.mul_ediv_cancel _ (by decide)]
      refine Protocol.outline_bind (outline_swap fun _ => ?_)
      refine Protocol.outline_bind (outline_away trivial fun r => ?_)
      exact Protocol.outline_ite (fun _ => outline_resizeExtent extent) fun _ => trivial
  dsimp only
  split
  · next hlt => exact Protocol.outline_bind (outline_aim hlt fun _ => hrest)
  · exact hrest

/-! ## Runs -/

def TimelyStep (S : Procs T) (l : T × Move (ℤ × ℤ)) (S' : Procs T) : Prop := timely.Step text S l S'

/-- The greatest length the file has had is one for good. -/
theorem TimelyStep.peak_le {S S' : Procs T} {l : T × Move (ℤ × ℤ)} (hs : TimelyStep S l S') : S.world.peak ≤ S'.world.peak := by
  obtain ⟨t, m⟩ := l
  obtain ⟨-, -, hs⟩ := hs
  cases m with
  | call c =>
    obtain ⟨-, hw, -⟩ := hs.call
    rw [hw]
  | ret =>
    obtain ⟨_, -, hw, -⟩ := hs.ret
    rw [hw]
  | op =>
    obtain ⟨p, p', hp, hstep, -⟩ := hs.op
    cases p with
    | ret a => cases hstep
    | loop body s k =>
      obtain ⟨-, hw⟩ := Prod.mk.inj (Option.some.inj hstep)
      rw [hw]
    | act o k =>
      obtain ⟨⟨r, w'⟩, ho, he⟩ := Option.map_eq_some_iff.1 hstep
      obtain ⟨-, rfl⟩ := Prod.mk.inj he
      obtain ⟨s', -, hw⟩ := logged_some ho
      rw [hw]
      exact le_max_left _ _

/-- **Timely expansion never takes memory back.** In every state reached the file is as long as the object, and no step
makes it shorter. -/
theorem expansion_keeps {S₀ S : Procs T} {ls : List (T × Move (ℤ × ℤ))} (hidle : ∀ t, S₀.task t = none)
    (hsize : S₀.world.site.mem SIZE * 8 ≤ S₀.world.site.length) (hlength : S₀.world.site.length ≤ S₀.world.site.mem EXPAND_SIZE)
    (hpeak : S₀.world.peak = S₀.world.site.length) (h : Trace TimelyStep S₀ ls S) :
    S.world.site.mem SIZE * 8 ≤ S.world.site.length ∧ S.world.site.length = S.world.peak ∧
      ∀ l S', TimelyStep S l S' → S.world.site.length ≤ S'.world.site.length := by
  have hcall : ∀ (w : Yard T) ν t (c : ℤ × ℤ), Inv w ν → True → True →
      ∃ n, Inv w (Function.update ν t n) ∧ timely.outline t (text t c) (fun _ _ => True) n := fun w ν t c hI _ _ =>
    ⟨ν t, by rwa [Function.update_eq_self], outline_expand c.1 c.2⟩
  have hstart : timely.Fits (fun _ _ _ => True) S₀ fun _ => Note.away := by
    refine ⟨⟨hsize, hlength, hpeak, fun _ => trivial⟩, fun _ _ => trivial, fun t p hp => ?_⟩
    rw [hidle t] at hp
    cases hp
  obtain ⟨ν, hF⟩ := hstart.run hcall (fun _ _ _ _ => trivial) h
  refine ⟨hF.inv.backed, hF.inv.peak.symm, fun l S' hs => ?_⟩
  obtain ⟨ν', hF'⟩ := hF.step hcall (fun _ _ _ _ => trivial) hs
  calc S.world.site.length = S.world.peak := hF.inv.peak.symm
    _ ≤ S'.world.peak := hs.peak_le
    _ = S'.world.site.length := hF'.inv.peak

end

/-! ## Two processes -/

/-- The two processes on an object of one page. -/
def onePage : Procs Bool :=
  ⟨⟨⟨setSlot (setSlot (fun _ => 0) SIZE 512) EXPAND_SIZE 4096, fun _ => 0, 4096, fun _ => .fresh⟩, fun _ => ⟨false, .away, false, 0⟩, 4096⟩,
    fun _ => none⟩

def steps (t : Bool) (n : ℕ) : List (Bool × Move (ℤ × ℤ)) := List.replicate n (t, .op)

/-- A call of one process that enlarges the object, from beginning to end. -/
def whole (t : Bool) (extent : ℤ) : List (Bool × Move (ℤ × ℤ)) := (t, .call (extent, 1)) :: steps t 16 ++ [(t, .ret)]

/-- Both processes have read `SIZE` twice when one of them expands the object, and does so again after the other. -/
def together : List (Bool × Move (ℤ × ℤ)) :=
  (false, .call (512, 1)) :: steps false 4 ++ whole true 512 ++ steps false 12 ++ (false, .ret) :: whole true 1024

/-- One process is between its reading of `EXPAND_SIZE` and its `ftruncate` while the other expands the object twice. -/
def overtaken : List (Bool × Move (ℤ × ℤ)) := (false, .call (512, 1)) :: steps false 7 ++ whole true 512 ++ whole true 1024

/-- One process is between its two readings of `SIZE` while the other expands the object, and reads `EXPAND_SIZE` for its
`CAS` on `SIZE` while the other is about to expand it once more. -/
def untried : List (Bool × Move (ℤ × ℤ)) :=
  (false, .call (512, 1)) :: steps false 3 ++ whole true 512 ++ steps false 4 ++ (true, .call (1024, 1)) :: steps true 5 ++ steps false 2

def run (S : Procs Bool) (l : Bool × Move (ℤ × ℤ)) : Option (Procs Bool) := S.step logged text l

instance {T : Type} (t : T) (o : Op) (w : Yard T) : Decidable (Timely t o w) :=
  match o with
  | .ftruncate n => inferInstanceAs (Decidable ((w.effort t).longest ≤ n))
  | .cas _ slot old new => inferInstanceAs (Decidable (slot = SIZE → (w.effort t).tried = false → w.site.mem SIZE = old →
      (w.effort t).moved = true → new * 8 ≤ (w.effort t).longest))
  | .load .. | .store .. | .storeBytes .. | .dwcas .. | .afa .. | .semInit .. | .semTrywait _ | .semWait _ | .semTimedwait .. | .semPost _
  | .semGetvalue _ | .assert _ | .undefined | .current | .createExtent _ | .releasePrev | .addAccessors _ | .malloc _ | .clock
  | .sigqueue .. => instDecidableTrue

def runTimely (S : Procs Bool) (l : Bool × Move (ℤ × ℤ)) : Option (Procs Bool) :=
  match (S.task l.1).bind head? with
  | some o => if Timely l.1 o S.world then run S l else none
  | none => run S l

theorem runTimely_step {S S' : Procs Bool} {l : Bool × Move (ℤ × ℤ)} (h : runTimely S l = some S') : TimelyStep S l S' := by
  unfold runTimely at h
  split at h
  · next o ho =>
    split at h
    · next hmay =>
      refine ⟨fun o' _ ho' => ?_, fun _ _ => trivial, h⟩
      rw [ho] at ho'
      cases ho'
      exact hmay
    · cases h
  · next ho =>
    refine ⟨fun o' _ ho' => ?_, fun _ _ => trivial, h⟩
    rw [ho] at ho'
    cases ho'

theorem expansion_keeps_together : ∃ S, Trace TimelyStep onePage together S ∧ S.world.site.mem SIZE = 1536 ∧
    S.world.site.mem SIZE * 8 ≤ S.world.site.length ∧ S.world.site.length = S.world.peak ∧
    ∀ l S', TimelyStep S l S' → S.world.site.length ≤ S'.world.site.length := by
  have hrun : (together.foldlM runTimely onePage).map (fun S => S.world.site.mem SIZE) = some 1536 := by decide +kernel
  obtain ⟨S, hS, hsize⟩ := Option.map_eq_some_iff.1 hrun
  have htrace : Trace TimelyStep onePage together S := Trace.of_foldlM (fun _ _ _ => runTimely_step) hS
  exact ⟨S, htrace, hsize, expansion_keeps (fun _ => rfl) (by decide +kernel) (by decide +kernel) rfl htrace⟩

/-- A late `ftruncate` makes the file shorter than it was, and than the object. And `SIZE` is enlarged before the file is. -/
theorem memory_taken_back :
    (∃ S S', Trace Step onePage overtaken S ∧ Step S (false, .op) S' ∧ S'.world.site.length < S.world.site.length ∧
      S'.world.site.length < S'.world.site.mem SIZE * 8) ∧
    ∃ S, Trace Step onePage untried S ∧ S.world.site.length < S.world.site.mem SIZE * 8 := by
  constructor
  · have hrun : (overtaken.foldlM run onePage).bind (fun S => (run S (false, .op)).map fun S' =>
        (S.world.site.length, S'.world.site.length, S'.world.site.mem SIZE)) = some (12288, 8192, 1536) := by decide +kernel
    obtain ⟨S, hS, hrun⟩ := Option.bind_eq_some_iff.1 hrun
    obtain ⟨S', hS', hvalues⟩ := Option.map_eq_some_iff.1 hrun
    simp only [Prod.mk.injEq] at hvalues
    obtain ⟨h, h', hsize⟩ := hvalues
    refine ⟨S, S', Trace.of_foldlM (fun _ _ _ h => h) hS, hS', ?_, ?_⟩
    · rw [h, h']
      decide
    · rw [h', hsize]
      decide
  · have hrun : (untried.foldlM run onePage).map (fun S => (S.world.site.length, S.world.site.mem SIZE)) = some (8192, 1536) := by decide +kernel
    obtain ⟨S, hS, hvalues⟩ := Option.map_eq_some_iff.1 hrun
    obtain ⟨h, hsize⟩ := Prod.mk.inj hvalues
    refine ⟨S, Trace.of_foldlM (fun _ _ _ h => h) hS, ?_⟩
    rw [h, hsize]
    decide

end LibShr.Expansion
