import LibShr.Lib.Atomic
import LibShr.Conc.Processes
import LibShr.Model.Queries
import LibShr.Refine.Calls
import LibShr.Runs.View

/-!
# Settings that many processes change and read

Any number of processes that change the modes, the subscriptions, the time limit and the buffer size that is
advertised, and ask for them. Each call runs the text of its function, one operation at a time, and a
`CAS` or `DWCAS` that fails is tried again with what is there then. Every call takes effect in one step: the whole is
as if each had been made alone.

`shr_q_level` is not among these: it tries its `CAS` once.
-/

namespace LibShr.Settings

open Prog

/-- The calls. The last one is `update_buffer_size`, which the add functions call with the extent they are in. -/
inductive Setting
  | timelimit (seconds nanoseconds : ℤ)
  | discard (flag : Bool)
  | limitLifo (flag : Bool)
  | subscribe (event : Event)
  | unsubscribe (event : Event)
  | isSubscribed (event : Event) (h : event ≠ .none)
  | willDiscard
  | willLifo
  | count
  | buffer
  | updateBufferSize (array space vecSz : ℤ)

def Setting.text (q : ShrQ) : Setting → M Reply
  | timelimit s n => Reply.status <$> shrQTimelimit (some q) s n
  | discard b => Reply.status <$> shrQDiscard (some q) b
  | limitLifo b => Reply.status <$> shrQLimitLifo (some q) b
  | subscribe e => Reply.status <$> shrQSubscribe (some q) e
  | unsubscribe e => Reply.status <$> shrQUnsubscribe (some q) e
  | isSubscribed e _ => Reply.flag <$> shrQIsSubscribed (some q) e
  | willDiscard => Reply.flag <$> shrQWillDiscard (some q)
  | willLifo => Reply.flag <$> shrQWillLifo (some q)
  | count => Reply.number <$> shrQCount (some q)
  | buffer => Reply.number <$> shrQBuffer (some q)
  | updateBufferSize array space vecSz => (fun _ => Reply.status .ok) <$> LibShr.updateBufferSize array space vecSz

/-- Bits are set where none of them is, or cleared where one of them is set. -/
def switched (h : Header) (f : ℤ) (on : Bool) : Header :=
  if on then if Int.land h.flags f = 0 then { h with flags := Int.lor h.flags f } else h
  else if Int.land h.flags f = 0 then h else { h with flags := Int.land h.flags (Int.lnot f) }

/-- What a call does in one step. -/
def Setting.effect : Setting → Header → Reply × Header
  | timelimit s n, h => (.status .ok, { h with limit := ⟨s, n⟩ })
  | discard b, h => (.status .ok, switched h FLAG_DISCARD_EXPIRED b)
  | limitLifo b, h => (.status .ok, switched h FLAG_LIFO_ON_LEVEL b)
  | subscribe e, h => (.status .ok, switched h (getEventFlag e) true)
  | unsubscribe e, h => (.status .ok, switched h (getEventFlag e) false)
  | isSubscribed e _, h => (.flag (Int.land h.flags (getEventFlag e) ≠ 0), h)
  | willDiscard, h => (.flag (Int.land h.flags FLAG_DISCARD_EXPIRED ≠ 0), h)
  | willLifo, h => (.flag (Int.land h.flags FLAG_LIFO_ON_LEVEL ≠ 0), h)
  | count, h => (.number h.count, h)
  | buffer, h => (.number h.buffer, h)
  | updateBufferSize _ space vecSz, h => (.status .ok, { h with buffer := max h.buffer (space * 8 + vecSz) })

/-- The call of the interface. -/
def Setting.call : Setting → Option Call
  | timelimit s n => some (.timelimit s n)
  | discard b => some (.discard b)
  | limitLifo b => some (.limitLifo b)
  | subscribe e => some (.subscribe e)
  | unsubscribe e => some (.unsubscribe e)
  | isSubscribed e _ => some (.isSubscribed e)
  | count => some .count
  | buffer => some .buffer
  | willDiscard | willLifo | updateBufferSize .. => none

/-- Alone, a call of the interface does to a queue what it does here in one step. -/
theorem Setting.effect_step {c : Setting} {k : Call} (h : c.call = some k) (q : ShrQ) (Q : Queue) :
    ∃ a, Q.step (some q) k = some (a, Q.setHdr (c.effect Q.hdr).2) ∧ a.Matches (c.effect Q.hdr).1 := by
  have hswitch : ∀ f b, (if b then Q.setFlag f else Q.clearFlag f) = Q.setHdr (switched Q.hdr f b) := fun f b => by
    have hsame : Q = Q.setHdr Q.hdr := rfl
    unfold Queue.setFlag Queue.clearFlag switched
    cases b with
    | true => by_cases hf : Int.land Q.hdr.flags f = 0 <;> simp only [hf, if_true, if_false, ← hsame]
    | false => by_cases hf : Int.land Q.hdr.flags f = 0 <;> simp only [hf, Bool.false_eq_true, if_true, if_false, ← hsame]
  cases c with
  | timelimit s n => cases h; exact ⟨_, rfl, rfl⟩
  | discard b => cases h; exact ⟨.status .ok, congrArg (fun Q' => some (Answer.status .ok, Q')) (hswitch _ b), rfl⟩
  | limitLifo b => cases h; exact ⟨.status .ok, congrArg (fun Q' => some (Answer.status .ok, Q')) (hswitch _ b), rfl⟩
  | subscribe e => cases h; exact ⟨.status .ok, congrArg (fun Q' => some (Answer.status .ok, Q')) (hswitch _ true), rfl⟩
  | unsubscribe e => cases h; exact ⟨.status .ok, congrArg (fun Q' => some (Answer.status .ok, Q')) (hswitch _ false), rfl⟩
  | isSubscribed e hne =>
    cases h
    refine ⟨_, rfl, ?_⟩
    simp [Setting.effect, Answer.Matches, Queue.subscribed, hne]
  | count => cases h; exact ⟨_, rfl, rfl⟩
  | buffer => cases h; exact ⟨_, rfl, rfl⟩
  | _ => cases h

section
variable {T : Type} (q : T → ShrQ)

/-- The settings the object shows. -/
def headerOf (s : Site T) : Header := Header.ofMem s.mem

def text (t : T) (c : Setting) : M Reply := c.text (q t)

/-- A call takes effect. -/
def takesEffect (_ : T) (c : Setting) (h : Header) (r : Reply) (h' : Header) : Prop := c.effect h = (r, h')

variable [DecidableEq T]

abbrev Commits {β : Type} (t : T) (p : M β) (post : β → Setting ⊕ Reply → Prop) (n : Setting ⊕ Reply) : Prop :=
  Serial.commits (shared (T := T)) headerOf takesEffect t p post n

end

section
variable {T : Type} [DecidableEq T] {t : T} {n : Setting ⊕ Reply} {array slot old new f : ℤ} {c : Setting} {e : Event} {α β : Type}

/-! ## Operations -/

omit [DecidableEq T] in
theorem headerOf_mem {s s' : Site T} (h : s'.mem = s.mem) : headerOf s' = headerOf s := congrArg Header.ofMem h

/-- An operation that leaves the object alone. -/
theorem commits_quiet {o : Op} {post : o.Res → Setting ⊕ Reply → Prop} (hq : o.Quiet) (hpost : ∀ r, post r n) :
    Commits t (atomic o) post n :=
  Serial.commits_op fun _ r _ h => ⟨headerOf_mem (shared_quiet hq h).1, hpost r⟩

theorem commits_load {post : ℤ → Setting ⊕ Reply → Prop}
    (hpost : ∀ m : ℤ → ℤ, post (m slot) n ∨ ∃ c a, n = .inl c ∧ c.effect (Header.ofMem m) = (a, Header.ofMem m) ∧ post (m slot) (.inr a)) :
    Commits t (load array slot) post n := by
  intro s r s' h
  obtain ⟨rfl, hm⟩ := shared_load h
  have hsame : headerOf s' = headerOf s := headerOf_mem hm
  rcases hpost s.mem with hno | ⟨c, a, hn, he, hyes⟩
  · exact .inl ⟨hsame, hno⟩
  · refine .inr ⟨c, a, hn, ?_, hyes⟩
    rw [hsame]
    exact he

theorem commits_cas {post : Bool → Setting ⊕ Reply → Prop} {a : Reply}
    (heffect : ∀ m : ℤ → ℤ, m slot = old → c.effect (Header.ofMem m) = (a, Header.ofMem (setSlot m slot new)))
    (hdone : post true (.inr a)) (hfailed : post false (.inl c)) : Commits t (cas array slot old new) post (.inl c) := by
  intro s r s' h
  rcases shared_cas h with ⟨rfl, hold, hm⟩ | ⟨rfl, -, hm⟩
  · refine .inr ⟨c, a, rfl, ?_, hdone⟩
    unfold takesEffect headerOf
    rw [hm]
    exact heffect s.mem hold
  · exact .inl ⟨headerOf_mem hm, hfailed⟩

/-- The same for a `DWCAS`. -/
theorem commits_dwcas {role : Role} {before after : DWORD} {post : Bool → Setting ⊕ Reply → Prop} {a : Reply}
    (heffect : ∀ m : ℤ → ℤ, c.effect (Header.ofMem m) = (a, Header.ofMem (setSlot (setSlot m slot after.low) (slot + 1) after.high)))
    (hdone : post true (.inr a)) (hfailed : post false (.inl c)) : Commits t (dwcas role array slot before after) post (.inl c) := by
  intro s r s' h
  rcases shared_dwcas h with ⟨rfl, -, -, hm⟩ | ⟨rfl, hm⟩
  · refine .inr ⟨c, a, rfl, ?_, hdone⟩
    unfold takesEffect headerOf
    rw [hm]
    exact heffect s.mem
  · exact .inl ⟨headerOf_mem hm, hfailed⟩

/-! ## The loops -/

/-- The loop of `set_flag`, `clear_flag` and `update_buffer_size`: as long as there is something to do, a `CAS` on what was read. -/
def retry {β : Type} (array slot : ℤ) (busy : ℤ → Prop) [DecidablePred busy] (new : ℤ → ℤ) (done idle : β) : M β := do
  let prev ← load array slot
  iterate (fun prev => do
    if busy prev then
      if ← cas array slot prev (new prev) then return .inr done
      return .inl (← load array slot)
    else
      return .inr idle) prev

/-- What a thread still has to do once it has read `prev`: the call took effect where there is nothing to do. -/
def due (busy : ℤ → Prop) [DecidablePred busy] (c : Setting) (a : Reply) (prev : ℤ) : Setting ⊕ Reply := if busy prev then .inl c else .inr a

/-- **The loop takes effect in one step**: at its `CAS`, or where it reads that there is nothing to do. -/
theorem commits_retry (busy : ℤ → Prop) [DecidablePred busy] {new : ℤ → ℤ} {done idle : β} {a : Reply}
    (hover : ∀ m : ℤ → ℤ, ¬busy (m slot) → c.effect (Header.ofMem m) = (a, Header.ofMem m))
    (hdone : ∀ m : ℤ → ℤ, busy (m slot) → c.effect (Header.ofMem m) = (a, Header.ofMem (setSlot m slot (new (m slot))))) :
    Commits t (retry array slot busy new done idle) (fun _ n => n = .inr a) (.inl c) := by
  have hread : Commits t (load array slot) (fun prev n => n = due busy c a prev) (.inl c) := commits_load fun m => by
    unfold due
    by_cases hb : busy (m slot)
    · exact .inl (if_pos hb).symm
    · exact .inr ⟨c, a, rfl, hover m hb, (if_neg hb).symm⟩
  unfold retry
  refine Serial.commits_bind (Serial.commits_mono hread fun prev n hn => ?_)
  refine Serial.commits_iterate (fun prev n => n = due busy c a prev) hn ?_
  rintro prev n rfl
  unfold due
  refine Serial.commits_ite (fun hb => ?_) fun hb => ?_
  · rw [if_pos hb]
    refine Serial.commits_bind (commits_cas (a := a) (fun m hm => ?_) rfl ?_)
    · rw [← hm] at hb ⊢
      exact hdone m hb
    · exact Serial.commits_bind (Serial.commits_mono hread fun prev n hn => hn)
  · rw [if_neg hb]
    exact rfl

/-- The loop that stores two slots takes effect at its `DWCAS`. -/
theorem commits_storeTimespec {u : Timespec} {a : Reply}
    (heffect : ∀ m : ℤ → ℤ, c.effect (Header.ofMem m) = (a, Header.ofMem (setSlot (setSlot m slot u.sec) (slot + 1) u.nsec))) :
    Commits t (storeTimespec slot u) (fun _ n => n = .inr a) (.inl c) := by
  unfold storeTimespec
  refine Serial.commits_bind (commits_quiet trivial fun array => ?_)
  refine Serial.commits_iterate (fun _ n => n = .inl c) rfl ?_
  rintro _ n rfl
  unfold loadTimespec
  refine Serial.commits_bind (Serial.commits_bind (commits_quiet trivial fun low => Serial.commits_bind (commits_quiet trivial fun high => ?_)))
  exact Serial.commits_bind (commits_dwcas heffect rfl rfl)

/-! ## The functions -/

theorem commits_setFlag (heffect : ∀ h, c.effect h = (.status .ok, switched h f true)) :
    Commits t (setFlag array f) (fun _ n => n = .inr (.status .ok)) (.inl c) := by
  refine commits_retry (fun prev => Int.land prev f = 0) (fun m hb => ?_) fun m hb => ?_
  · rw [heffect, switched, if_pos rfl]
    exact congrArg _ (if_neg hb)
  · rw [heffect, switched, if_pos rfl]
    exact congrArg _ (if_pos hb)

theorem commits_clearFlag (heffect : ∀ h, c.effect h = (.status .ok, switched h f false)) :
    Commits t (clearFlag array f) (fun _ n => n = .inr (.status .ok)) (.inl c) := by
  refine commits_retry (fun prev => Int.land prev f ≠ 0) (fun m hb => ?_) fun m hb => ?_
  · rw [heffect, switched, if_neg Bool.false_ne_true]
    exact congrArg _ (if_pos (not_not.1 hb))
  · rw [heffect, switched, if_neg Bool.false_ne_true]
    exact congrArg _ (if_neg hb)

theorem commits_updateBufferSize {space vecSz : ℤ} : Commits t (updateBufferSize array space vecSz) (fun _ n => n = .inr (.status .ok))
    (.inl (.updateBufferSize array space vecSz)) := by
  have hloop : Commits t (retry array BUFFER (fun buffSz => space * 8 + vecSz > buffSz) (fun _ => space * 8 + vecSz) () ())
      (fun _ n => n = .inr (.status .ok)) (.inl (.updateBufferSize array space vecSz)) := by
    refine commits_retry _ (fun m hb => ?_) fun m hb => ?_
    · have hmax : max (m BUFFER) (space * 8 + vecSz) = m BUFFER := max_eq_left (not_lt.1 hb)
      exact congrArg (fun b => (Reply.status .ok, { Header.ofMem m with buffer := b })) hmax
    · have hmax : max (m BUFFER) (space * 8 + vecSz) = space * 8 + vecSz := max_eq_right (le_of_lt hb)
      exact congrArg (fun b => (Reply.status .ok, { Header.ofMem m with buffer := b })) hmax
  unfold updateBufferSize
  exact Serial.commits_ite (fun _ => Serial.commits_bind (commits_quiet trivial fun _ => hloop)) fun _ => hloop

/-- The text around the switches. -/
theorem commits_switchFlag {q : ShrQ} {b : Bool} (heffect : ∀ h, c.effect h = (.status .ok, switched h f b)) :
    Commits t (Reply.status <$> switchFlag (some q) f b) (fun a n => n = .inr a) (.inl c) := by
  have hleave : ∀ n : Setting ⊕ Reply, n = .inr (.status .ok) →
      Commits t (do unguardQMemory; return Status.ok) (fun st n => n = .inr (.status st)) n := fun n hn =>
    Serial.commits_bind (commits_quiet trivial fun _ => hn)
  refine Serial.commits_map ?_
  unfold switchFlag
  rw [if_neg (Option.some_ne_none q)]
  refine Serial.commits_bind (commits_quiet trivial fun _ => ?_)
  refine Serial.commits_ite (fun hb => ?_) fun hb => ?_
  · subst hb
    refine Serial.commits_bind (commits_quiet trivial fun array => ?_)
    exact Serial.commits_bind (Serial.commits_mono (commits_setFlag heffect) fun _ => hleave)
  · rw [Bool.not_eq_true] at hb
    subst hb
    refine Serial.commits_bind (commits_quiet trivial fun array => ?_)
    exact Serial.commits_bind (Serial.commits_mono (commits_clearFlag heffect) fun _ => hleave)

/-- The text around a load: the call takes effect there. -/
theorem commits_ask (slot : ℤ) (read : ℤ → α) (out : α → β) (reply : β → Reply)
    (heffect : ∀ m : ℤ → ℤ, c.effect (Header.ofMem m) = (reply (out (read (m slot))), Header.ofMem m)) :
    Commits t (reply <$> (do
      guardQMemory
      let result ← (do return read (← load (← current) slot))
      unguardQMemory
      return out result)) (fun a n => n = .inr a) (.inl c) := by
  refine Serial.commits_map (Serial.commits_bind (commits_quiet trivial fun _ => ?_))
  refine Serial.commits_bind (Serial.commits_bind (commits_quiet trivial fun array => ?_))
  refine Serial.commits_bind (commits_load fun m => .inr ⟨c, _, rfl, heffect m, ?_⟩)
  exact Serial.commits_bind (commits_quiet trivial fun _ => rfl)

/-- Every call takes effect in one step. -/
theorem commits_text (q : T → ShrQ) (t : T) (c : Setting) : Commits t (text q t c) (fun a n => n = .inr a) (.inl c) := by
  unfold text
  cases c with
  | timelimit s n =>
    refine Serial.commits_map ?_
    unfold shrQTimelimit
    rw [if_neg (Option.some_ne_none _)]
    refine Serial.commits_bind (commits_quiet trivial fun _ => ?_)
    refine Serial.commits_bind (Serial.commits_mono (commits_storeTimespec (a := .status .ok) fun m => rfl) fun _ n hn => ?_)
    exact Serial.commits_bind (commits_quiet trivial fun _ => hn)
  | discard b => exact commits_switchFlag fun _ => rfl
  | limitLifo b => exact commits_switchFlag fun _ => rfl
  | subscribe e => exact commits_switchFlag fun _ => rfl
  | unsubscribe e => exact commits_switchFlag fun _ => rfl
  | isSubscribed e he =>
    have hask := commits_ask (t := t) (c := .isSubscribed e he) FLAGS (fun x => decide (Int.land x (getEventFlag e) = 0)) (!·) Reply.flag
      fun m => congrArg (fun b => (Reply.flag b, Header.ofMem m)) decide_not
    have htext : shrQIsSubscribed (some (q t)) e = (do
        guardQMemory
        let result ← (do return decide (Int.land (← load (← current) FLAGS) (getEventFlag e) = 0))
        unguardQMemory
        return !result) := by
      unfold shrQIsSubscribed
      rw [if_neg (by simp [he])]
      rfl
    show Commits t (Reply.flag <$> shrQIsSubscribed (some (q t)) e) _ _
    rw [htext]
    exact hask
  | willDiscard => exact commits_ask FLAGS (fun x => decide (Int.land x FLAG_DISCARD_EXPIRED ≠ 0)) id Reply.flag fun m => rfl
  | willLifo => exact commits_ask FLAGS (fun x => decide (Int.land x FLAG_LIFO_ON_LEVEL ≠ 0)) id Reply.flag fun m => rfl
  | count => exact commits_ask COUNT id id Reply.number fun m => rfl
  | buffer => exact commits_ask BUFFER id id Reply.number fun m => rfl
  | updateBufferSize array space vecSz => exact Serial.commits_map commits_updateBufferSize

/-! ## Runs -/

/-- **The settings are atomic.** Whatever calls the processes make at once, and in whatever order their operations come,
the calls and the answers are those of a run in which every call takes effect in one step, between its call and its
answer; and the settings at the end are the ones of that run. -/
theorem settings_atomic {q : T → ShrQ} {s s' : Pool Op Op.Res (Site T) T Reply} {es : List (T × (Setting ⊕ Reply))}
    (hidle : ∀ t, s.task t = none) (h : Observed (Pool.Step shared (text q)) Pool.answer s es s') :
    ∃ x, Observed (Serial.Step takesEffect) Serial.answer ⟨headerOf s.world, fun _ => none⟩ es x ∧ x.obj = headerOf s'.world := by
  have hstart : Serial.Follows shared headerOf takesEffect s ⟨headerOf s.world, fun _ => none⟩ :=
    ⟨rfl, fun _ _ => rfl, fun t p hp => by rw [hidle t] at hp; cases hp⟩
  obtain ⟨x, hx, hF⟩ := hstart.run (commits_text q) h
  exact ⟨x, hx, hF.obj⟩

end

/-- Two processes and an object on which nothing is set. -/
def unset : Pool Op Op.Res (Site Bool) Bool Reply := ⟨⟨fun _ => 0, fun _ => 0, 4096, fun _ => .fresh⟩, fun _ => none⟩

/-- Both subscribe. The `CAS` of the one fails, as the other was faster, and it tries again. -/
def twice : List (Bool × Move Setting) :=
  (true, .call (.subscribe .limit)) :: List.replicate 3 (true, .op) ++
    ((false, .call (.subscribe .time)) :: List.replicate 6 (false, .op) ++ [(false, .ret)]) ++
    List.replicate 6 (true, .op) ++ [(true, .ret)]

/-- Neither subscription is lost. -/
theorem settings_atomic_twice : ∃ es s', Observed (Pool.Step shared (text fun _ => ⟨.readwrite⟩)) Pool.answer unset es s' ∧
    (∃ x, Observed (Serial.Step takesEffect) Serial.answer ⟨headerOf unset.world, fun _ => none⟩ es x ∧ x.obj = headerOf s'.world) ∧
    (headerOf s'.world).flags = 48 := by
  have hrun : ∃ r, observed (Pool.step shared (text fun _ => ⟨.readwrite⟩)) Pool.answer unset twice = some r ∧
      (headerOf r.2.world).flags = 48 := ⟨_, rfl, rfl⟩
  obtain ⟨⟨es, s'⟩, hrun, hflags⟩ := hrun
  have hrec : Observed (Pool.Step shared (text fun _ => ⟨.readwrite⟩)) Pool.answer unset es s' := .of_observed (fun _ _ _ h => h) hrun
  exact ⟨es, s', hrec, settings_atomic (fun _ => rfl) hrec, hflags⟩

end LibShr.Settings
