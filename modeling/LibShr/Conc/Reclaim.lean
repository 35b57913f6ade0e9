import LibShr.Lib.Links
import LibShr.Lib.Trace
import Mathlib.Data.Finset.Card
import Mathlib.Data.Finset.Insert
import Mathlib.Logic.Function.Basic

/-!
# Many threads on one handle: the chain of extents

The threads that share a `shr_q_s` share `base->prev`, `base->current`, `base->accessors` and the
`extent_s` instances chained from `prev` to `current`. A thread is at one place of
`guard_q_memory`, `resize_extent`, `release_prev_extents` or `unguard_q_memory`, and every read, CAS,
increment, decrement, `calloc`, `munmap` or `free` there is one step.

| here | there |
| --- | --- |
| `ShrBase`      | the fields of `shr_base_s` (`shared_int.h:124`), and `extent_s.next` of every extent |
| `Pos.resize` .. `Pos.reread` | `resize_extent` (`shared_int.c:544-597`) |
| `Pos.release` .. `Pos.freePrev` | `release_prev_extents` (`shared_int.c:1290-1318`) |
| `Worker.held`  | the local copies of `base->current` a public function works through |

An extent is known by its address, 0 is `NULL`, and `calloc` may return any address that is not in use,
also one that was freed before. The size in the object and the success of a mapping are up to the
environment, so the thread chooses them.
-/

namespace LibShr.Reclaim

open Links

/-- The handle and its extents. -/
structure ShrBase where
  prev : ℤ
  current : ℤ
  next : ℤ → ℤ
  live : ℤ → Bool
  accessors : ℤ

inductive Pos
  | out
  | inside
  -- `resize_extent`
  | resize (extent : ℤ)
  | array (extent : ℤ)
  | slots (extent : ℤ)
  | create (tail : ℤ)
  | link (tail next : ℤ)
  | advance (tail next : ℤ)
  | reload (tail next : ℤ)
  | help (tail next tailNext : ℤ)
  | unmap (next : ℤ)
  | free (next : ℤ)
  | reread
  -- `release_prev_extents`
  | release
  | look (head : ℤ)
  | ask (head : ℤ)
  | follow (head : ℤ)
  | move (head next : ℤ)
  | unmapPrev (head next : ℤ)
  | freePrev (head next : ℤ)
deriving DecidableEq

/-- A thread: where it is, and the extents it has read from `base->current` and still uses. -/
structure Worker where
  pos : Pos
  held : List ℤ

/-- What the environment decides for a step. -/
inductive Choice
  | go
  | read | touch (extent : ℤ) | resize (extent : ℤ) | release | leave
  | same | grown
  | address (extent : ℤ) | refused
deriving DecidableEq

def Worker.step (b : ShrBase) (w : Worker) : Choice → Option (ShrBase × Worker)
  | .read => if w.pos = .inside then some (b, ⟨.inside, b.current :: w.held⟩) else none
  | .touch x => if w.pos = .inside ∧ x ∈ w.held then some (b, w) else none
  | .resize x => if w.pos = .inside ∧ x ∈ w.held then some (b, ⟨.resize x, w.held⟩) else none
  -- no public function uses an extent it read before once it has released the previous ones
  | .release => if w.pos = .inside then some (b, ⟨.release, []⟩) else none
  | .leave => if w.pos = .inside then some ({ b with accessors := b.accessors - 1 }, ⟨.out, []⟩) else none
  | .same =>
    match w.pos with
    | .slots x => some (b, ⟨.inside, x :: w.held⟩)
    | _ => none
  | .grown =>
    match w.pos with
    | .slots x => some (b, ⟨.create x, w.held⟩)
    | _ => none
  | .refused =>
    match w.pos with
    | .create x => some (b, ⟨.inside, x :: w.held⟩)
    | _ => none
  | .address n =>
    match w.pos with
    | .create x =>
      if n ≠ 0 ∧ b.live n = false then
        some ({ b with live := Function.update b.live n true, next := Function.update b.next n 0 },
          ⟨.link x n, w.held⟩)
      else none
    | _ => none
  | .go =>
    match w.pos with
    | .out => some ({ b with accessors := b.accessors + 1 }, ⟨.inside, []⟩)
    -- did another thread change current extent?
    | .resize x => some (b, if x = b.current then ⟨.array x, w.held⟩ else ⟨.inside, b.current :: w.held⟩)
    | .array x => some (b, ⟨.slots x, w.held⟩)
    -- update current extent
    | .link x n =>
      if b.next x = 0 then some ({ b with next := Function.update b.next x n }, ⟨.advance x n, w.held⟩)
      else some (b, ⟨.reload x n, w.held⟩)
    | .advance x n => some (if b.current = x then { b with current := n } else b, ⟨.reread, w.held⟩)
    | .reload x n => some (b, ⟨.help x n (b.next x), w.held⟩)
    | .help x n y => some (if b.current = x then { b with current := y } else b, ⟨.unmap n, w.held⟩)
    | .unmap n => some (b, ⟨.free n, w.held⟩)
    | .free n => some ({ b with live := Function.update b.live n false }, ⟨.reread, w.held⟩)
    | .reread => some (b, ⟨.inside, b.current :: w.held⟩)
    | .release => some (b, ⟨.look b.prev, w.held⟩)
    | .look h => some (b, if h = b.current then ⟨.inside, w.held⟩ else ⟨.ask h, w.held⟩)
    | .ask h => some (b, if b.accessors > 1 then ⟨.inside, w.held⟩ else ⟨.follow h, w.held⟩)
    | .follow h => some (b, ⟨.move h (b.next h), w.held⟩)
    | .move h n =>
      if b.prev = h then some ({ b with prev := n }, ⟨.unmapPrev h n, w.held⟩)
      else some (b, ⟨.inside, w.held⟩)
    | .unmapPrev h n => some (b, ⟨.freePrev h n, w.held⟩)
    | .freePrev h n => some ({ b with live := Function.update b.live h false }, ⟨.look n, w.held⟩)
    | _ => none

/-- The extents of which the next step may read or write a field, or which it frees. -/
def Worker.uses (w : Worker) : List ℤ :=
  match w.pos with
  | .inside => w.held
  | .array x | .slots x | .create x | .link x _ | .reload x _ => [x]
  | .unmap n | .free n => [n]
  | .follow h | .unmapPrev h _ | .freePrev h _ => [h]
  | _ => []

/-- The handle with the threads that share it. -/
structure Handle (T : Type) where
  base : ShrBase
  thread : T → Worker

section
variable {T : Type} [DecidableEq T]

/-- One step of the whole: the thread of the label takes the step its choice allows. -/
def Handle.step (s : Handle T) (l : T × Choice) : Option (Handle T) :=
  ((s.thread l.1).step s.base l.2).map fun r => ⟨r.1, Function.update s.thread l.1 r.2⟩

def Step (s : Handle T) (l : T × Choice) (s' : Handle T) : Prop := s.step l = some s'

/-- The handle after `shr_q_create` or `shr_q_open`: one extent, nobody inside. -/
def initial (x : ℤ) : Handle T := ⟨⟨x, x, fun _ => 0, fun y => y = x, 0⟩, fun _ => ⟨.out, []⟩⟩

omit [DecidableEq T] in
/-- No thread is about to use or to free an extent that is freed already. -/
def Safe (s : Handle T) : Prop := ∀ t, ∀ x ∈ (s.thread t).uses, s.base.live x = true

/-- A thread that passes the test of `accessors` does so while `base->prev` is still the head it read. -/
def FrontUnmoved (s : Handle T) (l : T × Choice) : Prop :=
  match (s.thread l.1).pos with
  | .ask h => s.base.accessors ≤ 1 → s.base.prev = h
  | _ => True

def CarefulStep (s : Handle T) (l : T × Choice) (s' : Handle T) : Prop := FrontUnmoved s l ∧ Step s l s'

end

/-! ## The invariant -/

/-- Extents of the chain the place of a thread is about. -/
def Pos.tails : Pos → List ℤ
  | .resize x | .array x | .slots x | .create x | .link x _ | .advance x _ | .reload x _ | .help x _ _ => [x]
  | _ => []

/-- Extents outside the chain that only this thread can reach. -/
def Pos.owned : Pos → List ℤ
  | .link _ n | .reload _ n | .help _ n _ | .unmap n | .free n => [n]
  | .unmapPrev h _ | .freePrev h _ => [h]
  | _ => []

/-- The head that was read and is not yet tested. -/
def Pos.seen : Pos → Option ℤ
  | .look h | .ask h => some h
  | _ => none

/-- The head that is going to be unlinked. -/
def Pos.target : Pos → Option ℤ
  | .follow h | .move h _ => some h
  | _ => none

/-- The test of `accessors` is passed and the head not yet freed. -/
def Pos.releasing : Pos → Bool
  | .follow _ | .move .. | .unmapPrev .. | .freePrev .. => true
  | _ => false

/-- Outside, or in `release_prev_extents`. -/
def Pos.bare : Pos → Bool
  | .out | .release | .look _ | .ask _ | .follow _ | .move .. | .unmapPrev .. | .freePrev .. => true
  | _ => false

/-- The extents of the chain a thread still uses. -/
def Worker.refs (w : Worker) : List ℤ := w.held ++ w.pos.tails

/-- The extents from `prev` on are `l`. -/
structure Chained (b : ShrBase) (l : List ℤ) : Prop where
  nodup : l.Nodup
  prev : l.head? = some b.prev
  linked : Linked b.next 0 l
  live : ∀ x ∈ l, x ≠ 0 ∧ b.live x = true
  current : b.current ∈ l

structure Local (b : ShrBase) (l : List ℤ) (w : Worker) : Prop where
  bare : w.pos.bare = true → w.held = []
  refs : ∀ x ∈ w.refs, x ∈ l
  owned : ∀ x ∈ w.pos.owned, b.live x = true ∧ x ∉ l ∧ x ≠ 0
  fresh : ∀ x n, w.pos = .link x n → b.next n = 0
  ahead : ∀ x n y, w.pos = .advance x y ∨ w.pos = .help x n y → b.next x = y ∧ y ≠ 0
  behind : ∀ x n, w.pos = .reload x n → b.next x ≠ 0
  asked : ∀ h, w.pos = .ask h → b.prev = h → b.current ≠ h
  target : ∀ h, w.pos.target = some h → b.prev = h ∧ b.current ≠ h
  moved : ∀ h n, w.pos = .move h n → b.next h = n

structure Apart (w v : Worker) : Prop where
  owned : ∀ x ∈ w.pos.owned, x ∉ v.pos.owned
  one : w.pos.releasing = true → v.pos.releasing = false
  refs : ∀ h, w.pos.target = some h → h ∉ v.refs
  seen : ∀ h, w.pos.target = some h → ∀ k, v.pos.seen = some k → k = h

/-- A thread `v` beside the thread `w`. -/
structure Beside (b : ShrBase) (l : List ℤ) (w v : Worker) : Prop where
  own : Local b l v
  out : Apart w v
  back : Apart v w

structure Inv {T : Type} (s : Handle T) (l : List ℤ) (S : Finset T) : Prop where
  chain : Chained s.base l
  own : ∀ t, Local s.base l (s.thread t)
  apart : ∀ t u, t ≠ u → Apart (s.thread t) (s.thread u)
  inside : ∀ t, t ∈ S ↔ (s.thread t).pos ≠ .out
  count : s.base.accessors = S.card

section
variable {b : ShrBase} {l : List ℤ} {w w' v : Worker} {x y h : ℤ}

theorem Chained.eq_cons (hc : Chained b l) : ∃ l', l = b.prev :: l' := by
  cases l with
  | nil => cases hc.prev
  | cons x l' => exact ⟨l', by rw [Option.some.inj hc.prev]⟩

/-- Where an extent of the chain leads is in the chain, and not its front. -/
theorem Chained.next_mem (hc : Chained b l) (hx : x ∈ l) (hne : b.next x ≠ 0) :
    b.next x ∈ l ∧ b.next x ≠ b.prev := by
  obtain ⟨l', rfl⟩ := hc.eq_cons
  have hm := hc.linked.next_mem hx hne
  refine ⟨List.mem_cons_of_mem _ hm, ?_⟩
  rintro he
  exact (List.nodup_cons.1 hc.nodup).1 (he ▸ hm)

/-- A step that leaves the handle alone, the thread's next test apart. -/
theorem Beside.same (hv : Beside b l w v) (hrefs : ∀ x ∈ w'.refs, x ∈ w.refs ∨ x = b.current)
    (howned : ∀ x ∈ w'.pos.owned, x ∈ w.pos.owned) (hrel : w'.pos.releasing = true → w.pos.releasing = true)
    (htarget : ∀ h, w'.pos.target = some h → w.pos.target = some h)
    (hseen : ∀ k, w'.pos.seen = some k → w.pos.seen = some k ∨ k = b.prev) : Beside b l w' v where
  own := hv.own
  out :=
    { owned := fun x hx => hv.out.owned x (howned x hx)
      one := fun hr => hv.out.one (hrel hr)
      refs := fun h hh => hv.out.refs h (htarget h hh)
      seen := fun h hh => hv.out.seen h (htarget h hh) }
  back :=
    { owned := fun x hx hx' => hv.back.owned x hx (howned x hx')
      one := fun hr => by
        cases hw : w'.pos.releasing with
        | false => rfl
        | true => exact absurd (hv.back.one hr) (by rw [hrel hw]; decide)
      refs := fun h hh hx => by
        rcases hrefs h hx with hx | rfl
        · exact hv.back.refs h hh hx
        · exact (hv.own.target _ hh).2 rfl
      seen := fun h hh k hk => by
        rcases hseen k hk with hk | rfl
        · exact hv.back.seen h hh k hk
        · exact (hv.own.target h hh).1 }

/-- What a step leaves: a chain, and every thread at its place. -/
def Keeps (b : ShrBase) (l : List ℤ) (w : Worker) (b' : ShrBase) (w' : Worker) : Prop :=
  ∃ l', Chained b' l' ∧ Local b' l' w' ∧
    ∀ v, Beside b l w v → (b.accessors ≤ 1 → w.pos ≠ .out → v.pos = .out) → Beside b' l' w' v

/-- A step of `resize_extent`, or a read of `current`, that leaves the handle alone. -/
theorem Keeps.same (hc : Chained b l) (hw' : Local b l w')
    (hrefs : ∀ x ∈ w'.refs, x ∈ w.refs ∨ x = b.current)
    (howned : ∀ x ∈ w'.pos.owned, x ∈ w.pos.owned) (hrel : w'.pos.releasing = true → w.pos.releasing = true)
    (htarget : ∀ h, w'.pos.target = some h → w.pos.target = some h)
    (hseen : ∀ k, w'.pos.seen = some k → w.pos.seen = some k ∨ k = b.prev) : Keeps b l w b w' :=
  ⟨l, hc, hw', fun _ hv _ => hv.same hrefs howned hrel htarget hseen⟩

/-- A place that claims nothing but the extents held. -/
def Pos.plain : Pos → Bool
  | .inside | .resize _ | .array _ | .slots _ | .create _ | .reread => true
  | _ => false

theorem Pos.plain_spec {p : Pos} (h : p.plain = true) : p.bare = false ∧ p.owned = [] ∧ p.releasing = false ∧
    p.target = none ∧ p.seen = none ∧ (∀ x n, p ≠ .link x n) ∧ (∀ x y, p ≠ .advance x y) ∧
    (∀ x n y, p ≠ .help x n y) ∧ (∀ x n, p ≠ .reload x n) ∧ (∀ h, p ≠ .ask h) ∧ ∀ h n, p ≠ .move h n := by
  cases p <;> simp [plain, bare, owned, releasing, target, seen] at h ⊢

/-- A thread at such a place is in order as soon as its extents are in the chain. -/
theorem Local.of_plain (hp : w.pos.plain = true) (hrefs : ∀ x ∈ w.refs, x ∈ l) : Local b l w := by
  obtain ⟨hbare, howned, -, htarget, -, hlink, hadvance, hhelp, hreload, hask, hmove⟩ := Pos.plain_spec hp
  constructor
  · intro h
    rw [hbare] at h
    cases h
  · exact hrefs
  · rw [howned]
    simp
  · intro x n h
    exact absurd h (hlink x n)
  · rintro x n y (h | h)
    · exact absurd h (hadvance x y)
    · exact absurd h (hhelp x n y)
  · intro x n h
    exact absurd h (hreload x n)
  · intro h hh
    exact absurd hh (hask h)
  · rw [htarget]
    simp
  · intro h n hh
    exact absurd hh (hmove h n)

/-- A step to such a place. -/
theorem Keeps.plain (hc : Chained b l) (hw : Local b l w) (hp : w'.pos.plain = true)
    (hrefs : ∀ x ∈ w'.refs, x ∈ w.refs ∨ x = b.current) : Keeps b l w b w' := by
  obtain ⟨-, howned, hrel, htarget, hseen, -⟩ := Pos.plain_spec hp
  refine .same hc (.of_plain hp fun x hx => ?_) hrefs ?_ ?_ ?_ ?_
  · rcases hrefs x hx with hx | rfl
    · exact hw.refs x hx
    · exact hc.current
  · rw [howned]
    simp
  · rw [hrel]
    simp
  · rw [htarget]
    simp
  · rw [hseen]
    simp

/-! ## Steps that change the handle -/

/-- `calloc` of an extent in `create_extent`. -/
theorem Keeps.create {n : ℤ} {held : List ℤ} (hc : Chained b l) (hw : Local b l ⟨.create x, held⟩) (hn : n ≠ 0)
    (hfree : b.live n = false) : Keeps b l ⟨.create x, held⟩
      { b with live := Function.update b.live n true, next := Function.update b.next n 0 } ⟨.link x n, held⟩ := by
  have hne : ∀ {y}, b.live y = true → y ≠ n := by
    rintro y hy rfl
    rw [hfree] at hy
    cases hy
  have hmem : ∀ {y}, y ∈ l → y ≠ n := fun hy => hne (hc.live _ hy).2
  have hlive : ∀ {y}, b.live y = true → Function.update b.live n true y = true := fun hy => by
    rw [Function.update_of_ne (hne hy), hy]
  refine ⟨l, ⟨hc.nodup, hc.prev, ?_, fun y hy => ⟨(hc.live y hy).1, hlive (hc.live y hy).2⟩, hc.current⟩, ?_, ?_⟩
  · exact hc.linked.congr fun y hy => Function.update_of_ne (hmem hy) _ _
  · constructor
    · simp [Pos.bare]
    · exact hw.refs
    · simp only [Pos.owned, List.mem_singleton]
      rintro y rfl
      exact ⟨Function.update_self _ _ _, fun hy => hmem hy rfl, hn⟩
    · rintro x' n' he
      cases he
      exact Function.update_self _ _ _
    · simp
    · simp
    · simp
    · simp [Pos.target]
    · simp
  · intro v hv _
    have howned : ∀ y ∈ v.pos.owned, y ≠ n := fun y hy => hne (hv.own.owned y hy).1
    refine ⟨⟨hv.own.bare, hv.own.refs, fun y hy => ?_, fun x' n' he => ?_, fun x' n' y he => ?_, fun x' n' he => ?_,
      hv.own.asked, hv.own.target, fun h n' he => ?_⟩, ⟨?_, ?_, ?_, ?_⟩, ⟨?_, ?_, ?_, ?_⟩⟩
    · exact ⟨hlive (hv.own.owned y hy).1, (hv.own.owned y hy).2⟩
    · have : n' ≠ n := howned n' (by rw [he]; simp [Pos.owned])
      exact (Function.update_of_ne this _ _).trans (hv.own.fresh x' n' he)
    · have hx' : x' ∈ l := hv.own.refs x' (by rcases he with he | he <;> simp [Worker.refs, he, Pos.tails])
      obtain ⟨h₁, h₂⟩ := hv.own.ahead x' n' y he
      exact ⟨(Function.update_of_ne (hmem hx') _ _).trans h₁, h₂⟩
    · have hx' : x' ∈ l := hv.own.refs x' (by simp [Worker.refs, he, Pos.tails])
      exact fun h₀ => hv.own.behind x' n' he ((Function.update_of_ne (hmem hx') _ _).symm.trans h₀)
    · have hh : b.prev = h := (hv.own.target h (by rw [he]; rfl)).1
      obtain ⟨l', rfl⟩ := hc.eq_cons
      have : h ≠ n := hmem (by simp [hh])
      exact (Function.update_of_ne this _ _).trans (hv.own.moved h n' he)
    · simp only [Pos.owned, List.mem_singleton]
      rintro y rfl hy
      exact howned y hy rfl
    · simp [Pos.releasing]
    · simp [Pos.target]
    · simp [Pos.target]
    · simp only [Pos.owned, List.mem_singleton]
      exact fun y hy => howned y hy
    · simp [Pos.releasing]
    · exact hv.back.refs
    · simp [Pos.seen]

/-- The CAS that appends an extent to the chain. -/
theorem Keeps.link {n : ℤ} {held : List ℤ} (hc : Chained b l) (hw : Local b l ⟨.link x n, held⟩) (hx : b.next x = 0) :
    Keeps b l ⟨.link x n, held⟩ { b with next := Function.update b.next x n } ⟨.advance x n, held⟩ := by
  have hxl : x ∈ l := hw.refs x (by simp [Worker.refs, Pos.tails])
  obtain ⟨hlive, hnl, hn₀⟩ := hw.owned n (by simp [Pos.owned])
  have hfresh := hw.fresh x n rfl
  have hxn : x ≠ n := by
    rintro rfl
    exact hnl hxl
  obtain ⟨pre, rfl⟩ := hc.linked.eq_append (fun y hy => (hc.live y hy).1) hxl hx
  have hpre : ∀ y ∈ pre, y ≠ x := by
    have := hc.nodup
    rw [List.nodup_append] at this
    exact fun y hy => this.2.2 y hy x (by simp)
  refine ⟨pre ++ [x] ++ [n], ⟨?_, ?_, ?_, fun y hy => ?_, List.mem_append_left _ hc.current⟩, ?_, ?_⟩
  · rw [List.nodup_append]
    refine ⟨hc.nodup, by simp, fun y hy z hz => ?_⟩
    rintro rfl
    exact hnl (List.mem_singleton.1 hz ▸ hy)
  · rw [List.head?_append, hc.prev]
    rfl
  · have hlk := hc.linked
    rw [linked_append] at hlk
    rw [List.append_assoc, linked_append]
    refine ⟨hlk.1.congr fun y hy => Function.update_of_ne (hpre y hy) _ _, Function.update_self _ _ _, ?_, trivial⟩
    exact (Function.update_of_ne hxn.symm _ _).trans hfresh
  · rcases List.mem_append.1 hy with hy | hy
    · exact hc.live y hy
    · rw [List.mem_singleton.1 hy]
      exact ⟨hn₀, hlive⟩
  · constructor
    · simp [Pos.bare]
    · exact fun y hy => List.mem_append_left _ (hw.refs y hy)
    · simp [Pos.owned]
    · simp
    · rintro x' n' y (he | he) <;> cases he
      exact ⟨Function.update_self _ _ _, hn₀⟩
    · simp
    · simp
    · simp [Pos.target]
    · simp
  · intro v hv _
    have hown : ∀ y ∈ v.pos.owned, y ≠ n := by
      rintro y hy rfl
      exact hv.out.owned y (by simp [Pos.owned]) hy
    refine ⟨⟨hv.own.bare, fun y hy => List.mem_append_left _ (hv.own.refs y hy), fun y hy => ?_, fun x' n' he => ?_,
      fun x' n' y he => ?_, fun x' n' he => ?_, hv.own.asked, hv.own.target, fun h n' he => ?_⟩, ⟨?_, ?_, ?_, ?_⟩,
      ⟨?_, ?_, ?_, ?_⟩⟩
    · obtain ⟨h₁, h₂, h₃⟩ := hv.own.owned y hy
      refine ⟨h₁, fun hm => ?_, h₃⟩
      rcases List.mem_append.1 hm with hm | hm
      · exact h₂ hm
      · exact hown y hy (List.mem_singleton.1 hm)
    · have hne : n' ≠ x := by
        rintro rfl
        exact (hv.own.owned n' (by rw [he]; simp [Pos.owned])).2.1 hxl
      exact (Function.update_of_ne hne _ _).trans (hv.own.fresh x' n' he)
    · obtain ⟨h₁, h₂⟩ := hv.own.ahead x' n' y he
      have hne : x' ≠ x := by
        rintro rfl
        exact h₂ (h₁.symm.trans hx)
      exact ⟨(Function.update_of_ne hne _ _).trans h₁, h₂⟩
    · have hne : x' ≠ x := by
        rintro rfl
        exact hv.own.behind x' n' he hx
      exact fun h₀ => hv.own.behind x' n' he ((Function.update_of_ne hne _ _).symm.trans h₀)
    · -- the front extent is not the one this thread still uses
      have hne : h ≠ x := by
        rintro rfl
        exact hv.back.refs h (by rw [he]; rfl) (by simp [Worker.refs, Pos.tails])
      exact (Function.update_of_ne hne _ _).trans (hv.own.moved h n' he)
    · simp [Pos.owned]
    · simp [Pos.releasing]
    · simp [Pos.target]
    · simp [Pos.target]
    · simp [Pos.owned]
    · simp [Pos.releasing]
    · exact hv.back.refs
    · simp [Pos.seen]

theorem Chained.setCurrent (hc : Chained b l) (hy : y ∈ l) : Chained { b with current := y } l :=
  ⟨hc.nodup, hc.prev, hc.linked, hc.live, hy⟩

theorem Local.setCurrent (hw : Local b l w) (hy : y ≠ b.prev) : Local { b with current := y } l w where
  bare := hw.bare
  refs := hw.refs
  owned := hw.owned
  fresh := hw.fresh
  ahead := hw.ahead
  behind := hw.behind
  asked := fun _ _ he hyh => hy (hyh.trans he.symm)
  target := fun h hh => ⟨(hw.target h hh).1, fun hyh => hy (hyh.trans (hw.target h hh).1.symm)⟩
  moved := hw.moved

/-- The CAS on `current`, whether it succeeds or not. -/
theorem Keeps.current (hc : Chained b l) (hx : x ∈ l) (hnext : b.next x = y) (hy : y ≠ 0) (hw' : Local b l w')
    (hrefs : ∀ z ∈ w'.refs, z ∈ w.refs) (howned : ∀ z ∈ w'.pos.owned, z ∈ w.pos.owned)
    (hrel : w'.pos.releasing = false) (htarget : w'.pos.target = none) (hseen : w'.pos.seen = none) :
    Keeps b l w (if b.current = x then { b with current := y } else b) w' := by
  have hsame : ∀ v, Beside b l w v → Beside b l w' v := fun v hv => by
    refine hv.same (fun z hz => .inl (hrefs z hz)) howned ?_ ?_ ?_
    · rw [hrel]
      simp
    · rw [htarget]
      simp
    · rw [hseen]
      simp
  split
  · obtain ⟨hm, hne⟩ := hc.next_mem hx (by rw [hnext]; exact hy)
    rw [hnext] at hm hne
    refine ⟨l, hc.setCurrent hm, hw'.setCurrent hne, fun v hv _ => ?_⟩
    have hv' := hsame v hv
    exact ⟨hv'.own.setCurrent hne, hv'.out, hv'.back⟩
  · exact ⟨l, hc, hw', fun v hv _ => hsame v hv⟩

/-- `free` of an extent that only this thread can reach. -/
theorem Keeps.free {n : ℤ} (hc : Chained b l) (hw : Local b l w) (hn : n ∈ w.pos.owned) (hw' : Local b l w')
    (hrefs : ∀ z ∈ w'.refs, z ∈ w.refs) (howned : w'.pos.owned = []) (hrel : w'.pos.releasing = false)
    (htarget : w'.pos.target = none) (hseen : ∀ k, w'.pos.seen = some k → w.pos.releasing = true) :
    Keeps b l w { b with live := Function.update b.live n false } w' := by
  have hnl : ∀ y ∈ l, y ≠ n := by
    rintro y hy rfl
    exact (hw.owned y hn).2.1 hy
  have hother : ∀ {v : Worker}, Local b l v → n ∉ v.pos.owned →
      Local { b with live := Function.update b.live n false } l v := fun {v} hv hnv =>
    { bare := hv.bare, refs := hv.refs, fresh := hv.fresh, ahead := hv.ahead, behind := hv.behind, asked := hv.asked,
      target := hv.target, moved := hv.moved
      owned := fun y hy => by
        obtain ⟨h₁, h₂⟩ := hv.owned y hy
        have hne : y ≠ n := by
          rintro rfl
          exact hnv hy
        exact ⟨(Function.update_of_ne hne _ _).trans h₁, h₂⟩ }
  refine ⟨l, ⟨hc.nodup, hc.prev, hc.linked, fun y hy => ?_, hc.current⟩, hother hw' (by simp [howned]), fun v hv _ => ?_⟩
  · exact ⟨(hc.live y hy).1, (Function.update_of_ne (hnl y hy) _ _).trans (hc.live y hy).2⟩
  · refine ⟨hother hv.own (hv.out.owned n hn), ⟨?_, ?_, ?_, ?_⟩, ⟨?_, ?_, ?_, ?_⟩⟩
    · simp [howned]
    · simp [hrel]
    · simp [htarget]
    · simp [htarget]
    · simp [howned]
    · simp [hrel]
    · exact fun h hh hx => hv.back.refs h hh (hrefs h hx)
    · -- nobody is about to unlink an extent while this thread has unlinked one
      intro h hh k hk
      have hv₁ := hv.out.one (hseen k hk)
      cases hp : v.pos <;> simp [hp, Pos.target, Pos.releasing] at hh hv₁

/-- The CAS on `prev`: the front extent leaves the chain. -/
theorem Keeps.move {n : ℤ} {held : List ℤ} (hc : Chained b l) (hw : Local b l ⟨.move h n, held⟩) :
    Keeps b l ⟨.move h n, held⟩ { b with prev := n } ⟨.unmapPrev h n, held⟩ := by
  obtain ⟨hprev, hcur⟩ := hw.target h rfl
  have hnext := hw.moved h n rfl
  obtain ⟨l', rfl⟩ := hc.eq_cons
  rw [hprev] at hc
  -- the current extent lies behind the front
  have hcm : b.current ∈ l' := (List.mem_cons.1 hc.current).resolve_left hcur
  obtain ⟨y, l'', rfl⟩ := List.exists_cons_of_ne_nil (List.ne_nil_of_mem hcm)
  have hny : n = y := hnext.symm.trans hc.linked.1
  obtain ⟨hh, hnd⟩ := List.nodup_cons.1 hc.nodup
  have hheld : held = [] := hw.bare rfl
  refine ⟨y :: l'', ⟨hnd, by rw [hny]; rfl, hc.linked.2, fun z hz => hc.live z (by simp [hz]), hcm⟩, ?_, ?_⟩
  · constructor
    · exact fun _ => hheld
    · simp [Worker.refs, hheld, Pos.tails]
    · simp only [Pos.owned, List.mem_singleton]
      rintro z rfl
      exact ⟨(hc.live z (by simp)).2, hh, (hc.live z (by simp)).1⟩
    · simp
    · simp
    · simp
    · simp
    · simp [Pos.target]
    · simp
  · intro v hv _
    have hrel : v.pos.releasing = false := hv.out.one rfl
    have htarget : v.pos.target = none := by cases hp : v.pos <;> simp [hp, Pos.target, Pos.releasing] at hrel ⊢
    refine ⟨⟨hv.own.bare, fun z hz => ?_, fun z hz => ?_, hv.own.fresh, hv.own.ahead, hv.own.behind,
      fun k hk he => ?_, ?_, hv.own.moved⟩, ⟨?_, ?_, ?_, ?_⟩, ⟨?_, ?_, ?_, ?_⟩⟩
    · have hz' := hv.own.refs z hz
      rw [hprev] at hz'
      refine (List.mem_cons.1 hz').resolve_left ?_
      rintro rfl
      exact hv.out.refs z rfl hz
    · obtain ⟨h₁, h₂, h₃⟩ := hv.own.owned z hz
      exact ⟨h₁, fun hm => h₂ (List.mem_cons_of_mem _ hm), h₃⟩
    · -- a thread that read the old front will not find it at the front again
      have hkh : k = h := hv.out.seen h rfl k (by rw [hk]; rfl)
      have hnk : n = k := he
      exact absurd (by rw [← hkh, ← hnk, hny]; simp) hh
    · simp [htarget]
    · simp only [Pos.owned, List.mem_singleton]
      rintro z rfl hz
      exact (hv.own.owned z hz).2.1 (by simp [hprev])
    · exact fun _ => hrel
    · simp [Pos.target]
    · simp [Pos.target]
    · simp only [Pos.owned, List.mem_singleton]
      rintro z hz rfl
      exact (hv.own.owned z hz).2.1 (by simp [hprev])
    · simp [hrel]
    · simp [htarget]
    · simp [htarget]

/-- The test of `accessors` is passed: the thread is alone. -/
theorem Keeps.ask {held : List ℤ} (hc : Chained b l) (hw : Local b l ⟨.ask h, held⟩) (hle : b.accessors ≤ 1)
    (hfront : b.prev = h) : Keeps b l ⟨.ask h, held⟩ b ⟨.follow h, held⟩ := by
  have hheld : held = [] := hw.bare rfl
  refine ⟨l, hc, ?_, fun v hv hout => ?_⟩
  · constructor
    · exact fun _ => hheld
    · simp [Worker.refs, hheld, Pos.tails]
    · simp [Pos.owned]
    · simp
    · simp
    · simp
    · simp
    · simp only [Pos.target, Option.some.injEq]
      rintro k rfl
      exact ⟨hfront, hw.asked h rfl hfront⟩
    · simp
  · have hpos : v.pos = .out := hout hle (by simp)
    have hvh : v.held = [] := hv.own.bare (by rw [hpos]; rfl)
    refine ⟨hv.own, ⟨?_, ?_, ?_, ?_⟩, ⟨?_, ?_, ?_, ?_⟩⟩
    all_goals simp [Worker.refs, hpos, hvh, Pos.owned, Pos.releasing, Pos.target, Pos.seen, Pos.tails]

/-- The number of accessors is no part of the chain. -/
theorem Keeps.accessors {a : ℤ} (hk : Keeps b l w b w') : Keeps b l w { b with accessors := a } w' := by
  obtain ⟨l', hc, hw, hv⟩ := hk
  have hown : ∀ {u}, Local b l' u → Local { b with accessors := a } l' u := fun hu =>
    ⟨hu.bare, hu.refs, hu.owned, hu.fresh, hu.ahead, hu.behind, hu.asked, hu.target, hu.moved⟩
  refine ⟨l', ⟨hc.nodup, hc.prev, hc.linked, hc.live, hc.current⟩, hown hw, fun v hv₀ ho => ?_⟩
  have hv' := hv v hv₀ ho
  exact ⟨hown hv'.own, hv'.out, hv'.back⟩

/-! ## Steps -/

/-- A step to a place of `release_prev_extents` before the test of `accessors`. -/
theorem Keeps.bare (hc : Chained b l) (hw' : Local b l w') (hheld : w'.refs = []) (howned : w'.pos.owned = [])
    (hrel : w'.pos.releasing = false) (htarget : w'.pos.target = none)
    (hseen : ∀ k, w'.pos.seen = some k → w.pos.seen = some k ∨ k = b.prev) : Keeps b l w b w' := by
  refine .same hc hw' ?_ ?_ ?_ ?_ hseen
  · simp [hheld]
  · simp [howned]
  · simp [hrel]
  · simp [htarget]

/-- A thread there is in order once it holds nothing. -/
theorem Local.of_bare {p : Pos} (htails : p.tails = []) (howned : p.owned = []) (htarget : p.target = none)
    (hasked : ∀ h, p = .ask h → b.prev = h → b.current ≠ h) : Local b l ⟨p, []⟩ := by
  constructor
  · simp
  · simp [Worker.refs, htails]
  · simp [howned]
  · rintro x n rfl
    cases htails
  · rintro x n y (rfl | rfl) <;> cases htails
  · rintro x n rfl
    cases htails
  · exact hasked
  · simp [htarget]
  · rintro h n rfl
    cases htarget

/-- **One step** of one thread keeps everything in order, if it is careful. -/
theorem Worker.step_keeps {c : Choice} {b' : ShrBase} (hc : Chained b l) (hw : Local b l w)
    (hs : w.step b c = some (b', w')) (hfront : ∀ h, w.pos = .ask h → b.accessors ≤ 1 → b.prev = h) :
    Keeps b l w b' w' := by
  obtain ⟨pos, held⟩ := w
  have hheld : ∀ z ∈ held, z ∈ (⟨pos, held⟩ : Worker).refs := fun z hz => List.mem_append_left _ hz
  cases c with
  | read =>
    simp only [step, Option.ite_none_right_eq_some, Option.some.injEq, Prod.mk.injEq] at hs
    obtain ⟨rfl, rfl, rfl⟩ := hs
    exact .plain hc hw rfl (by simp [Worker.refs, Pos.tails]; tauto)
  | touch x =>
    simp only [step, Option.ite_none_right_eq_some, Option.some.injEq, Prod.mk.injEq] at hs
    obtain ⟨⟨rfl, hx⟩, rfl, rfl⟩ := hs
    exact .plain hc hw rfl fun z hz => .inl hz
  | resize x =>
    simp only [step, Option.ite_none_right_eq_some, Option.some.injEq, Prod.mk.injEq] at hs
    obtain ⟨⟨rfl, hx⟩, rfl, rfl⟩ := hs
    refine .plain hc hw rfl fun z hz => .inl ?_
    simp only [Worker.refs, Pos.tails, List.append_nil, List.mem_append, List.mem_singleton] at hz ⊢
    rcases hz with hz | rfl
    · exact hz
    · exact hx
  | release =>
    simp only [step, Option.ite_none_right_eq_some, Option.some.injEq, Prod.mk.injEq] at hs
    obtain ⟨rfl, rfl, rfl⟩ := hs
    exact .bare hc (.of_bare rfl rfl rfl (by simp)) rfl rfl rfl rfl (by simp [Pos.seen])
  | leave =>
    simp only [step, Option.ite_none_right_eq_some, Option.some.injEq, Prod.mk.injEq] at hs
    obtain ⟨rfl, rfl, rfl⟩ := hs
    exact .accessors (.bare hc (.of_bare rfl rfl rfl (by simp)) rfl rfl rfl rfl (by simp [Pos.seen]))
  | same =>
    cases pos <;> simp only [step, Option.some.injEq, Prod.mk.injEq, reduceCtorEq] at hs
    obtain ⟨rfl, rfl⟩ := hs
    exact .plain hc hw rfl (by simp [Worker.refs, Pos.tails]; tauto)
  | grown =>
    cases pos <;> simp only [step, Option.some.injEq, Prod.mk.injEq, reduceCtorEq] at hs
    obtain ⟨rfl, rfl⟩ := hs
    exact .plain hc hw rfl fun z hz => .inl hz
  | refused =>
    cases pos <;> simp only [step, Option.some.injEq, Prod.mk.injEq, reduceCtorEq] at hs
    obtain ⟨rfl, rfl⟩ := hs
    exact .plain hc hw rfl (by simp [Worker.refs, Pos.tails]; tauto)
  | address n =>
    cases pos <;> simp only [step, Option.ite_none_right_eq_some, Option.some.injEq, Prod.mk.injEq, reduceCtorEq] at hs
    obtain ⟨⟨hn, hfree⟩, rfl, rfl⟩ := hs
    exact .create hc hw hn hfree
  | go =>
    cases pos with
    | out =>
      simp only [step, Option.some.injEq, Prod.mk.injEq] at hs
      obtain ⟨rfl, rfl⟩ := hs
      exact .accessors (.plain hc hw rfl (by simp [Worker.refs, Pos.tails]))
    | inside => cases hs
    | resize x =>
      simp only [step, Option.some.injEq, Prod.mk.injEq] at hs
      obtain ⟨rfl, rfl⟩ := hs
      split
      · exact .plain hc hw rfl fun z hz => .inl hz
      · exact .plain hc hw rfl (by simp [Worker.refs, Pos.tails]; tauto)
    | array x =>
      simp only [step, Option.some.injEq, Prod.mk.injEq] at hs
      obtain ⟨rfl, rfl⟩ := hs
      exact .plain hc hw rfl fun z hz => .inl hz
    | slots | create => cases hs
    | link x n =>
      simp only [step] at hs
      split at hs
      · rename_i hx
        cases hs
        exact .link hc hw hx
      · cases hs
        rename_i hx
        refine .same hc ⟨by simp [Pos.bare], hw.refs, hw.owned, ?_, ?_, ?_, ?_, ?_, ?_⟩ (fun z hz => .inl hz) ?_ ?_ ?_ ?_
        all_goals simp [Pos.target, Pos.owned, Pos.releasing, Pos.seen, hx]
    | advance x n =>
      simp only [step, Option.some.injEq, Prod.mk.injEq] at hs
      obtain ⟨rfl, rfl⟩ := hs
      obtain ⟨hnext, hn⟩ := hw.ahead x n n (.inl rfl)
      have hx : x ∈ l := hw.refs x (by simp [Worker.refs, Pos.tails])
      have hrefs : ∀ z ∈ (⟨.reread, held⟩ : Worker).refs, z ∈ (⟨.advance x n, held⟩ : Worker).refs := fun z hz => by
        simp only [Worker.refs, Pos.tails, List.append_nil] at hz
        exact hheld z hz
      exact .current hc hx hnext hn (.of_plain rfl fun z hz => hw.refs z (hrefs z hz)) hrefs (by simp [Pos.owned])
        rfl rfl rfl
    | reload x n =>
      simp only [step, Option.some.injEq, Prod.mk.injEq] at hs
      obtain ⟨rfl, rfl⟩ := hs
      have hx := hw.behind x n rfl
      refine .same hc ⟨by simp [Pos.bare], hw.refs, hw.owned, ?_, ?_, ?_, ?_, ?_, ?_⟩ (fun z hz => .inl hz) ?_ ?_ ?_ ?_
      all_goals simp [Pos.target, Pos.owned, Pos.releasing, Pos.seen, hx]
    | help x n y =>
      simp only [step, Option.some.injEq, Prod.mk.injEq] at hs
      obtain ⟨rfl, rfl⟩ := hs
      obtain ⟨hnext, hy⟩ := hw.ahead x n y (.inr rfl)
      have hx : x ∈ l := hw.refs x (by simp [Worker.refs, Pos.tails])
      have hrefs : ∀ z ∈ (⟨.unmap n, held⟩ : Worker).refs, z ∈ (⟨.help x n y, held⟩ : Worker).refs := fun z hz => by
        simp only [Worker.refs, Pos.tails, List.append_nil] at hz
        exact hheld z hz
      refine .current hc hx hnext hy ⟨by simp [Pos.bare], fun z hz => hw.refs z (hrefs z hz), hw.owned, ?_, ?_, ?_, ?_, ?_, ?_⟩
        hrefs (fun z hz => hz) rfl rfl rfl
      all_goals simp [Pos.target]
    | unmap n =>
      simp only [step, Option.some.injEq, Prod.mk.injEq] at hs
      obtain ⟨rfl, rfl⟩ := hs
      refine .same hc ⟨by simp [Pos.bare], hw.refs, hw.owned, ?_, ?_, ?_, ?_, ?_, ?_⟩ (fun z hz => .inl hz) ?_ ?_ ?_ ?_
      all_goals simp [Pos.target, Pos.owned, Pos.releasing, Pos.seen]
    | free n =>
      simp only [step, Option.some.injEq, Prod.mk.injEq] at hs
      obtain ⟨rfl, rfl⟩ := hs
      exact .free hc hw (by simp [Pos.owned]) (.of_plain rfl hw.refs) (fun z hz => hz) rfl rfl rfl (by simp [Pos.seen])
    | reread =>
      simp only [step, Option.some.injEq, Prod.mk.injEq] at hs
      obtain ⟨rfl, rfl⟩ := hs
      exact .plain hc hw rfl (by simp [Worker.refs, Pos.tails]; tauto)
    | release =>
      simp only [step, Option.some.injEq, Prod.mk.injEq] at hs
      obtain ⟨rfl, rfl⟩ := hs
      obtain rfl : held = [] := hw.bare rfl
      exact .bare hc (.of_bare rfl rfl rfl (by simp)) rfl rfl rfl rfl (by simp [Pos.seen])
    | look h =>
      simp only [step, Option.some.injEq, Prod.mk.injEq] at hs
      obtain ⟨rfl, rfl⟩ := hs
      obtain rfl : held = [] := hw.bare rfl
      split
      · exact .plain hc hw rfl (by simp [Worker.refs, Pos.tails])
      · rename_i hne
        refine .bare hc (.of_bare rfl rfl rfl fun k hk _ => ?_) rfl rfl rfl rfl (by simp [Pos.seen])
        cases hk
        exact Ne.symm hne
    | ask h =>
      simp only [step, Option.some.injEq, Prod.mk.injEq] at hs
      obtain ⟨rfl, rfl⟩ := hs
      obtain rfl : held = [] := hw.bare rfl
      split
      · exact .plain hc hw rfl (by simp [Worker.refs, Pos.tails])
      · rename_i hle
        exact .ask hc hw (not_lt.1 hle) (hfront h rfl (not_lt.1 hle))
    | follow h =>
      simp only [step, Option.some.injEq, Prod.mk.injEq] at hs
      obtain ⟨rfl, rfl⟩ := hs
      refine .same hc ⟨hw.bare, hw.refs, ?_, ?_, ?_, ?_, ?_, hw.target, ?_⟩ (fun z hz => .inl hz) ?_ ?_ ?_ ?_
      all_goals simp [Pos.target, Pos.owned, Pos.releasing, Pos.seen]
    | move h n =>
      have hprev := (hw.target h rfl).1
      simp only [step, hprev, if_true, Option.some.injEq, Prod.mk.injEq] at hs
      obtain ⟨rfl, rfl⟩ := hs
      exact .move hc hw
    | unmapPrev h n =>
      simp only [step, Option.some.injEq, Prod.mk.injEq] at hs
      obtain ⟨rfl, rfl⟩ := hs
      refine .same hc ⟨hw.bare, hw.refs, hw.owned, ?_, ?_, ?_, ?_, ?_, ?_⟩ (fun z hz => .inl hz) ?_ ?_ ?_ ?_
      all_goals simp [Pos.target, Pos.owned, Pos.releasing, Pos.seen]
    | freePrev h n =>
      simp only [step, Option.some.injEq, Prod.mk.injEq] at hs
      obtain ⟨rfl, rfl⟩ := hs
      obtain rfl : held = [] := hw.bare rfl
      exact .free hc hw (by simp [Pos.owned]) (.of_bare rfl rfl rfl (by simp)) (by simp [Worker.refs, Pos.tails]) rfl rfl rfl
        (by simp [Pos.releasing])

/-- Entering and leaving is counted. -/
theorem Worker.step_accessors {c : Choice} {b' : ShrBase} (hs : w.step b c = some (b', w')) :
    b'.accessors + (if w.pos = .out then 0 else 1) = b.accessors + (if w'.pos = .out then 0 else 1) := by
  obtain ⟨pos, held⟩ := w
  cases c <;> cases pos <;> simp only [step, Option.ite_none_right_eq_some, Option.some.injEq, Prod.mk.injEq, reduceCtorEq,
    false_and] at hs
  all_goals grind

/-- Whatever a thread in order uses is not freed. -/
theorem Local.uses_live (hw : Local b l w) (hc : Chained b l) (hx : x ∈ w.uses) : b.live x = true := by
  have hrefs : x ∈ w.refs → b.live x = true := fun h => (hc.live x (hw.refs x h)).2
  have hown : x ∈ w.pos.owned → b.live x = true := fun h => (hw.owned x h).1
  have htarget : w.pos.target = some x → b.live x = true := fun h => by
    obtain ⟨l', rfl⟩ := hc.eq_cons
    exact (hc.live x (by rw [(hw.target x h).1]; simp)).2
  obtain ⟨pos, held⟩ := w
  cases pos <;> simp only [Worker.uses, List.not_mem_nil, List.mem_singleton] at hx
  case inside => exact hrefs (List.mem_append_left _ hx)
  case array | slots | create | link | reload => exact hrefs (List.mem_append_right _ (by simp [Pos.tails, hx]))
  case unmap | free | unmapPrev | freePrev => exact hown (by simp [Pos.owned, hx])
  case follow => exact htarget (by simp [Pos.target, hx])

end

section
variable {T : Type} [DecidableEq T] {s s' : Handle T} {l : List ℤ} {S : Finset T} {a : T × Choice}

omit [DecidableEq T] in
theorem Inv.safe (hI : Inv s l S) : Safe s := fun t _ hx => (hI.own t).uses_live hI.chain hx

omit [DecidableEq T] in
theorem Inv.initial {x : ℤ} (hx : x ≠ 0) : Inv (initial x : Handle T) [x] ∅ where
  chain := ⟨by simp, rfl, ⟨rfl, trivial⟩, by simp [Reclaim.initial, hx], by simp [Reclaim.initial]⟩
  own := fun _ => .of_bare rfl rfl rfl (by simp)
  apart := fun _ _ _ => by constructor <;> simp [Reclaim.initial, Pos.owned, Pos.releasing, Pos.target]
  inside := by simp [Reclaim.initial]
  count := by simp [Reclaim.initial]

/-- A thread that finds at most one accessor is alone. -/
theorem Inv.alone (hI : Inv s l S) {t u : T} (hne : u ≠ t) (hle : s.base.accessors ≤ 1)
    (ht : (s.thread t).pos ≠ .out) : (s.thread u).pos = .out := by
  by_contra hu
  have hsub : {t, u} ⊆ S := by
    intro x hx
    rcases Finset.mem_insert.1 hx with rfl | hx
    · exact (hI.inside x).2 ht
    · rw [Finset.mem_singleton.1 hx]
      exact (hI.inside u).2 hu
  have hcard := Finset.card_le_card hsub
  rw [Finset.card_pair hne.symm] at hcard
  have := hI.count
  omega

/-- **A careful step** keeps the invariant. -/
theorem Inv.step (hI : Inv s l S) (hs : CarefulStep s a s') : ∃ l' S', Inv s' l' S' := by
  obtain ⟨t, c⟩ := a
  obtain ⟨hfront, hs⟩ := hs
  obtain ⟨⟨b, w⟩, hw, rfl⟩ := Option.map_eq_some_iff.1 hs
  have hacc := Worker.step_accessors hw
  simp only [FrontUnmoved] at hfront
  obtain ⟨l', hc, hown, hothers⟩ := Worker.step_keeps hI.chain (hI.own t) hw fun h hp => by
    rw [hp] at hfront
    exact hfront
  have hbeside : ∀ u, u ≠ t → Beside b l' w (s.thread u) := fun u hu =>
    hothers _ ⟨hI.own u, hI.apart t u hu.symm, hI.apart u t hu⟩ fun hle ht => hI.alone hu hle ht
  refine ⟨l', if w.pos = .out then S.erase t else insert t S, ⟨hc, fun u => ?_, fun u v huv => ?_, fun u => ?_, ?_⟩⟩
  · by_cases hu : u = t
    · rw [hu]
      simpa only [Function.update_self] using hown
    · simpa only [Function.update_of_ne hu] using (hbeside u hu).own
  · by_cases hu : u = t <;> by_cases hv : v = t
    · exact absurd (hu.trans hv.symm) huv
    · rw [hu]
      simpa only [Function.update_self, Function.update_of_ne hv] using (hbeside v hv).out
    · rw [hv]
      simpa only [Function.update_self, Function.update_of_ne hu] using (hbeside u hu).back
    · simpa only [Function.update_of_ne hu, Function.update_of_ne hv] using hI.apart u v huv
  · have hin := hI.inside u
    by_cases hu : u = t
    · subst hu
      simp only [Function.update_self]
      split <;> simp [*]
    · simp only [Function.update_of_ne hu]
      split <;> simp [hu, hin]
  · have hcount := hI.count
    have hin := hI.inside t
    by_cases ho : w.pos = .out <;> by_cases hp : (s.thread t).pos = .out
    · simp only [ho, hp, if_true] at hacc ⊢
      rw [Finset.erase_eq_of_notMem (fun h => hin.1 h hp)]
      omega
    · have hm := hin.2 hp
      have hpos := Finset.card_pos.2 ⟨t, hm⟩
      simp only [ho, hp, if_true, if_false] at hacc ⊢
      rw [Finset.card_erase_of_mem hm]
      omega
    · simp only [ho, hp, if_true, if_false] at hacc ⊢
      rw [Finset.card_insert_of_notMem (fun h => hin.1 h hp)]
      push_cast
      omega
    · simp only [ho, hp, if_false] at hacc ⊢
      rw [Finset.insert_eq_of_mem (hin.2 hp)]
      omega

/-- **Reclamation is safe while the front stays.** In every run of any number of threads whose steps
all meet the condition, no thread comes to use a freed extent or to free one twice. -/
theorem extents_safe {x : ℤ} (hx : x ≠ 0) {ls : List (T × Choice)} (h : Trace CarefulStep (initial x : Handle T) ls s) :
    Safe s := by
  obtain ⟨l, S, hI⟩ := h.invariant (fun s => ∃ l S, Inv s l S) (fun _ _ _ ⟨_, _, hI⟩ hs => hI.step hs)
    ⟨[x], ∅, .initial hx⟩
  exact hI.safe

end

/-! ## Two threads -/

/-- Thread `false` maps the grown object and starts to release the extent before, as far as its test of
`accessors`. -/
def resizeAndAsk : List (Bool × Choice) :=
  [(false, .go), (false, .read), (false, .resize 1), (false, .go), (false, .go), (false, .grown), (false, .address 2),
    (false, .go), (false, .go), (false, .go), (false, .release), (false, .go), (false, .go)]

/-- It is alone, so it unlinks and frees the extent, and leaves. -/
def freeAndLeave : List (Bool × Choice) :=
  [(false, .go), (false, .go), (false, .go), (false, .go), (false, .go), (false, .leave)]

/-- Thread `true` enters after the test and reads `base->prev` before the extent is unlinked; left
alone, it passes the test too. -/
def readPrev : List (Bool × Choice) := [(true, .go), (true, .release), (true, .go)]

def lateRelease : List (Bool × Choice) :=
  resizeAndAsk ++ [(false, .go)] ++ readPrev ++ freeAndLeave ++ [(true, .go), (true, .go)]

/-- Thread `true` enters after the test, reads `base->prev` too, and finds that it is not alone. -/
def refusedRelease : List (Bool × Choice) := readPrev ++ [(true, .go), (true, .go)]

/-- It reads the extent that is current, and releases once more: there is nothing to release. -/
def useAndLeave : List (Bool × Choice) := [(true, .read), (true, .touch 2), (true, .release), (true, .go), (true, .go), (true, .leave)]

def safeRelease : List (Bool × Choice) := resizeAndAsk ++ [(false, .go)] ++ refusedRelease ++ freeAndLeave ++ useAndLeave

def Handle.careful (s : Handle Bool) (l : Bool × Choice) : Option (Handle Bool) :=
  match (s.thread l.1).pos with
  | .ask h => if s.base.accessors ≤ 1 → s.base.prev = h then s.step l else none
  | _ => s.step l

theorem Handle.careful_step {s s' : Handle Bool} {l : Bool × Choice} (h : s.careful l = some s') : CarefulStep s l s' := by
  unfold careful at h
  unfold CarefulStep FrontUnmoved
  split at h
  · exact Option.ite_none_right_eq_some.1 h
  · exact ⟨trivial, h⟩

/-- One thread replaces the first extent by a larger one and frees it, while another passes through `release_prev_extents` twice. -/
theorem extents_safe_release : ∃ s, safeRelease.foldlM Handle.careful (initial 1) = some s ∧
    s.base.live 1 = false ∧ (s.thread true).pos = .out ∧ Safe s := by
  have hrun : ∃ s, safeRelease.foldlM Handle.careful (initial 1) = some s ∧ s.base.live 1 = false ∧ (s.thread true).pos = .out :=
    ⟨_, rfl, rfl, rfl⟩
  obtain ⟨s, hs, hlive, hout⟩ := hrun
  exact ⟨s, hs, hlive, hout, extents_safe (x := 1) (by decide) (Trace.of_foldlM (fun _ _ _ => Handle.careful_step) hs)⟩

/-- **The hole.** Two threads can come to a state in which one of them is about to read a field of an
extent the other has freed. -/
theorem extents_unsafe : ¬∀ (ls : List (Bool × Choice)) (s : Handle Bool), Trace Step (initial 1) ls s → Safe s := by
  intro h
  have hrun : ∃ s, lateRelease.foldlM Handle.step (initial 1) = some s ∧ s.base.live 1 = false ∧
      (s.thread true).pos = .follow 1 := ⟨_, rfl, rfl, rfl⟩
  obtain ⟨s, hs, hlive, hpos⟩ := hrun
  have hsafe := h _ s (Trace.of_foldlM (fun _ _ _ h => h) hs) true 1 (by simp [Worker.uses, hpos])
  rw [hlive] at hsafe
  cases hsafe

end LibShr.Reclaim
