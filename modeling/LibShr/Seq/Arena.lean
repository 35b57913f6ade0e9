import LibShr.Seq.Create
import Mathlib.Data.Nat.Log

/-!
# What the data allocator is for

`Arena` is the allocator one would describe: a bump pointer and, for every power of two, a stack of
the blocks of that size freed so far. `Shows` ties it to the object: the free stacks are the buckets
of the header, and the first slot of every block in use holds its size.
-/

namespace LibShr

open Prog Links

/-! ## The abstract allocator -/

/-- A bump pointer, the free blocks of every class (last freed first) and the classes of the blocks
in use. A block of class `k` has `2 ^ k` slots. -/
structure Arena where
  bump : ℤ
  free : ℕ → List ℤ
  live : ℤ → Option ℕ

/-- What a client asks for; `write` is a store of the client into a block it has, behind its header. -/
inductive Request
  | alloc (slots : ℕ)
  | free (block : ℤ)
  | write (slot value : ℤ)

namespace Arena

variable (A : Arena)

/-- The smallest class with a free block among `k`, `k + 1` and `k + 2`. -/
def pick (k : ℕ) : Option ℕ := [k, k + 1, k + 2].find? fun j => A.free j ≠ []

/-- The top free block of class `j` is put to use. -/
def take (j : ℕ) : Arena :=
  { A with
    free := Function.update A.free j (A.free j).tail
    live := Function.update A.live ((A.free j).headD 0) (some j) }

/-- A block of class `k` is carved at the bump pointer. -/
def carve (k : ℕ) : Arena :=
  { A with bump := A.bump + 2 ^ k, live := Function.update A.live A.bump (some k) }

/-- A request for `n` slots: the block and the arena after it. -/
def alloc (n : ℕ) : ℤ × Arena :=
  match A.pick (Nat.clog 2 n) with
  | some j => ((A.free j).headD 0, A.take j)
  | none => (A.bump, A.carve (Nat.clog 2 n))

/-- Block `b` is freed. -/
def release (b : ℤ) : Arena :=
  match A.live b with
  | some k => { A with free := Function.update A.free k (b :: A.free k), live := Function.update A.live b none }
  | none => A

/-- What a client may ask for. -/
def Valid : Request → Prop
  | .alloc n => 4 ≤ n ∧ n ≤ 2 ^ 29
  | .free b => ∃ k, A.live b = some k
  | .write s _ => ∃ b k, A.live b = some k ∧ b < s ∧ s < b + 2 ^ k

/-- The answer to a request (0 where there is none) and the arena after it. -/
def serve : Request → ℤ × Arena
  | .alloc n => A.alloc n
  | .free b => (0, A.release b)
  | .write .. => (0, A)

/-- Every request of the sequence is valid when its turn comes. -/
def ValidAll : Arena → List Request → Prop
  | _, [] => True
  | A, r :: rs => A.Valid r ∧ ValidAll (A.serve r).2 rs

/-- The answers to a sequence of requests and the arena after it. -/
def serveAll : Arena → List Request → List ℤ × Arena
  | A, [] => ([], A)
  | A, r :: rs => ((A.serve r).1 :: ((A.serve r).2.serveAll rs).1, ((A.serve r).2.serveAll rs).2)

/-- `b` is a block of class `k`, in use or free. -/
def Has (b : ℤ) (k : ℕ) : Prop := A.live b = some k ∨ b ∈ A.free k

/-- Blocks lie below the bump pointer, do not overlap, and are in one place each. -/
structure Wf : Prop where
  low : 110 ≤ A.bump
  size : ∀ b k, A.Has b k → 2 ≤ k ∧ k ≤ 29
  bounds : ∀ b k, A.Has b k → 110 ≤ b ∧ b + 2 ^ k ≤ A.bump
  sep : ∀ b k c j, A.Has b k → A.Has c j → (b = c ∧ k = j) ∨ b + 2 ^ k ≤ c ∨ c + 2 ^ j ≤ b
  nodup : ∀ k, (A.free k).Nodup
  excl : ∀ b k, A.live b = some k → ∀ j, b ∉ A.free j

/-- An arena in which nothing was allocated yet. -/
def start (bump : ℤ) : Arena := ⟨bump, fun _ => [], fun _ => none⟩

variable {A} {b c : ℤ} {j k n : ℕ} {l : List ℤ}

theorem start_wf {a : ℤ} (ha : 110 ≤ a) : (start a).Wf where
  low := ha
  size := by simp [start, Has]
  bounds := by simp [start, Has]
  sep := by simp [start, Has]
  nodup := by simp [start]
  excl := by simp [start]

theorem pick_some (h : A.pick k = some j) : A.free j ≠ [] ∧ (k ≤ j ∧ j ≤ k + 2) := by
  have hj := List.find?_some h
  have hm := List.mem_of_find?_eq_some h
  simp only [List.mem_cons, List.not_mem_nil, or_false] at hm
  exact ⟨by simpa using hj, by omega⟩

theorem Wf.live_disjoint (hA : A.Wf) (hb : A.live b = some k) (hc : A.live c = some j) (hne : b ≠ c) :
    b + 2 ^ k ≤ c ∨ c + 2 ^ j ≤ b :=
  (hA.sep b k c j (.inl hb) (.inl hc)).resolve_left fun h => hne h.1

theorem take_free (hl : A.free j = b :: l) (i : ℕ) : (A.take j).free i = if i = j then l else A.free i := by
  simp only [take, hl, List.tail_cons, Function.update_apply]

theorem take_live (hl : A.free j = b :: l) (c : ℤ) : (A.take j).live c = if c = b then some j else A.live c := by
  simp only [take, hl, List.headD_cons, Function.update_apply]

theorem carve_live (k : ℕ) (c : ℤ) : (A.carve k).live c = if c = A.bump then some k else A.live c := by
  simp only [carve, Function.update_apply]

theorem release_free (hb : A.live b = some k) (i : ℕ) :
    (A.release b).free i = if i = k then b :: A.free k else A.free i := by
  simp only [release, hb, Function.update_apply]

theorem release_live (hb : A.live b = some k) (c : ℤ) :
    (A.release b).live c = if c = b then none else A.live c := by
  simp only [release, hb, Function.update_apply]

theorem release_bump : (A.release b).bump = A.bump := by
  unfold release
  split <;> rfl

/-- Only where the blocks are has changed. -/
theorem Wf.of_has (hA : A.Wf) {A' : Arena} (hbump : A'.bump = A.bump) (hhas : ∀ b k, A'.Has b k → A.Has b k)
    (hnodup : ∀ k, (A'.free k).Nodup) (hexcl : ∀ b k, A'.live b = some k → ∀ j, b ∉ A'.free j) : A'.Wf where
  low := hbump ▸ hA.low
  size := fun b k h => hA.size b k (hhas b k h)
  bounds := fun b k h => hbump ▸ hA.bounds b k (hhas b k h)
  sep := fun b k c j hb hc => hA.sep b k c j (hhas b k hb) (hhas c j hc)
  nodup := hnodup
  excl := hexcl

theorem Wf.free_class (hA : A.Wf) (hb : A.Has b k) (hc : A.Has b j) : k = j := by
  have := hA.sep b k b j hb hc
  have := Int.pow_pos (n := 2) (m := k) (by decide)
  have := Int.pow_pos (n := 2) (m := j) (by decide)
  omega

theorem Wf.take (hA : A.Wf) (h : A.free j ≠ []) : (A.take j).Wf := by
  obtain ⟨b, l, hl⟩ := List.exists_cons_of_ne_nil h
  have hnd := hA.nodup j
  have hbj : A.Has b j := .inr (by simp [hl])
  rw [hl, List.nodup_cons] at hnd
  have hfree : ∀ {c i}, c ∈ (A.take j).free i → c ∈ A.free i ∧ c ≠ b := by
    intro c i hc
    rw [take_free hl] at hc
    split at hc
    · rename_i hi
      exact ⟨by rw [hi, hl]; exact List.mem_cons_of_mem _ hc, fun he => hnd.1 (he ▸ hc)⟩
    · rename_i hi
      exact ⟨hc, fun he => hi (hA.free_class (b := c) (.inr hc) (he ▸ hbj))⟩
  have hlive : ∀ {c i}, (A.take j).live c = some i → c = b ∧ i = j ∨ A.live c = some i := by
    intro c i hc
    rw [take_live hl] at hc
    split at hc
    · exact .inl ⟨‹_›, (Option.some.inj hc).symm⟩
    · exact .inr hc
  refine hA.of_has rfl ?_ ?_ ?_
  · rintro c i (hc | hc)
    · rcases hlive hc with ⟨rfl, rfl⟩ | hc
      · exact hbj
      · exact .inl hc
    · exact .inr (hfree hc).1
  · intro i
    rw [take_free hl]
    split
    · exact hnd.2
    · exact hA.nodup i
  · intro c i hc i' hc'
    rcases hlive hc with ⟨rfl, -⟩ | hc
    · exact (hfree hc').2 rfl
    · exact hA.excl c i hc i' (hfree hc').1

theorem Wf.carve (hA : A.Wf) (h₂ : 2 ≤ k) (h₂₉ : k ≤ 29) : (A.carve k).Wf := by
  have hpos := Int.pow_pos (n := 2) (m := k) (by decide)
  have hlive : ∀ {c i}, (A.carve k).live c = some i → c = A.bump ∧ i = k ∨ A.live c = some i := by
    intro c i hc
    rw [carve_live] at hc
    split at hc
    · exact .inl ⟨‹_›, (Option.some.inj hc).symm⟩
    · exact .inr hc
  have hhas : ∀ {c i}, (A.carve k).Has c i → c = A.bump ∧ i = k ∨ A.Has c i := by
    rintro c i (hc | hc)
    · exact (hlive hc).imp id .inl
    · exact .inr (.inr hc)
  have hlow := hA.low
  have hbump : (A.carve k).bump = A.bump + 2 ^ k := rfl
  constructor
  · omega
  · intro c i hc
    rcases hhas hc with ⟨-, rfl⟩ | hc
    · exact ⟨h₂, h₂₉⟩
    · exact hA.size c i hc
  · intro c i hc
    rcases hhas hc with ⟨rfl, rfl⟩ | hc
    · omega
    · have := hA.bounds c i hc
      omega
  · intro c i d i' hc hd
    rcases hhas hc with ⟨rfl, rfl⟩ | hc' <;> rcases hhas hd with ⟨rfl, rfl⟩ | hd'
    · exact .inl ⟨rfl, rfl⟩
    · exact .inr (.inr (hA.bounds d i' hd').2)
    · exact .inr (.inl (hA.bounds c i hc').2)
    · exact hA.sep c i d i' hc' hd'
  · exact hA.nodup
  · intro c i hc i' hc'
    have := hA.bounds c i' (.inr hc')
    have := Int.pow_pos (n := 2) (m := i') (by decide)
    rcases hlive hc with ⟨rfl, -⟩ | hc
    · omega
    · exact hA.excl c i hc i' hc'

theorem Wf.release (hA : A.Wf) (hb : A.live b = some k) : (A.release b).Wf := by
  have hfree : ∀ {c i}, c ∈ (A.release b).free i → c = b ∧ i = k ∨ c ∈ A.free i := by
    intro c i hc
    rw [release_free hb] at hc
    split at hc
    · rename_i hi
      rw [hi]
      exact (List.mem_cons.1 hc).imp (fun h => ⟨h, rfl⟩) id
    · exact .inr hc
  have hlive : ∀ {c i}, (A.release b).live c = some i → c ≠ b ∧ A.live c = some i := by
    intro c i hc
    rw [release_live hb] at hc
    split at hc
    · cases hc
    · exact ⟨‹_›, hc⟩
  refine hA.of_has release_bump ?_ ?_ ?_
  · rintro c i (hc | hc)
    · exact .inl (hlive hc).2
    · rcases hfree hc with ⟨rfl, rfl⟩ | hc
      · exact .inl hb
      · exact .inr hc
  · intro i
    rw [release_free hb]
    split
    · exact List.nodup_cons.2 ⟨hA.excl b k hb k, hA.nodup k⟩
    · exact hA.nodup i
  · intro c i hc i' hc'
    obtain ⟨hne, hc⟩ := hlive hc
    rcases hfree hc' with ⟨rfl, -⟩ | hc'
    · exact hne rfl
    · exact hA.excl c i hc i' hc'

/-- A class asked for is one of those that exist. -/
theorem clog_bounds (h₄ : 4 ≤ n) (hn : n ≤ 2 ^ 29) : 2 ≤ Nat.clog 2 n ∧ Nat.clog 2 n ≤ 29 := by
  refine ⟨?_, Nat.clog_le_of_le_pow hn⟩
  by_contra h
  have hle := Nat.le_pow_clog (b := 2) (by decide) n
  have : 2 ^ Nat.clog 2 n ≤ 2 ^ 1 := Nat.pow_le_pow_right (by decide) (by omega)
  omega

/-- **The arena's invariant** survives every valid request. -/
theorem Wf.serve (hA : A.Wf) : ∀ r, A.Valid r → (A.serve r).2.Wf
  | .alloc n, ⟨h₄, hn⟩ => by
    obtain ⟨h₂, h₂₉⟩ := clog_bounds h₄ hn
    simp only [Arena.serve, Arena.alloc]
    split
    · rename_i j hj
      exact hA.take (pick_some hj).1
    · exact hA.carve h₂ h₂₉
  | .free _, ⟨_, hb⟩ => hA.release hb
  | .write .., _ => hA

end Arena

/-! ## The library's allocator -/

/-- The object holds the arena `A`, all of it mapped. -/
structure Shows (w : World) (A : Arena) : Prop where
  geo : Geo True w.mem w.ext
  bump : w.mem DATA_ALLOC = A.bump
  room : A.bump < w.ext.cur
  stack : ∀ k : ℕ, k < 48 → StackAt w.mem (MEM_BKT_START + 2 * k) (A.free (k + 2))
  header : ∀ b k, A.live b = some k → w.mem b = 2 ^ k

/-- The library's answer to a request: the status it returns and the slot, 0 if it returns none. -/
def serve : Request → M (Status × ℤ)
  | .alloc n => do
    let view ← allocDataSlots n
    return (view.status, view.slot)
  | .free b => do
    let status ← freeDataSlots b
    return (status, 0)
  | .write s v => do
    store (← current) s v
    return (.ok, 0)

/-- The library's answers to a sequence of requests. -/
def serveAll : List Request → M (List (Status × ℤ))
  | [] => return []
  | r :: rs => do
    let answer ← serve r
    return answer :: (← serveAll rs)

section
variable {w : World} {A : Arena} {b : ℤ} {k n : ℕ} {m : ℤ → ℤ} {e : Mapping}

theorem clog_eq (h₄ : 4 ≤ n) (hn : n < 2 ^ 63) : Bits.ceilLog2 n = Nat.clog 2 n := by
  obtain ⟨h₁, h₂⟩ := Bits.ceilLog2_spec (n := n) (by omega) (by omega)
  exact le_antisymm (h₂ _ (Nat.le_pow_clog (by decide) n)) (Nat.clog_le_of_le_pow h₁)

theorem Shows.has_bounds (hA : A.Wf) {b : ℤ} {k : ℕ} (hb : A.Has b k) : 110 ≤ b ∧ 4 ≤ (2 : ℤ) ^ k ∧ b + 2 ^ k ≤ A.bump := by
  have h₂ := (hA.size b k hb).1
  have hp := (Heap.Wf.two_pow_mod (k - 2)).1
  rw [Nat.sub_add_cancel h₂] at hp
  exact ⟨(hA.bounds b k hb).1, hp, (hA.bounds b k hb).2⟩

/-- The class the library finds is the arena's. -/
theorem Shows.pick_eq (hS : Shows w A) (hA : A.Wf) (hk : k ≤ 27) :
    (firstFit (fun j => top w.mem j = 0) k 3).map (· + 2) = A.pick (k + 2) := by
  have hempty : ∀ j, j < 48 → (top w.mem j = 0 ↔ A.free (j + 2) = []) := fun j hj =>
    (hS.stack j hj).top_eq_zero fun x hx => by
      have := (Shows.has_bounds hA (.inr hx)).1
      omega
  have h : ∀ j, j < 48 → (j < 48 ∧ ¬top w.mem j = 0 ↔ A.free (j + 2) ≠ []) := fun j hj =>
    ⟨fun h => fun he => h.2 ((hempty j hj).2 he), fun h => ⟨hj, fun he => h ((hempty j hj).1 he)⟩⟩
  have h₀ := h k (by omega)
  have h₁ := h (k + 1) (by omega)
  have h₂ := h (k + 2) (by omega)
  simp only [firstFit, Arena.pick, List.range', List.find?, h₀, h₁, h₂]
  by_cases e₀ : A.free (k + 2) = [] <;> by_cases e₁ : A.free (k + 1 + 2) = [] <;>
    by_cases e₂ : A.free (k + 2 + 2) = [] <;> simp [e₀, e₁, e₂, Nat.add_right_comm k 2 1]

theorem Shows.take (hS : Shows w A) (hA : A.Wf) {j : ℕ} {l : List ℤ} (hl : A.free (j + 2) = b :: l)
    (hj : j < 48) (hk : k ≤ j + 2) (hg : Grown True w.mem w.ext w.mem e) :
    Shows ((w.setMem (zeroed (taken w.mem j) (b + 1) ((2 : ℤ) ^ k - 1).toNat)).setExt e) (A.take (j + 2)) := by
  have hb : A.Has b (j + 2) := .inr (by simp [hl])
  obtain ⟨hb₀, hp, hb₁⟩ := Shows.has_bounds hA hb
  have hst := hS.stack j hj
  rw [hl] at hst
  have htop : top w.mem j = b := hst.1
  have hk' : (2 : ℤ) ^ k ≤ 2 ^ (j + 2) := pow_le_pow_right₀ (by norm_num) hk
  have hkp : 0 < (2 : ℤ) ^ k := by positivity
  have hn : (((2 : ℤ) ^ k - 1).toNat : ℤ) = 2 ^ k - 1 := Int.toNat_of_nonneg (by omega)
  have hroom := hS.room
  have hcur := hg.cur_le
  -- nothing changes outside the block and its stack's top
  have hsame : ∀ a : ℤ, a ≠ 14 + 2 * j → a ≠ 14 + 2 * j + 1 → (a < b ∨ b + 2 ^ (j + 2) ≤ a) →
      zeroed (taken w.mem j) (b + 1) ((2 : ℤ) ^ k - 1).toNat a = w.mem a := by
    intro a h h' hab
    rw [zeroed_ne (by omega), taken, htop]
    simp (disch := omega) only [setSlot_ne]
  have hhead : zeroed (taken w.mem j) (b + 1) ((2 : ℤ) ^ k - 1).toNat b = 2 ^ (j + 2) := by
    rw [zeroed_ne (by omega), taken, htop]
    exact setSlot_same _ _ _
  have hother : ∀ c i, A.Has c i → c ≠ b → c < b ∨ b + 2 ^ (j + 2) ≤ c := by
    intro c i hc hcb
    have := (Shows.has_bounds hA hc).2.1
    have := hA.sep c i b (j + 2) hc hb
    omega
  refine ⟨hg.geo.congr (hsame 2 (by omega) (by omega) (by omega)) (hsame 3 (by omega) (by omega) (by omega)), ?_, ?_,
    fun i hi => ?_, fun c i hc => ?_⟩
  · exact (hsame 6 (by omega) (by omega) (by omega)).trans hS.bump
  · exact lt_of_lt_of_le hroom hcur
  · rw [Arena.take_free hl]
    have hnot : ∀ c ∈ l, c < b ∨ b + 2 ^ (j + 2) ≤ c := by
      intro c hc
      have hnd := hA.nodup (j + 2)
      rw [hl, List.nodup_cons] at hnd
      exact hother c (j + 2) (.inr (by simp [hl, hc])) fun he => hnd.1 (he ▸ hc)
    have hlow : ∀ c i, A.Has c i → 110 ≤ c := fun c i hc => (Shows.has_bounds hA hc).1
    split
    · rename_i hij
      have hij : i = j := by omega
      subst hij
      refine hst.pop ?_ fun c hc => ?_
      · show zeroed (taken w.mem i) (b + 1) ((2 : ℤ) ^ k - 1).toNat (14 + 2 * i) = w.mem b
        rw [zeroed_ne (by omega), taken, htop]
        simp (disch := omega) only [setSlot_ne, setSlot_same, MEM_BKT_START]
      · have := hlow c (i + 2) (.inr (by simp [hl, hc]))
        exact hsame c (by omega) (by omega) (hnot c hc)
    · rename_i hij
      refine (hS.stack i hi).congr (hsame (14 + 2 * i) (by omega) (by omega) (by omega)) fun c hc => ?_
      have := hlow c (i + 2) (.inr hc)
      refine hsame c (by omega) (by omega) (hother c (i + 2) (.inr hc) ?_)
      rintro rfl
      exact hij (hA.free_class (.inr hc) hb)
  · rw [Arena.take_live hl] at hc
    split at hc
    · rename_i hcb
      rw [hcb, ← Option.some.inj hc]
      exact hhead
    · rename_i hcb
      have := (Shows.has_bounds hA (.inl hc)).1
      rw [← hS.header c i hc]
      exact hsame c (by omega) (by omega) (hother c i (.inl hc) hcb)

theorem Shows.carve (hS : Shows w A) (hA : A.Wf) (hg : Grown True w.mem w.ext m e)
    (hlt : A.bump + 2 ^ k < e.cur) (hk : 2 ≤ k) :
    Shows ((w.setMem (carved m A.bump (2 ^ k))).setExt e) (A.carve k) := by
  have hlow := hA.low
  have hp : 0 < (2 : ℤ) ^ k := by positivity
  have hsame : ∀ a : ℤ, a ≠ 2 → a ≠ 3 → a ≠ 6 → a < A.bump → carved m A.bump (2 ^ k) a = w.mem a := by
    intro a h₂ h₃ h₆ ha
    simp (disch := omega) only [carved, setSlot_ne]
    exact hg.same a h₂ h₃
  refine ⟨hg.geo.congr ?_ ?_, ?_, hlt, fun i hi => ?_, fun c i hc => ?_⟩
  · simp (disch := omega) only [carved, setSlot_ne]
  · simp (disch := omega) only [carved, setSlot_ne]
  · simp (disch := omega) only [carved, setSlot_ne, setSlot_same, DATA_ALLOC, Arena.carve]
  · refine (hS.stack i hi).congr (hsame (14 + 2 * i) (by omega) (by omega) (by omega) (by omega)) fun c hc => ?_
    have := Shows.has_bounds hA (.inr hc)
    exact hsame c (by omega) (by omega) (by omega) (by omega)
  · rw [Arena.carve_live] at hc
    split at hc
    · rename_i hcb
      rw [hcb, ← Option.some.inj hc]
      exact setSlot_same _ _ _
    · have := Shows.has_bounds hA (.inl hc)
      rw [← hS.header c i hc]
      exact hsame c (by omega) (by omega) (by omega) (by omega)

theorem Shows.release (hS : Shows w A) (hA : A.Wf) {k : ℕ} (hb : A.live b = some (k + 2)) (hk : k < 48) :
    Shows (w.setMem (freed w.mem k b)) (A.release b) := by
  obtain ⟨hb₀, hp, hb₁⟩ := Shows.has_bounds hA (.inl hb)
  have hroom := hS.room
  have hsame : ∀ a : ℤ, a ≠ 14 + 2 * k → a ≠ 14 + 2 * k + 1 → a ≠ b → a ≠ b + 1 → freed w.mem k b a = w.mem a := by
    intro a h h' h₀ h₁
    simp (disch := omega) only [freed, setSlot_ne]
  have hother : ∀ c i, A.Has c i → c ≠ b → 110 ≤ c ∧ c ≠ b + 1 := by
    intro c i hc hcb
    have := Shows.has_bounds hA hc
    have := hA.sep c i b (k + 2) hc (.inl hb)
    omega
  refine ⟨hS.geo.congr (hsame 2 (by omega) (by omega) (by omega) (by omega))
    (hsame 3 (by omega) (by omega) (by omega) (by omega)), ?_, ?_, fun i hi => ?_, fun c i hc => ?_⟩
  · rw [Arena.release_bump]
    exact (hsame 6 (by omega) (by omega) (by omega) (by omega)).trans hS.bump
  · rw [Arena.release_bump]
    exact hroom
  · rw [Arena.release_free hb]
    have hfree : ∀ c ∈ A.free (i + 2), freed w.mem k b c = w.mem c := by
      intro c hc
      have := hother c (i + 2) (.inr hc) fun he => hA.excl b (k + 2) hb (i + 2) (he ▸ hc)
      exact hsame c (by omega) (by omega) (fun he => hA.excl b (k + 2) hb (i + 2) (he ▸ hc)) this.2
    split
    · rename_i hik
      have hik : i = k := by omega
      subst hik
      refine (hS.stack i hi).push ?_ ?_ hfree
      all_goals simp (disch := omega) only [freed, setSlot_ne, setSlot_same, MEM_BKT_START]
    · exact (hS.stack i hi).congr (hsame (14 + 2 * i) (by omega) (by omega) (by omega) (by omega)) hfree
  · rw [Arena.release_live hb] at hc
    split at hc
    · cases hc
    · rename_i hcb
      have := hother c i (.inl hc) hcb
      rw [← hS.header c i hc]
      exact hsame c (by omega) (by omega) hcb this.2

/-- A store of a client into its own block. -/
theorem Shows.write (hS : Shows w A) (hA : A.Wf) {s v : ℤ} (hb : A.live b = some k) (hs : b < s)
    (hs' : s < b + 2 ^ k) : Shows (w.setMem (setSlot w.mem s v)) A := by
  obtain ⟨hb₀, hp, hb₁⟩ := Shows.has_bounds hA (.inl hb)
  have hother : ∀ c i, A.Has c i → c ≠ s := by
    intro c i hc
    have := Shows.has_bounds hA hc
    have := hA.sep c i b k hc (.inl hb)
    omega
  refine ⟨hS.geo.congr (setSlot_ne _ _ (by omega)) (setSlot_ne _ _ (by omega)), ?_, hS.room, fun i hi => ?_,
    fun c i hc => ?_⟩
  · exact (setSlot_ne w.mem v (show (6 : ℤ) ≠ s by omega)).trans hS.bump
  · exact (hS.stack i hi).congr (setSlot_ne w.mem v (show (14 + 2 * i : ℤ) ≠ s by omega)) fun c hc => setSlot_ne _ _ (hother c _ (.inr hc))
  · exact (setSlot_ne _ _ (hother c i (.inl hc))).trans (hS.header c i hc)

/-- `alloc_data_slots` answers as the arena does. -/
theorem Shows.alloc (hS : Shows w A) (hA : A.Wf) (h₄ : 4 ≤ n) (hn : n ≤ 2 ^ 29) :
    Wp True (allocDataSlots n) (fun v w' => v.status = .ok ∧ v.slot = (A.alloc n).1 ∧ Shows w' (A.alloc n).2) w := by
  obtain ⟨h₂, h₂₉⟩ := Arena.clog_bounds h₄ hn
  have hlow := hA.low
  have hbump : w.mem 6 = A.bump := hS.bump
  obtain ⟨k, hk⟩ : ∃ k, Nat.clog 2 n = k + 2 := ⟨Nat.clog 2 n - 2, by omega⟩
  have hpick := hS.pick_eq hA (k := k) (by omega)
  have hp : 0 < (2 : ℤ) ^ (k + 2) := by positivity
  rw [allocDataSlots, Wp, wp_bind]
  refine wp_roundSlots h₄ (by omega) ?_ fun _ => hn.trans (Nat.pow_le_pow_right (by decide) (by decide))
  rw [clog_eq h₄ (by omega), hk, wp_bind]
  have htop : ∀ j, firstFit (fun j => top w.mem j = 0) k 3 = some j →
      ∃ l, A.pick (k + 2) = some (j + 2) ∧ A.free (j + 2) = top w.mem j :: l ∧ j < 48 ∧ k ≤ j := by
    intro j hf
    rw [hf] at hpick
    obtain ⟨b, l, hl⟩ := List.exists_cons_of_ne_nil (Arena.pick_some hpick.symm).1
    have hj := firstFit_some hf
    have hst := hS.stack j hj.1
    rw [hl] at hst
    have hb : top w.mem j = b := hst.1
    exact ⟨l, hpick.symm, by rw [hb, hl], hj.1, hj.2.2.1⟩
  refine wp_reallocDataSlots (fun h => h) hS.geo (by omega) ?_ ?_ ?_ ?_
  · intro j hf
    obtain ⟨l, -, hl, hj, -⟩ := htop j hf
    have hb : A.Has (top w.mem j) (j + 2) := .inr (by simp [hl])
    have hbb := Shows.has_bounds hA hb
    have := hS.room
    have := hS.geo.cur_le
    exact ⟨hbb.1, by omega, fun _ => by have := (hA.size _ _ hb).2; omega⟩
  · intro hf
    have hnone : A.pick (k + 2) = none := by rw [← hpick, hf]; rfl
    simp only [ne_eq, not_true_eq_false, if_false]
    refine wp_allocNewData hS.geo hp (by omega) ?_ fun _ _ _ _ h => absurd trivial h
    intro m e hg hlt
    simp only [Arena.alloc, hk, hnone, hbump] at hlt ⊢
    exact ⟨trivial, trivial, hS.carve hA hg hlt (by omega)⟩
  · intro j e hf hg hlt
    obtain ⟨l, hsome, hl, hj, hkj⟩ := htop j hf
    have hbb := Shows.has_bounds hA (b := top w.mem j) (k := j + 2) (.inr (by simp [hl]))
    have hne : top w.mem j ≠ 0 := by omega
    simp only [ne_eq, hne, not_false_eq_true, if_true, wp_pure, Arena.alloc, hk, hsome, hl, List.headD_cons]
    exact ⟨trivial, trivial, hS.take hA hl hj (by omega) hg⟩
  · intro j e st x _ _ _ h
    exact absurd (hS.geo.canMap trivial _) h

/-- **One request.** The library answers as the arena does. -/
theorem Shows.serve (hS : Shows w A) (hA : A.Wf) : ∀ r, A.Valid r →
    Wp True (LibShr.serve r) (fun answer w' => answer = (.ok, (A.serve r).1) ∧ Shows w' (A.serve r).2) w
  | .alloc n, ⟨h₄, hn⟩ => by
    simp only [LibShr.serve, wp_bind]
    refine wp_mono ?_ (hS.alloc hA h₄ hn)
    rintro v w' ⟨hst, hslot, hS'⟩
    rw [wp_pure, hst, hslot]
    exact ⟨rfl, hS'⟩
  | .free b, ⟨k, hb⟩ => by
    have hsize := hA.size b k (.inl hb)
    obtain ⟨hb₀, hp, hb₁⟩ := Shows.has_bounds hA (.inl hb)
    have hroom := hS.room
    obtain ⟨k, rfl⟩ : ∃ i, k = i + 2 := ⟨k - 2, by omega⟩
    simp only [LibShr.serve, wp_bind]
    refine (wp_freeDataSlots hS.geo.cur_pos (by omega) hb₀ (by omega) (hS.header b _ hb)).2 ?_
    rw [wp_pure]
    exact ⟨rfl, hS.release hA hb (by omega)⟩
  | .write s v, ⟨b, k, hb, hs, hs'⟩ => by
    obtain ⟨hb₀, hp, hb₁⟩ := Shows.has_bounds hA (.inl hb)
    have hroom := hS.room
    simp (disch := omega) only [LibShr.serve, wp_bind, wp_current, wp_store, wp_pure]
    exact ⟨rfl, hS.write hA hb hs hs'⟩

/-- **Any sequence of requests.** -/
theorem Shows.serveAll (hS : Shows w A) (hA : A.Wf) : ∀ rs, A.ValidAll rs →
    Wp True (LibShr.serveAll rs) (fun answers w' => answers = (A.serveAll rs).1.map (Prod.mk .ok) ∧
      Shows w' (A.serveAll rs).2 ∧ (A.serveAll rs).2.Wf) w := by
  intro rs
  induction rs generalizing w A with
  | nil => exact fun _ => wp_pure.2 ⟨rfl, hS, hA⟩
  | cons r rs ih =>
    rintro ⟨hr, hrs⟩
    simp only [LibShr.serveAll, wp_bind]
    refine wp_mono ?_ (hS.serve hA r hr)
    rintro _ w' ⟨rfl, hS'⟩
    refine wp_mono ?_ (ih hS' (hA.serve r hr) hrs)
    rintro _ w'' ⟨rfl, hS'', hA'⟩
    exact wp_pure.2 ⟨rfl, hS'', hA'⟩

/-! ## Setting up -/

/-- The two ways the allocator of a fresh object is set up: `init_data_allocator` after
`create_base_object`, and `shr_q_create`. -/
inductive Setup
  | object (tag : List UInt8) (version start : ℤ)
  | queue (maxDepth : ℤ)

/-- The program that sets the allocator up. -/
def Setup.run : Setup → M Unit
  | .object tag version start => do
    initBaseObject tag version
    initDataAllocator start
  | .queue maxDepth => do
    let _ ← initQueue maxDepth

/-- The arguments are sound: the tag fits its slot, and the free list's first node fits behind the
header in the first extent. -/
def Setup.Valid (w : World) : Setup → Prop
  | .object tag _ start => tag.length ≤ 8 ∧ BASE ≤ start ∧ start + 4 < w.ext.cur
  | .queue _ => True

/-- Where the bump pointer stands then: behind the first nodes. -/
def Setup.bump : Setup → ℤ
  | .object _ _ start => start + IDX_SIZE
  | .queue _ => HDR_END + 3 * NODE_SIZE

theorem Setup.run_spec (hf : Fresh True w) : ∀ s : Setup, s.Valid w →
    110 ≤ s.bump ∧ Wp True s.run (fun _ w' => Shows w' (Arena.start s.bump)) w
  | .object tag version start, ⟨htag, hs, hlt⟩ => by
    have hs : 110 ≤ start := hs
    have hcast : ((IDX_SIZE : ℕ) : ℤ) = 4 := rfl
    refine ⟨?_, ?_⟩
    · simp only [Setup.bump, hcast]
      omega
    rw [Setup.run, Wp, wp_bind]
    refine wp_mono ?_ (initBaseObject_spec hf htag version)
    rintro _ _ ⟨m, rfl, hg, -, -, -, h₀⟩
    refine wp_mono ?_ (initDataAllocator_spec (w := w.setMem m) hg hs hlt)
    rintro _ _ ⟨m', rfl, h₆, -, -, -, -, -, -, hsame⟩
    have hb : ∀ k : ℕ, k < 48 → m' (14 + 2 * k) = 0 := by
      intro k hk
      rw [hsame _ (by omega)]
      exact h₀ _ (by omega)
    exact ⟨hg.congr (hsame 2 (by omega)) (hsame 3 (by omega)), h₆, hlt, fun k hk => ⟨hb k hk, trivial⟩,
      fun _ _ h => by cases h⟩
  | .queue maxDepth, _ => by
    refine ⟨show (110 : ℤ) ≤ 164 + 3 * 4 by decide, ?_⟩
    rw [Setup.run, Wp, wp_bind]
    refine wp_mono ?_ (initQueue_spec hf maxDepth)
    rintro _ w' ⟨-, hI, hext, -⟩
    have hcur := hf.cur_pos
    refine wp_pure.2 ⟨hI.geo, hI.rep.alloc, ?_, fun k hk => hI.rep.bucket k hk, fun _ _ h => by cases h⟩
    show (176 : ℤ) < w'.ext.cur
    rw [hext]
    omega

/-- **The data allocator is the arena.** After either setup of a fresh object, every sequence of
requests that only frees (or writes into) blocks in use is answered, and answered as the arena does;
every block in use then has its true size in its header, and no two of them overlap. -/
theorem allocator_refines_arena (hf : Fresh True w) (s : Setup) (hs : s.Valid w) (rs : List Request)
    (hrs : (Arena.start s.bump).ValidAll rs) :
    Wp True (do s.run; serveAll rs) (fun answers w' =>
      answers = ((Arena.start s.bump).serveAll rs).1.map (Prod.mk Status.ok) ∧
      Shows w' ((Arena.start s.bump).serveAll rs).2 ∧
      (∀ b k, ((Arena.start s.bump).serveAll rs).2.live b = some k → w'.mem b = 2 ^ k) ∧
      ∀ b k c j, ((Arena.start s.bump).serveAll rs).2.live b = some k →
        ((Arena.start s.bump).serveAll rs).2.live c = some j → b ≠ c → b + 2 ^ k ≤ c ∨ c + 2 ^ j ≤ b) w := by
  obtain ⟨hbump, hrun⟩ := Setup.run_spec hf s hs
  rw [Wp, wp_bind]
  refine wp_mono ?_ hrun
  intro _ w' hS
  refine wp_mono ?_ (hS.serveAll (Arena.start_wf hbump) rs hrs)
  rintro answers w'' ⟨hans, hS', hA'⟩
  exact ⟨hans, hS', hS'.header, fun b k c j hb hc hne => hA'.live_disjoint hb hc hne⟩

/-- Two blocks are allocated, the first one is freed and serves a smaller request. -/
theorem allocator_refines_arena_reuse :
    Wp True (do (Setup.queue 4).run; serveAll [.alloc 16, .alloc 4, .free 176, .alloc 4]) (fun answers _ =>
      answers = [(.ok, 176), (.ok, 192), (.ok, 0), (.ok, 176)]) World.fresh := by
  have h₂ : Nat.clog 2 4 = 2 := Nat.clog_pow 2 2 (by decide)
  have h₄ : Nat.clog 2 16 = 4 := Nat.clog_pow 2 4 (by decide)
  refine wp_mono ?_ (allocator_refines_arena World.fresh_fresh (.queue 4) trivial
    [.alloc 16, .alloc 4, .free 176, .alloc 4] ?_)
  · rintro answers _ ⟨rfl, -⟩
    simp [Arena.serveAll, Arena.serve, Arena.alloc, Arena.pick, Arena.start, Arena.carve, Arena.take, Arena.release,
      Setup.bump, h₂, h₄, Function.update_apply]
  · simp [Arena.ValidAll, Arena.Valid, Arena.serve, Arena.alloc, Arena.pick, Arena.start, Arena.carve, Arena.take,
      Arena.release, Setup.bump, h₂, h₄, Function.update_apply]

end

end LibShr
