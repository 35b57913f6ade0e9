import Mathlib.Data.List.Nodup
import Mathlib.Data.Int.Notation

/-!
# Linked structures in a flat memory

A memory is a function on addresses. `Links m z l` says that the elements of `l` are chained through
the word they start with, the last one leading to `z`. `StackAt` is a stack below a top word, ended
by 0; `QueueAt` is a queue between a head word and a tail word whose last element points to itself
and carries, in its second word, the stamp found beside the tail word. `Numbered` is what the stamps
of the elements say of where they lead.
-/

namespace Links

/-- The elements of `l` are chained, the last one leads to `z`. -/
def Linked (m : ℤ → ℤ) (z : ℤ) : List ℤ → Prop
  | [] => True
  | x :: l => m x = l.headD z ∧ Linked m z l

/-- The stack `l` below the top word `top`. -/
def StackAt (m : ℤ → ℤ) (top : ℤ) (l : List ℤ) : Prop :=
  m top = l.headD 0 ∧ Linked m 0 l

/-- The queue `l` between the words `hd` and `tl`. -/
structure QueueAt (m : ℤ → ℤ) (hd tl : ℤ) (l : List ℤ) : Prop where
  head : m hd = l.headD 0
  last : l.getLast? = some (m tl)
  linked : Linked m (m tl) l
  stamp : m (m tl + 1) = m (tl + 1)

variable {m m' : ℤ → ℤ} {z x y top hd tl s : ℤ} {l : List ℤ}

theorem Linked.congr : ∀ {l : List ℤ}, Linked m z l → (∀ x ∈ l, m' x = m x) → Linked m' z l
  | [], _, _ => trivial
  | x :: l, h, hm => by
    refine ⟨(hm x (by simp)).trans h.1, h.2.congr fun y hy => hm y (by simp [hy])⟩

theorem linked_append : ∀ {l l' : List ℤ},
    Linked m z (l ++ l') ↔ Linked m (l'.headD z) l ∧ Linked m z l'
  | [], l' => by simp [Linked]
  | [x], l' => by simp [Linked]
  | x :: y :: l, l' => by
    have ih : Linked m z ((y :: l) ++ l') ↔ Linked m (l'.headD z) (y :: l) ∧ Linked m z l' :=
      linked_append
    simp only [List.cons_append, Linked, List.headD_cons] at ih ⊢
    rw [and_assoc, ← ih]

/-- An element leads to the next one. -/
theorem Linked.next : ∀ {l : List ℤ} {k : ℕ}, Linked m z l → l[k]? = some x → l[k + 1]? = some y → m x = y
  | [], _, _, hx, _ => by cases hx
  | [_], k, _, _, hy => by simp at hy
  | a :: b :: l, 0, h, hx, hy => by
    obtain rfl := Option.some.inj hx
    obtain rfl := Option.some.inj hy
    exact h.1
  | _ :: b :: l, k + 1, h, hx, hy => Linked.next (l := b :: l) h.2 hx hy

/-- What a chained element leads to is further down the chain, unless it is the end. -/
theorem Linked.next_mem : ∀ {l : List ℤ} {x y : ℤ}, Linked m z (y :: l) → x ∈ y :: l → m x ≠ z → m x ∈ l
  | [], x, y, h, hx, hne => by
    rw [List.mem_singleton.1 hx] at hne
    exact absurd h.1 hne
  | a :: l, x, y, h, hx, hne => by
    rcases List.mem_cons.1 hx with rfl | hx
    · rw [h.1]
      exact List.mem_cons_self
    · exact List.mem_cons_of_mem _ (h.2.next_mem hx hne)

/-- The element that leads to the end is the last one. -/
theorem Linked.eq_append : ∀ {l : List ℤ} {x : ℤ}, Linked m z l → (∀ y ∈ l, y ≠ z) → x ∈ l → m x = z →
    ∃ pre, l = pre ++ [x]
  | [], _, _, _, hx, _ => by cases hx
  | [y], x, _, _, hx, _ => ⟨[], by rw [List.mem_singleton.1 hx]; rfl⟩
  | y :: a :: l, x, h, hz, hx, he => by
    rcases List.mem_cons.1 hx with rfl | hx
    · exact absurd (h.1.symm.trans he) (hz a (by simp))
    · obtain ⟨pre, hpre⟩ := h.2.eq_append (fun w hw => hz w (by simp [hw])) hx he
      exact ⟨y :: pre, by rw [hpre]; rfl⟩

theorem StackAt.congr (h : StackAt m top l) (ht : m' top = m top) (hl : ∀ x ∈ l, m' x = m x) :
    StackAt m' top l :=
  ⟨ht.trans h.1, h.2.congr hl⟩

/-- Pushing `s`: its first word takes the old top, the top word takes `s`. -/
theorem StackAt.push (h : StackAt m top l) (ht : m' top = s) (hs : m' s = m top)
    (hl : ∀ x ∈ l, m' x = m x) : StackAt m' top (s :: l) :=
  ⟨ht, hs.trans h.1, h.2.congr hl⟩

/-- Popping `x`: the top word takes what its first word holds. -/
theorem StackAt.pop (h : StackAt m top (x :: l)) (ht : m' top = m x) (hl : ∀ y ∈ l, m' y = m y) :
    StackAt m' top l :=
  ⟨ht.trans h.2.1, h.2.2.congr hl⟩

theorem StackAt.top_eq_zero (h : StackAt m top l) (h₀ : ∀ x ∈ l, x ≠ 0) : m top = 0 ↔ l = [] := by
  cases l with
  | nil => simp [h.1]
  | cons x l => simpa [h.1] using h₀ x (by simp)

namespace QueueAt

theorem ne_nil (h : QueueAt m hd tl l) : l ≠ [] := by
  rintro rfl
  simpa using h.last

theorem tail_mem (h : QueueAt m hd tl l) : m tl ∈ l := List.mem_of_getLast? h.last

theorem eq_append (h : QueueAt m hd tl l) : ∃ pre, l = pre ++ [m tl] :=
  List.getLast?_eq_some_iff.1 h.last

/-- The last element points to itself. -/
theorem self (h : QueueAt m hd tl l) : m (m tl) = m tl := by
  obtain ⟨pre, hl⟩ := h.eq_append
  have hlk := h.linked
  rw [hl, linked_append] at hlk
  exact hlk.2.1

theorem congr (h : QueueAt m hd tl l) (hh : m' hd = m hd) (ht : m' tl = m tl)
    (ht' : m' (tl + 1) = m (tl + 1)) (hl : ∀ x ∈ l, m' x = m x ∧ m' (x + 1) = m (x + 1)) :
    QueueAt m' hd tl l where
  head := hh.trans h.head
  last := ht ▸ h.last
  linked := by rw [ht]; exact h.linked.congr fun x hx => (hl x hx).1
  stamp := by rw [ht, ht', (hl _ h.tail_mem).2, h.stamp]

/-- Elements lead to elements. -/
theorem next_mem (h : QueueAt m hd tl l) (hx : x ∈ l) : m x ∈ l := by
  by_cases he : m x = m tl
  · rw [he]
    exact h.tail_mem
  · cases l with
    | nil => cases hx
    | cons y l => exact List.mem_cons_of_mem _ (h.linked.next_mem hx he)

/-- Appending `s` behind the last element. -/
theorem push (h : QueueAt m hd tl l) (hn : l.Nodup) (hh : m' hd = m hd) (ht : m' tl = s)
    (ht' : m' (tl + 1) = m' (s + 1)) (hs : m' s = s) (hlast : m' (m tl) = s)
    (hl : ∀ x ∈ l, x ≠ m tl → m' x = m x) : QueueAt m' hd tl (l ++ [s]) where
  head := by
    rw [hh, h.head]
    cases l with
    | nil => exact absurd rfl h.ne_nil
    | cons x l => rfl
  last := by simp [ht]
  linked := by
    obtain ⟨pre, hpre⟩ := h.eq_append
    have hlk := h.linked
    rw [hpre, linked_append] at hlk
    rw [hpre, linked_append, linked_append, ht]
    rw [hpre, List.nodup_append] at hn
    refine ⟨⟨hlk.1.congr fun x hx => ?_, hlast, trivial⟩, hs, trivial⟩
    exact hl x (by rw [hpre]; simp [hx]) (hn.2.2 x hx _ (by simp))
  stamp := by rw [ht, ht']

/-- Unlinking the front element; its successor becomes the front. -/
theorem pop (h : QueueAt m hd tl (x :: y :: l)) (hh : m' hd = m x) (ht : m' tl = m tl)
    (ht' : m' (tl + 1) = m (tl + 1)) (hl : ∀ z ∈ y :: l, m' z = m z ∧ m' (z + 1) = m (z + 1)) :
    QueueAt m' hd tl (y :: l) where
  head := hh.trans h.linked.1
  last := by rw [ht, ← h.last]; simp
  linked := by rw [ht]; exact h.linked.2.congr fun z hz => (hl z hz).1
  stamp := by
    have hm : m tl ∈ y :: l := List.mem_of_getLast? (by rw [← h.last]; simp)
    rw [ht, ht', (hl _ hm).2, h.stamp]

/-- The queue holds a single element exactly if its two words agree. -/
theorem head_eq_tail (h : QueueAt m hd tl l) (hn : l.Nodup) : m hd = m tl ↔ ∃ x, l = [x] := by
  have hlast := h.last
  have hhead := h.head
  match l, hlast, hhead, hn with
  | [], hlast, _, _ => simp at hlast
  | [x], hlast, hhead, _ =>
    simp only [List.getLast?_singleton, Option.some.injEq, List.headD_cons] at hlast hhead
    simp [← hlast, hhead]
  | x :: y :: l, hlast, hhead, hn =>
    have hm : m tl ∈ y :: l := List.mem_of_getLast? (by rw [← hlast]; simp)
    have hne : x ≠ m tl := fun he => (List.nodup_cons.1 hn).1 (he ▸ hm)
    simp [hhead, hne]

end QueueAt

/-! ## Stamps -/

/-- The stamps of the elements `S` were given out, they are below `c`, and elements with the same stamp, and no others, lead to
the same element. -/
structure Numbered (m : ℤ → ℤ) (c : ℤ) (S : ℤ → Prop) : Prop where
  given : ∀ x, S x → 0 ≤ m (x + 1) ∧ m (x + 1) < c
  leads : ∀ x y, S x → S y → (m x = m y ↔ m (x + 1) = m (y + 1))

namespace Numbered

variable {c c' t : ℤ} {S S' : ℤ → Prop}

/-- Elements are left out, the others keep their words. -/
theorem congr (h : Numbered m c S) (hc : c ≤ c') (hS : ∀ x, S' x → S x ∧ m' x = m x ∧ m' (x + 1) = m (x + 1)) :
    Numbered m' c' S' := by
  refine ⟨fun x hx => ?_, fun x y hx hy => ?_⟩
  · obtain ⟨hx, -, hst⟩ := hS x hx
    have := h.given x hx
    omega
  · obtain ⟨hx, hnx, hsx⟩ := hS x hx
    obtain ⟨hy, hny, hsy⟩ := hS y hy
    rw [hnx, hsx, hny, hsy]
    exact h.leads x y hx hy

/-- `s` is appended behind `t` with the next stamp. -/
theorem push (h : Numbered m c S) (hc : c < c') (ht : S t) (hne : ∀ x, S x → m x ≠ s) (hS : ∀ x, S' x → x = s ∨ S x)
    (hs : m' s = s) (hst : m' (s + 1) = c) (hlast : m' t = s) (hlast' : m' (t + 1) = c)
    (hl : ∀ x, S x → x ≠ t → m' x = m x ∧ m' (x + 1) = m (x + 1)) : Numbered m' c' S' := by
  have h₀ := h.given t ht
  have hcases : ∀ x, S' x → (m' x = s ∧ m' (x + 1) = c) ∨ (S x ∧ m' x = m x ∧ m' (x + 1) = m (x + 1)) := by
    intro x hx
    by_cases hxt : x = t
    · exact .inl (hxt ▸ ⟨hlast, hlast'⟩)
    · rcases hS x hx with rfl | hx
      · exact .inl ⟨hs, hst⟩
      · exact .inr ⟨hx, hl x hx hxt⟩
  -- an old stamp is below the new one, and an old link does not lead to the new element
  have hold : ∀ x, S x → m x ≠ s ∧ m (x + 1) < c := fun x hx => ⟨hne x hx, (h.given x hx).2⟩
  refine ⟨fun x hx => ?_, fun x y hx hy => ?_⟩
  · rcases hcases x hx with ⟨-, hst⟩ | ⟨hx, -, hst⟩
    · omega
    · have := h.given x hx
      omega
  · rcases hcases x hx with ⟨hnx, hsx⟩ | ⟨hx, hnx, hsx⟩ <;> rcases hcases y hy with ⟨hny, hsy⟩ | ⟨hy, hny, hsy⟩ <;>
      rw [hnx, hsx, hny, hsy]
    · exact iff_of_true rfl rfl
    · exact iff_of_false (hold y hy).1.symm (Int.ne_of_lt (hold y hy).2).symm
    · exact iff_of_false (hold x hx).1 (Int.ne_of_lt (hold x hx).2)
    · exact h.leads x y hx hy

end Numbered

/-! ## Walking along a chain -/

/-- The elements from `x` on of a stack, at most `n`. -/
def downFrom (m : ℤ → ℤ) : ℕ → ℤ → List ℤ
  | 0, _ => []
  | n + 1, x => if x = 0 then [] else x :: downFrom m n (m x)

/-- The elements behind `x` of a chain that ends in `z`, at most `n`. -/
def behind (m : ℤ → ℤ) (z : ℤ) : ℕ → ℤ → List ℤ
  | 0, _ => []
  | n + 1, x => if x = z then [] else m x :: behind m z n (m x)

theorem StackAt.downFrom : ∀ {l : List ℤ} {n : ℕ} {top : ℤ}, StackAt m top l → (∀ x ∈ l, x ≠ 0) → l.length ≤ n →
    downFrom m n (m top) = l
  | [], 0, _, _, _, _ => rfl
  | [], n + 1, _, h, _, _ => by
    rw [h.1]
    rfl
  | x :: l, n + 1, _, h, hne, hn => by
    have hx : ¬x = 0 := hne x (by simp)
    have ih : Links.downFrom m n (m x) = l :=
      StackAt.downFrom h.2 (fun y hy => hne y (by simp [hy])) (Nat.le_of_succ_le_succ hn)
    rw [h.1, List.headD_cons, Links.downFrom, if_neg hx, ih]

theorem Linked.behind : ∀ {l : List ℤ} {n : ℕ} {d : ℤ}, Linked m z (d :: l) → (d :: l).getLast? = some z → (d :: l).Nodup →
    l.length ≤ n → behind m z n d = l
  | [], 0, _, _, _, _, _ => rfl
  | [], n + 1, d, _, hlast, _, _ => by
    have hd : d = z := by simpa using hlast
    rw [Links.behind, if_pos hd]
  | x :: l, n + 1, d, h, hlast, hnd, hn => by
    rw [List.getLast?_cons_cons] at hlast
    have hd : ¬d = z := fun hd => (List.nodup_cons.1 hnd).1 (hd ▸ List.mem_of_getLast? hlast)
    have hx : m d = x := h.1
    have ih : Links.behind m z n x = l :=
      Linked.behind h.2 hlast (List.nodup_cons.1 hnd).2 (Nat.le_of_succ_le_succ hn)
    rw [Links.behind, if_neg hd, hx, ih]

/-- All but the front element of a queue. -/
theorem QueueAt.behind {n : ℕ} {d : ℤ} (h : QueueAt m hd tl (d :: l)) (hn : (d :: l).Nodup) (hlen : l.length ≤ n) :
    behind m (m tl) n (m hd) = l := by
  rw [h.head]
  exact h.linked.behind h.last hn hlen

end Links
