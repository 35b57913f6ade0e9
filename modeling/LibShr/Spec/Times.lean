import LibShr.Spec.Expire

/-!
# Times in nanoseconds

A `struct timespec` stands for a number of nanoseconds. The macros of `shared.h` calculate with the
two fields one by one, which comes to the same as long as the nanoseconds stay below a second.
-/

namespace LibShr

namespace Timespec

/-- The time in nanoseconds. -/
def nanos (t : Timespec) : ℤ := t.sec * 1000000000 + t.nsec

/-- The nanoseconds are less than a second. -/
structure Normal (t : Timespec) : Prop where
  nonneg : 0 ≤ t.nsec
  lt : t.nsec < 1000000000

instance (t : Timespec) : Decidable t.Normal :=
  decidable_of_iff (0 ≤ t.nsec ∧ t.nsec < 1000000000) ⟨fun h => ⟨h.1, h.2⟩, fun h => ⟨h.nonneg, h.lt⟩⟩

variable {a b t now stamp : Timespec}

/-- A difference of two times is exact and normal. -/
theorem Normal.sub (ha : a.Normal) (hb : b.Normal) : (timespecsub a b).Normal ∧ (timespecsub a b).nanos = a.nanos - b.nanos := by
  obtain ⟨ha₀, ha₁⟩ := ha
  obtain ⟨hb₀, hb₁⟩ := hb
  unfold timespecsub nanos
  dsimp only
  split
  · refine ⟨⟨?_, ?_⟩, ?_⟩ <;> dsimp only <;> omega
  · refine ⟨⟨?_, ?_⟩, ?_⟩ <;> dsimp only <;> omega

/-- A sum of two times is normal. -/
theorem Normal.add (ha : a.Normal) (hb : b.Normal) : (timespecadd a b).Normal := by
  obtain ⟨ha₀, ha₁⟩ := ha
  obtain ⟨hb₀, hb₁⟩ := hb
  unfold timespecadd
  dsimp only
  split
  · constructor <;> dsimp only <;> omega
  · constructor <;> dsimp only <;> omega

/-- Two normal times are compared field by field. -/
theorem Normal.gt_iff (ha : a.Normal) (hb : b.Normal) : timespecgt a b = true ↔ b.nanos < a.nanos := by
  obtain ⟨ha₀, ha₁⟩ := ha
  obtain ⟨hb₀, hb₁⟩ := hb
  unfold timespecgt nanos
  split
  · rw [decide_eq_true_iff]
    omega
  · rw [decide_eq_true_iff]
    omega

/-- Against a limit of more than a second's nanoseconds the comparison goes wrong exactly if the time
lies more than the limit's seconds, and not more than the whole limit. -/
theorem Normal.gt_iff_nanos (ha : a.Normal) (ht : 0 ≤ t.nsec) :
    (timespecgt a t = true ↔ t.nanos < a.nanos) ↔ ¬((t.sec + 1) * 1000000000 ≤ a.nanos ∧ a.nanos ≤ t.nanos) := by
  obtain ⟨ha₀, ha₁⟩ := ha
  unfold timespecgt nanos
  split
  · rw [decide_eq_true_iff]
    omega
  · rw [decide_eq_true_iff]
    omega

theorem Normal.zero_iff (ht : t.Normal) : t.sec = 0 ∧ t.nsec = 0 ↔ t.nanos = 0 := by
  obtain ⟨ht₀, ht₁⟩ := ht
  unfold nanos
  omega

/-- Normal times are the same if their nanoseconds are. -/
theorem Normal.inj (ha : a.Normal) (hb : b.Normal) (h : a.nanos = b.nanos) : a = b := by
  obtain ⟨ha₀, ha₁⟩ := ha
  obtain ⟨hb₀, hb₁⟩ := hb
  obtain ⟨asec, ansec⟩ := a
  obtain ⟨bsec, bnsec⟩ := b
  unfold nanos at h
  dsimp only at *
  rw [Timespec.mk.injEq]
  omega

/-- The age is compared with the limit, which is none if it is 0. -/
theorem olderThan_iff (ht : t.Normal) (hn : now.Normal) (hs : stamp.Normal) :
    olderThan t now stamp = true ↔ t.nanos ≠ 0 ∧ t.nanos < now.nanos - stamp.nanos := by
  obtain ⟨hd, hdn⟩ := hn.sub hs
  unfold olderThan
  split
  · next h => simp [ht.zero_iff.1 h]
  · next h => rw [hd.gt_iff ht, hdn, and_iff_right fun hz => h (ht.zero_iff.2 hz)]

end Timespec

namespace Header

variable {h : Header} {found : Option Timespec} {last : Bool} {now stamp : Timespec}

/-- The age in nanoseconds an item may have at `now`, if the queue was last found empty at the time
`found`: the target where both times are set, other items remain, and the queue has not been empty for
longer than the limit; the limit otherwise. -/
def maxAge (h : Header) (found : Option Timespec) (last : Bool) (now : Timespec) : ℤ :=
  if h.target.nanos ≠ 0 ∧ h.limit.nanos ≠ 0 ∧ last = false ∧ (found.any fun t => h.limit.nanos < now.nanos - t.nanos) = true then h.target.nanos
  else h.limit.nanos

theorem codel_iff (hl : h.limit.Normal) (ht : h.target.Normal) : h.codel = true ↔ h.target.nanos ≠ 0 ∧ h.limit.nanos ≠ 0 := by
  have hzero : h.codel = true ↔ ¬(h.target.sec = 0 ∧ h.target.nsec = 0) ∧ ¬(h.limit.sec = 0 ∧ h.limit.nsec = 0) := by
    unfold codel
    simp only [Bool.and_eq_true, Bool.or_eq_true, decide_eq_true_eq, ne_eq, not_and_or]
  rw [hzero, ht.zero_iff, hl.zero_iff]

/-- The header tells when the queue was last found empty, or that other items do not matter. -/
theorem ageLimit_nanos (hl : h.limit.Normal) (ht : h.target.Normal) (hn : now.Normal) (he : h.empty.Normal) (hsec : 0 < h.empty.sec)
    (hf : found = some h.empty) : (h.ageLimit last now).Normal ∧ (h.ageLimit last now).nanos = h.maxAge found last now := by
  obtain ⟨hd, hdn⟩ := hn.sub hl
  have hgt : timespecgt (timespecsub now h.limit) h.empty = true ↔ h.limit.nanos < now.nanos - h.empty.nanos := by
    rw [hd.gt_iff he, hdn]
    omega
  have hcond : (!last && h.codel && h.empty.sec ≠ 0 && timespecgt (timespecsub now h.limit) h.empty) = true ↔
      h.target.nanos ≠ 0 ∧ h.limit.nanos ≠ 0 ∧ last = false ∧ (found.any fun t => h.limit.nanos < now.nanos - t.nanos) = true := by
    rw [hf, Option.any_some, decide_eq_true_iff, ← hgt, Bool.and_eq_true_iff, Bool.and_eq_true_iff, Bool.and_eq_true_iff, codel_iff hl ht,
      Bool.not_eq_true', decide_eq_true_iff]
    constructor
    · rintro ⟨⟨⟨h₁, h₂, h₃⟩, -⟩, h₄⟩
      exact ⟨h₂, h₃, h₁, h₄⟩
    · rintro ⟨h₂, h₃, h₁, h₄⟩
      exact ⟨⟨⟨h₁, h₂, h₃⟩, hsec.ne'⟩, h₄⟩
  unfold ageLimit maxAge
  by_cases hc : (!last && h.codel && h.empty.sec ≠ 0 && timespecgt (timespecsub now h.limit) h.empty) = true
  · rw [if_pos hc, if_pos (hcond.1 hc)]
    exact ⟨ht, rfl⟩
  · rw [if_neg hc, if_neg fun h => hc (hcond.2 h)]
    exact ⟨hl, rfl⟩

/-- **An item is dropped if its age exceeds what it may be**, unless that is 0. -/
theorem expires_iff (hd : Int.land h.flags FLAG_DISCARD_EXPIRED ≠ 0) (hl : h.limit.Normal) (ht : h.target.Normal) (hn : now.Normal)
    (hs : stamp.Normal) (he : h.empty.Normal) (hsec : 0 < h.empty.sec) (hf : found = some h.empty) :
    h.expires last now stamp = true ↔ h.maxAge found last now ≠ 0 ∧ h.maxAge found last now < now.nanos - stamp.nanos := by
  obtain ⟨hnorm, hage⟩ : (h.ageLimit last now).Normal ∧ (h.ageLimit last now).nanos = h.maxAge found last now :=
    ageLimit_nanos hl ht hn he hsec hf
  unfold expires
  rw [Bool.and_eq_true_iff, decide_eq_true_iff, and_iff_right hd, Timespec.olderThan_iff hnorm hn hs, hage]

end Header

end LibShr
