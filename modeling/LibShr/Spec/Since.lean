import LibShr.Spec.Counts
import LibShr.Spec.Times

/-!
# Since when the queue has not been empty

An add that finds the queue empty notes the time in the header, unless a later one is there already. A
removal of the last item may clear it; every other call leaves it alone. So while items remain it says
when the queue was last found empty.
-/

namespace LibShr

/-- What is known of the time from outside: the last reading of the clock, and that of the last add that
found the queue empty. -/
structure Watch where
  now : Timespec
  found : Option Timespec

/-- The clock stands still at `now`, and has not gone back since `before`. -/
structure Steady (before : Timespec) (clock : ℕ → Timespec) (now : Timespec) : Prop where
  still : ∀ i, clock i = now
  normal : now.Normal
  sec : 0 < now.sec
  le : before.nanos ≤ now.nanos

/-- The time the header shows once an item was added at `now`. -/
def Header.foundEmpty (h : Header) (now : Timespec) : Timespec :=
  if h.count = 0 ∧ timespecgt now h.empty = true then now else h.empty

namespace Queue

variable {Q Q' Q₁ : Queue} {it : Item} {q : Option ShrQ} {g : Gate} {c : Call} {a : Answer} {δ : Delta} {t : Timespec}

/-- The clock stands still at `t`. -/
def Stopped (Q : Queue) (t : Timespec) : Prop := ∀ i, Q.clock i = t

theorem Change.stopped (h : Change Q Q' δ) (hs : Q.Stopped t) : Q'.Stopped t := by
  obtain ⟨k, hk⟩ := h.clock
  intro i
  rw [hk]
  exact hs _

/-! ## Adding -/

theorem pass_hdr {s : Sem} {b : Bool} (h : Q.pass s g = some (b, Q₁)) : Q₁.hdr = Q.hdr := by
  cases g <;> rw [pass] at h <;> split at h <;> cases h <;> rfl

theorem activate_empty : Q.activate.hdr.empty = Q.hdr.empty := by
  unfold activate
  split
  · show ((Q.setFlag FLAG_ACTIVATED).raise True .init).hdr.empty = _
    rw [empty_raise]
    unfold setFlag
    split <;> rfl
  · rfl

theorem link_clock : (Q.link it).clock = Q.clock := by
  unfold link
  split <;> rfl

/-- Queueing an item notes the time if there was no other. -/
theorem enqData_empty : (Q.enqData it).hdr.empty = Q.hdr.foundEmpty Q.now := by
  set Q₁ := (Q.link it).setHdr { Q.hdr with count := Q.hdr.count + 1 } with hQ₁
  have hnow : Q₁.now = Q.now := congrFun link_clock 0
  have hpost : (Q.enqData it).hdr.empty = (if Q.hdr.count = 0 then Q₁.updateEmpty else Q₁).hdr.empty := by
    unfold enqData postEnq
    dsimp only
    rw [empty_raise, empty_raise, activate_empty]
  rw [hpost, Header.foundEmpty]
  by_cases hc : Q.hdr.count = 0
  · rw [if_pos hc, updateEmpty, hnow]
    by_cases hgt : timespecgt Q.now Q.hdr.empty = true
    · have hgt₁ : timespecgt Q.now Q₁.hdr.empty = true := hgt
      rw [if_pos hgt₁, if_pos (And.intro hc hgt)]
      rfl
    · have hgt₁ : ¬timespecgt Q.now Q₁.hdr.empty = true := hgt
      rw [if_neg hgt₁, if_neg fun h => hgt h.2]
      rfl
  · rw [if_neg hc, if_neg fun h => hc h.1]
    rfl

/-- `r` is the outcome of an add at `t`, as far as the time in the header is concerned. -/
def Notes (Q : Queue) (t : Timespec) (r : Status × Queue) : Prop :=
  r.2.hdr.empty = if r.1 = .ok then Q.hdr.foundEmpty t else Q.hdr.empty

/-- Copying an item in leaves the time alone. -/
theorem copyIn_empty {n : ℕ} {v : ℤ} {fill : (ℤ → ℤ) → Timespec → ℤ → ℤ → ℤ} {p : Payload} :
    (Q.copyIn n v fill p).2.hdr.empty = Q.hdr.empty := by
  unfold copyIn takeBlock
  dsimp only
  split <;> rfl

theorem copyIn_notes {n : ℕ} {v : ℤ} {fill : (ℤ → ℤ) → Timespec → ℤ → ℤ → ℤ} {p : Payload} (hs : Q.Stopped t) :
    Q.Notes t (.ok, (Q.copyIn n v fill p).2.enqData (Q.copyIn n v fill p).1) := by
  have hch : Change Q (Q.copyIn n v fill p).2 {} := copyIn_change
  have hnow : (Q.copyIn n v fill p).2.now = t := hch.stopped hs 0
  unfold Notes
  rw [if_pos rfl, enqData_empty, Header.foundEmpty, Header.foundEmpty, hch.count, copyIn_empty, add_zero, hnow]

theorem enq_notes {value : Option (List UInt8)} {length type : ℤ} (hs : Q.Stopped t) : Q.Notes t (Q.enq value length type) := by
  cases value with
  | none => rfl
  | some value =>
    rw [enq]
    split
    · rfl
    · exact copyIn_notes hs

theorem enqv_notes {vs : List SqVec} (hs : Q.Stopped t) : Q.Notes t (Q.enqv vs) := by
  rw [enqv]
  split
  · rfl
  · dsimp only
    split
    · show (Q.copyVector vs).2.hdr.empty = Q.hdr.empty
      unfold copyVector
      exact copyIn_empty
    · exact copyIn_notes hs

theorem enqVector_notes {vs : List SqVec} (hs : Q.Stopped t) : Q.Notes t (Q.enqVector vs) := by
  match vs with
  | [] => exact enqv_notes hs
  | [v] => exact enq_notes hs
  | v :: v' :: vs => exact enqv_notes hs

/-- The gates do not touch it. -/
theorem add_notes {enqueue : Queue → Status × Queue} {r : Status × Queue} (h : Q.add g enqueue = some r) (hs : Q.Stopped t)
    (hq : ∀ Q, Q.Stopped t → Notes Q t (enqueue Q)) : Q.Notes t r := by
  obtain ⟨⟨b, Q₁⟩, hp, rfl⟩ := Option.map_eq_some_iff.1 h
  have hhdr := pass_hdr hp
  cases b with
  | false =>
    show Q₁.hdr.empty = _
    rw [hhdr]
    rfl
  | true =>
    have h₁ := hq Q₁ ((pass_change hp (by decide)).stopped hs)
    unfold Notes at h₁ ⊢
    rw [hhdr] at h₁
    simp only [if_true, added]
    split at h₁
    · next hok =>
      rw [if_pos hok, if_pos rfl, checkLevel, empty_raise]
      exact h₁
    · next hno =>
      rw [if_neg hno, if_neg hno]
      exact h₁

theorem addCall_notes {ok : Bool} {enqueue : Queue → Status × Queue} {st : Status} (h : Q.addCall q g ok enqueue = some (.status st, Q'))
    (hs : Q.Stopped t) (hq : ∀ Q, Q.Stopped t → Notes Q t (enqueue Q)) : Q.Notes t (st, Q') := by
  unfold addCall at h
  cases q with
  | none => cases h; rfl
  | some q =>
    dsimp only at h
    split at h
    · cases h
      rfl
    · split at h
      · obtain ⟨r, hr, he⟩ := Option.map_eq_some_iff.1 h
        cases he
        exact add_notes hr hs hq
      · cases h
        rfl

theorem step_notes {n v : ℕ} {st : Status} (hc : c.request = some (n, v)) (hs : Q.Stopped t) (h : Q.step q c = some (.status st, Q')) :
    Q.Notes t (st, Q') := by
  cases c with
  | add g value length => exact addCall_notes h hs fun _ => enq_notes
  | addv g vector => exact addCall_notes h hs fun _ => enqVector_notes
  | _ => cases hc

/-! ## Removing -/

/-- The time is left alone, or cleared where no item is left. -/
def Clears (Q Q' : Queue) : Prop := Q'.hdr.empty = Q.hdr.empty ∨ Q'.items = [] ∧ Q'.hdr.empty = ⟨0, 0⟩

theorem Clears.trans (h : Clears Q Q₁) (h' : Clears Q₁ Q') (hmem : ∀ it ∈ Q'.items, it ∈ Q₁.items) : Clears Q Q' := by
  rcases h' with h' | h'
  · rcases h with h | ⟨hnil, hz⟩
    · exact .inl (h'.trans h)
    · refine .inr ⟨List.eq_nil_iff_forall_not_mem.2 fun it hit => ?_, h'.trans hz⟩
      have := hmem it hit
      rw [hnil] at this
      exact absurd this List.not_mem_nil
  · exact .inr h'

theorem clearEmpty_empty : Q.clearEmpty.hdr.empty = Q.hdr.empty ∨ Q.clearEmpty.hdr.empty = ⟨0, 0⟩ := by
  unfold clearEmpty
  split
  · exact .inr rfl
  · exact .inl rfl

theorem postDeq_clears (hc : Q.hdr.count = 1 → Q.items = []) : Clears Q (Q.postDeq it).2 := by
  by_cases h₁ : Q.hdr.count = 1
  · set Q₁ := Q.setHdr { Q.hdr with count := Q.hdr.count - 1 } with hQ₁
    have hpost : (Q.postDeq it).2.hdr.empty = Q₁.clearEmpty.hdr.empty := by
      show (((Queue.expired (if Q.hdr.count = 1 then Q₁.clearEmpty else Q₁) it).2.raise _ .empty).raise _ .time).hdr.empty = _
      rw [empty_raise, empty_raise, expired_hdr, if_pos h₁]
    unfold Clears
    rw [hpost, items_postDeq]
    exact clearEmpty_empty.imp_right fun hz => ⟨hc h₁, hz⟩
  · exact .inl (postDeq_empty h₁)

/-- A removal clears it at most when it takes the last item, by induction on the attempts that are left. -/
theorem removeLoop_clears {n : ℕ} {u : UserBuffer} {r : Option Item × UserBuffer × Queue} (h : Q.removeLoop g n u = some r)
    (hc : Q.hdr.count = Q.items.length) : Clears Q r.2.2 ∧ ∀ it ∈ r.2.2.items, it ∈ Q.items := by
  induction n generalizing Q u with
  | zero => cases h
  | succ n ih =>
    rw [removeLoop] at h
    split at h
    · cases h
    · next Q₁ hp =>
      cases h
      rw [items_pass hp]
      exact ⟨.inl (congrArg Header.empty (pass_hdr hp)), fun _ hit => hit⟩
    · next Q₁ hp =>
      have hempty : Q₁.hdr.empty = Q.hdr.empty := congrArg Header.empty (pass_hdr hp)
      cases ht : Q₁.takeItem with
      | none =>
        simp only [ht, Option.some.injEq] at h
        subst h
        refine ⟨.inl hempty, fun it hit => ?_⟩
        rw [← items_pass hp]
        exact hit
      | some p =>
        obtain ⟨it, Q₂⟩ := p
        obtain ⟨hh₂, -⟩ := taken_change ht
        have hitems : Q.items = it :: Q₂.items := (items_pass hp).symm.trans (items_takeItem ht)
        have hcount : Q₂.hdr.count = Q₂.items.length + 1 := by
          rw [hh₂, pass_hdr hp, hc, hitems, List.length_cons]
          push_cast
          rfl
        have hone : Clears Q ((Q₂.postDeq it).2.up .enq) := by
          have h₂ : Clears Q₂ (Q₂.postDeq it).2 := postDeq_clears fun h₁ => List.length_eq_zero_iff.1 (by omega)
          unfold Clears at h₂ ⊢
          rwa [hh₂, hempty] at h₂
        have hmem : ∀ it' ∈ ((Q₂.postDeq it).2.up .enq).items, it' ∈ Q.items := fun it' hit' => by
          rw [items_up, items_postDeq] at hit'
          rw [hitems]
          exact List.mem_cons_of_mem _ hit'
        simp only [ht] at h
        split at h
        · -- the item was dropped
          obtain ⟨es, hch, -, -⟩ := postDeq_change ht
          have hlen := hch.len
          have hcnt := hch.count
          obtain ⟨hrest, hmem'⟩ := ih h (by
            show (Q₂.postDeq it).2.hdr.count = (((Q₂.postDeq it).2).items.length : ℤ)
            rw [hcnt, hlen, pass_hdr hp, hc, items_pass hp])
          exact ⟨hone.trans hrest hmem', fun it' hit' => hmem it' (hmem' it' hit')⟩
        · cases h
          exact ⟨hone, hmem⟩

theorem cleanLoop_empty {t : Timespec} {n : ℕ} : (Q.cleanLoop t n).hdr.empty = Q.hdr.empty := by
  induction n generalizing Q with
  | zero => rfl
  | succ n ih =>
    rw [cleanLoop]
    split
    · cases Q.fifo with
      | nil => rfl
      | cons it l =>
        dsimp only
        split
        · rw [ih]
          rfl
        · rfl
    · rfl

/-! ## Every call -/

/-- **A call that adds an item** notes the time in the header, and in the item. -/
theorem step_adds_since {n v : ℕ} (hc : c.request = some (n, v)) (hs : Q.Stopped t) (h : Q.step q c = some (.status .ok, Q')) :
    Q'.hdr.empty = Q.hdr.foundEmpty t ∧ ∀ it ∈ Q'.items, it ∈ Q.items ∨ it.stamp = t := by
  refine ⟨step_notes hc hs h, fun it hit => ?_⟩
  obtain ⟨st, hst, ⟨-, it', es, hch, hcame, -⟩ | ⟨hno, -⟩⟩ := step_added hc h
  · rcases hch.mem it hit with hnew | hold
    · obtain ⟨i, hi⟩ := hcame.stamp
      rw [List.mem_singleton.1 hnew]
      exact .inr (hi.trans (hs i))
    · exact .inl hold
  · cases hst
    exact absurd rfl hno

/-- **Every other call** leaves the time alone, or clears it as it takes the last item. -/
theorem step_keeps_since (hn : Q.hdr.count = Q.items.length) (hs : Q.Stopped t) (h : Q.step q c = some (a, Q'))
    (hno : c.request.isSome = true → a ≠ .status .ok) : Clears Q Q' ∧ ∀ it ∈ Q'.items, it ∈ Q.items := by
  have hadd : ∀ {n v : ℕ}, c.request = some (n, v) → Clears Q Q' ∧ ∀ it ∈ Q'.items, it ∈ Q.items := fun hc => by
    obtain ⟨st, rfl, ⟨hok, -⟩ | ⟨hok, hch⟩⟩ := step_added hc h
    · exact absurd (congrArg Answer.status hok) (hno (by rw [hc]; rfl))
    · exact ⟨.inl ((step_notes hc hs h).trans (if_neg hok)), fun it hit => (hch.mem it hit).resolve_left List.not_mem_nil⟩
  have hstill : Q'.hdr.empty = Q.hdr.empty → Q'.items = Q.items → Clears Q Q' ∧ ∀ it ∈ Q'.items, it ∈ Q.items := fun he hi =>
    ⟨.inl he, fun it hit => hi ▸ hit⟩
  cases c with
  | add g value length => exact hadd rfl
  | addv g vector => exact hadd rfl
  | remove g u =>
    rcases step_remove h with ⟨-, rfl, -⟩ | ⟨v, r, -, hr, -, rfl⟩
    · exact hstill rfl rfl
    · exact removeLoop_clears hr hn
  | clean time =>
    obtain ⟨k, hch⟩ := step_cleaned h
    refine ⟨.inl ?_, fun it hit => (hch.mem it hit).resolve_left List.not_mem_nil⟩
    rcases step_clean h with ⟨rfl, -⟩ | ⟨q', t', -, -, -, rfl⟩
    · rfl
    · exact cleanLoop_empty
  | event =>
    rcases step_event h with ⟨-, -, rfl⟩ | ⟨-, -, rfl⟩
    · refine hstill ?_ ?_ <;> unfold takeEvent <;> split
      · split <;> rfl
      · rfl
      · split <;> rfl
      · rfl
    · exact hstill rfl rfl
  | prod =>
    rcases step_prod h with ⟨-, -, rfl⟩ | ⟨-, -, rfl⟩
    · exact hstill rfl rfl
    · exact hstill rfl rfl
  | _ =>
    obtain ⟨hd, rfl, -, -, he⟩ := step_resets rfl (by simp) h
    exact hstill he rfl

/-- The header knows when the queue was last found empty. -/
structure Since (Q : Queue) (g : Watch) : Prop where
  nonneg : 0 ≤ g.now.nanos
  normal : Q.hdr.empty.Normal
  past : Q.hdr.empty.nanos ≤ g.now.nanos
  found : Q.items ≠ [] → g.found = some Q.hdr.empty ∧ 0 < Q.hdr.empty.sec
  stamps : ∀ it ∈ Q.items, it.stamp.Normal

/-- An add that finds the queue empty is the last one that did. -/
theorem Since.adds {w : Watch} {n v : ℕ} (hw : Q.Since w) (hn : Q.hdr.count = Q.items.length) (ht : Steady w.now Q.clock t)
    (hc : c.request = some (n, v)) (h : Q.step q c = some (.status .ok, Q')) :
    Q'.Since ⟨t, if Q.hdr.count = 0 then some t else w.found⟩ := by
  obtain ⟨hempty, hitems⟩ := step_adds_since hc ht.still h
  have hstamps : ∀ it ∈ Q'.items, it.stamp.Normal := fun it hit => by
    rcases hitems it hit with hold | hnew
    · exact hw.stamps it hold
    · rw [hnew]
      exact ht.normal
  have hpos : 0 ≤ t.nanos := hw.nonneg.trans ht.le
  unfold Header.foundEmpty at hempty
  by_cases h₀ : Q.hdr.count = 0
  · have ht' : Q'.hdr.empty = t := by
      rw [hempty]
      split
      · rfl
      · next hno =>
        -- the time there is not a later one, so it is this one
        have hle : ¬Q.hdr.empty.nanos < t.nanos := fun hlt => hno ⟨h₀, (ht.normal.gt_iff hw.normal).2 hlt⟩
        have hpast := hw.past.trans ht.le
        exact hw.normal.inj ht.normal (by omega)
    rw [if_pos h₀]
    refine ⟨hpos, ?_, ?_, fun _ => ?_, hstamps⟩
    · rw [ht']
      exact ht.normal
    · rw [ht']
    · rw [ht']
      exact ⟨rfl, ht.sec⟩
  · have hne : Q.items ≠ [] := fun hnil => h₀ (by rw [hn, hnil]; rfl)
    rw [if_neg fun hand => h₀ hand.1] at hempty
    rw [if_neg h₀]
    refine ⟨hpos, ?_, ?_, fun _ => ?_, hstamps⟩
    · rw [hempty]
      exact hw.normal
    · rw [hempty]
      exact hw.past.trans ht.le
    · rw [hempty]
      exact hw.found hne

theorem Since.keeps {w : Watch} (hw : Q.Since w) (hn : Q.hdr.count = Q.items.length) (ht : Steady w.now Q.clock t)
    (h : Q.step q c = some (a, Q')) (hno : c.request.isSome = true → a ≠ .status .ok) : Q'.Since ⟨t, w.found⟩ := by
  obtain ⟨hclears, hitems⟩ := step_keeps_since hn ht.still h hno
  have hpos : 0 ≤ t.nanos := hw.nonneg.trans ht.le
  have hstamps : ∀ it ∈ Q'.items, it.stamp.Normal := fun it hit => hw.stamps it (hitems it hit)
  rcases hclears with hempty | ⟨hnil, hempty⟩
  · refine ⟨hpos, ?_, ?_, fun hne => ?_, hstamps⟩
    · rw [hempty]
      exact hw.normal
    · rw [hempty]
      exact hw.past.trans ht.le
    · rw [hempty]
      obtain ⟨it, hit⟩ := List.exists_mem_of_ne_nil _ hne
      exact hw.found (List.ne_nil_of_mem (hitems it hit))
  · refine ⟨hpos, ?_, ?_, fun hne => absurd hnil hne, hstamps⟩
    · rw [hempty]
      exact ⟨le_refl _, show (0 : ℤ) < 1000000000 by norm_num⟩
    · rw [hempty]
      exact hpos

end Queue

end LibShr
