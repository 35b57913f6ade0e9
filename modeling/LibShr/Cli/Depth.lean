import LibShr.Lib.Text
import LibShr.Life.Create
import LibShr.Model.Command

/-!
# The depth on the command line

`sharedq_atol` reads the numeral with 64-bit arithmetic that wraps, `sharedq_create` refuses what came out
negative, the call of `shr_q_create` keeps the lower 32 bits, and that function refuses what is then above
`SEM_VALUE_MAX`. So the depth is honoured if it is not above `SEM_VALUE_MAX`, or one of the two refuses.
-/

namespace LibShr

open Prog Text

def decimal (s : CString) : ℕ := numeral 10 (fun b => b.toNat - 48) 0 s

/-- The digits that `sharedq_atol` looks at: the length is an `int`. -/
def seen (digits : CString) : CString := digits.take (int digits.length).toNat

/-- The greatest number of items, where 0 was given none. -/
def depthOf (n : ℤ) : ℤ := if n = 0 then SEM_VALUE_MAX else n

section
variable {s digits name : CString} {left : ℤ} {v : ℕ} {b : UInt8} {α : Type} {p : HostM α} {Q : α → Cli → Prop} {c : Cli}

/-! ## The numeral -/

theorem int_le (n : ℕ) : int n ≤ n := by
  unfold int
  rw [Int.bmod_def]
  have hmod : (n : ℤ) % ((2 ^ 32 : ℕ) : ℤ) ≤ n := by exact_mod_cast Nat.mod_le n (2 ^ 32)
  split <;> omega

/-- Arguments are not that long. -/
theorem seen_eq (h : digits.length < 2 ^ 31) : seen digits = digits := by
  have hint : int digits.length = digits.length := Int.bmod_eq_of_le (by omega) (by omega)
  rw [seen, hint, Int.toNat_natCast, List.take_length]

theorem IsDigit.cast (h : IsDigit b) : ((b.toNat : ℤ) - 48) = (b.toNat - 48 : ℕ) := by
  have hle := UInt8.le_iff_toNat_le.1 h.1
  have heq : (48 : UInt8).toNat = 48 := rfl
  omega

theorem long_eq (h : v < 2 ^ 63) : long v = v := Int.bmod_eq_of_le (by omega) (by omega)

/-- The loop over the digits. -/
theorem readDigits_spec (hs : ∀ b ∈ s, IsDigit b) (hleft : left ≤ s.length) :
    (readDigits (long v) s left).1 = long (numeral 10 (fun b : UInt8 => b.toNat - 48) v (s.take left.toNat)) ∧
      ¬0 < (readDigits (long v) s left).2 := by
  induction s generalizing v left with
  | nil =>
    rw [readDigits, List.take_nil, numeral_nil]
    dsimp only
    exact ⟨rfl, not_lt.2 hleft⟩
  | cons b s ih =>
    unfold readDigits
    by_cases hpos : 0 < left
    · have hb := hs b List.mem_cons_self
      rw [if_pos ⟨hpos, hb⟩]
      have hstep : long (long (long v * 10) + ((b.toNat : ℤ) - 48)) = long ((v * 10 + (b.toNat - 48) : ℕ) : ℤ) := by
        rw [hb.cast, Nat.cast_add, Nat.cast_mul]
        exact bmod_digit _ _
      have htake : left.toNat = (left - 1).toNat + 1 := by omega
      rw [hstep, htake, List.take_succ_cons, numeral_cons]
      refine ih (fun d hd => hs d (List.mem_cons_of_mem _ hd)) ?_
      rw [List.length_cons] at hleft
      omega
    · rw [if_neg fun h => hpos h.1]
      have hzero : left.toNat = 0 := by omega
      rw [hzero, List.take_zero, numeral_nil]
      dsimp only
      exact ⟨rfl, hpos⟩

/-- Leading zeros do not count. -/
theorem skipByte_zeros (hs : ∀ b ∈ s, IsDigit b) (hleft : left ≤ s.length) :
    (∀ b ∈ (skipByte 48 s left).1, IsDigit b) ∧ (skipByte 48 s left).2 ≤ (skipByte 48 s left).1.length ∧
      decimal ((skipByte 48 s left).1.take (skipByte 48 s left).2.toNat) = decimal (s.take left.toNat) := by
  induction s generalizing left with
  | nil => exact ⟨hs, hleft, rfl⟩
  | cons b s ih =>
    unfold skipByte
    by_cases hzero : b = 48 ∧ 0 < left
    · rw [if_pos hzero]
      have htake : left.toNat = (left - 1).toNat + 1 := by omega
      have hleft' : left - 1 ≤ s.length := by
        rw [List.length_cons] at hleft
        omega
      obtain ⟨hdigits, hle, hval⟩ := ih (fun d hd => hs d (List.mem_cons_of_mem _ hd)) hleft'
      refine ⟨hdigits, hle, hval.trans ?_⟩
      rw [htake, List.take_succ_cons, hzero.1]
      rfl
    · rw [if_neg hzero]
      exact ⟨hs, hleft, rfl⟩

/-- **`sharedq_atol`** of digits: their value, wrapped. -/
theorem sharedqAtol_digits (hs : ∀ b ∈ s, IsDigit b) (hleft : left ≤ s.length) : sharedqAtol s left = long (decimal (s.take left.toNat)) := by
  have hspace : skipByte 32 s left = (s, left) := by
    cases s with
    | nil => rfl
    | cons b s =>
      have hb := (hs b List.mem_cons_self).1
      exact if_neg fun h => absurd (h.1 ▸ hb) (by decide)
  obtain ⟨hdigits, hle, hval⟩ := skipByte_zeros hs hleft
  unfold sharedqAtol
  rw [hspace]
  dsimp only
  rw [← hval]
  generalize (skipByte 48 s left).1 = s' at hdigits hle ⊢
  generalize (skipByte 48 s left).2 = left' at hle ⊢
  have hend : ∀ {r : ℤ × ℤ} {x : ℤ}, ¬0 < r.2 ∧ r.1 = x → (if 0 < r.2 then -1 else r.1) = x := fun h => (if_neg h.1).trans h.2
  refine hend ?_
  cases s' with
  | nil =>
    rw [List.take_nil]
    exact ⟨not_lt.2 hle, rfl⟩
  | cons b s' =>
    dsimp only
    have hb := hdigits b List.mem_cons_self
    by_cases hpos : 0 < left'
    · have hfirst : (0 : ℤ) + ((b.toNat : ℤ) - 48) = long ((0 * 10 + (b.toNat - 48) : ℕ) : ℤ) := by
        have hlt := b.toNat_lt
        rw [hb.cast, long_eq (by omega)]
        omega
      have htake : left'.toNat = (left' - 1).toNat + 1 := by omega
      have hle' : left' - 1 ≤ s'.length := by
        rw [List.length_cons] at hle
        omega
      obtain ⟨hread, hdone⟩ := @readDigits_spec s' (left' - 1) (0 * 10 + (b.toNat - 48))
        (fun d hd => hdigits d (List.mem_cons_of_mem _ hd)) hle'
      rw [if_pos ⟨hpos, hb⟩, hfirst, hread, htake, List.take_succ_cons]
      exact ⟨hdone, rfl⟩
    · have hzero : left'.toNat = 0 := by omega
      rw [if_neg fun h => hpos h.1, hzero, List.take_zero]
      exact ⟨hpos, rfl⟩

/-! ## The command -/

/-- What holds of a function of the library holds of it in the command. -/
theorem wp_onLibrary (hw : wp host True p (fun a h => Q a { c with host := h }) c.host) : wp cli True (onLibrary p) Q c := by
  refine wp_subst (P := fun _ => True) (fun h v => v = { c with host := h }) (fun o h v r h' _ hS ho => ?_) (only_true p) rfl hw ?_
  · subst hS
    exact ⟨_, .act (by simp only [cli, ho, Option.map_some]) (.ret _ _), rfl⟩
  · rintro a h v hQ rfl
    exact hQ

theorem wp_printf {format : String} {args : List CString} {Q : Unit → Cli → Prop} :
    wp cli True (printf format args) Q c ↔ Q () { c with printed := c.printed ++ [(format, args)] } :=
  wp_op_some rfl

/-- A modifier that `sharedq_create` ignores, with a warning. -/
def Ignored (m : CString) : Prop := m.getD 0 0 = 45 ∧ (m.getD 1 0 = 98 ∨ m.getD 1 0 = 118 ∨ m.getD 1 0 = 120)

instance (m : CString) : Decidable (Ignored m) := inferInstanceAs (Decidable (_ ∧ _))

/-- `parse_modifiers` for `create` where all modifiers are ignored. -/
theorem wp_parseModifiers {argv : List CString} {index : ℕ} {Q : Option Modifiers → Cli → Prop}
    (hmods : ∀ i, 1 ≤ i → i < index → Ignored (argv.getD i [])) (hQ : ∀ v, v.host = c.host → Q (some {}) v) :
    wp cli True (parseModifiers argv index [104]) Q c := by
  refine wp_iterate_of_variant (fun s v => 1 ≤ s.1 ∧ s.2 = {} ∧ v.host = c.host) (fun s _ => index - s.1) ?_ ⟨le_refl 1, rfl, rfl⟩
  rintro ⟨i, result⟩ v ⟨hi, hres, hhost⟩
  dsimp only at hi hres ⊢
  subst hres
  by_cases hend : index ≤ i
  · rw [if_pos hend, wp_pure]
    exact hQ v hhost
  obtain ⟨hdash, hletter⟩ := hmods i hi (not_le.1 hend)
  have hpermit : containsParam PERMIT ((argv.getD i []).getD 1 0) = true := by
    rcases hletter with h | h | h <;> rw [h] <;> decide
  have hpattern : containsParam [104] ((argv.getD i []).getD 1 0) = false := by
    rcases hletter with h | h | h <;> rw [h] <;> decide
  rw [if_neg hend, if_neg (not_not.2 hdash), hpermit, hpattern]
  simp only [Bool.not_true, Bool.not_false, Bool.false_eq_true, if_false, if_true, wp_bind, wp_printf, wp_pure]
  exact ⟨⟨by omega, rfl, hhost⟩, fun _ => by omega⟩

/-- Creation succeeds, as far as it does not depend on the depth. -/
structure Host.Creates (h : Host) (name : CString) : Prop where
  valid : validateName (some name) = .ok
  stat : ∀ e, h.statErr 0 = some e → e = .enoent ∨ e = .eexist
  gets : h.Gets name
  whole : ¬h.Breaks

/-- The value that was read is negative as a `long`, or too large as an `unsigned int`. -/
def Refused (m : ℕ) : Prop := 2 ^ 63 ≤ m % 2 ^ 64 ∨ SEM_VALUE_MAX < (m % 2 ^ 32 : ℕ)

instance (m : ℕ) : Decidable (Refused m) := inferInstanceAs (Decidable (_ ∨ _))

theorem long_neg (m : ℕ) : long m < 0 ↔ 2 ^ 63 ≤ m % 2 ^ 64 := by
  unfold long
  rw [Int.bmod_def]
  split <;> omega

theorem long_emod (m : ℕ) : long m % 2 ^ 32 = (m % 2 ^ 32 : ℕ) := by
  unfold long
  rw [Int.bmod_def]
  split <;> omega

/-- `shr_q_create` with a depth that it does not take. -/
theorem wp_shrQCreate_deep {h : Host} {d : ℤ} {Q : Status × Option Handle → Host → Prop} (hd : SEM_VALUE_MAX < d) :
    wp host True (shrQCreate true (some name) d .immutable) Q h ↔ Q (.errArg, none) h := by
  simp only [shrQCreate, gt_iff_lt, hd, if_true, wp_pure]

/-- `shr_q_create` with another depth. -/
theorem Host.Creates.wp_shrQCreate {h : Host} {d : ℤ} {Q : Status × Option Handle → Host → Prop} (hc : h.Creates name) (hd : d ≤ SEM_VALUE_MAX)
    (hQ : ∀ q v x, v.objects (objectName name) = some x → x.world.mem MAX_DEPTH = depthOf d → Q (.ok, q) v) :
    wp host True (shrQCreate true (some name) d .immutable) Q h := by
  have hcomes : h.Comes true name d := ⟨rfl, hd, hc.valid, hc.stat, hc.gets⟩
  refine wp_mono (fun r v hr => ?_) (shrQCreate_spec true (some name) .immutable)
  cases hr with
  | @made n w v hn _ _ hB _ hmax =>
    cases hn
    refine hQ _ v ⟨true, w⟩ ?_ hmax
    rw [hB.objects, Function.update_self]
  | left hn _ hbreaks => exact absurd hbreaks hc.whole
  | refused hno => exact absurd hcomes (hno name rfl)

def refusal : List String := [INVALID_MAXSIZE, "sharedq:  invalid argument for create function\n"]

/-- **`sharedq_create`** with a depth, after any modifiers that it ignores. -/
theorem wp_sharedqCreate {prog cmd : CString} {mods : List CString} {Q : Unit → Cli → Prop} (hmods : ∀ m ∈ mods, Ignored m)
    (hdigits : ∀ b ∈ digits, IsDigit b) (hc : c.host.Creates name)
    (hok : ¬Refused (decimal (seen digits)) → ∀ v x, v.host.objects (objectName name) = some x →
      x.world.mem MAX_DEPTH = depthOf (decimal (seen digits) % 2 ^ 32 : ℕ) → Q () v)
    (hno : Refused (decimal (seen digits)) → ∀ v text, v.host.objects = c.host.objects → v.printed.getLast? = some (text, []) →
      text ∈ refusal → Q () v) :
    wp cli True (sharedqCreate (prog :: (mods ++ [cmd, name, digits])) (mods.length + 1)) Q c := by
  generalize hargv : prog :: (mods ++ [cmd, name, digits]) = argv
  have hargc : (argv.length : ℤ) - (mods.length + 1 : ℕ) + 1 = 4 := by
    rw [← hargv, List.length_cons, List.length_append]
    simp only [List.length_cons, List.length_nil]
    omega
  have hname : argv[mods.length + 1 + 1]? = some name := by
    rw [← hargv, List.getElem?_cons_succ, List.getElem?_append_right (by omega), Nat.add_sub_cancel_left]
    rfl
  have harg : argv.getD (mods.length + 1 + 2) [] = digits := by
    rw [← hargv, List.getD_eq_getElem?_getD, List.getElem?_cons_succ, List.getElem?_append_right (by omega), Nat.add_sub_cancel_left]
    rfl
  have hignored : ∀ i, 1 ≤ i → i < mods.length + 1 → Ignored (argv.getD i []) := by
    intro i hi hlt
    obtain ⟨j, rfl⟩ := Nat.exists_eq_add_of_le' hi
    have hj : j < mods.length := by omega
    rw [← hargv, List.getD_cons_succ, List.getD_eq_getElem?_getD, List.getElem?_append_left hj, List.getElem?_eq_getElem hj, Option.getD_some]
    exact hmods _ (List.getElem_mem hj)
  have hatol : sharedqAtol digits (int digits.length) = long (decimal (seen digits)) := sharedqAtol_digits hdigits (int_le _)
  unfold sharedqCreate
  dsimp only
  rw [hargc, if_neg (by decide), wp_bind]
  refine wp_parseModifiers hignored fun v hv => ?_
  dsimp only
  rw [if_neg Bool.false_ne_true, if_pos rfl, harg, hatol]
  by_cases hneg : long (decimal (seen digits)) < 0
  · rw [if_pos hneg, wp_bind, wp_printf, wp_pure]
    refine hno (.inl ((long_neg _).1 hneg)) _ INVALID_MAXSIZE ?_ ?_ List.mem_cons_self
    · rw [hv]
    · exact List.getLast?_concat
  rw [if_neg hneg, wp_bind, hname, long_emod]
  have hpos : ¬2 ^ 63 ≤ decimal (seen digits) % 2 ^ 64 := fun h => hneg ((long_neg _).2 h)
  by_cases hdeep : SEM_VALUE_MAX < (decimal (seen digits) % 2 ^ 32 : ℕ)
  · refine wp_onLibrary ((wp_shrQCreate_deep hdeep).2 ?_)
    dsimp only [createMessage]
    rw [wp_printf]
    refine hno (.inr hdeep) _ _ ?_ List.getLast?_concat (List.mem_cons_of_mem _ List.mem_cons_self)
    rw [hv]
  · refine wp_onLibrary (Host.Creates.wp_shrQCreate (hv ▸ hc) (not_lt.1 hdeep) fun q u x hx hmax => ?_)
    dsimp only [createMessage]
    rw [wp_pure]
    exact hok (not_or.2 ⟨hpos, hdeep⟩) _ x hx hmax

/-- The depth `n` is honoured: a queue has it, or the command is refused and there is no queue. -/
def DepthHonoured (c v : Cli) (name : CString) (n : ℕ) : Prop :=
  if (n : ℤ) ≤ SEM_VALUE_MAX then ∃ x, v.host.objects (objectName name) = some x ∧ x.world.mem MAX_DEPTH = depthOf n
  else v.host.objects = c.host.objects ∧ ∃ text, v.printed.getLast? = some (text, []) ∧ text ∈ refusal

/-- When it is honoured: for a depth that can be given, what was looked at stands for the same depth; any other is refused
for what was looked at. -/
def HonouredFor (digits : CString) : Prop :=
  if (decimal digits : ℤ) ≤ SEM_VALUE_MAX then depthOf (decimal (seen digits)) = depthOf (decimal digits) else Refused (decimal (seen digits))

instance (digits : CString) : Decidable (HonouredFor digits) := inferInstanceAs (Decidable (ite _ _ _))

/-- What was looked at is no more than the depth. -/
theorem seen_le (digits : CString) : decimal (seen digits) ≤ decimal digits := numeral_take_le (by decide) _

/-- For arguments that are not excessively long: the depth can be given, or it wraps to one that is refused. -/
theorem honouredFor_iff (h : digits.length < 2 ^ 31) :
    HonouredFor digits ↔ (decimal digits : ℤ) ≤ SEM_VALUE_MAX ∨ Refused (decimal digits) := by
  unfold HonouredFor
  rw [seen_eq h]
  by_cases hle : (decimal digits : ℤ) ≤ SEM_VALUE_MAX
  · rw [if_pos hle]
    exact iff_of_true rfl (.inl hle)
  · rw [if_neg hle, or_iff_right hle]

/-- **The depth given to `sharedq create`.** -/
theorem depth_honoured (c : Cli) (prog cmd name digits : CString) (mods : List CString) (hmods : ∀ m ∈ mods, Ignored m)
    (hdigits : ∀ b ∈ digits, IsDigit b) (hc : c.host.Creates name) :
    ∃ v, Runs cli (sharedqCreate (prog :: (mods ++ [cmd, name, digits])) (mods.length + 1)) c () v ∧
      (DepthHonoured c v name (decimal digits) ↔ HonouredFor digits) := by
  have hseen := seen_le digits
  have hw : wp cli True (sharedqCreate (prog :: (mods ++ [cmd, name, digits])) (mods.length + 1))
      (fun _ v => DepthHonoured c v name (decimal digits) ↔ HonouredFor digits) c := by
    refine wp_sharedqCreate hmods hdigits hc (fun hnot v x hx hmax => ?_) fun href v text hobj hprinted htext => ?_
    · unfold DepthHonoured HonouredFor
      by_cases hle : (decimal digits : ℤ) ≤ SEM_VALUE_MAX
      · -- nothing wraps
        have hlt : (SEM_VALUE_MAX : ℤ) < 2 ^ 32 := by decide
        have hmod : decimal (seen digits) % 2 ^ 32 = decimal (seen digits) := Nat.mod_eq_of_lt (by omega)
        rw [hmod] at hmax
        rw [if_pos hle, if_pos hle, ← hmax]
        constructor
        · rintro ⟨y, hy, hdepth⟩
          cases hx.symm.trans hy
          exact hdepth
        · exact fun hdepth => ⟨x, hx, hdepth⟩
      · rw [if_neg hle, if_neg hle]
        refine iff_of_false (fun hno => ?_) hnot
        rw [hno.1, hc.gets.absent] at hx
        cases hx
    · unfold DepthHonoured HonouredFor
      by_cases hle : (decimal digits : ℤ) ≤ SEM_VALUE_MAX
      · have hlt : (SEM_VALUE_MAX : ℤ) < 2 ^ 32 := by decide
        unfold Refused at href
        omega
      · rw [if_neg hle, if_neg hle]
        exact iff_of_true ⟨hobj, text, hprinted, htext⟩ href
  obtain ⟨_, v, hr, hv⟩ := (wp_iff_runs trivial).1 hw
  exact ⟨v, hr, hv⟩

/-- The command on a system without objects; `shr_q_add` would always succeed. -/
def Cli.fresh (stdin : List UInt8) : Cli where
  host := Host.empty
  printed := []
  stdin := stdin
  adds := fun _ => .ok
  queued := []

theorem Host.empty_creates : Host.empty.Creates [113] where
  valid := by decide
  stat _ h := by cases h
  gets := ⟨rfl, rfl, rfl, rfl, rfl⟩
  whole := by
    rintro ((h | h) | ⟨s, h⟩)
    · cases h
    · exact h rfl
    · cases h

/-- `sharedq -v create q 5`. -/
theorem depth_honoured_five : ∃ v, Runs cli (sharedqCreate ([115] :: ([[45, 118]] ++ [[99], [113], [53]])) ([[45, 118]].length + 1)) (Cli.fresh []) () v ∧
    (DepthHonoured (Cli.fresh []) v [113] (decimal [53]) ↔ HonouredFor [53]) :=
  depth_honoured (Cli.fresh []) [115] [99] [113] [53] [[45, 118]] (fun m hm => by cases List.mem_singleton.1 hm; decide)
    (fun b hb => by cases List.mem_singleton.1 hb; decide) Host.empty_creates

/-- `sharedq create q 4294967297`: a queue with the depth 1. -/
theorem depth_wraps : ∃ v, Runs cli (sharedqCreate [[115], [99], [113], [52, 50, 57, 52, 57, 54, 55, 50, 57, 55]] 1) (Cli.fresh []) () v ∧
    (v.host.objects [113]).map (·.world.mem MAX_DEPTH) = some 1 ∧
    ¬DepthHonoured (Cli.fresh []) v [113] (decimal [52, 50, 57, 52, 57, 54, 55, 50, 57, 55]) := by
  have hrun : (eval cli 200 (sharedqCreate [[115], [99], [113], [52, 50, 57, 52, 57, 54, 55, 50, 57, 55]] 1) (Cli.fresh [])).map
      (fun r => (r.2.host.objects [113]).map (·.world.mem MAX_DEPTH)) = some (some 1) := by decide +kernel
  obtain ⟨⟨_, v⟩, he, hdepth⟩ := Option.map_eq_some_iff.1 hrun
  refine ⟨v, runs_of_eval cli he, hdepth, fun hon => ?_⟩
  unfold DepthHonoured at hon
  rw [if_neg (by decide)] at hon
  obtain ⟨x, hx, -⟩ := Option.map_eq_some_iff.1 hdepth
  dsimp only at hx
  rw [hon.1] at hx
  cases hx

end

end LibShr
