import LibShr.Runs.Residue

/-!
# What `sharedq remove` prints

`sharedq_remove` and `sharedq_drain` print `item.value` with `%s`. Nothing in the data block ends a string, so what
is printed depends on what follows it there. Behind the block lie the elements, and each begins with four bytes of padding that
nothing writes.
-/

namespace LibShr

open Prog

/-- The first bytes of an element: the padding `_zeroes_` (`shared_q.h:41`), which holds what was in the memory, and the type, an `int`. -/
def VecView.head (pad : Fin 4 → UInt8) (v : VecView) : List UInt8 := List.ofFn pad ++ (Words.toBytes v.type).take 4

/-- What `%s` prints from `value` on (`main.c:790`): the buffer is followed by the elements. -/
def SqItem.text (pad : Fin 4 → UInt8) (i : SqItem) : List UInt8 :=
  ((i.buffer.getD []).drop (i.value.getD 0).toNat ++ i.vector.head?.elim [] (VecView.head pad)).takeWhile (· ≠ 0)

section
variable {w w' w₀ : World} {e : Made} {es : List Made} {it : Item} {m : ℤ → ℤ} {s type uid : ℤ} {n : ℕ} {depth : ℤ} {bs : List UInt8}
  {now : Timespec} {c : Call}

theorem bytesAt_zero (h : ∀ a, s ≤ a → a < s + n → m a = 0) : bytesAt m s n = List.replicate (n * 8) 0 := by
  induction n generalizing s with
  | zero => rfl
  | succ n ih =>
    have hrest : bytesAt m (s + 1) n = List.replicate (n * 8) 0 := ih fun a ha ha' => h a (by omega) (by push_cast; omega)
    have hzero : Words.toBytes 0 = List.replicate 8 0 := by decide
    rw [bytesAt, hrest, h s (le_refl s) (by push_cast; omega), hzero, List.replicate_append_replicate]
    congr 1
    omega

/-- Bytes that are stored in slots that were zero are followed by zeros. -/
theorem bytesAt_stored_zero (h : ∀ a, s ≤ a → m a = 0) (hn : slotsFor bs.length ≤ n) :
    bytesAt (stored m s (Words.chunks bs)) s n = bs ++ List.replicate (n * 8 - bs.length) 0 := by
  unfold slotsFor at hn
  induction hl : bs.length using Nat.strongRecOn generalizing bs m s n with
  | _ k ih =>
    subst hl
    have hzero : Words.toBytes 0 = List.replicate 8 0 := by decide
    rcases Words.chunks_cases bs with ⟨rfl, hc⟩ | ⟨hge, hc⟩ | ⟨hpos, hlt, hc⟩
    · rw [hc, stored, bytesAt_zero fun a ha _ => h a ha]
      rfl
    · -- a full word, then the rest one slot further on
      obtain ⟨n, rfl⟩ := Nat.exists_eq_add_of_le' (show 1 ≤ n by omega)
      have hlen : (bs.take 8).length = 8 := by rw [List.length_take, min_eq_left hge]
      have hrest : ∀ a, s + 1 ≤ a → setSlot m s (Words.patch (m s) (bs.take 8)) a = 0 := fun a ha => by
        rw [setSlot_ne _ _ (by omega)]
        exact h a (by omega)
      rw [hc, stored, bytesAt, stored_ne (by omega), setSlot_same, Words.toBytes_patch _ (by omega), hlen,
        List.drop_of_length_le (by simp), List.append_nil, ih (bs.drop 8).length (by rw [List.length_drop]; omega) hrest
          (by rw [List.length_drop]; omega) rfl, ← List.append_assoc, List.take_append_drop, List.length_drop]
      congr 2
      omega
    · obtain ⟨n, rfl⟩ := Nat.exists_eq_add_of_le' (show 1 ≤ n by omega)
      have hrest : ∀ a, s + 1 ≤ a → a < s + 1 + n → setSlot m s (Words.patch (m s) bs) a = 0 := fun a ha _ => by
        rw [setSlot_ne _ _ (by omega)]
        exact h a (by omega)
      rw [hc, stored, stored, bytesAt, setSlot_same, Words.toBytes_patch _ (by omega), bytesAt_zero hrest, h s (le_refl s), hzero,
        List.drop_replicate, List.append_assoc, List.replicate_append_replicate]
      congr 2
      omega

theorem Call.single_vector {g : Gate} {vector : Option (List SqVec)} (h : (Call.addv g vector).payload = some [(type, bs)]) :
    ∃ v, vector = some [v] ∧ v.elem = (type, bs) := by
  have hmap : (vector.getD []).map SqVec.elem = [(type, bs)] := Option.some.inj h
  obtain ⟨v, hv, helem⟩ := List.map_eq_singleton_iff.1 hmap
  cases vector with
  | none => cases hv
  | some vs => exact ⟨v, congrArg some hv, helem⟩

/-- The image of a single element is the same, whichever call it came with. -/
theorem Call.image_single (h : c.payload = some [(type, bs)]) : c.image now uid = valueWords (fun _ => 0) now uid type bs := by
  cases c with
  | add g value length =>
    cases h
    rfl
  | addv g vector =>
    obtain ⟨v, rfl, helem⟩ := Call.single_vector h
    have htype : v.type = type := congrArg Prod.fst helem
    show valueWords (fun _ => 0) now uid v.type v.elem.2 = _
    rw [htype, helem]
  | _ => cases h

/-- The slots that are needed hold a single element. -/
theorem Call.needs_single (h : c.payload = some [(type, bs)]) : 56 + bs.length ≤ c.needs * 8 := by
  have hone : ∀ n : ℕ, bs.length ≤ n → c.needs = 7 + slotsFor n → 56 + bs.length ≤ c.needs * 8 := fun n hle hn => by
    rw [hn, slotsFor]
    omega
  cases c with
  | add g value length =>
    cases h
    exact hone length.toNat (List.length_take_le _ _) rfl
  | addv g vector =>
    obtain ⟨v, rfl, helem⟩ := Call.single_vector h
    have hbytes : v.elem.2 = bs := congrArg Prod.snd helem
    refine hone v.len.toNat ?_ rfl
    rw [← hbytes]
    exact List.length_take_le _ _
  | _ => cases h

theorem valueWords_bytes (hn : slotsFor bs.length ≤ n) :
    bytesAt (valueWords (fun _ => 0) now uid type bs) 7 n = bs ++ List.replicate (n * 8 - bs.length) 0 :=
  bytesAt_stored_zero (fun _ ha => headerWords_above ha) hn

/-- The bytes behind the header: those of the element, the zeros behind it, and the slots that were not asked for. -/
theorem Item.From.value_bytes (hown : ∀ a < c.room, it.words a = c.image now uid a) (hp : c.payload = some [(type, bs)])
    (hle : c.cls ≤ it.cls) (hlen : 56 + (bs.length : ℤ) ≤ c.room * 8) :
    it.bytes.drop 48 = bs ++ List.replicate ((2 ^ (c.cls + 2) - 7) * 8 - bs.length) 0 ++
      bytesAt it.words c.room (2 ^ (it.cls + 2) - 2 ^ (c.cls + 2)) := by
  have hroom : c.room = (2 ^ (c.cls + 2) : ℕ) := by unfold Call.room; push_cast; rfl
  have hpow : 2 ^ (c.cls + 2) ≤ 2 ^ (it.cls + 2) := Nat.pow_le_pow_right (by decide) (by omega)
  have hsplit : 2 ^ (it.cls + 2) - 1 - 6 = (2 ^ (c.cls + 2) - 7) + (2 ^ (it.cls + 2) - 2 ^ (c.cls + 2)) := by omega
  have hown' : bytesAt it.words 7 (2 ^ (c.cls + 2) - 7) = bytesAt (c.image now uid) 7 (2 ^ (c.cls + 2) - 7) :=
    bytesAt_congr fun x hx => hown x (by omega)
  have hend : (7 : ℤ) + ((2 ^ (c.cls + 2) - 7 : ℕ) : ℤ) = c.room := by omega
  have hdrop := drop_bytesAt it.words 1 (show 6 ≤ 2 ^ (it.cls + 2) - 1 by omega)
  rw [it.bytes_eq, show 48 = 6 * 8 from rfl, hdrop, hsplit, show (1 : ℤ) + ((6 : ℕ) : ℤ) = 7 from rfl, bytesAt_add, hown', hend,
    Call.image_single hp, valueWords_bytes (by unfold slotsFor; omega)]

/-- A string is printed up to the first 0 behind it. -/
theorem takeWhile_string {l : List UInt8} (h : 0 ∉ bs) : (bs ++ l).takeWhile (· ≠ 0) = bs ++ l.takeWhile (· ≠ 0) :=
  List.takeWhile_append_of_pos fun b hb => by simpa using ne_of_mem_of_not_mem hb h

/-- **What is printed of a string**: it begins with the string, and ends there if the string leaves a byte of the slots
that were asked for. Where it fills them, and with them the block, the padding of the element is printed up to its first 0; if
there is none, the type is printed behind it. -/
theorem string_printed (hw : Created depth w₀) (h : Trace Ran w₀ es w) (he : Ran w e w') (i : SqItem) (v : UserBuffer)
    (hr : e.reply = .item i v) (hok : i.status = .ok) (hdel : i.Delivers [(SH_STRM_T, bs)]) (hnul : 0 ∉ bs) (pad : Fin 4 → UInt8) :
    bs <+: i.text pad ∧ ∃ e₀ ∈ es, e₀.brought = some [(SH_STRM_T, bs)] ∧
      (56 + (bs.length : ℤ) < e₀.call.room * 8 → i.text pad = bs) ∧
      (56 + (bs.length : ℤ) = e₀.call.room * 8 → i.bufSize = e₀.call.room * 8 - 8 →
        i.text pad = bs ++ (List.ofFn pad ++ [1, 0, 0, 0]).takeWhile (· ≠ 0) ∧ (i.text pad = bs ↔ pad 0 = 0)) := by
  obtain ⟨it, hshows, hit⟩ := handed_from hw h he hr hok
  have hpay : it.payload = [(SH_STRM_T, bs)] := hshows.delivers.payload.symm.trans hdel.payload
  obtain ⟨-, hvalue, bytes, hbuf, hvec⟩ := hdel
  obtain ⟨x, hx, htype, hlen, hbase, hbound, hbytes⟩ : ∃ x, i.vector = [x] ∧ Shows1 bytes x (SH_STRM_T, bs) := by
    obtain ⟨x, l, hx, hnil, hcons⟩ := List.forall₂_cons_right_iff.1 hvec
    exact ⟨x, by rw [hcons, List.forall₂_nil_right_iff.1 hnil], hx⟩
  have hby : bytes = it.bytes := Option.some.inj (hbuf.symm.trans hshows.buffer)
  have htext : i.text pad = (it.bytes.drop 48 ++ (List.ofFn pad ++ [1, 0, 0, 0])).takeWhile (· ≠ 0) := by
    have hint : (Words.toBytes SH_STRM_T).take 4 = [1, 0, 0, 0] := by decide
    unfold SqItem.text
    rw [hbuf, hvalue, hx, hby, List.head?_cons, Option.elim_some, VecView.head, htype, hint]
    rfl
  obtain ⟨e₀, he₀, hb, hfits, hle, -, now, uid, hown⟩ := hit.own
  rw [hpay] at hb
  have hp : e₀.call.payload = some [(SH_STRM_T, bs)] := by
    unfold Made.brought at hb
    split at hb
    · exact hb
    · cases hb
  have hneeds := Call.needs_single hp
  have hroom : e₀.call.room = (2 ^ (e₀.call.cls + 2) : ℕ) := by unfold Call.room; push_cast; rfl
  have hval := Item.From.value_bytes hown hp hle (by omega)
  rw [hval, List.append_assoc, List.append_assoc, takeWhile_string hnul] at htext
  refine ⟨⟨_, htext.symm⟩, e₀, he₀, hb, fun hlt => ?_, fun heq hsize => ?_⟩
  · -- a 0 follows
    obtain ⟨k, hk⟩ := Nat.exists_eq_add_of_le' (show 1 ≤ (2 ^ (e₀.call.cls + 2) - 7) * 8 - bs.length by omega)
    rw [htext, hk, List.replicate_succ, List.cons_append, List.takeWhile_cons_of_neg (by simp), List.append_nil]
  · -- the block ends with the string
    have hslots : it.slots = e₀.call.room := by
      have hsize' := hshows.size
      omega
    have hcls : 2 ^ (it.cls + 2) = 2 ^ (e₀.call.cls + 2) := by
      unfold Item.slots Call.room at hslots
      exact_mod_cast hslots
    have hnone : (2 ^ (e₀.call.cls + 2) - 7) * 8 - bs.length = 0 := by omega
    have hfull : i.text pad = bs ++ (List.ofFn pad ++ [1, 0, 0, 0]).takeWhile (· ≠ 0) := by
      rw [htext, hnone, hcls, Nat.sub_self]
      rfl
    refine ⟨hfull, ?_⟩
    rw [hfull, List.append_right_eq_self, List.ofFn_succ, List.cons_append, List.takeWhile_cons]
    by_cases h₀ : pad 0 = 0
    · simp [h₀]
    · simp [h₀]

/-- Eight bytes, which fill a block. -/
def Call.putEight : Call := .add .poll (some (List.replicate 8 65)) 8

theorem Call.putEight_valid : Call.putEight.Valid := by
  rintro v ⟨⟩
  exact ⟨by decide, by decide⟩

/-- A string of eight bytes is printed as it is where the padding is 0, and with five more bytes where it is not. -/
theorem string_printed_eight : ∃ w₀ es w e w' i v, Created 4 w₀ ∧ Trace Ran w₀ es w ∧ es.map Made.call = [.putEight] ∧ Ran w e w' ∧
    e.reply = .item i v ∧ i.status = .ok ∧ i.Delivers [(SH_STRM_T, List.replicate 8 65)] ∧
    i.text (fun _ => 0) = List.replicate 8 65 ∧ i.text (fun _ => 255) = List.replicate 8 65 ++ [255, 255, 255, 255, 1] := by
  obtain ⟨w₀, hw, hR₀⟩ := fresh_represents
  obtain ⟨r₁, w₁, h₁, -, hR₁⟩ := hR₀.next (fun _ => ⟨1, 0⟩) .putEight Call.putEight_valid (by decide +kernel)
  obtain ⟨r₂, w₂, h₂, hm, -⟩ := hR₁.next (fun _ => ⟨1, 0⟩) .pull trivial (by decide +kernel)
  have hshown : ((Queue.fresh.after (fun _ => ⟨1, 0⟩) .putEight).answer (fun _ => ⟨1, 0⟩) .pull).bind
      (fun a => a.handed.map fun it => (it.payload, it.cls)) = some ([(SH_STRM_T, List.replicate 8 65)], 1) := by decide +kernel
  obtain ⟨a, ha, hsome⟩ := Option.bind_eq_some_iff.1 hshown
  obtain ⟨it, hit, hpair⟩ := Option.map_eq_some_iff.1 hsome
  obtain ⟨hpay, hcls⟩ := Prod.mk.inj hpair
  have hmatch := hm a ha
  cases a with
  | item it' v' =>
    cases hit
    obtain ⟨i, rfl, hshows⟩ := hmatch.item
    have ht : Trace Ran w₀ [⟨_, .putEight, r₁⟩] w₁ := .cons h₁ (.nil _)
    have hdel : i.Delivers [(SH_STRM_T, List.replicate 8 65)] := hpay ▸ hshows.delivers
    have hprinted := string_printed hw ht h₂ i v' rfl hshows.status hdel (by decide)
    have hroom : Call.putEight.room = 8 := by decide +kernel
    have hfull : ∀ pad, i.text pad = List.replicate 8 65 ++ (List.ofFn pad ++ [1, 0, 0, 0]).takeWhile (· ≠ 0) := by
      intro pad
      obtain ⟨-, e₀, he₀, -, -, hfull⟩ := hprinted pad
      cases List.mem_singleton.1 he₀
      refine (hfull ?_ ?_).1
      · rw [hroom]
        rfl
      · rw [hroom, hshows.size, Item.slots, hcls]
        rfl
    exact ⟨w₀, _, w₁, _, w₂, i, v', hw, ht, rfl, h₂, rfl, hshows.status, hdel, (hfull _).trans (by decide), (hfull _).trans (by decide)⟩
  | _ => cases hit

end

end LibShr
