import LibShr.Runs.History
import LibShr.Spec.Order

/-!
# What a call touches

The object may have grown since a process mapped it. A call works with the extents it has, and every slot
it reads or writes lies in the one it uses for it: before a slot that may lie beyond the current extent is
touched, `insure_in_range` or `insure_fit` maps the object anew.
-/

namespace LibShr

open Prog

/-- The slots that the operation touches are inside the extent it is given; those of a double word begin at an even slot. -/
def Op.Inside : Op → Prop
  | .load array slot | .store array slot _ | .storeBytes array slot _ | .cas array slot _ _ | .afa array slot _ => InExtent array slot
  | .dwcas _ array slot _ _ => InExtent array slot ∧ InExtent array (slot + 1) ∧ slot % 2 = 0
  | _ => True

section
variable {w w₀ v : World} {Q : Queue} {o : Op} {r : o.Res} {es : List Made} {depth : ℤ} {p : Caller} {c : Call}

/-- What does not lie inside is not answered. -/
theorem Op.inside_of_answered (h : seq o w = some (r, v)) : o.Inside := by
  cases o with
  | load array slot | store array slot x | storeBytes array slot x | cas array slot x y | afa array slot x | dwcas role array slot x y =>
    by_contra hno
    simp only [Op.Inside] at hno
    simp only [seq, hno, if_false, reduceCtorEq] at h
  | _ => trivial

/-- **A stale mapping never leads out of range**: after any history, a call of a process with any earlier size of the object
ends, and everything it touches on the way is inside the extent it uses. -/
theorem stays_in_range (hw : Created depth w₀) (h : Trace Ran w₀ es w) (hok : p.Ok w) (hv : c.Valid) (hc : c.Prompt) :
    (∃ r w', Runs seq (c.run p.q p.pid) (p.enter w) r w') ∧ ∀ o v, Issues seq (c.run p.q p.pid) (p.enter w) o v → o.Inside := by
  obtain ⟨Q, hR, -⟩ := hw.reaches h
  obtain ⟨r, w', -, -, hr⟩ := hR.run hok hv (Queue.step_some hc)
  refine ⟨⟨r, w', hr⟩, fun o v hi => ?_⟩
  obtain ⟨r', v', ho⟩ := hr.answers hi
  exact Op.inside_of_answered ho

end

/-- An item that is queued lies inside the object. -/
theorem Represents.slots_lt {w : World} {Q : Queue} {it : Item} (hR : Represents w Q) (hit : it ∈ Q.items) : (it.slots : ℤ) < w.mem SIZE := by
  obtain ⟨H, hS⟩ := hR
  have hfound : ∃ b ∈ H.live, ItemAt H.word b it := by
    rcases List.mem_append.1 hit with hit | hit
    · obtain ⟨b, hb, hat, -⟩ := exists_both hS.stack.flip hS.stack.flip hit
      exact ⟨b, Heap.mem_live_stack hb, hat⟩
    · obtain ⟨b, hb, hat, -⟩ := exists_both hS.fifo.flip hS.fifo.flip hit
      exact ⟨b, Heap.mem_live_fifo hb, hat⟩
  obtain ⟨b, hb, hat⟩ := hfound
  have hbounds := hS.inv.wf.live_bounds hb
  have hsize := hat.size
  have hroom : H.alloc < w.mem SIZE := hS.inv.room
  omega

/-- So many bytes that a block of 512 slots is carved out for them. -/
def Call.putLong : Call := .add .poll (some (List.replicate 1993 65)) 1993

/-- The object has grown beyond its first page, and a process that has mapped only that page removes the item. -/
theorem stays_in_range_grown : ∃ w₀ es w, Created 4 w₀ ∧ Trace Ran w₀ es w ∧ es.map Made.call = [.putLong] ∧ 512 < w.mem SIZE ∧
    (Caller.page ⟨.readwrite⟩ fun _ => ⟨1, 0⟩).ext.cur = 512 ∧
    (∃ r w', Runs seq (Call.run (some ⟨.readwrite⟩) 1 .pull) ((Caller.page ⟨.readwrite⟩ fun _ => ⟨1, 0⟩).enter w) r w') ∧
    ∀ o v, Issues seq (Call.run (some ⟨.readwrite⟩) 1 .pull) ((Caller.page ⟨.readwrite⟩ fun _ => ⟨1, 0⟩).enter w) o v → o.Inside := by
  obtain ⟨w₀, hw, hR₀⟩ := fresh_represents
  have hvalid : Call.putLong.Valid := by
    rintro v ⟨⟩
    exact ⟨by rw [List.length_replicate]; rfl, by decide⟩
  obtain ⟨r, w, hr, -, hR⟩ := hR₀.next (fun _ => ⟨1, 0⟩) .putLong hvalid (by decide +kernel)
  have ht : Trace Ran w₀ [_] w := .cons hr (.nil _)
  have hprompt : Call.pull.Prompt := Gate.noConfusion
  -- the item takes up as much as the first page
  have hslots : (Queue.fresh.after (fun _ => ⟨1, 0⟩) .putLong).items.map Item.slots = [512] := by decide +kernel
  obtain ⟨it, hit, hsize⟩ := List.map_eq_singleton_iff.1 hslots
  have hqueued : it ∈ (Queue.fresh.after (fun _ => ⟨1, 0⟩) .putLong).items := hit ▸ List.mem_singleton_self it
  have hlt := hR.slots_lt hqueued
  rw [hsize] at hlt
  exact ⟨w₀, _, w, hw, ht, rfl, hlt, rfl, stays_in_range hw ht (Caller.page_ok hR ⟨.readwrite⟩ fun _ => ⟨1, 0⟩) trivial hprompt⟩

end LibShr
