import Mathlib.Data.List.TakeWhile
import LibShr.Cli.Depth

/-!
# Lines from the standard input

`readline` puts a line together from the pieces that `fgets` reads. It ends with the newline; at the end of the
input what was read of a line is thrown away. So the lines that end with a newline are queued, up to the first
that is empty, and a last line without one is not.
-/

namespace LibShr

open Prog Text

/-- The lines of the input up to the first empty one; the last one need not end with a newline. -/
def linesOf (s : List UInt8) : List CString := (s.splitOn 10).takeWhile (· ≠ [])

/-- Those of them that end with a newline. -/
def linesEnded (s : List UInt8) : List CString := (terminated 10 s).takeWhile (· ≠ [])

section
variable {s t u : List UInt8} {c v : Cli} {str : Buffer}

theorem linesEnded_none (h : 10 ∉ s) : linesEnded s = [] := by
  rw [linesEnded, terminated_nil h, List.takeWhile_nil]

theorem linesEnded_line (h : 10 ∉ t) (hne : t ≠ []) : linesEnded (t ++ 10 :: s) = t :: linesEnded s := by
  rw [linesEnded, terminated_cons h, List.takeWhile_cons_of_pos (by simpa using hne), linesEnded]

theorem linesEnded_empty : linesEnded (10 :: s) = [] := by
  rw [linesEnded, ← List.nil_append (10 :: s), terminated_cons List.not_mem_nil, List.takeWhile_cons_of_neg (by simp)]

/-- The last line is missing if no line is empty. -/
theorem linesEnded_eq : linesEnded s = linesOf s ↔ [] ∈ s.splitOn 10 := by
  rw [linesEnded, linesOf, terminated, takeWhile_dropLast_eq (List.splitOn_ne_nil _ _)]
  constructor
  · rintro ⟨t, ht, hempty⟩
    rw [decide_eq_false_iff_not, not_not] at hempty
    exact hempty ▸ ht
  · exact fun h => ⟨[], h, rfl⟩

/-! ## Pieces -/

theorem takeWhile_line (h : 10 ∉ t) : (t ++ 10 :: u).takeWhile (· ≠ 10) = t := by
  rw [List.takeWhile_append_of_pos fun b hb => by simpa using ne_of_mem_of_not_mem hb h, List.takeWhile_cons_of_neg (by simp),
    List.append_nil]

/-- A piece ends the line, or all of it belongs to the line. -/
theorem chunk_cases (hs : s ≠ []) : (∃ w u, 10 ∉ w ∧ s = w ++ 10 :: u ∧ chunk BUFFSIZE s = w ++ [10]) ∨
    ∃ w u, w ≠ [] ∧ 10 ∉ w ∧ s = w ++ u ∧ chunk BUFFSIZE s = w := by
  -- without a newline in the piece
  have hpart : 10 ∉ chunk BUFFSIZE s → ∃ w u, w ≠ [] ∧ 10 ∉ w ∧ s = w ++ u ∧ chunk BUFFSIZE s = w := by
    refine fun hno => ⟨chunk BUFFSIZE s, s.drop _, ?_, hno, (List.take_append_drop _ s).symm, rfl⟩
    obtain ⟨b, s', rfl⟩ := List.exists_cons_of_ne_nil hs
    rw [chunk, ne_eq, List.take_eq_nil_iff]
    simp
  by_cases hmem : 10 ∈ s
  · obtain ⟨w, u, hsplit, hw⟩ := List.eq_append_cons_of_mem hmem
    by_cases hfit : w.length + 1 ≤ 255
    · refine .inl ⟨w, u, hw, hsplit, ?_⟩
      have hmin : min (BUFFSIZE - 1) (w.length + 1) = w.length + 1 := min_eq_right hfit
      rw [chunk, hsplit, takeWhile_line hw, hmin, List.take_append, List.take_of_length_le (Nat.le_succ _), Nat.add_sub_cancel_left]
      rfl
    · refine .inr (hpart fun h => hw ?_)
      have hmin : min (BUFFSIZE - 1) (w.length + 1) = 255 := min_eq_left (Nat.le_of_not_le hfit)
      rw [chunk, hsplit, takeWhile_line hw, hmin, List.take_append_of_le_length (by omega)] at h
      exact List.mem_of_mem_take h
  · exact .inr (hpart fun h => hmem (List.mem_of_mem_take h))

/-- `fgets` at the end of the input, and before. -/
theorem wp_fgets_nil {Q : Option CString → Cli → Prop} (hs : c.stdin = []) : wp cli True (fgets BUFFSIZE) Q c ↔ Q none c :=
  wp_op_some (by simp only [cli, hs])

theorem wp_fgets_cons {Q : Option CString → Cli → Prop} (hs : c.stdin ≠ []) (hsplit : c.stdin = chunk BUFFSIZE c.stdin ++ u) :
    wp cli True (fgets BUFFSIZE) Q c ↔ Q (some (chunk BUFFSIZE c.stdin)) { c with stdin := u } := by
  refine wp_op_some ?_
  have hdrop : c.stdin.drop (chunk BUFFSIZE c.stdin).length = u := by
    nth_rewrite 2 [hsplit]
    exact List.drop_left
  cases hstdin : c.stdin with
  | nil => exact absurd hstdin hs
  | cons b s =>
    simp only [cli, hstdin]
    rw [← hstdin, hdrop]

/-! ## A line -/

/-- `strcat` into memory of the right size. -/
theorem wp_strcat {line : CString} {Q : Buffer → Cli → Prop} :
    wp cli True (strcat ⟨str.text.length + line.length + 1, str.text⟩ line) Q c ↔
      Q ⟨str.text.length + line.length + 1, str.text ++ line⟩ c := by
  unfold strcat
  rw [if_neg (lt_irrefl _)]
  exact wp_pure

/-- **`readline`** reads a line that ends with a newline, or the input to its end. -/
theorem wp_readline {old : Option Buffer} {Q : Option Buffer → Cli → Prop} (hnul : 0 ∉ c.stdin)
    (hline : ∀ t u size, 10 ∉ t → c.stdin = t ++ 10 :: u → Q (some ⟨size, t⟩) { c with stdin := u })
    (hend : 10 ∉ c.stdin → Q none { c with stdin := [] }) : wp cli True (readline old) Q c := by
  unfold readline
  dsimp only
  -- what was read of the line, and what is left of the input; the newline may have been read
  refine wp_iterate_of_variant
    (fun s v => ∃ u, v = { c with stdin := u } ∧ 10 ∉ s.1.text ∧ c.stdin = s.1.text ++ if s.2 then u else 10 :: u)
    (fun s v => 2 * v.stdin.length + if s.2 then 1 else 0) ?_ ⟨c.stdin, rfl, List.not_mem_nil, rfl⟩
  rintro ⟨str, nobreak⟩ v ⟨u, rfl, hno, hsplit⟩
  cases nobreak with
  | false =>
    simp only [Bool.not_false, if_true, wp_pure]
    exact hline str.text u str.size hno hsplit
  | true =>
    simp only [Bool.not_true, Bool.false_eq_true, if_false, wp_bind]
    rw [if_pos rfl] at hsplit
    by_cases hu : u = []
    · subst hu
      rw [wp_fgets_nil rfl]
      refine wp_pure.2 (hend ?_)
      rw [hsplit, List.append_nil]
      exact hno
    have hnul' : 0 ∉ u := fun h => hnul (hsplit ▸ List.mem_append_right _ h)
    -- `strlen` of the piece
    have hstrlen : ∀ {w u₂}, u = w ++ u₂ → w.takeWhile (· ≠ 0) = w := fun h => by
      rw [List.takeWhile_eq_self_iff]
      intro b hb
      simpa using ne_of_mem_of_not_mem (h ▸ List.mem_append_left _ hb) hnul'
    rcases chunk_cases hu with ⟨w, u₂, hw, hcut, hchunk⟩ | ⟨w, u₂, hne, hw, hcut, hchunk⟩
    · have hcut' : u = (w ++ [10]) ++ u₂ := by rw [hcut, List.append_assoc, List.singleton_append]
      rw [wp_fgets_cons (c := { c with stdin := u }) hu (hcut'.trans (by rw [hchunk]))]
      dsimp only
      rw [hchunk, hstrlen hcut', if_neg (by simp), if_pos List.getLast?_concat, List.dropLast_concat]
      dsimp only
      by_cases hempty : w.length = 0
      · rw [if_pos hempty, wp_pure]
        refine hline str.text u₂ str.size hno ?_
        rw [hsplit, hcut, List.eq_nil_of_length_eq_zero hempty, List.nil_append]
      · rw [if_neg hempty, wp_bind, wp_strcat, wp_pure]
        refine ⟨⟨u₂, rfl, ?_, ?_⟩, fun _ => ?_⟩
        · exact fun h => (List.mem_append.1 h).elim hno hw
        · rw [hsplit, hcut, List.append_assoc]
          rfl
        · rw [hcut]
          simp only [List.length_append, List.length_cons, Bool.false_eq_true, if_false, if_true]
          omega
    · rw [wp_fgets_cons (c := { c with stdin := u }) hu (hcut.trans (by rw [hchunk]))]
      dsimp only
      have hlast : w.getLast? ≠ some 10 := fun h => hw (List.mem_of_getLast? h)
      have hlen : w.length ≠ 0 := fun h => hne (List.eq_nil_of_length_eq_zero h)
      rw [hchunk, hstrlen hcut, if_neg hlen, if_neg hlast]
      dsimp only
      rw [if_neg hlen, wp_bind, wp_strcat, wp_pure]
      refine ⟨⟨u₂, rfl, ?_, ?_⟩, fun _ => ?_⟩
      · exact fun h => (List.mem_append.1 h).elim hno hw
      · rw [hsplit, hcut, List.append_assoc]
        rfl
      · rw [hcut]
        simp only [List.length_append, if_true]
        omega

/-! ## The input -/

/-- `queue_string` where the queue is not full. -/
theorem wp_queueString {text : CString} {Q : Status → Cli → Prop} (hadds : ∀ n, c.adds n = .ok)
    (hQ : Q .ok { c with adds := rest c.adds, queued := c.queued ++ [text] }) : wp cli True (queueString text) Q c := by
  have hadd : cli (.add text text.length) c = some (Status.ok, { c with adds := rest c.adds, queued := c.queued ++ [text] }) := by
    simp only [cli, hadds 0, if_true, List.take_length]
  unfold queueString
  rw [wp_bind, wp_op_some hadd]
  exact wp_bind.2 (wp_pure.2 (wp_pure.2 hQ))

/-- **`queue_from_stdin`** queues the lines that end with a newline, up to the first empty one. -/
theorem queueFromStdin_spec (hnul : 0 ∉ c.stdin) (hadds : ∀ n, c.adds n = .ok) :
    wp cli True queueFromStdin (fun _ v => v.queued = c.queued ++ linesEnded c.stdin) c := by
  unfold queueFromStdin
  rw [wp_bind, wp_printf]
  -- what was queued, with what will be queued of the rest of the input
  refine wp_iterate_of_variant
    (fun _ v => 0 ∉ v.stdin ∧ (∀ n, v.adds n = .ok) ∧ v.queued ++ linesEnded v.stdin = c.queued ++ linesEnded c.stdin)
    (fun _ v => v.stdin.length) ?_ ⟨hnul, hadds, rfl⟩
  rintro line v ⟨hnul', hadds', hdone⟩
  rw [wp_bind]
  refine wp_readline hnul' (fun t u size ht hsplit => ?_) fun hend => ?_
  · dsimp only
    by_cases hempty : t.length = 0
    · rw [if_pos hempty, wp_pure]
      rw [hsplit, List.eq_nil_of_length_eq_zero hempty, List.nil_append, linesEnded_empty, List.append_nil] at hdone
      exact hdone
    · have hne : t ≠ [] := fun h => hempty (congrArg List.length h)
      rw [if_neg hempty, wp_bind]
      refine wp_queueString hadds' ?_
      rw [if_neg (not_not.2 rfl), wp_bind, wp_printf, wp_pure]
      rw [hsplit, linesEnded_line ht hne] at hdone
      refine ⟨⟨fun h => hnul' ?_, fun n => hadds' (n + 1), ?_⟩, fun _ => ?_⟩
      · rw [hsplit]
        exact List.mem_append_right _ (List.mem_cons_of_mem _ h)
      · rw [← hdone, List.append_assoc]
        rfl
      · rw [hsplit]
        simp only [List.length_append, List.length_cons]
        omega
  · refine wp_pure.2 ?_
    rw [linesEnded_none hend, List.append_nil] at hdone
    exact hdone

/-- **What is queued from the standard input**: every line up to the first empty one, if and only if some line is empty
(the one after a newline at the end counts). -/
theorem lines_queued (c : Cli) (hnul : 0 ∉ c.stdin) (hadds : ∀ n, c.adds n = .ok) :
    ∃ v, Runs cli queueFromStdin c () v ∧ (v.queued = c.queued ++ linesOf c.stdin ↔ [] ∈ c.stdin.splitOn 10) := by
  obtain ⟨_, v, hr, hqueued⟩ := (wp_iff_runs trivial).1 (queueFromStdin_spec hnul hadds)
  refine ⟨v, hr, ?_⟩
  rw [hqueued, List.append_cancel_left_eq]
  exact linesEnded_eq

/-- The input `a\nb\n`. -/
theorem lines_queued_two : ∃ v, Runs cli queueFromStdin (Cli.fresh [97, 10, 98, 10]) () v ∧
    (v.queued = (Cli.fresh [97, 10, 98, 10]).queued ++ linesOf (Cli.fresh [97, 10, 98, 10]).stdin ↔
      [] ∈ (Cli.fresh [97, 10, 98, 10]).stdin.splitOn 10) :=
  lines_queued (Cli.fresh [97, 10, 98, 10]) (by decide) fun _ => rfl

/-- The input `abc`, without a newline: nothing is queued. -/
theorem last_line_lost : ∃ v, Runs cli queueFromStdin (Cli.fresh [97, 98, 99]) () v ∧ v.queued = [] ∧ linesOf [97, 98, 99] = [[97, 98, 99]] := by
  have hrun : (eval cli 60 queueFromStdin (Cli.fresh [97, 98, 99])).map (fun r => r.2.queued) = some [] := by decide +kernel
  obtain ⟨⟨_, v⟩, he, hqueued⟩ := Option.map_eq_some_iff.1 hrun
  exact ⟨v, runs_of_eval cli he, hqueued, by decide⟩

end

end LibShr
