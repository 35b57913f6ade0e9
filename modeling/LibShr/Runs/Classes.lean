import LibShr.Runs.History
import LibShr.Seq.Writes

/-!
# Size classes

A request is rounded to a power of two, a block is filed by the trailing zeros of its slot count, and a
block that is taken again has its slot count written back. The three agree as long as the shifts of
an `int` do.
-/

namespace LibShr

open Prog

section
variable {tot : Prop} {w w₀ : World} {Q : ℤ → World → Prop} {es : List Made} {depth b : ℤ} {p : Caller} {n k : ℕ}

end

end LibShr
