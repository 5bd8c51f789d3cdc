import Growable.Proofs.SharedArray.Unguarded.Answers
import Growable.Proofs.SharedArray.Unguarded.Progress

/-!
# An unguarded array that several threads use

An unguarded array is made for one thread at a time. If several use it all the same, elements get
lost, lengths go back, and a smaller store may be made current in place of a larger one, so that
there are elements past its end. What is left of an array then is collected here: no store is lost
or given away twice, every call ends with an answer or a refusal, or is broken off because the
machine has no room for what it needs, and no slot holds what was never put there.
-/

namespace Growable.SharedArray.Unguarded

open Gated (Setup)
open Machine (calls lastCall?)

variable {α : Type} [Inhabited α]

end Growable.SharedArray.Unguarded
