import Vapi.Worker.Acknowledged
import Vapi.Worker.Consumer

/-!
# What is sent to whom

The subjects of one request, and the cancels that a worker hears.
-/

namespace Vapi.Worker

open Proto Subject Transition

def Label.subject {O M : Type} : Label O M → Option String
  | .cancel subject => some subject
  | _ => none

variable {E O M : Type} {w : WorkerEngine E O} {maxStepFailures : Nat} {decode : M → Option Job} {s t : Main E M}
  {l : Label O M}

section Example

end Example

end Vapi.Worker
