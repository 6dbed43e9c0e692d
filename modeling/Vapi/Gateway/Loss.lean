import Vapi.Gateway.Stream

/-!
# What is lost is noticed

A channel between a worker and a gateway that may drop messages, but keeps
their order.
-/

namespace Vapi

open Proto Worker

/-- A request's deltas as they are numbered from `v` on. -/
def number (v : Nat) : List Delta → List DeltaMsg
  | [] => []
  | d :: ds => ⟨v, d⟩ :: number (v + 1) ds

theorem number_delta (v : Nat) (ds : List Delta) : (number v ds).map DeltaMsg.delta = ds := by
  induction ds generalizing v with
  | nil => rfl
  | cons d ds ih => simp [number, ih]

namespace Worker

variable {rid : RequestId} {ops : List Numbered} {n : Numbering} {op : Numbered}

theorem number_append (v : Nat) (ds es : List Delta) : number v (ds ++ es) = number v ds ++ number (v + ds.length) es := by
  induction ds generalizing v with
  | nil => rfl
  | cons d ds ih =>
    have shift : v + (ds.length + 1) = v + 1 + ds.length := by omega
    simp [number, ih, shift]

end Worker

namespace Gateway.TokenStream

variable {s : TokenStream} {msg : DeltaMsg} {rest got init : List DeltaMsg} {ds : List Delta} {v : Nat}

theorem received_sublist (s : TokenStream) {some_ all : List Worker.Published} (h : some_.Sublist all) :
    (s.received some_).Sublist (s.received all) :=
  (h.filter _).map _

end Gateway.TokenStream

end Vapi
