import Vapi.Lib.Binary32
import Vapi.Cache.Hash
import Vapi.Proto.Envelope
import Vapi.Gateway.Api

/-!
# The response cache

`vapi-gateway/src/response_cache.rs`: which requests are cached, the bytes a
key is the hash of, and when two requests have one key.
-/

namespace Vapi.Gateway

open Proto Cache

/-- What a key is made of. -/
structure Asked where
  fingerprint : String
  /-- The caller's namespace. -/
  caller : String
  kind : JobKind
  prompt : List Token
  params : SamplingParams

/-- Whether a request's answer is a function of its input alone. -/
def cacheable (params : SamplingParams) : Bool :=
  params.isDeterministic && params.logprobs.isNone && params.n ≤ 1

namespace Asked

def usizeMax : Nat := 2 ^ 64 - 1

/-- The parameters that are numbers: each takes as many bytes as its type. -/
def numbers (params : SamplingParams) : List UInt8 :=
  ([params.temperature, params.topP, params.minP, params.repetitionPenalty, params.frequencyPenalty,
    params.presencePenalty].flatMap fun f => leBytes 4 (Binary32.bits f)) ++
    leBytes 8 (params.topK.getD usizeMax) ++ leBytes 8 params.maxTokens

def formatTag : Option ResponseFormat → UInt8
  | none => 0
  | some .jsonObject => 1
  | some (.jsonSchema _) => 2

/-- A schema as it is printed. -/
def schemaText (print : Json → String) : Option ResponseFormat → List UInt8
  | some (.jsonSchema schema) => utf8 (print schema)
  | _ => []

def seedBytes (seed : Option UInt64) : List UInt8 :=
  leBytes 8 (seed.elim usizeMax fun s => (s ^^^ 1).toNat) ++ [if seed.isSome then 1 else 0]

def tokenBytes (tokens : List Token) : List UInt8 := tokens.flatMap fun t => leBytes 4 t.toNat

def stopText (stop : Text) : List UInt8 := utf8 (String.ofList stop)

def stopBytes (stops : List Text) : List UInt8 := stops.flatMap fun s => stopText s ++ [0]

/-- What is hashed. -/
def keyBytes (print : Json → String) (r : Asked) : List UInt8 :=
  utf8 r.fingerprint ++ 0 :: (utf8 r.caller ++ 0 :: (utf8 r.kind.debug ++ 0 :: (tokenBytes r.prompt ++ 0 ::
    (numbers r.params ++ formatTag r.params.responseFormat :: (schemaText print r.params.responseFormat ++
      (utf8 (r.params.constraintStartsAfter.getD "") ++ (seedBytes r.params.seed ++
        (stopBytes r.params.stop.stopStrings ++ (leBytes 8 r.params.stop.stopTokenIds.length ++
          tokenBytes r.params.stop.stopTokenIds)))))))))

def key {H : Type} (B : Blake3 H) (print : Json → String) (r : Asked) : H := B.digest (keyBytes print r)

end Asked

/-- The bucket, as its writes and its expiries come. -/
inductive CacheOp (H : Type)
  | put (r : Asked) (entry : CachedResponse)
  | expire (key : H)

namespace CacheOp

variable {H : Type} [DecidableEq H]

def apply (B : Blake3 H) (print : Json → String) (bucket : H → Option CachedResponse) :
    CacheOp H → H → Option CachedResponse
  | .put r entry => Function.update bucket (r.key B print) (some entry)
  | .expire key => Function.update bucket key none

def run (B : Blake3 H) (print : Json → String) (ops : List (CacheOp H)) : H → Option CachedResponse :=
  ops.foldl (apply B print) fun _ => none

/-- What is found under a key was put there. -/
theorem run_put {B : Blake3 H} {print : Json → String} {ops : List (CacheOp H)} {key : H} {entry : CachedResponse}
    (found : run B print ops key = some entry) : ∃ r, .put r entry ∈ ops ∧ r.key B print = key := by
  induction ops using List.reverseRecOn with
  | nil => cases found
  | append_singleton ops op ih =>
    rw [run, List.foldl_append, ← run] at found
    have before : run B print ops key = some entry → ∃ r, .put r entry ∈ ops ++ [op] ∧ r.key B print = key := by
      intro found
      obtain ⟨r, mem, its⟩ := ih found
      exact ⟨r, List.mem_append_left _ mem, its⟩
    cases op with
    | put r e =>
      by_cases its : key = r.key B print
      · subst its
        simp only [List.foldl_cons, List.foldl_nil, apply, Function.update_self, Option.some.injEq] at found
        exact ⟨r, by simp [found], rfl⟩
      · rw [List.foldl_cons, List.foldl_nil, apply, Function.update_of_ne its] at found
        exact before found
    | expire k =>
      by_cases its : key = k
      · subst its
        simp [apply] at found
      · rw [List.foldl_cons, List.foldl_nil, apply, Function.update_of_ne its] at found
        exact before found

end CacheOp

end Vapi.Gateway
