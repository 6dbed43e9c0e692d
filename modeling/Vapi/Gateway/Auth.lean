import Vapi.Gateway.Calls
import Vapi.Lib.Radix
import Vapi.Lib.Utf8

/-!
# Keys

`vapi-core/src/auth.rs` and `vapi-gateway/src/auth.rs`: who a request is from.
How a string is shown in a warning and the digest are parameters.
-/

namespace Vapi

open Gateway (trim)

structure ApiKey where
  name : Text
  key : Text
  ns : Option Text := none
  deriving DecidableEq

/-- Two keys share nothing unless they are given the same namespace. -/
def ApiKey.namespaceOf (k : ApiKey) : Text := k.ns.getD k.name

structure AuthConfig where
  keys : List ApiKey

structure Principal where
  name : Text
  ns : Text
  deriving DecidableEq

def Principal.anonymous (ns : Text) : Principal := ⟨"anonymous".toList, ns⟩

def Principal.of (k : ApiKey) : Principal := ⟨k.name, k.namespaceOf⟩

def asBytes (text : Text) : List UInt8 := text.flatMap String.utf8EncodeChar

def constantTimeEq (a b : List UInt8) : Bool :=
  if a.length ≠ b.length then false
  else (a.zip b).foldl (fun diff x => diff ||| (x.1 ^^^ x.2)) 0 = 0

namespace AuthConfig

def enabled (cfg : AuthConfig) : Bool := !cfg.keys.isEmpty

/-- Find the key a caller presented. The loop always runs to the end. -/
def lookup (hash : List UInt8 → List UInt8) (cfg : AuthConfig) (presented : Text) : Option ApiKey :=
  cfg.keys.foldl
    (fun found candidate =>
      if constantTimeEq (hash (asBytes presented)) (hash (asBytes candidate.key)) then some candidate else found) none

/-- The loop of `problems`, with the secrets seen and whose they were. -/
def problemsFrom (debug : Text → Text) : List (Text × Text) → List ApiKey → List Text
  | _, [] => []
  | seen, k :: rest =>
    let empty := if trim k.key = [] then ["key ".toList ++ debug k.name ++ " has an empty secret".toList] else []
    let shared := match seen.find? (·.1 = k.key) with
      | some previous => ["keys ".toList ++ debug previous.2 ++ " and ".toList ++ debug k.name ++
          " share a secret, so they cannot be told apart".toList]
      | none => []
    empty ++ shared ++ problemsFrom debug ((k.key, k.name) :: seen) rest

def problems (debug : Text → Text) (cfg : AuthConfig) : List Text := problemsFrom debug [] cfg.keys

end AuthConfig

theorem asBytes_injective : Function.Injective asBytes :=
  Function.LeftInverse.injective fun t => Utf8.lossy_encoded t

theorem fold_or {xs : List (UInt8 × UInt8)} {diff : UInt8} :
    xs.foldl (fun diff x => diff ||| (x.1 ^^^ x.2)) diff = 0 ↔ diff = 0 ∧ ∀ x ∈ xs, x.1 = x.2 := by
  induction xs generalizing diff with
  | nil => simp
  | cons x xs ih => simp [ih, UInt8.or_eq_zero_iff, and_assoc]

/-- No byte is skipped, and the answer is equality. -/
theorem constantTimeEq_iff {a b : List UInt8} : constantTimeEq a b = true ↔ a = b := by
  unfold constantTimeEq
  split
  · rename_i apart
    exact ⟨fun is => (by cases is), fun same => absurd (congrArg List.length same) apart⟩
  · rename_i same
    rw [decide_eq_true_eq, fold_or, and_iff_right rfl]
    constructor
    · intro all
      refine List.ext_getElem (not_not.mp same) fun i low high => ?_
      exact all (a[i], b[i]) (by rw [← List.getElem_zip]; exact List.getElem_mem (by simp; omega))
    · rintro rfl x mem
      obtain ⟨i, low, rfl⟩ := List.mem_iff_getElem.mp mem
      simp

namespace AuthConfig

variable {hash : List UInt8 → List UInt8} {cfg : AuthConfig} {presented : Text}

/-- No other text has the digest of a configured secret. -/
def Unforged (hash : List UInt8 → List UInt8) (cfg : AuthConfig) : Prop :=
  ∀ presented, ∀ k ∈ cfg.keys, hash (asBytes presented) = hash (asBytes k.key) → presented = k.key

theorem foldl_found {p : ApiKey → Bool} {keys : List ApiKey} {found : Option ApiKey} :
    keys.foldl (fun found k => if p k then some k else found) found = (keys.reverse.find? p).or found := by
  induction keys generalizing found with
  | nil => rfl
  | cons k keys ih =>
    rw [List.foldl_cons, ih, List.reverse_cons, List.find?_append, Option.or_assoc]
    cases hit : p k <;> simp [hit]

/-- The last key of the secret is found, and none by any other text. -/
theorem lookup_eq_some (free : Unforged hash cfg) {k : ApiKey} :
    cfg.lookup hash presented = some k ↔
      ∃ before after, cfg.keys = before ++ k :: after ∧ k.key = presented ∧ ∀ k' ∈ after, k'.key ≠ presented := by
  unfold lookup
  rw [foldl_found, Option.or_none, List.find?_eq_some_iff_append]
  constructor
  · rintro ⟨hit, as, bs, split, none⟩
    have keys : cfg.keys = bs.reverse ++ k :: as.reverse := by
      rw [← List.reverse_reverse cfg.keys, split]
      simp
    have own := (free presented k (by simp [keys]) (constantTimeEq_iff.mp hit)).symm
    refine ⟨bs.reverse, as.reverse, keys, own, fun k' mem same => ?_⟩
    have again : constantTimeEq (hash (asBytes presented)) (hash (asBytes k'.key)) = true := by
      rw [constantTimeEq_iff, same]
    simpa [again] using none k' (List.mem_reverse.mp mem)
  · rintro ⟨before, after, split, rfl, none⟩
    refine ⟨constantTimeEq_iff.mpr rfl, after.reverse, before.reverse, by simp [split], fun k' mem => ?_⟩
    have later := List.mem_reverse.mp mem
    rw [Bool.not_eq_true', Bool.eq_false_iff]
    intro hit
    exact none k' later (free k.key k' (by simp [split, later]) (constantTimeEq_iff.mp hit)).symm

theorem problemsFrom_eq_nil {debug : Text → Text} {seen : List (Text × Text)} {keys : List ApiKey} :
    problemsFrom debug seen keys = [] ↔
      (∀ k ∈ keys, trim k.key ≠ []) ∧ (keys.map ApiKey.key).Nodup ∧ ∀ k ∈ keys, k.key ∉ seen.map Prod.fst := by
  induction keys generalizing seen with
  | nil => simp [problemsFrom]
  | cons k rest ih =>
    have visible : (if trim k.key = [] then ["key ".toList ++ debug k.name ++ " has an empty secret".toList] else []) =
      [] ↔
        trim k.key ≠ [] := by
      split <;> simp_all
    have unseen : seen.find? (·.1 = k.key) = none ↔ k.key ∉ seen.map Prod.fst := by
      rw [List.find?_eq_none, List.mem_map]
      constructor
      · rintro none ⟨x, mem, is⟩
        exact none x mem (decide_eq_true is)
      · intro none x mem is
        exact none ⟨x, mem, of_decide_eq_true is⟩
    rw [problemsFrom, List.append_eq_nil_iff, List.append_eq_nil_iff, visible, ih]
    cases found : seen.find? (·.1 = k.key) with
    | some previous =>
      have shared : k.key ∈ seen.map Prod.fst := not_not.mp fun new => by
        rw [unseen.mpr new] at found
        cases found
      constructor
      · rintro ⟨⟨-, is⟩, -⟩
        cases is
      · rintro ⟨-, -, apart⟩
        exact absurd shared (apart k (by simp))
    | none =>
      have new := unseen.mp found
      constructor
      · rintro ⟨⟨some_, -⟩, all, distinct, apart⟩
        refine ⟨List.forall_mem_cons.mpr ⟨some_, all⟩, List.nodup_cons.mpr ⟨fun mem => ?_, distinct⟩,
          List.forall_mem_cons.mpr ⟨new, fun k' mem old => apart k' mem (List.mem_cons_of_mem _ old)⟩⟩
        obtain ⟨k', mem, same⟩ := List.mem_map.mp mem
        exact apart k' mem (same ▸ List.mem_cons_self)
      · rintro ⟨all, distinct, apart⟩
        obtain ⟨some_, all⟩ := List.forall_mem_cons.mp all
        obtain ⟨alone, distinct⟩ := List.nodup_cons.mp distinct
        refine ⟨⟨some_, rfl⟩, all, distinct, fun k' mem old => ?_⟩
        rcases List.mem_cons.mp old with same | old
        · have same : k'.key = k.key := same
          exact alone (same ▸ List.mem_map_of_mem mem)
        · exact (List.forall_mem_cons.mp apart).2 k' mem old

end AuthConfig

namespace Gateway

/-- The headers that may carry a key, where they are text. -/
structure Headers where
  authorization : Option Text := none
  xApiKey : Option Text := none
  cookie : Option Text := none

def cookieName : Text := "vapi_key".toList

/-- `str::split_once`. -/
def splitOnce (c : Char) : Text → Option (Text × Text)
  | [] => none
  | x :: rest => if x = c then some ([], rest) else (splitOnce c rest).map fun kv => (x :: kv.1, kv.2)

/-- The key of a bearer token, in the two spellings that are known. -/
def bearer (value : Text) : Option Text :=
  let trimmed := trim value
  (trimmed.dropPrefix? "Bearer ".toList <|> trimmed.dropPrefix? "bearer ".toList).map trim

/-- One cookie out of a header. -/
def cookieValue (header name : Text) : Option Text :=
  (header.splitOnP (· == ';')).findSome? fun pair =>
    (splitOnce '=' pair).bind fun kv => if trim kv.1 = name then some (trim kv.2) else none

/-- Two bytes as a number: they are two characters, or one, which is no digit. -/
def hexByte (h l : UInt8) : Option UInt8 :=
  if h < 0x80 ∧ l < 0x80 then (Radix.fromStr 16 256 [Char.ofNat h.toNat, Char.ofNat l.toNat]).map UInt8.ofNat else none

/-- The loop of `percent_decode`. -/
def percentBytes : List UInt8 → List UInt8
  | [] => []
  | b :: rest =>
    if b = 0x25 then
      match rest with
      | h :: l :: more =>
        match hexByte h l with
        | some byte => byte :: percentBytes more
        | none => b :: percentBytes (h :: l :: more)
      | short => b :: percentBytes short
    else (if b = 0x2B then 0x20 else b) :: percentBytes rest

def percentDecode (text : Text) : Text := Utf8.lossy (percentBytes (asBytes text))

/-- One parameter out of a query string. -/
def queryValue (query name : Text) : Option Text :=
  (query.splitOnP (· == '&')).findSome? fun pair =>
    (splitOnce '=' pair).bind fun kv => if kv.1 = name then some (percentDecode kv.2) else none

/-- Pull a presented key out of a request. -/
def presentedKey (headers : Headers) (query : Option Text) : Option Text :=
  headers.authorization.bind bearer <|> headers.xApiKey.map trim <|>
    headers.cookie.bind (cookieValue · cookieName) <|> query.bind (queryValue · "key".toList)

def unauthorized : Bool → Bool → String
  | true, _ => "invalid api key"
  | false, true => "missing api key; open /dashboard?key=<key> once"
  | false, false => "missing api key; send `Authorization: Bearer <key>`"

/-- Reject a request that has no valid key, and name the principal otherwise. -/
def requireKey (hash : List UInt8 → List UInt8) (cfg : AuthConfig) (defaultNamespace : Text) (headers : Headers)
    (path : Text) (query : Option Text) : Except String Principal :=
  if cfg.enabled then
    let presented := presentedKey headers query
    match presented.bind (cfg.lookup hash) with
    | some key => .ok (.of key)
    | none => .error (unauthorized presented.isSome ("/dashboard".toList.isPrefixOf path))
  else .ok (.anonymous defaultNamespace)

section Requests

variable {hash : List UInt8 → List UInt8} {cfg : AuthConfig}

/-- Who a request is from. Without configured keys it is nobody, in the default namespace. With keys, it passes if and
only if what it presents is the secret of one, and is then from the last of that secret. A configuration without
warnings is one of which each key stands for itself, and nothing blank passes. -/
theorem request_from (free : cfg.Unforged hash) (debug : Text → Text) (defaultNamespace : Text) (headers : Headers)
    (path : Text) (query : Option Text) :
    (∀ principal, requireKey hash cfg defaultNamespace headers path query = .ok principal ↔
      cfg.keys = [] ∧ principal = .anonymous defaultNamespace ∨
        ∃ before k after, cfg.keys = before ++ k :: after ∧ presentedKey headers query = some k.key ∧
          (∀ k' ∈ after, k'.key ≠ k.key) ∧ principal = .of k) ∧
      (cfg.problems debug = [] → ∀ k ∈ cfg.keys, presentedKey headers query = some k.key →
        requireKey hash cfg defaultNamespace headers path query = .ok (.of k)) ∧
      (cfg.problems debug = [] → cfg.keys ≠ [] → ∀ blank, trim blank = [] → presentedKey headers query = some blank →
        requireKey hash cfg defaultNamespace headers path query = .error "invalid api key") := by
  have passes : ∀ principal, requireKey hash cfg defaultNamespace headers path query = .ok principal ↔
      cfg.keys = [] ∧ principal = .anonymous defaultNamespace ∨
        ∃ before k after, cfg.keys = before ++ k :: after ∧ presentedKey headers query = some k.key ∧
          (∀ k' ∈ after, k'.key ≠ k.key) ∧ principal = .of k := by
    intro principal
    unfold requireKey AuthConfig.enabled
    by_cases off : cfg.keys = []
    · simp [off, eq_comm]
    · have on : (!cfg.keys.isEmpty) = true := by simpa using off
      rw [if_pos on]
      dsimp only
      constructor
      · intro is
        cases told : (presentedKey headers query).bind (cfg.lookup hash) with
        | none =>
          rw [told] at is
          cases is
        | some k =>
          rw [told] at is
          obtain ⟨presented, shown, found⟩ := Option.bind_eq_some_iff.mp told
          obtain ⟨before, after, split, rfl, last⟩ := (AuthConfig.lookup_eq_some free).mp found
          exact .inr ⟨before, k, after, split, shown, last, (Except.ok.inj is).symm⟩
      · rintro (⟨none, -⟩ | ⟨before, k, after, split, shown, last, rfl⟩)
        · exact absurd none off
        · have found := (AuthConfig.lookup_eq_some free).mpr ⟨before, after, split, rfl, last⟩
          rw [shown, Option.bind_some, found]
  refine ⟨passes, fun clean k mem shown => ?_, fun clean on blank empty shown => ?_⟩
  · obtain ⟨-, distinct, -⟩ := AuthConfig.problemsFrom_eq_nil.mp clean
    obtain ⟨before, after, split⟩ := List.append_of_mem mem
    rw [split, List.map_append, List.map_cons] at distinct
    have alone := (List.nodup_cons.mp (List.nodup_append.mp distinct).2.1).1
    exact (passes _).mpr (.inr ⟨before, k, after, split, shown,
      fun k' later same => alone (same ▸ List.mem_map_of_mem later), rfl⟩)
  · obtain ⟨visible, -, -⟩ := AuthConfig.problemsFrom_eq_nil.mp clean
    have refused : cfg.lookup hash blank = none := by
      refine Option.eq_none_iff_forall_ne_some.mpr fun k found => ?_
      obtain ⟨before, after, split, rfl, -⟩ := (AuthConfig.lookup_eq_some free).mp found
      exact visible k (by simp [split]) empty
    have enabled : cfg.enabled = true := by simpa [AuthConfig.enabled] using on
    simp [requireKey, enabled, shown, refused, unauthorized]

def alice : ApiKey := { name := "alice".toList, key := "sk-a".toList }

def bob : ApiKey := { name := "bob".toList, key := "sk-b".toList, ns := some "team".toList }

theorem request_from_two :
    requireKey id ⟨[alice, bob]⟩ "default".toList { authorization := some " bearer  sk-b ".toList } "/v1".toList none =
        .ok ⟨"bob".toList, "team".toList⟩ ∧
      requireKey id ⟨[alice, bob]⟩ "default".toList { authorization := some "Bearer ".toList, xApiKey := some [] }
        "/v1".toList none = .error "invalid api key" := by
  have free : AuthConfig.Unforged id ⟨[alice, bob]⟩ := fun presented k _ same => asBytes_injective same
  have clean : AuthConfig.problems id ⟨[alice, bob]⟩ = [] := by decide
  exact ⟨(request_from free id _ _ _ _).2.1 clean bob (by simp) (by decide),
    (request_from free id _ _ _ _).2.2 clean (by simp) [] (by decide) (by decide)⟩

end Requests

section Query

/-- How bytes may stand in a query: as the characters they are of, a blank as a plus, and any byte as an escape. -/
inductive Spelt : List UInt8 → Text → Prop
  | nil : Spelt [] []
  | plain {bytes : List UInt8} {text : Text} {c : Char} (own : c ≠ '+' ∧ c ≠ '%' ∧ c ≠ '&') (rest : Spelt bytes text) :
    Spelt (String.utf8EncodeChar c ++ bytes) (c :: text)
  | plus {bytes : List UInt8} {text : Text} (rest : Spelt bytes text) : Spelt (0x20 :: bytes) ('+' :: text)
  | escaped {bytes : List UInt8} {text : Text} {b : UInt8} {h l : Char}
    (reads : Radix.fromStr 16 256 [h, l] = some b.toNat) (rest : Spelt bytes text) :
    Spelt (b :: bytes) ('%' :: h :: l :: text)

theorem encoded_ascii {c : Char} (small : c.utf8Size = 1) :
    String.utf8EncodeChar c = [UInt8.ofNat c.toNat] ∧ c.toNat < 128 := by
  have low : c.toNat ≤ 0x7f := by
    unfold Char.utf8Size at small
    dsimp only at small
    split at small
    · rename_i low
      exact UInt32.le_iff_toNat_le.mp low
    · split at small
      · cases small
      · split at small <;> cases small
  refine ⟨?_, by omega⟩
  unfold String.utf8EncodeChar
  exact if_pos low

/-- No byte of a character is one of another that is ASCII. -/
theorem encoded_own {c : Char} {b : UInt8} (mem : b ∈ String.utf8EncodeChar c) (low : b.toNat < 128) :
    c.toNat = b.toNat := by
  have byte : ∀ {n}, n < 256 → (UInt8.ofNat n).toNat = n := fun small => UInt8.toNat_ofNat_of_lt' small
  have valid : c.val.toNat < 0x110000 := by
    have valid := c.valid
    unfold UInt32.isValidChar Nat.isValidChar at valid
    omega
  unfold String.utf8EncodeChar at mem
  dsimp only at mem
  change c.val.toNat = _
  generalize c.val.toNat = v at valid mem ⊢
  split at mem
  · obtain rfl := List.mem_singleton.mp mem
    rw [byte (by omega)]
  · exfalso
    split at mem
    · simp only [List.mem_cons, List.not_mem_nil, or_false] at mem
      rcases mem with rfl | rfl <;> rw [byte (by omega)] at low <;> omega
    · split at mem <;> simp only [List.mem_cons, List.not_mem_nil, or_false] at mem
      · rcases mem with rfl | rfl | rfl <;> rw [byte (by omega)] at low <;> omega
      · rcases mem with rfl | rfl | rfl | rfl <;> rw [byte (by omega)] at low <;> omega

theorem percentBytes_cons {b : UInt8} (rest : List UInt8) (other : b ≠ 0x25) :
    percentBytes (b :: rest) = (if b = 0x2B then 0x20 else b) :: percentBytes rest := by
  match rest with
  | [] => simp [percentBytes, other]
  | [c] => simp [percentBytes, other]
  | c :: d :: rest => rw [percentBytes, if_neg other]

theorem percentBytes_append {bytes : List UInt8} (rest : List UInt8) (own : ∀ b ∈ bytes, b ≠ 0x25 ∧ b ≠ 0x2B) :
    percentBytes (bytes ++ rest) = bytes ++ percentBytes rest := by
  induction bytes with
  | nil => rfl
  | cons b bytes ih =>
    obtain ⟨percent, plus⟩ := own b (by simp)
    rw [List.cons_append, percentBytes_cons _ percent, if_neg plus, ih fun b mem => own b (by simp [mem])]
    rfl

theorem hexDigit_small {h l : Char} {n : Nat} (reads : Radix.fromStr 16 256 [h, l] = some n) :
    (h.utf8Size = 1 ∧ h ≠ '&') ∧ l.utf8Size = 1 ∧ l ≠ '&' := by
  have digit : ∀ {c : Char} {d : Nat}, Radix.digit? 16 c = some d → c.utf8Size = 1 ∧ c ≠ '&' := by
    refine fun is => ⟨Radix.digit_utf8Size is, ?_⟩
    rintro rfl
    exact absurd is (by simp [show Radix.digit? 16 '&' = none by decide])
  obtain ⟨d, e, first, second, -⟩ := Radix.fromStr_pair.mp reads
  refine ⟨?_, digit second⟩
  rcases first with ⟨rfl, -⟩ | ⟨-, is⟩
  · decide
  · exact digit is

theorem Spelt.decoded {bytes : List UInt8} {text : Text} (spelt : Spelt bytes text) :
    percentBytes (asBytes text) = bytes ∧ '&' ∉ text := by
  induction spelt with
  | nil => exact ⟨rfl, by simp⟩
  | @plain bytes text c own rest ih =>
    refine ⟨?_, by simp [ih.2, own.2.2.symm]⟩
    have is : asBytes (c :: text) = String.utf8EncodeChar c ++ asBytes text := rfl
    rw [is, percentBytes_append _ fun b mem => ?_, ih.1]
    constructor <;> rintro rfl
    · exact own.2.1 (Char.toNat_inj.mp (encoded_own mem (by decide)))
    · exact own.1 (Char.toNat_inj.mp (encoded_own mem (by decide)))
  | @plus bytes text rest ih =>
    refine ⟨?_, by simp [ih.2]⟩
    have is : asBytes ('+' :: text) = 0x2B :: asBytes text := rfl
    rw [is, percentBytes_cons _ (by decide), if_pos rfl, ih.1]
  | @escaped bytes text b h l reads rest ih =>
    obtain ⟨⟨first, apart⟩, second, apart'⟩ := hexDigit_small reads
    refine ⟨?_, by simp [ih.2, apart.symm, apart'.symm]⟩
    obtain ⟨high, small⟩ := encoded_ascii first
    obtain ⟨low, small'⟩ := encoded_ascii second
    have is : asBytes ('%' :: h :: l :: text) = 0x25 :: UInt8.ofNat h.toNat :: UInt8.ofNat l.toNat :: asBytes text := by
      change _ :: (String.utf8EncodeChar h ++ (String.utf8EncodeChar l ++ asBytes text)) = _
      rw [high, low]
      rfl
    have byte : hexByte (UInt8.ofNat h.toNat) (UInt8.ofNat l.toNat) = some b := by
      have back : ∀ {c : Char}, c.toNat < 128 → (UInt8.ofNat c.toNat).toNat = c.toNat :=
        fun small => UInt8.toNat_ofNat_of_lt' (small.trans (by decide))
      have ascii : ∀ {c : Char}, c.toNat < 128 → UInt8.ofNat c.toNat < 0x80 :=
        fun small => UInt8.lt_iff_toNat_lt.mpr (by rw [back small]; exact small)
      rw [hexByte, if_pos ⟨ascii small, ascii small'⟩, back small, back small', Char.ofNat_toNat, Char.ofNat_toNat,
        reads]
      simp
    rw [is, percentBytes, if_pos rfl]
    simp only [byte, ih.1]

/-- What a browser keeps of a cookie that is set, and sends back. -/
def kept (set : Text) : Text := set.takeWhile (· ≠ ';')

end Query

end Gateway

end Vapi
