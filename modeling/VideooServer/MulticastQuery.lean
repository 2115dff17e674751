import VideooServer.HttpQuery
import VideooServer.TextSearch
import VideooServer.Utf8Text

/-!
# The query string of a published stream

What the multicast application reads from the query string under which an
encoder publishes: the whole string is decoded before it is split, so a
separator cannot be escaped. The parameter lists that some query string
carries are determined, and the check that a publish request must pass.
Script texts are kept as UTF-8.
-/

namespace VideooServer.MulticastQuery

open ByteText PercentCodec HttpQuery Utf8Text TextSearch

/-- A parameter object, in the order of the assignments to it. -/
abbrev Params := List (Bytes × Bytes)

/-- The value of a parameter. The last assignment counts. -/
def getParam (params : Params) (name : Bytes) : Option Bytes :=
  ((params.filter fun p => p.1 == name).getLast?).map Prod.snd

/-- decodeURIComponent, none when it throws: the escapes must be well formed
and stand for UTF-8. -/
def decodeURIComponent (s : Bytes) : Option Bytes :=
  (unescape .encodePath s).bind fun d => if validUtf8 d then some d else none

/-- The name and the value of one pair. Without an equals sign the value is
empty. -/
def splitPair (pair : Bytes) : Bytes × Bytes :=
  (upTo (byte '=') pair, pastFirst (byte '=') pair)

/-- parseQueryString: no parameters when the string cannot be decoded. -/
def parseQueryString (queryString : Bytes) : Params :=
  match decodeURIComponent queryString with
  | none => []
  | some decoded => if decoded = [] then [] else (decoded.splitOn (byte '&')).map splitPair

/-- A parameter that is present and not empty. -/
def truthy (params : Params) (name : Bytes) : Bool := (getParam params name).getD [] ≠ []

/-- The parameter with the event type. -/
def typeParam : Bytes := ascii "fms.multicast.type"

/-- The parameter with the target group. -/
def groupspecParam : Bytes := ascii "fms.multicast.groupspec"

/-- The parameter with the multicast address. -/
def addressParam : Bytes := ascii "fms.multicast.address"

/-- The parameter with the address of the local interface. -/
def interfaceParam : Bytes := ascii "fms.multicast.interface"

/-- The multicast event types. -/
inductive EventType where
  | fusion
  | ip
  | p2p
  deriving DecidableEq

/-- The event type that a text is equal to, under the conversion of texts to
numbers that the comparison makes. -/
def eventType (toNumber : Bytes → Option ℕ) (type : Bytes) : Option EventType :=
  if toNumber type = some 1 then some .fusion
  else if toNumber type = some 2 then some .ip
  else if toNumber type = some 3 then some .p2p
  else none

/-- validateStreamParams. -/
def validateStreamParams (toNumber : Bytes → Option ℕ) (params : Params) : Bool :=
  if params = [] then false
  else if !truthy params typeParam then false
  else
    match eventType toNumber ((getParam params typeParam).getD []) with
    | none => false
    | some type =>
      if !truthy params groupspecParam then false
      else if (type = .fusion ∨ type = .ip) ∧ !truthy params addressParam then false
      else true

/-- resetUriProtocol. When there is no separator, substr counts from the end. -/
def resetUriProtocol (uri desiredProtocol : Bytes) : Bytes :=
  match indexOf (ascii "://") uri with
  | some sepIndex => desiredProtocol ++ uri.drop sepIndex
  | none => desiredProtocol ++ uri.drop (uri.length - 1)

/-- A parameter that a query string can carry. -/
structure Carried (p : Bytes × Bytes) : Prop where
  /-- The name has no separator. -/
  name : byte '&' ∉ p.1 ∧ byte '=' ∉ p.1
  /-- The value may contain equals signs, but no ampersand. -/
  value : byte '&' ∉ p.2
  /-- Both are text. -/
  text : validUtf8 p.1 = true ∧ validUtf8 p.2 = true

/-- A pair as it is written. -/
def joinPair (p : Bytes × Bytes) : Bytes := p.1 ++ byte '=' :: p.2

/-- A query string for a list of parameters, with every byte escaped. -/
def queryString (params : Params) : Bytes :=
  ([byte '&'].intercalate (params.map joinPair)).flatMap escapeByte

variable {toNumber : Bytes → Option ℕ} {params : Params} {p : Bytes × Bytes} {s d : Bytes}

/-- A component is decoded when its escapes are and the result is well
formed. -/
theorem decodeURIComponent_eq_some :
    decodeURIComponent s = some d ↔ unescape .encodePath s = some d ∧ validUtf8 d = true := by
  rw [decodeURIComponent, Option.bind_eq_some_iff]
  constructor
  · rintro ⟨x, hx, h⟩
    split_ifs at h with hv
    obtain rfl := Option.some.inj h
    exact ⟨hx, hv⟩
  · rintro ⟨hd, hv⟩
    exact ⟨d, hd, if_pos hv⟩

/-- A pair is read back when its name has no equals sign. -/
theorem splitPair_joinPair (h : byte '=' ∉ p.1) : splitPair (joinPair p) = p := by
  rw [splitPair, joinPair, upTo_append_cons h, pastFirst_append_cons h]

/-- A pair is well formed when its name and its value are. -/
theorem validUtf8_joinPair : validUtf8 (joinPair p) = true ↔
    validUtf8 p.1 = true ∧ validUtf8 p.2 = true := validUtf8_append_cons_iff (by decide)

/-- A pair that is split off has no separator in its name. -/
theorem carried_splitPair (hamp : byte '&' ∉ s) (hv : validUtf8 s = true) :
    Carried (splitPair s) := by
  by_cases h : byte '=' ∈ s
  · obtain ⟨a, b, rfl, ha⟩ := List.eq_append_cons_of_mem h
    rw [splitPair, upTo_append_cons ha, pastFirst_append_cons ha]
    rw [List.mem_append, List.mem_cons, not_or, not_or] at hamp
    exact ⟨⟨hamp.1, ha⟩, hamp.2.2, (validUtf8_append_cons_iff (by decide)).mp hv⟩
  · rw [splitPair, upTo_of_not_mem h, pastFirst_of_not_mem h]
    exact ⟨⟨hamp, h⟩, by simp, hv, rfl⟩

/-- Well formed pieces are joined to a well formed query. -/
theorem validUtf8_intercalate {pieces : List Bytes} (h : ∀ x ∈ pieces, validUtf8 x = true) :
    validUtf8 ([byte '&'].intercalate pieces) = true := by
  induction pieces with
  | nil => rfl
  | cons x pieces ih =>
    rw [List.forall_mem_cons] at h
    cases pieces with
    | nil => simpa [List.intercalate] using h.1
    | cons y pieces =>
      have hcons : [byte '&'].intercalate (x :: y :: pieces) =
          x ++ byte '&' :: [byte '&'].intercalate (y :: pieces) := by
        simp [List.intercalate]
      rw [hcons, validUtf8_append_cons_iff (by decide)]
      exact ⟨h.1, ih h.2⟩

/-- What is parsed from a query string can be carried by one. -/
theorem carried_of_mem_parseQueryString (h : p ∈ parseQueryString s) : Carried p := by
  rw [parseQueryString] at h
  cases hd : decodeURIComponent s with
  | none => simp [hd] at h
  | some d =>
    rw [hd] at h
    dsimp only at h
    split_ifs at h with hnil
    · simp at h
    · obtain ⟨x, hx, rfl⟩ := List.mem_map.mp h
      have hv := (decodeURIComponent_eq_some.mp hd).2
      exact carried_splitPair (not_mem_of_mem_splitOn d hx)
        (validUtf8_of_mem_splitOn (by decide) d hv hx)

/-- Parameters that can be carried are read back from their query string. -/
theorem parseQueryString_queryString (h : ∀ p ∈ params, Carried p) :
    parseQueryString (queryString params) = params := by
  have hpieces : ∀ x ∈ params.map joinPair, byte '&' ∉ x ∧ validUtf8 x = true := by
    intro x hx
    obtain ⟨p, hp, rfl⟩ := List.mem_map.mp hx
    obtain ⟨⟨hname, -⟩, hvalue, htext⟩ := h p hp
    refine ⟨?_, validUtf8_joinPair.mpr htext⟩
    rw [joinPair, List.mem_append, List.mem_cons, not_or, not_or]
    exact ⟨hname, by decide, hvalue⟩
  have hdecoded : decodeURIComponent (queryString params) =
      some ([byte '&'].intercalate (params.map joinPair)) :=
    decodeURIComponent_eq_some.mpr
      ⟨unescape_flatMap_escapeByte _, validUtf8_intercalate fun x hx => (hpieces x hx).2⟩
  rw [parseQueryString, hdecoded]
  dsimp only
  cases params with
  | nil => rfl
  | cons q params =>
    have hne : [byte '&'].intercalate ((q :: params).map joinPair) ≠ [] := by
      cases params <;> simp [List.intercalate, joinPair]
    have hread : ∀ p ∈ q :: params, (splitPair ∘ joinPair) p = id p :=
      fun p hp => splitPair_joinPair (h p hp).name.2
    rw [if_neg hne, List.splitOn_intercalate _ (fun x hx => (hpieces x hx).1) (by simp),
      List.map_map, List.map_congr_left hread, List.map_id]

/-- What the check of a publish request guarantees. -/
structure Validated (toNumber : Bytes → Option ℕ) (params : Params) (type : EventType)
    (groupspec : Bytes) : Prop where
  /-- The type is one of the three. -/
  event : eventType toNumber ((getParam params typeParam).getD []) = some type
  /-- It is given. -/
  typed : truthy params typeParam = true
  /-- There is a group. -/
  group : getParam params groupspecParam = some groupspec ∧ groupspec ≠ []
  /-- Types that use IP multicast have an address. -/
  address : type ≠ .p2p → truthy params addressParam = true

/-- A parameter counts when it is there and not empty. -/
theorem truthy_iff {name : Bytes} :
    truthy params name = true ↔ ∃ value, getParam params name = some value ∧ value ≠ [] := by
  cases h : getParam params name with
  | none => simp [truthy, h]
  | some value => simp [truthy, h]

/-- A request passes the check exactly when it has a type, a group, and an
address if its type needs one. -/
theorem validateStreamParams_iff :
    validateStreamParams toNumber params = true ↔
      ∃ type groupspec, Validated toNumber params type groupspec := by
  have hempty : params = [] → truthy params typeParam = false := by
    rintro rfl
    rfl
  constructor
  · intro h
    rw [validateStreamParams] at h
    cases hevent : eventType toNumber ((getParam params typeParam).getD []) with
    | none => simp [hevent] at h
    | some type =>
      rw [hevent] at h
      dsimp only at h
      split_ifs at h with hnil htyped hgroup haddress
      obtain ⟨groupspec, hget, hne⟩ := truthy_iff.mp (by simpa using hgroup)
      refine ⟨type, groupspec, hevent, by simpa using htyped, ⟨hget, hne⟩, fun hp2p => ?_⟩
      have huses : type = .fusion ∨ type = .ip := by
        cases type with
        | fusion => exact Or.inl rfl
        | ip => exact Or.inr rfl
        | p2p => exact absurd rfl hp2p
      simpa [huses] using haddress
  · rintro ⟨type, groupspec, h⟩
    have hne : params ≠ [] := by
      intro hnil
      have htyped := h.typed
      rw [hempty hnil] at htyped
      cases htyped
    have hgroup := truthy_iff.mpr ⟨groupspec, h.group⟩
    have haddress : ¬((type = .fusion ∨ type = .ip) ∧ (!truthy params addressParam) = true) := by
      rintro ⟨huses, hmissing⟩
      have hp2p : type ≠ .p2p := by
        rintro rfl
        rcases huses with huses | huses <;> cases huses
      rw [h.address hp2p] at hmissing
      cases hmissing
    rw [validateStreamParams, if_neg hne, h.typed, h.event]
    simp only [Bool.not_true, Bool.false_eq_true, if_false, hgroup]
    rw [if_neg haddress]

end VideooServer.MulticastQuery
