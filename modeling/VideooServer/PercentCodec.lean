import VideooServer.ByteText

/-!
# Percent escapes

Decoding of percent escapes in the places of a URL where Go's net/url
decodes them. Decoding never lengthens a string, shortens it exactly at
the escapes, and is defined exactly when every percent sign introduces
two hexadecimal digits.
-/

namespace VideooServer.PercentCodec

open ByteText

/-- The places of a URL that are decoded. -/
inductive Encoding
  | encodePath
  | encodeUserPassword
  | encodeQueryComponent
  | encodeFragment
  deriving DecidableEq

/-- Hexadecimal digits, of either case. -/
def ishex (c : UInt8) : Bool :=
  (byte '0' ≤ c && c ≤ byte '9') || (byte 'a' ≤ c && c ≤ byte 'f') ||
    (byte 'A' ≤ c && c ≤ byte 'F')

/-- Value of a hexadecimal digit, zero for any other byte. -/
def unhex (c : UInt8) : UInt8 :=
  if byte '0' ≤ c ∧ c ≤ byte '9' then c - byte '0'
  else if byte 'a' ≤ c ∧ c ≤ byte 'f' then c - byte 'a' + 10
  else if byte 'A' ≤ c ∧ c ≤ byte 'F' then c - byte 'A' + 10
  else 0

/-- Decode the escapes of a string, and plus signs in a query component.
A malformed escape fails the whole string. -/
def unescape (mode : Encoding) : Bytes → Option Bytes
  | [] => some []
  | c :: t =>
    if c = byte '%' then
      match t with
      | a :: b :: u =>
        if (ishex a && ishex b) = true then
          (unescape mode u).map ((unhex a <<< 4 ||| unhex b) :: ·)
        else none
      | _ => none
    else if c = byte '+' ∧ mode = .encodeQueryComponent then
      (unescape mode t).map (byte ' ' :: ·)
    else (unescape mode t).map (c :: ·)

variable {mode : Encoding} {s u : Bytes}

/-- A byte that decoding leaves as it is. -/
def Plain (mode : Encoding) (c : UInt8) : Prop :=
  c ≠ byte '%' ∧ ¬(c = byte '+' ∧ mode = .encodeQueryComponent)

instance (mode : Encoding) (c : UInt8) : Decidable (Plain mode c) :=
  inferInstanceAs (Decidable (_ ∧ _))

/-- An escape is decoded to a byte. -/
theorem unescape_escape {a b : UInt8} (h : (ishex a && ishex b) = true) (t : Bytes) :
    unescape mode (byte '%' :: a :: b :: t) =
      (unescape mode t).map ((unhex a <<< 4 ||| unhex b) :: ·) := by
  rw [unescape, if_pos rfl, if_pos h]

/-- A percent sign without two hexadecimal digits after it is refused. -/
theorem unescape_malformed {t : Bytes}
    (h : ∀ a b u, t = a :: b :: u → ¬(ishex a && ishex b) = true) :
    unescape mode (byte '%' :: t) = none := by
  match t with
  | [] => simp [unescape]
  | [_] => simp [unescape]
  | a :: b :: u => rw [unescape, if_pos rfl, if_neg (h a b u rfl)]

/-- A plus sign of a query is decoded to a space. -/
theorem unescape_plus {c : UInt8} (hc : c ≠ byte '%')
    (hp : c = byte '+' ∧ mode = .encodeQueryComponent) (t : Bytes) :
    unescape mode (c :: t) = (unescape mode t).map (byte ' ' :: ·) := by
  match t with
  | [] => simp [unescape, if_neg hc, if_pos hp]
  | [_] => simp [unescape, if_neg hc, if_pos hp]
  | _ :: _ :: _ => rw [unescape, if_neg hc, if_pos hp]

/-- A plain byte is kept. -/
theorem unescape_cons {c : UInt8} (h : Plain mode c) (t : Bytes) :
    unescape mode (c :: t) = (unescape mode t).map (c :: ·) := by
  match t with
  | [] => simp [unescape, if_neg h.1, if_neg h.2]
  | [_] => simp [unescape, if_neg h.1, if_neg h.2]
  | _ :: _ :: _ => rw [unescape, if_neg h.1, if_neg h.2]

/-- The cases of the decoder, each consuming the bytes it decodes. -/
theorem escape_induction (mode : Encoding) {motive : Bytes → Prop} (nil : motive [])
    (escape : ∀ a b t, (ishex a && ishex b) = true → motive t →
      motive (byte '%' :: a :: b :: t))
    (malformed : ∀ t, (∀ a b u, t = a :: b :: u → ¬(ishex a && ishex b) = true) →
      motive (byte '%' :: t))
    (plus : ∀ c t, c ≠ byte '%' → (c = byte '+' ∧ mode = .encodeQueryComponent) →
      motive t → motive (c :: t))
    (plain : ∀ c t, Plain mode c → motive t → motive (c :: t)) (s : Bytes) : motive s := by
  induction s using unescape.induct mode with
  | case1 => exact nil
  | case2 a b t hx ih => exact escape a b t hx ih
  | case3 a b t hx =>
    refine malformed _ fun x y u he => ?_
    obtain ⟨rfl, ht⟩ := List.cons.inj he
    obtain ⟨rfl, -⟩ := List.cons.inj ht
    exact hx
  | case4 t ht => exact malformed t fun a b u he => (ht a b u he).elim
  | case5 c t hc hp ih => exact plus c t hc hp ih
  | case6 c t hc hp ih => exact plain c t ⟨hc, hp⟩ ih

/-- Plain bytes in front of a string are copied. -/
theorem unescape_append (h : ∀ c ∈ s, Plain mode c) (t : Bytes) :
    unescape mode (s ++ t) = (unescape mode t).map (s ++ ·) := by
  induction s with
  | nil => simp
  | cons c s ih =>
    rw [List.cons_append, unescape_cons (h c (by simp)), ih fun d hd => h d (by simp [hd])]
    simp [Option.map_map, Function.comp_def]

/-- A text of plain bytes is decoded to itself. -/
theorem unescape_of_plain (h : ∀ c ∈ s, Plain mode c) : unescape mode s = some s := by
  have he := unescape_append h []
  simpa [unescape] using he

/-- A decoded string is no longer than its source. -/
theorem unescape_length_le (h : unescape mode s = some u) : u.length ≤ s.length := by
  induction s using escape_induction mode generalizing u with
  | nil => simp_all [unescape]
  | escape a b t hx ih =>
    rw [unescape_escape hx, Option.map_eq_some_iff] at h
    obtain ⟨v, hv, rfl⟩ := h
    have hl := ih hv
    simp only [List.length_cons]
    omega
  | malformed t ht =>
    rw [unescape_malformed ht] at h
    cases h
  | plus c t hc hp ih =>
    rw [unescape_plus hc hp, Option.map_eq_some_iff] at h
    obtain ⟨v, hv, rfl⟩ := h
    simpa using ih hv
  | plain c t hc ih =>
    rw [unescape_cons hc, Option.map_eq_some_iff] at h
    obtain ⟨v, hv, rfl⟩ := h
    simpa using ih hv

/-- Only a string of plain bytes decodes to itself. -/
theorem unescape_eq_self_iff : unescape mode s = some s ↔ ∀ c ∈ s, Plain mode c := by
  refine ⟨fun h => ?_, unescape_of_plain⟩
  induction s using escape_induction mode with
  | nil => simp
  | escape a b t hx ih =>
    rw [unescape_escape hx, Option.map_eq_some_iff] at h
    obtain ⟨v, hv, he⟩ := h
    have hl := unescape_length_le hv
    have hn := congrArg List.length he
    simp only [List.length_cons] at hn
    omega
  | malformed t ht =>
    rw [unescape_malformed ht] at h
    cases h
  | plus c t hc hp ih =>
    rw [unescape_plus hc hp, Option.map_eq_some_iff] at h
    obtain ⟨v, -, he⟩ := h
    have hs := (List.cons.inj he).1
    rw [hp.1] at hs
    exact absurd hs (by decide)
  | plain c t hc ih =>
    rw [unescape_cons hc, Option.map_eq_some_iff] at h
    obtain ⟨v, hv, he⟩ := h
    obtain rfl := (List.cons.inj he).2
    intro d hd
    rcases List.mem_cons.mp hd with rfl | hd
    · exact hc
    · exact ih hv d hd

/-- Every percent sign introduces two hexadecimal digits. -/
def WellEscaped (s : Bytes) : Prop :=
  ∀ a b, s = a ++ byte '%' :: b → ∃ x y r, b = x :: y :: r ∧ (ishex x && ishex y) = true

/-- A hexadecimal digit is no percent sign. -/
theorem ishex_ne_percent {c : UInt8} (h : ishex c = true) : c ≠ byte '%' := by
  rintro rfl
  exact absurd h (by decide)

theorem wellEscaped_nil : WellEscaped [] := by
  intro a b h
  simp at h

/-- A byte other than a percent sign does not matter. -/
theorem wellEscaped_cons {c : UInt8} (h : c ≠ byte '%') (t : Bytes) :
    WellEscaped (c :: t) ↔ WellEscaped t := by
  constructor
  · intro hw a b hab
    exact hw (c :: a) b (by simp [hab])
  · intro hw a b hab
    cases a with
    | nil => exact absurd (List.cons.inj hab).1 h
    | cons d a => exact hw a b (List.cons.inj hab).2

/-- Nor does an escape. -/
theorem wellEscaped_escape {x y : UInt8} (h : (ishex x && ishex y) = true) (t : Bytes) :
    WellEscaped (byte '%' :: x :: y :: t) ↔ WellEscaped t := by
  obtain ⟨hx, hy⟩ := (Bool.and_eq_true _ _).mp h
  rw [← wellEscaped_cons (ishex_ne_percent hy) t,
    ← wellEscaped_cons (ishex_ne_percent hx) (y :: t)]
  constructor
  · intro hw a b hab
    exact hw (byte '%' :: a) b (by simp [hab])
  · intro hw a b hab
    cases a with
    | nil => exact ⟨x, y, t, (List.cons.inj hab).2.symm, h⟩
    | cons d a => exact hw a b (List.cons.inj hab).2

/-- Decoding succeeds exactly on the well escaped strings. -/
theorem unescape_eq_some_iff (mode : Encoding) (s : Bytes) :
    (∃ u, unescape mode s = some u) ↔ WellEscaped s := by
  induction s using escape_induction mode with
  | nil => simp [unescape, wellEscaped_nil]
  | escape a b t hx ih =>
    rw [wellEscaped_escape hx, ← ih, unescape_escape hx]
    simp
  | malformed t ht =>
    rw [unescape_malformed ht]
    refine ⟨by simp, fun hw => ?_⟩
    obtain ⟨x, y, r, he, hh⟩ := hw [] t rfl
    exact absurd hh (ht x y r he)
  | plus c t hc hp ih =>
    rw [wellEscaped_cons hc, ← ih, unescape_plus hc hp]
    simp
  | plain c t hc ih =>
    rw [wellEscaped_cons hc.1, ← ih, unescape_cons hc]
    simp

/-- The hexadecimal digits, listed. -/
def hexDigits : List UInt8 := ascii "0123456789abcdefABCDEF"

/-- Every hexadecimal digit is listed. -/
theorem mem_hexDigits {c : UInt8} (h : ishex c = true) : c ∈ hexDigits := by
  have hall : ∀ n : ℕ, n < 256 → ishex (UInt8.ofNat n) = true → UInt8.ofNat n ∈ hexDigits := by
    decide +kernel
  have hc := hall c.toNat c.toNat_lt
  rw [UInt8.ofNat_toNat] at hc
  exact hc h

/-- Two digits denote a slash exactly when they read 2F or 2f. -/
theorem escapeValue_eq_slash {a b : UInt8} (ha : ishex a = true) (hb : ishex b = true) :
    (unhex a <<< 4 ||| unhex b) = byte '/' ↔
      a = byte '2' ∧ (b = byte 'F' ∨ b = byte 'f') := by
  have hall : ∀ x ∈ hexDigits, ∀ y ∈ hexDigits,
      ((unhex x <<< 4 ||| unhex y) = byte '/' ↔
        x = byte '2' ∧ (y = byte 'F' ∨ y = byte 'f')) := by
    decide +kernel
  exact hall a (mem_hexDigits ha) b (mem_hexDigits hb)

/-- An escaped slash occurs in the string. -/
def EscapedSlash (s : Bytes) : Prop := ascii "%2F" <:+: s ∨ ascii "%2f" <:+: s

/-- An escaped slash is written in one of two ways. -/
theorem escapedSlash_iff {s : Bytes} : EscapedSlash s ↔
    ∃ a x b, s = a ++ byte '%' :: byte '2' :: x :: b ∧ (x = byte 'F' ∨ x = byte 'f') := by
  constructor
  · rintro (⟨a, b, h⟩ | ⟨a, b, h⟩)
    · exact ⟨a, byte 'F', b, by simp [← h, ascii], Or.inl rfl⟩
    · exact ⟨a, byte 'f', b, by simp [← h, ascii], Or.inr rfl⟩
  · rintro ⟨a, x, b, rfl, rfl | rfl⟩
    · exact Or.inl ⟨a, b, by simp [ascii]⟩
    · exact Or.inr ⟨a, b, by simp [ascii]⟩

/-- It begins with a percent sign. -/
theorem escapedSlash_cons {c : UInt8} (h : c ≠ byte '%') (t : Bytes) :
    EscapedSlash (c :: t) ↔ EscapedSlash t := by
  rw [escapedSlash_iff, escapedSlash_iff]
  constructor
  · rintro ⟨a, x, b, he, hx⟩
    cases a with
    | nil => exact absurd (List.cons.inj he).1 h
    | cons d a => exact ⟨a, x, b, (List.cons.inj he).2, hx⟩
  · rintro ⟨a, x, b, he, hx⟩
    exact ⟨c :: a, x, b, by simp [he], hx⟩

/-- Decoding a path puts a slash into a string without one exactly at an
escaped slash. -/
theorem slash_mem_unescape_iff {d : Bytes} (hs : byte '/' ∉ s)
    (hd : unescape .encodePath s = some d) : byte '/' ∈ d ↔ EscapedSlash s := by
  induction s using escape_induction .encodePath generalizing d with
  | nil =>
    obtain rfl : d = [] := by simpa [unescape, eq_comm] using hd
    have hn : ¬EscapedSlash [] := by
      rw [escapedSlash_iff]
      simp
    simp [hn]
  | escape a b t hx ih =>
    obtain ⟨ha, hb⟩ := (Bool.and_eq_true _ _).mp hx
    rw [unescape_escape hx, Option.map_eq_some_iff] at hd
    obtain ⟨v, hv, rfl⟩ := hd
    have hi := ih (fun h => hs (by simp [h])) hv
    rw [List.mem_cons, hi, eq_comm, escapeValue_eq_slash ha hb]
    constructor
    · rintro (⟨rfl, hb'⟩ | ht)
      · exact escapedSlash_iff.mpr ⟨[], b, t, rfl, hb'⟩
      · obtain ⟨p, x, r, he, hx'⟩ := escapedSlash_iff.mp ht
        exact escapedSlash_iff.mpr ⟨byte '%' :: a :: b :: p, x, r, by simp [he], hx'⟩
    · intro h
      obtain ⟨p, x, r, he, hx'⟩ := escapedSlash_iff.mp h
      cases p with
      | nil =>
        obtain ⟨rfl, rfl, -⟩ : a = byte '2' ∧ b = x ∧ t = r := by simpa using he
        exact Or.inl ⟨rfl, hx'⟩
      | cons c p =>
        have ht : EscapedSlash (a :: b :: t) :=
          escapedSlash_iff.mpr ⟨p, x, r, (List.cons.inj he).2, hx'⟩
        rw [escapedSlash_cons (ishex_ne_percent ha), escapedSlash_cons (ishex_ne_percent hb)] at ht
        exact Or.inr ht
  | malformed t ht =>
    rw [unescape_malformed ht] at hd
    cases hd
  | plus c t hc hp ih => exact absurd hp.2 (by decide)
  | plain c t hc ih =>
    rw [unescape_cons hc, Option.map_eq_some_iff] at hd
    obtain ⟨v, hv, rfl⟩ := hd
    simp only [List.mem_cons, not_or] at hs
    rw [List.mem_cons, ih hs.2 hv, escapedSlash_cons hc.1]
    simp [hs.1]

end VideooServer.PercentCodec
