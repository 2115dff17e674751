import VideooServer.ByteText

/-!
# UTF-8 text

A scanner for well formed UTF-8 that keeps the number of continuation bytes
still to come and the range of the next one, and the rune at the beginning
of a byte string. An ASCII byte always ends the rune before it, so a string
in front of one is well formed on its own.
-/

namespace VideooServer.Utf8Text

open ByteText

/-- The continuation bytes that a rune still needs. -/
structure Pending where
  /-- Number of continuation bytes to come. -/
  count : ℕ
  /-- Least value of the next one. -/
  low : UInt8
  /-- Greatest value of the next one. -/
  high : UInt8
  deriving DecidableEq

/-- Between runes nothing is pending. -/
def Pending.none : Pending := ⟨0, 0x80, 0xBF⟩

/-- What a first byte calls for. Overlong forms, surrogates and values past
the last code point are excluded by the range of the second byte. -/
def lead (b : UInt8) : Option Pending :=
  if b < 0x80 then some ⟨0, 0x80, 0xBF⟩
  else if b < 0xC2 then Option.none
  else if b ≤ 0xDF then some ⟨1, 0x80, 0xBF⟩
  else if b = 0xE0 then some ⟨2, 0xA0, 0xBF⟩
  else if b = 0xED then some ⟨2, 0x80, 0x9F⟩
  else if b ≤ 0xEF then some ⟨2, 0x80, 0xBF⟩
  else if b = 0xF0 then some ⟨3, 0x90, 0xBF⟩
  else if b ≤ 0xF3 then some ⟨3, 0x80, 0xBF⟩
  else if b = 0xF4 then some ⟨3, 0x80, 0x8F⟩
  else Option.none

/-- Whether a string completes what is pending and is well formed after it. -/
def scan : Pending → Bytes → Bool
  | q, [] => q.count == 0
  | ⟨0, _, _⟩, b :: t =>
    match lead b with
    | some q => scan q t
    | Option.none => false
  | ⟨n + 1, low, high⟩, b :: t => (low ≤ b && b ≤ high) && scan ⟨n, 0x80, 0xBF⟩ t

/-- Well formed UTF-8. -/
def validUtf8 (s : Bytes) : Bool := scan .none s

/-- The continuation bytes of a rune and the rest of the string. -/
def takeTail : Pending → Bytes → Option (Bytes × Bytes)
  | ⟨0, _, _⟩, t => some ([], t)
  | ⟨_ + 1, _, _⟩, [] => Option.none
  | ⟨n + 1, low, high⟩, b :: t =>
    if low ≤ b ∧ b ≤ high then (takeTail ⟨n, 0x80, 0xBF⟩ t).map fun p => (b :: p.1, p.2)
    else Option.none

/-- The rune at the beginning of a string and the rest, none when the first
bytes are not well formed. -/
def decodeRune : Bytes → Option (Bytes × Bytes)
  | [] => Option.none
  | b :: t => (lead b).bind fun q => (takeTail q t).map fun p => (b :: p.1, p.2)

/-- The bytes of the replacement character U+FFFD. -/
def replacement : Bytes := [0xEF, 0xBF, 0xBD]

/-- The rune at the beginning of a nonempty string and the rest, as Go ranges
over it: a byte that is not UTF-8 counts as the replacement character. -/
def nextRune (c : UInt8) (t : Bytes) : Bytes × Bytes :=
  (decodeRune (c :: t)).getD (replacement, t)

variable {q : Pending} {s t u r : Bytes} {b : UInt8}

/-- An ASCII byte calls for nothing. -/
theorem lead_ascii (h : b < 0x80) : lead b = some .none := if_pos h

/-- The range of a continuation byte never contains ASCII, and only ASCII
needs no continuation. -/
theorem lead_spec (h : lead b = some q) : 0x80 ≤ q.low ∧ (b < 0x80 ∨ 0 < q.count) := by
  unfold lead at h
  split_ifs at h with hb
  · obtain rfl := Option.some.inj h
    exact ⟨by decide, Or.inl hb⟩
  all_goals
    obtain rfl := Option.some.inj h
    exact ⟨by decide, Or.inr (by decide)⟩

/-- When nothing is pending the string decides. -/
theorem scan_zero (q : Pending) (h : q.count = 0) (s : Bytes) : scan q s = validUtf8 s := by
  obtain ⟨n, low, high⟩ := q
  obtain rfl : n = 0 := h
  cases s <;> rfl

/-- Text that ends before an ASCII byte ends between runes. -/
theorem scan_of_append_ascii (hq : 0x80 ≤ q.low) {c : UInt8} (hc : c < 0x80)
    (h : scan q (s ++ c :: t) = true) : scan q s = true := by
  induction s generalizing q with
  | nil =>
    obtain ⟨n, low, high⟩ := q
    cases n with
    | zero => rfl
    | succ n =>
      have hlow : low ≤ c := by simp_all [scan]
      exact absurd (UInt8.lt_of_lt_of_le hc (UInt8.le_trans hq hlow)) (UInt8.lt_irrefl c)
  | cons b s ih =>
    obtain ⟨n, low, high⟩ := q
    cases n with
    | zero =>
      simp only [List.cons_append, scan] at h ⊢
      cases hl : lead b with
      | none => simp [hl] at h
      | some q' =>
        rw [hl] at h
        exact ih (lead_spec hl).1 h
    | succ n =>
      simp only [List.cons_append, scan, Bool.and_eq_true] at h ⊢
      exact ⟨h.1, ih (UInt8.le_refl _) h.2⟩

/-- Behind text that completes what is pending everything is scanned anew. -/
theorem scan_append_eq (hs : scan q s = true) (t : Bytes) : scan q (s ++ t) = validUtf8 t := by
  induction s generalizing q with
  | nil =>
    obtain ⟨n, low, high⟩ := q
    obtain rfl : n = 0 := by simpa [scan] using hs
    rw [List.nil_append, scan_zero _ rfl]
  | cons b s ih =>
    obtain ⟨n, low, high⟩ := q
    cases n with
    | zero =>
      simp only [List.cons_append, scan] at hs ⊢
      cases hl : lead b with
      | none => simp [hl] at hs
      | some q' =>
        rw [hl] at hs
        exact ih hs
    | succ n =>
      simp only [List.cons_append, scan] at hs ⊢
      obtain ⟨hb, hs⟩ := (Bool.and_eq_true_iff).mp hs
      rw [hb, Bool.true_and, ih hs]

/-- What is pending may be completed in front of well formed text. -/
theorem scan_append (hs : scan q s = true) (ht : validUtf8 t = true) :
    scan q (s ++ t) = true := by
  rw [scan_append_eq hs, ht]

/-- Well formed texts are joined to one. -/
theorem validUtf8_append (hs : validUtf8 s = true) (ht : validUtf8 t = true) :
    validUtf8 (s ++ t) = true := scan_append hs ht

/-- What precedes an ASCII byte of a well formed text is well formed. -/
theorem validUtf8_of_append_ascii {c : UInt8} (hc : c < 0x80)
    (h : validUtf8 (s ++ c :: t) = true) : validUtf8 s = true :=
  scan_of_append_ascii (q := .none) (UInt8.le_refl _) hc h

/-- An ASCII byte in front does not matter. -/
theorem validUtf8_cons_ascii (h : b < 0x80) (t : Bytes) : validUtf8 (b :: t) = validUtf8 t := by
  simp only [validUtf8, Pending.none, scan, lead_ascii h]

/-- An ASCII byte separates two well formed texts. -/
theorem validUtf8_append_cons_iff {c : UInt8} (hc : c < 0x80) :
    validUtf8 (s ++ c :: t) = true ↔ validUtf8 s = true ∧ validUtf8 t = true := by
  constructor
  · intro h
    have hs := validUtf8_of_append_ascii hc h
    rw [validUtf8, scan_append_eq hs, validUtf8_cons_ascii hc] at h
    exact ⟨hs, h⟩
  · rintro ⟨hs, ht⟩
    rw [validUtf8, scan_append_eq hs, validUtf8_cons_ascii hc, ht]

/-- The pieces between ASCII separators of well formed text are well formed. -/
theorem validUtf8_of_mem_splitOn {sep : UInt8} (hsep : sep < 0x80) {x : Bytes} (s : Bytes)
    (h : validUtf8 s = true) (hx : x ∈ s.splitOn sep) : validUtf8 x = true := by
  by_cases hm : sep ∈ s
  · obtain ⟨a, b, rfl, ha⟩ := List.eq_append_cons_of_mem hm
    obtain ⟨hfirst, hrest⟩ := (validUtf8_append_cons_iff hsep).mp h
    rw [List.splitOn_append_cons_self, List.splitOn_eq_singleton ha, List.singleton_append,
      List.mem_cons] at hx
    rcases hx with rfl | hx
    · exact hfirst
    · exact validUtf8_of_mem_splitOn hsep b hrest hx
  · rw [List.splitOn_eq_singleton hm, List.mem_singleton] at hx
    rwa [hx]
termination_by s.length

theorem validUtf8_ascii_append (h : ∀ c ∈ s, c < 0x80) (t : Bytes) :
    validUtf8 (s ++ t) = validUtf8 t := by
  induction s with
  | nil => rfl
  | cons c s ih =>
    rw [List.cons_append, validUtf8_cons_ascii (h c (by simp)), ih fun d hd => h d (by simp [hd])]

/-- A valid text that completes a rune goes on with valid text. -/
theorem exists_takeTail (h : scan q s = true) :
    ∃ p, takeTail q s = some p ∧ validUtf8 p.2 = true := by
  obtain ⟨n, low, high⟩ := q
  induction n generalizing s low high with
  | zero => exact ⟨([], s), by simp [takeTail], by rwa [scan_zero _ rfl] at h⟩
  | succ n ih =>
    cases s with
    | nil => simp [scan] at h
    | cons b t =>
      simp only [scan, Bool.and_eq_true, decide_eq_true_eq] at h
      obtain ⟨p, hp, hv⟩ := ih _ _ h.2
      exact ⟨(b :: p.1, p.2), by simp [takeTail, h.1, hp], hv⟩

/-- A valid text begins with a rune and goes on with valid text. -/
theorem exists_decodeRune (h : validUtf8 (b :: t) = true) :
    ∃ p, decodeRune (b :: t) = some p ∧ validUtf8 p.2 = true := by
  simp only [validUtf8, Pending.none, scan] at h
  cases hl : lead b with
  | none => simp [hl] at h
  | some q =>
    rw [hl] at h
    obtain ⟨p, hp, hv⟩ := exists_takeTail h
    exact ⟨(b :: p.1, p.2), by simp [decodeRune, hl, hp], hv⟩

/-- Nothing is cut off when no continuation byte is pending. -/
theorem takeTail_zero {low high : UInt8} (h : takeTail ⟨0, low, high⟩ s = some (r, t)) :
    r = [] ∧ s = t := by
  rw [takeTail] at h
  obtain ⟨rfl, rfl⟩ := Prod.mk.inj (Option.some.inj h)
  exact ⟨rfl, rfl⟩

/-- The next pending byte is in its range, and the rest is cut off as
continuation bytes. -/
theorem takeTail_succ {n : ℕ} {low high : UInt8}
    (h : takeTail ⟨n + 1, low, high⟩ s = some (r, t)) :
    ∃ b s' r', s = b :: s' ∧ r = b :: r' ∧ (low ≤ b ∧ b ≤ high) ∧
      takeTail ⟨n, 0x80, 0xBF⟩ s' = some (r', t) := by
  cases s with
  | nil => simp [takeTail] at h
  | cons b s =>
    rw [takeTail] at h
    split_ifs at h with hb
    obtain ⟨⟨r', t'⟩, hp, he⟩ := Option.map_eq_some_iff.mp h
    obtain ⟨rfl, rfl⟩ := Prod.mk.inj he
    exact ⟨b, s, r', rfl, rfl, hb, hp⟩

/-- A rune is a first byte and its continuation bytes. -/
theorem decodeRune_eq_some (h : decodeRune s = some (r, t)) :
    ∃ b q s' r', s = b :: s' ∧ r = b :: r' ∧ lead b = some q ∧ takeTail q s' = some (r', t) := by
  cases s with
  | nil => cases h
  | cons b s =>
    obtain ⟨q, hl, h⟩ := Option.bind_eq_some_iff.mp h
    obtain ⟨⟨r', t'⟩, hp, he⟩ := Option.map_eq_some_iff.mp h
    obtain ⟨rfl, rfl⟩ := Prod.mk.inj he
    exact ⟨b, q, s, r', rfl, rfl, hl, hp⟩

/-- The continuation bytes are cut off the string and lie outside ASCII. -/
theorem takeTail_spec (hq : 0x80 ≤ q.low) (h : takeTail q s = some (r, t)) :
    s = r ++ t ∧ r.length = q.count ∧ ∀ c ∈ r, 0x80 ≤ c := by
  obtain ⟨n, low, high⟩ := q
  induction n generalizing s low high r with
  | zero =>
    obtain ⟨rfl, rfl⟩ := takeTail_zero h
    simp
  | succ n ih =>
    obtain ⟨b, s, r, rfl, rfl, hb, htail⟩ := takeTail_succ h
    obtain ⟨rfl, hn, hc⟩ := ih _ _ (UInt8.le_refl _) htail
    refine ⟨rfl, by simp [hn], ?_⟩
    intro c hm
    rcases List.mem_cons.mp hm with rfl | hm
    · exact UInt8.le_trans hq hb.1
    · exact hc c hm

/-- A rune is one ASCII byte or several bytes outside ASCII. -/
theorem decodeRune_spec (h : decodeRune s = some (r, t)) :
    s = r ++ t ∧ ((∃ c, r = [c] ∧ c < 0x80) ∨ (2 ≤ r.length ∧ ∀ c ∈ r, 0x80 ≤ c)) := by
  obtain ⟨b, q, s, r, rfl, rfl, hl, htail⟩ := decodeRune_eq_some h
  obtain ⟨rfl, hn, hc⟩ := takeTail_spec (lead_spec hl).1 htail
  refine ⟨rfl, ?_⟩
  by_cases hb : b < 0x80
  · obtain rfl := Option.some.inj ((lead_ascii hb).symm.trans hl)
    obtain rfl : r = [] := List.length_eq_zero_iff.mp hn
    exact Or.inl ⟨b, rfl, hb⟩
  · have hb' : 0x80 ≤ b := UInt8.not_lt.mp hb
    have hcount : 0 < q.count := (lead_spec hl).2.resolve_left hb
    refine Or.inr ⟨by simp only [List.length_cons]; omega, ?_⟩
    intro c hm
    rcases List.mem_cons.mp hm with rfl | hm
    · exact hb'
    · exact hc c hm

/-- Continuation bytes complete what is pending. -/
theorem scan_append_takeTail (h : takeTail q s = some (r, t)) (x : Bytes) :
    scan q (r ++ x) = validUtf8 x := by
  obtain ⟨n, low, high⟩ := q
  induction n generalizing s low high r with
  | zero =>
    obtain ⟨rfl, rfl⟩ := takeTail_zero h
    rw [List.nil_append, scan_zero _ rfl]
  | succ n ih =>
    obtain ⟨b, s, r, rfl, rfl, hb, htail⟩ := takeTail_succ h
    rw [List.cons_append, scan, ih _ _ htail]
    simp [hb.1, hb.2]

/-- A rune in front of a text does not change whether it is well formed. -/
theorem validUtf8_append_rune (h : decodeRune s = some (r, t)) (x : Bytes) :
    validUtf8 (r ++ x) = validUtf8 x := by
  obtain ⟨b, q, s, r, rfl, rfl, hl, htail⟩ := decodeRune_eq_some h
  rw [List.cons_append, validUtf8, Pending.none, scan, hl]
  exact scan_append_takeTail htail x

/-- They are taken whatever follows. -/
theorem takeTail_append (h : takeTail q s = some (r, t)) (x : Bytes) :
    takeTail q (r ++ x) = some (r, x) := by
  obtain ⟨n, low, high⟩ := q
  induction n generalizing s low high r with
  | zero =>
    obtain ⟨rfl, rfl⟩ := takeTail_zero h
    rw [List.nil_append, takeTail]
  | succ n ih =>
    obtain ⟨b, s, r, rfl, rfl, hb, htail⟩ := takeTail_succ h
    rw [List.cons_append, takeTail, if_pos hb, ih _ _ htail]
    rfl

/-- A rune is read in front of any string. -/
theorem decodeRune_append (h : decodeRune s = some (r, t)) (x : Bytes) :
    decodeRune (r ++ x) = some (r, x) := by
  obtain ⟨b, q, s, r, rfl, rfl, hl, htail⟩ := decodeRune_eq_some h
  rw [List.cons_append, decodeRune, hl, Option.bind_some, takeTail_append htail x]
  rfl

/-- Induction over the runes of a well formed string. -/
theorem rune_induction {P : Bytes → Prop} (nil : P [])
    (ascii : ∀ b t, b < 0x80 → P t → P (b :: t))
    (rune : ∀ b t r u, ¬b < 0x80 → decodeRune (b :: t) = some (r, u) → P u → P (b :: t))
    (hs : validUtf8 s = true) : P s := by
  induction hn : s.length using Nat.strong_induction_on generalizing s with
  | _ n ih =>
    cases s with
    | nil => exact nil
    | cons b t =>
      rw [List.length_cons] at hn
      by_cases hb : b < 0x80
      · rw [validUtf8_cons_ascii hb] at hs
        exact ascii b t hb (ih t.length (by omega) hs rfl)
      · obtain ⟨⟨r, u⟩, hd, hu⟩ := exists_decodeRune hs
        obtain ⟨he, hr⟩ := decodeRune_spec hd
        have hl := congrArg List.length he
        rw [List.length_append, List.length_cons] at hl
        have hlt : u.length < n := by
          rcases hr with ⟨c, rfl, -⟩ | ⟨hr, -⟩
          · simp only [List.length_cons, List.length_nil] at hl
            omega
          · omega
        exact rune b t r u hb hd (ih u.length hlt hu rfl)

/-- An ASCII byte is a rune. -/
theorem decodeRune_ascii (h : b < 0x80) (t : Bytes) : decodeRune (b :: t) = some ([b], t) := by
  simp [decodeRune, lead_ascii h, Pending.none, takeTail]

/-- A rune is an ASCII byte or at least two bytes beyond ASCII, and some
bytes are consumed. -/
theorem nextRune_spec (c : UInt8) (t : Bytes) :
    (∃ u, c :: t = u ++ (nextRune c t).2 ∧ u ≠ []) ∧
      ((∃ d, (nextRune c t).1 = [d] ∧ d < 0x80) ∨
        (2 ≤ (nextRune c t).1.length ∧ ∀ d ∈ (nextRune c t).1, 0x80 ≤ d)) := by
  unfold nextRune
  cases hd : decodeRune (c :: t) with
  | none =>
    have hrepl : 2 ≤ replacement.length ∧ ∀ d ∈ replacement, 0x80 ≤ d := by decide
    exact ⟨⟨[c], rfl, by simp⟩, Or.inr hrepl⟩
  | some p =>
    obtain ⟨he, hr⟩ := decodeRune_spec (r := p.1) (t := p.2) hd
    refine ⟨⟨p.1, he, ?_⟩, hr⟩
    rcases hr with ⟨d, hd, -⟩ | ⟨hl, -⟩
    · simp [hd]
    · exact List.ne_nil_of_length_pos (by omega)

/-- Ranging over a text takes an ASCII byte as it is. -/
theorem nextRune_ascii (h : b < 0x80) (t : Bytes) : nextRune b t = ([b], t) := by
  rw [nextRune, decodeRune_ascii h, Option.getD_some]

/-- It always goes on. -/
theorem nextRune_length (c : UInt8) (t : Bytes) : (nextRune c t).2.length ≤ t.length := by
  obtain ⟨⟨u, hu, hne⟩, -⟩ := nextRune_spec c t
  have hl := congrArg List.length hu
  have hpos : 0 < u.length := List.length_pos_iff.mpr hne
  rw [List.length_cons, List.length_append] at hl
  omega

end VideooServer.Utf8Text
