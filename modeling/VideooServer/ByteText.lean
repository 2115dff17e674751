import Mathlib.Data.List.TakeWhile
import Mathlib.Tactic.Common

/-!
# Byte strings, cuts at a separator and decimal numerals

A string is a list of bytes. Cutting at the first or after the last
separator is defined over arbitrary alphabets, and the pieces of
`List.splitOn` are related to these cuts. Decimal numerals are the digits
that print an integer; they determine the integer and contain no
punctuation other than a leading minus sign.
-/

namespace VideooServer.ByteText

/-- A byte string, with no assumption on its encoding. -/
abbrev Bytes := List UInt8

/-- Facts about the bytes of a string are decided byte by byte, not over all
256 values. -/
instance (priority := high) decidableForallMem (p : UInt8 → Prop) [DecidablePred p] (s : Bytes) :
    Decidable (∀ c ∈ s, p c) := List.decidableBAll p s

/-- The byte of an ASCII character. -/
def byte (c : Char) : UInt8 := UInt8.ofNat c.toNat

/-- The bytes of an ASCII literal. -/
def ascii (s : String) : Bytes := s.toList.map byte

section Cut

variable {α : Type*} [DecidableEq α] {sep : α} {s a b : List α}

/-- The part before the first separator, all of it when there is none. -/
def upTo (sep : α) (s : List α) : List α := s.takeWhile (· != sep)

/-- The part after the first separator, empty when there is none. -/
def pastFirst (sep : α) (s : List α) : List α := (s.dropWhile (· != sep)).tail

/-- The part after the last separator, all of it when there is none. -/
def pastLast (sep : α) (s : List α) : List α := (s.reverse.takeWhile (· != sep)).reverse

/-- What precedes a first separator is taken. -/
theorem takeWhile_ne_append_cons (h : sep ∉ a) :
    (a ++ sep :: b).takeWhile (· != sep) = a := by
  rw [List.takeWhile_append_of_pos, List.takeWhile_cons_of_neg (by simp), List.append_nil]
  intro c hc
  simp only [bne_iff_ne]
  rintro rfl
  exact h hc

/-- Everything is taken when there is no separator. -/
theorem takeWhile_ne_of_not_mem (h : sep ∉ s) : s.takeWhile (· != sep) = s := by
  rw [List.takeWhile_eq_self_iff]
  intro c hc
  simp only [bne_iff_ne]
  rintro rfl
  exact h hc

/-- The part up to a first separator. -/
theorem upTo_append_cons (h : sep ∉ a) : upTo sep (a ++ sep :: b) = a :=
  takeWhile_ne_append_cons h

theorem upTo_of_not_mem (h : sep ∉ s) : upTo sep s = s := takeWhile_ne_of_not_mem h

/-- The part past a first separator. -/
theorem pastFirst_append_cons (h : sep ∉ a) : pastFirst sep (a ++ sep :: b) = b := by
  induction a with
  | nil => simp [pastFirst]
  | cons c a ih =>
    simp only [List.mem_cons, not_or] at h
    have hne : (c != sep) = true := bne_iff_ne.mpr fun e => h.1 e.symm
    simpa [pastFirst, hne] using ih h.2

theorem pastFirst_of_not_mem (h : sep ∉ s) : pastFirst sep s = [] := by
  rw [pastFirst, List.dropWhile_eq_nil_iff.mpr, List.tail_nil]
  intro c hc
  simp only [bne_iff_ne]
  rintro rfl
  exact h hc

/-- Text without the separator in front moves out of the cut. -/
theorem upTo_append (h : sep ∉ a) (b : List α) : upTo sep (a ++ b) = a ++ upTo sep b := by
  induction a with
  | nil => rfl
  | cons c a ih =>
    simp only [List.mem_cons, not_or] at h
    have hne : (c != sep) = true := bne_iff_ne.mpr fun e => h.1 e.symm
    simpa [upTo, hne] using ih h.2

/-- A front without a separator does not change what is past it. -/
theorem pastFirst_append (h : sep ∉ a) (b : List α) :
    pastFirst sep (a ++ b) = pastFirst sep b := by
  induction a with
  | nil => rfl
  | cons c a ih =>
    simp only [List.mem_cons, not_or] at h
    have hne : (c != sep) = true := bne_iff_ne.mpr fun e => h.1 e.symm
    simpa [pastFirst, hne] using ih h.2

/-- The two parts of a cut and the separator make up the string. -/
theorem length_cut (h : sep ∈ s) :
    (upTo sep s).length + 1 + (pastFirst sep s).length = s.length := by
  obtain ⟨a, b, rfl, ha⟩ := List.eq_append_cons_of_mem h
  rw [upTo_append_cons ha, pastFirst_append_cons ha]
  simp only [List.length_append, List.length_cons]
  omega

/-- The part past a last separator. -/
theorem pastLast_append_cons (h : sep ∉ b) : pastLast sep (a ++ sep :: b) = b := by
  have hr : (a ++ sep :: b).reverse = b.reverse ++ sep :: a.reverse := by simp
  rw [pastLast, hr, takeWhile_ne_append_cons (by simpa using h), List.reverse_reverse]

theorem pastLast_of_not_mem (h : sep ∉ s) : pastLast sep s = s := by
  rw [pastLast, takeWhile_ne_of_not_mem (by simpa using h), List.reverse_reverse]

omit [DecidableEq α] in
/-- A string with a separator is cut at its last one. -/
theorem exists_last_cut (h : sep ∈ s) : ∃ a b, s = a ++ sep :: b ∧ sep ∉ b := by
  obtain ⟨a, b, he, ha⟩ := List.eq_append_cons_of_mem (List.mem_reverse.mpr h)
  refine ⟨b.reverse, a.reverse, ?_, by simpa using ha⟩
  rw [← List.reverse_reverse s, he]
  simp

/-- Dropping the separators loses nothing else before the first one. -/
theorem not_mem_upTo (sep : α) (s : List α) : sep ∉ upTo sep s := by
  intro h
  have hp := List.mem_takeWhile_imp h
  simp at hp

/-- There is no separator past the last one. -/
theorem not_mem_pastLast (sep : α) (s : List α) : sep ∉ pastLast sep s := by
  intro h
  have hp := List.mem_takeWhile_imp (List.mem_reverse.mp h)
  simp at hp

/-- What precedes a separator is a part of the text. -/
theorem upTo_sublist (sep : α) (s : List α) : (upTo sep s).Sublist s :=
  List.takeWhile_sublist _

/-- It is shorter when there is a separator. -/
theorem length_upTo_lt (h : sep ∈ s) : (upTo sep s).length < s.length := by
  obtain ⟨a, b, rfl, ha⟩ := List.eq_append_cons_of_mem h
  rw [upTo_append_cons ha]
  simp

/-- The longest beginning of a string without a separator. -/
structure LongestPrefix (sep : α) (s p : List α) : Prop where
  /-- It is a beginning of the string. -/
  isPrefix : p <+: s
  /-- It has no separator. -/
  free : sep ∉ p
  /-- No other such beginning is longer. -/
  longest : ∀ t, t <+: s → sep ∉ t → t.length ≤ p.length

/-- The end of a string behind its last separator. -/
structure LastPart (sep : α) (s p : List α) : Prop where
  /-- It has no separator. -/
  free : sep ∉ p
  /-- It is the whole string or follows a separator. -/
  follows : p = s ∨ ∃ a, s = a ++ sep :: p

/-- A cut at the first separator takes the longest beginning without one. -/
theorem longestPrefix_iff : LongestPrefix sep s a ↔ a = upTo sep s := by
  constructor
  · intro h
    obtain ⟨b, hb⟩ := h.isPrefix
    have hcut : a ++ upTo sep b = upTo sep s := by rw [← hb, upTo_append h.free]
    have hlen := h.longest (upTo sep s) (List.takeWhile_prefix _) (not_mem_upTo sep s)
    rw [← hcut, List.length_append] at hlen
    have hb : upTo sep b = [] := List.length_eq_zero_iff.mp (by omega)
    rw [← hcut, hb, List.append_nil]
  · rintro rfl
    refine ⟨List.takeWhile_prefix _, not_mem_upTo sep s, fun t ht hfree => ?_⟩
    obtain ⟨b, rfl⟩ := ht
    rw [upTo_append hfree, List.length_append]
    exact Nat.le_add_right _ _

/-- A cut after the last separator takes the last part. -/
theorem lastPart_iff : LastPart sep s b ↔ b = pastLast sep s := by
  constructor
  · rintro ⟨hfree, rfl | ⟨a, rfl⟩⟩
    · rw [pastLast_of_not_mem hfree]
    · rw [pastLast_append_cons hfree]
  · rintro rfl
    refine ⟨not_mem_pastLast sep s, ?_⟩
    by_cases h : sep ∈ s
    · obtain ⟨a, b, rfl, hb⟩ := exists_last_cut h
      exact Or.inr ⟨a, by rw [pastLast_append_cons hb]⟩
    · exact Or.inl (pastLast_of_not_mem h)

/-- The first piece of a split is the part before the first separator. -/
theorem splitOn_head? (sep : α) (s : List α) : (s.splitOn sep).head? = some (upTo sep s) := by
  by_cases h : sep ∈ s
  · obtain ⟨a, b, rfl, ha⟩ := List.eq_append_cons_of_mem h
    rw [List.splitOn_append_cons_self, List.splitOn_eq_singleton ha, upTo_append_cons ha]
    rfl
  · rw [List.splitOn_eq_singleton h, upTo_of_not_mem h]
    rfl

/-- The last piece of a split is the part after the last separator. -/
theorem splitOn_getLast? (sep : α) (s : List α) :
    (s.splitOn sep).getLast? = some (pastLast sep s) := by
  by_cases h : sep ∈ s
  · obtain ⟨a, b, rfl, hb⟩ := exists_last_cut h
    rw [List.splitOn_append_cons_self, List.splitOn_eq_singleton hb, pastLast_append_cons hb]
    simp
  · rw [List.splitOn_eq_singleton h, pastLast_of_not_mem h]
    rfl

/-- A split has at least one piece, whatever the string. -/
theorem splitOn_length_pos (sep : α) (s : List α) : 0 < (s.splitOn sep).length :=
  List.length_pos_iff.mpr (List.splitOn_ne_nil sep s)

/-- A piece of a split has no separator. -/
theorem not_mem_of_mem_splitOn {x : List α} (s : List α) (hx : x ∈ s.splitOn sep) : sep ∉ x := by
  by_cases hm : sep ∈ s
  · obtain ⟨a, b, rfl, ha⟩ := List.eq_append_cons_of_mem hm
    rw [List.splitOn_append_cons_self, List.splitOn_eq_singleton ha, List.singleton_append,
      List.mem_cons] at hx
    rcases hx with rfl | hx
    · exact ha
    · exact not_mem_of_mem_splitOn b hx
  · rw [List.splitOn_eq_singleton hm, List.mem_singleton] at hx
    rwa [hx]
termination_by s.length

end Cut

section Split

variable {α : Type*} {p : α → Bool} {s x : List α}

/-- A string with a separator is cut at its first one. -/
theorem exists_first_sep (h : ∃ c ∈ s, p c = true) :
    ∃ a c b, s = a ++ c :: b ∧ (∀ d ∈ a, p d = false) ∧ p c = true := by
  induction s with
  | nil => simp at h
  | cons c s ih =>
    by_cases hc : p c = true
    · exact ⟨[], c, s, rfl, by simp, hc⟩
    · obtain ⟨d, hd, hp⟩ := h
      have hs : d ∈ s := by
        rcases List.mem_cons.mp hd with rfl | hd
        · exact absurd hp hc
        · exact hd
      obtain ⟨a, e, b, rfl, ha, he⟩ := ih ⟨d, hs, hp⟩
      refine ⟨c :: a, e, b, rfl, ?_, he⟩
      intro x hx
      rcases List.mem_cons.mp hx with rfl | hx
      · exact Bool.eq_false_iff.mpr hc
      · exact ha x hx

/-- A piece of a split is no longer than the string, and shorter when
there is a separator. -/
theorem length_of_mem_splitOnP (h : x ∈ s.splitOnP p) :
    x.length ≤ s.length ∧ ((∃ c ∈ s, p c = true) → x.length < s.length) := by
  induction hn : s.length using Nat.strong_induction_on generalizing s with
  | _ n ih =>
    by_cases hs : ∃ c ∈ s, p c = true
    · obtain ⟨a, c, b, rfl, ha, hc⟩ := exists_first_sep hs
      rw [List.splitOnP_append_cons_of_forall_mem ha c hc b, List.mem_cons] at h
      simp only [List.length_append, List.length_cons] at hn
      have hx : x.length < n := by
        rcases h with rfl | h
        · omega
        · have hb := (ih b.length (by omega) h rfl).1
          omega
      exact ⟨by omega, fun _ => hx⟩
    · have hall : ∀ c ∈ s, p c = false := by
        intro c hc
        exact Bool.eq_false_iff.mpr fun hp => hs ⟨c, hc, hp⟩
      rw [List.splitOnP_eq_singleton hall, List.mem_singleton] at h
      subst h
      exact ⟨hn.le, fun he => absurd he hs⟩

end Split

/-- The decimal digits of a natural number. -/
def decimalNat (n : ℕ) : Bytes := (Nat.toDigits 10 n).map byte

/-- The decimal numeral of an integer. -/
def decimal : Int → Bytes
  | .ofNat n => decimalNat n
  | .negSucc n => byte '-' :: decimalNat (n + 1)

/-- A byte between the ASCII digits 0 and 9. -/
def IsDigit (c : UInt8) : Prop := byte '0' ≤ c ∧ c ≤ byte '9'

instance (c : UInt8) : Decidable (IsDigit c) := inferInstanceAs (Decidable (_ ∧ _))

/-- The byte of a digit is a digit. -/
theorem isDigit_byte {c : Char} (h : c.isDigit = true) : IsDigit (byte c) := by
  have hb : 48 ≤ c.toNat ∧ c.toNat ≤ 57 := by
    simpa [Char.isDigit, UInt32.le_iff_toNat_le] using h
  simp only [IsDigit, byte, UInt8.le_iff_toNat_le, UInt8.toNat_ofNat']
  have h0 : Char.toNat '0' = 48 := rfl
  have h9 : Char.toNat '9' = 57 := rfl
  omega

/-- Numerals consist of digits. -/
theorem isDigit_of_mem_toDigits {n : ℕ} {c : Char} (h : c ∈ Nat.toDigits 10 n) :
    c.isDigit = true :=
  Nat.isDigit_of_mem_toDigits (by omega) (by omega) h

theorem isDigit_of_mem_decimalNat {n : ℕ} {c : UInt8} (h : c ∈ decimalNat n) : IsDigit c := by
  obtain ⟨d, hd, rfl⟩ := List.mem_map.mp h
  exact isDigit_byte (isDigit_of_mem_toDigits hd)

/-- The numeral of a natural number is not empty. -/
theorem decimalNat_ne_nil (n : ℕ) : decimalNat n ≠ [] := by
  simp [decimalNat, Nat.toDigits_ne_nil]

/-- A numeral consists of digits, after a minus sign at most. -/
theorem mem_decimal {t : Int} {c : UInt8} (h : c ∈ decimal t) : IsDigit c ∨ c = byte '-' := by
  cases t with
  | ofNat n => exact Or.inl (isDigit_of_mem_decimalNat h)
  | negSucc n =>
    rcases List.mem_cons.mp h with rfl | hc
    · exact Or.inr rfl
    · exact Or.inl (isDigit_of_mem_decimalNat hc)

/-- Every numeral begins with a digit or a minus sign. -/
theorem decimal_cons (t : Int) : ∃ c d, decimal t = c :: d ∧ (IsDigit c ∨ c = byte '-') := by
  cases hd : decimal t with
  | nil =>
    cases t with
    | ofNat n => exact absurd hd (decimalNat_ne_nil n)
    | negSucc n => cases hd
  | cons c d =>
    have hm : c ∈ decimal t := by simp [hd]
    exact ⟨c, d, rfl, mem_decimal hm⟩

theorem decimal_ne_nil (t : Int) : decimal t ≠ [] := by
  obtain ⟨c, d, h, -⟩ := decimal_cons t
  simp [h]

/-- A byte outside the digits and the minus sign occurs in no numeral. -/
theorem not_mem_decimal {c : UInt8} (hd : ¬IsDigit c) (hm : c ≠ byte '-') (t : Int) :
    c ∉ decimal t :=
  fun h => (mem_decimal h).elim hd hm

/-- Digits have different bytes. -/
theorem byte_injective_of_isDigit {c d : Char} (hc : c.isDigit = true) (hd : d.isDigit = true)
    (h : byte c = byte d) : c = d := by
  have hc' : 48 ≤ c.toNat ∧ c.toNat ≤ 57 := by
    simpa [Char.isDigit, UInt32.le_iff_toNat_le] using hc
  have hd' : 48 ≤ d.toNat ∧ d.toNat ≤ 57 := by
    simpa [Char.isDigit, UInt32.le_iff_toNat_le] using hd
  have hn := congrArg UInt8.toNat h
  simp only [byte, UInt8.toNat_ofNat'] at hn
  rw [← Char.ofNat_toNat c, ← Char.ofNat_toNat d]
  congr 1
  omega

/-- Texts of digits are determined by their bytes. -/
theorem map_byte_injective {s t : List Char} (hs : ∀ c ∈ s, c.isDigit = true)
    (ht : ∀ c ∈ t, c.isDigit = true) (h : s.map byte = t.map byte) : s = t := by
  induction s generalizing t with
  | nil => exact (List.map_eq_nil_iff.mp h.symm).symm
  | cons c s ih =>
    cases t with
    | nil => cases h
    | cons d t =>
      obtain ⟨hcd, hst⟩ := List.cons.inj h
      rw [byte_injective_of_isDigit (hs c (by simp)) (ht d (by simp)) hcd,
        ih (fun x hx => hs x (by simp [hx])) (fun x hx => ht x (by simp [hx])) hst]

/-- Numbers are determined by their numerals. -/
theorem decimalNat_injective : Function.Injective decimalNat := by
  intro m n h
  have ht : Nat.toDigits 10 m = Nat.toDigits 10 n :=
    map_byte_injective (fun _ hc => isDigit_of_mem_toDigits hc)
      (fun _ hc => isDigit_of_mem_toDigits hc) h
  rw [← Nat.ofDigitChars_ten_toDigits (n := m), ht, Nat.ofDigitChars_ten_toDigits]

/-- Different integers have different numerals. -/
theorem decimal_injective : Function.Injective decimal := by
  intro s t h
  cases s with
  | ofNat m =>
    cases t with
    | ofNat n => rw [decimalNat_injective h]
    | negSucc n =>
      have he : decimalNat m = byte '-' :: decimalNat (n + 1) := h
      have hd : byte '-' ∈ decimalNat m := by simp [he]
      exact absurd (isDigit_of_mem_decimalNat hd) (by decide)
  | negSucc m =>
    cases t with
    | ofNat n =>
      have he : byte '-' :: decimalNat (m + 1) = decimalNat n := h
      have hd : byte '-' ∈ decimalNat n := by simp [← he]
      exact absurd (isDigit_of_mem_decimalNat hd) (by decide)
    | negSucc n =>
      have hn := decimalNat_injective (List.cons.inj h).2
      rw [Nat.succ.inj hn]

end VideooServer.ByteText
