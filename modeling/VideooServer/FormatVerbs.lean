import VideooServer.Utf8Text
import Mathlib.Data.List.Chain

/-!
# Formats without arguments

What Go's fmt.Fprintf writes when its format is followed by no arguments:
text outside of directives is copied, two percent signs print one, and any
other directive prints an error text that begins with a percent sign and
an exclamation mark. The output is analysed byte by byte, so that a reader
of the output can be traced back to the format.
-/

namespace VideooServer.FormatVerbs

open ByteText Utf8Text

/-- State of the scan of one directive, without arguments to consume. -/
structure Scan where
  /-- The format that is left. -/
  rest : Bytes
  /-- Error text printed so far. -/
  out : Bytes
  /-- No argument index has been seen; each one is out of range. -/
  goodArgNum : Bool
  /-- The previous item was an argument index. -/
  afterIndex : Bool

/-- The flags of a directive. -/
def isFlag (c : UInt8) : Bool := c ∈ ascii "+-# 0"

/-- Decimal digits of a width or a precision. -/
def isNum (c : UInt8) : Bool := byte '0' ≤ c && c ≤ byte '9'

/-- An explicit argument index, a bracket up to its closing bracket. -/
def argNumber (s : Scan) : Scan :=
  match s.rest with
  | [] => { s with afterIndex := false }
  | c :: t =>
    if c = byte '[' then
      { s with
        rest := if byte ']' ∈ t then pastFirst (byte ']') t else t
        goodArgNum := false
        afterIndex := true }
    else { s with afterIndex := false }

/-- A width or a precision: a star lacks its argument, digits are skipped. -/
def number (bad : Bytes) (s : Scan) : Scan :=
  match s.rest with
  | [] => s
  | c :: t =>
    if c = byte '*' then { s with rest := t, out := s.out ++ bad, afterIndex := false }
    else { s with rest := s.rest.dropWhile isNum }

/-- An optional precision, with an argument index of its own. -/
def precision (s : Scan) : Scan :=
  match s.rest with
  | [] => s
  | c :: t =>
    if c = byte '.' then number (ascii "%!(BADPREC)") (argNumber { s with rest := t }) else s

/-- The last place for an argument index. -/
def verbIndex (s : Scan) : Scan := if s.afterIndex then s else argNumber s

/-- The verb that ends a directive: the text printed and the format left. -/
def verb (s : Scan) : Bytes × Bytes :=
  match s.rest with
  | [] => (s.out ++ ascii "%!(NOVERB)", [])
  | c :: t =>
    let (rune, rest) := nextRune c t
    if rune = [byte '%'] then (s.out ++ ascii "%", rest)
    else
      (s.out ++ (ascii "%!" ++ (rune ++
        if s.goodArgNum then ascii "(MISSING)" else ascii "(BADINDEX)")), rest)

/-- The scan of a directive up to its verb, from behind the percent sign. -/
def modifiers (format : Bytes) : Scan :=
  verbIndex (precision (number (ascii "%!(BADWIDTH)")
    (argNumber ⟨format.dropWhile isFlag, [], true, false⟩)))

/-- One directive, from behind its percent sign: what it prints and the
format that is left. -/
def directive (format : Bytes) : Bytes × Bytes := verb (modifiers format)

/-- Every step of the scan leaves a suffix of the format. -/
theorem argNumber_suffix (s : Scan) : (argNumber s).rest <:+ s.rest := by
  unfold argNumber
  split
  · exact List.suffix_refl _
  · next c t h =>
    rw [h]
    split_ifs
    · refine List.IsSuffix.trans ?_ (List.suffix_cons c t)
      exact (List.tail_suffix _).trans (List.dropWhile_suffix _)
    · exact List.suffix_cons c t
    · exact h ▸ List.suffix_refl _

/-- Scanning a number leaves a suffix. -/
theorem number_suffix (bad : Bytes) (s : Scan) : (number bad s).rest <:+ s.rest := by
  unfold number
  split
  · exact List.suffix_refl _
  · next c t h =>
    split_ifs
    · exact h ▸ List.suffix_cons c t
    · exact List.dropWhile_suffix _

/-- Scanning a precision leaves a suffix. -/
theorem precision_suffix (s : Scan) : (precision s).rest <:+ s.rest := by
  unfold precision
  split
  · exact List.suffix_refl _
  · next c t h =>
    split_ifs
    · rw [h]
      exact ((number_suffix _ _).trans (argNumber_suffix _)).trans (List.suffix_cons c t)
    · exact List.suffix_refl _

/-- Scanning an argument index leaves a suffix. -/
theorem verbIndex_suffix (s : Scan) : (verbIndex s).rest <:+ s.rest := by
  unfold verbIndex
  split_ifs
  · exact List.suffix_refl _
  · exact argNumber_suffix s

/-- Scanning the modifiers of a verb leaves a suffix. -/
theorem modifiers_suffix (format : Bytes) : (modifiers format).rest <:+ format :=
  (verbIndex_suffix _).trans ((precision_suffix _).trans ((number_suffix _ _).trans
    ((argNumber_suffix _).trans (List.dropWhile_suffix _))))

/-- A directive consumes a part of the format, and some of it when the
format goes on behind the percent sign. -/
theorem directive_suffix (format : Bytes) :
    ∃ u, format = u ++ (directive format).2 ∧ (format ≠ [] → u ≠ []) := by
  obtain ⟨a, ha⟩ := modifiers_suffix format
  unfold directive verb
  split
  · next h =>
    refine ⟨format, by simp, fun hf => hf⟩
  · next c t h =>
    obtain ⟨⟨u, hu, hne⟩, -⟩ := nextRune_spec c t
    rw [h, hu] at ha
    dsimp only
    split_ifs
    all_goals
      refine ⟨a ++ u, by rw [← ha, List.append_assoc], fun _ he => hne ?_⟩
      exact (List.append_eq_nil_iff.mp he).2

/-- A directive leaves no more than follows its percent sign. -/
theorem directive_length (format : Bytes) : (directive format).2.length ≤ format.length := by
  obtain ⟨u, hu, -⟩ := directive_suffix format
  have hl := congrArg List.length hu
  rw [List.length_append] at hl
  omega

/-- fmt.Fprintf with a format and no arguments. -/
def fprintf : Bytes → Bytes
  | [] => []
  | c :: t =>
    if c = byte '%' then (directive t).1 ++ fprintf (directive t).2
    else c :: fprintf t
termination_by format => format.length
decreasing_by
  · have h := directive_length t
    simp only [List.length_cons]
    omega
  · simp

theorem fprintf_nil : fprintf [] = [] := by rw [fprintf]

/-- A byte other than a percent sign is printed. -/
theorem fprintf_cons {c : UInt8} (h : c ≠ byte '%') (t : Bytes) :
    fprintf (c :: t) = c :: fprintf t := by
  rw [fprintf, if_neg h]

/-- A percent sign starts a directive. -/
theorem fprintf_percent (t : Bytes) :
    fprintf (byte '%' :: t) = (directive t).1 ++ fprintf (directive t).2 := by
  rw [fprintf, if_pos rfl]

variable {s t u : Bytes}

/-- A text without a percent sign is printed as it is. -/
theorem fprintf_append (h : byte '%' ∉ s) (t : Bytes) : fprintf (s ++ t) = s ++ fprintf t := by
  induction s with
  | nil => rfl
  | cons c s ih =>
    simp only [List.mem_cons, not_or] at h
    rw [List.cons_append, fprintf_cons (Ne.symm h.1), ih h.2, List.cons_append]

/-- A format without a percent sign is printed as it stands. -/
theorem fprintf_of_not_mem (h : byte '%' ∉ s) : fprintf s = s := by
  have he := fprintf_append h []
  rwa [List.append_nil, fprintf_nil, List.append_nil] at he

/-- The error texts of a star without its argument. -/
def starErrors : List Bytes :=
  [[], ascii "%!(BADWIDTH)", ascii "%!(BADPREC)", ascii "%!(BADWIDTH)%!(BADPREC)"]

/-- Scanning an argument number prints nothing. -/
theorem argNumber_out (s : Scan) : (argNumber s).out = s.out := by
  unfold argNumber
  split
  · rfl
  · split_ifs <;> rfl

/-- Scanning a number prints nothing, or that it is bad. -/
theorem number_out (bad : Bytes) (s : Scan) :
    (number bad s).out = s.out ∨ (number bad s).out = s.out ++ bad := by
  unfold number
  split
  · exact Or.inl rfl
  · split_ifs
    · exact Or.inr rfl
    · exact Or.inl rfl

/-- Scanning a precision prints nothing, or that it is bad. -/
theorem precision_out (s : Scan) :
    (precision s).out = s.out ∨ (precision s).out = s.out ++ ascii "%!(BADPREC)" := by
  unfold precision
  split
  · exact Or.inl rfl
  · next c t h =>
    split_ifs
    · have hn := number_out (ascii "%!(BADPREC)") (argNumber { s with rest := t })
      rwa [argNumber_out] at hn
    · exact Or.inl rfl

/-- Scanning an argument index prints nothing. -/
theorem verbIndex_out (s : Scan) : (verbIndex s).out = s.out := by
  unfold verbIndex
  split_ifs
  · rfl
  · exact argNumber_out s

/-- Before the verb only the errors of stars are printed. -/
theorem modifiers_out (format : Bytes) : (modifiers format).out ∈ starErrors := by
  have hw : (number (ascii "%!(BADWIDTH)")
      (argNumber ⟨format.dropWhile isFlag, [], true, false⟩)).out ∈ [[], ascii "%!(BADWIDTH)"] := by
    rcases number_out (ascii "%!(BADWIDTH)")
      (argNumber ⟨format.dropWhile isFlag, [], true, false⟩) with h | h <;>
      simp [h, argNumber_out]
  have hp := precision_out (number (ascii "%!(BADWIDTH)")
    (argNumber ⟨format.dropWhile isFlag, [], true, false⟩))
  rw [modifiers, verbIndex_out]
  simp only [List.mem_cons, List.not_mem_nil, or_false] at hw
  rcases hp with hp | hp <;> rcases hw with hw | hw <;> rw [hp, hw] <;> decide

/-- The text behind the rune of a verb without an operand. -/
def Complaint (s : Bytes) : Prop := s = ascii "(MISSING)" ∨ s = ascii "(BADINDEX)"

/-- What a directive prints: the errors of its stars, then a percent sign,
an error about the lacking verb, or an error about the verb's operand. -/
theorem directive_cases (format : Bytes) : ∃ pre ∈ starErrors,
    (directive format).1 = pre ++ ascii "%" ∨
      (directive format).1 = pre ++ ascii "%!(NOVERB)" ∨
        ∃ rune text, (directive format).1 = pre ++ (ascii "%!" ++ (rune ++ text)) ∧
          Complaint text ∧ byte '%' ∉ rune ∧
            ((∃ c, rune = [c] ∧ c < 0x80) ∨ ∀ c ∈ rune, 0x80 ≤ c) := by
  refine ⟨(modifiers format).out, modifiers_out format, ?_⟩
  unfold directive verb
  split
  · exact Or.inr (Or.inl rfl)
  · next c t h =>
    dsimp only
    obtain ⟨-, hr⟩ := nextRune_spec c t
    split_ifs with hv hg
    · exact Or.inl rfl
    all_goals
      refine Or.inr (Or.inr ⟨(nextRune c t).1, _, rfl, ?_, ?_, ?_⟩)
    · exact Or.inl rfl
    · rcases hr with ⟨d, hd, -⟩ | ⟨-, hd⟩
      · rw [hd] at hv ⊢
        simpa [eq_comm] using hv
      · intro hm
        exact absurd (hd _ hm) (by decide)
    · exact hr.imp id And.right
    · exact Or.inr rfl
    · rcases hr with ⟨d, hd, -⟩ | ⟨-, hd⟩
      · rw [hd] at hv ⊢
        simpa [eq_comm] using hv
      · intro hm
        exact absurd (hd _ hm) (by decide)
    · exact hr.imp id And.right

/-- A percent sign is only followed by an exclamation mark. -/
def PercentBang (c d : UInt8) : Prop := c = byte '%' → d = byte '!'

instance : DecidableRel PercentBang := fun _ _ => inferInstanceAs (Decidable (_ → _))

/-- A text without a percent sign is such a text. -/
theorem isChain_of_not_mem (h : byte '%' ∉ s) : s.IsChain PercentBang := by
  induction s with
  | nil => exact .nil
  | cons c s ih =>
    simp only [List.mem_cons, not_or] at h
    refine List.isChain_cons.mpr ⟨?_, ih h.2⟩
    intro d _ hc
    exact absurd hc.symm h.1

/-- What a directive prints begins with a percent sign, and any percent
sign in it is followed by an exclamation mark or by nothing. -/
theorem directive_chain (format : Bytes) :
    (∃ o, (directive format).1 = byte '%' :: o) ∧ (directive format).1.IsChain PercentBang := by
  have hpre : ∀ pre ∈ starErrors, (∃ o, pre ++ ascii "%" = byte '%' :: o) ∧
      pre.IsChain PercentBang ∧ byte '%' ∉ pre.getLast? := by
    intro pre hp
    simp only [starErrors, List.mem_cons, List.not_mem_nil, or_false] at hp
    rcases hp with rfl | rfl | rfl | rfl <;> exact ⟨⟨_, rfl⟩, by decide, by decide⟩
  have hjoin : ∀ pre ∈ starErrors, ∀ e : Bytes, (byte '%' :: e).IsChain PercentBang →
      (∃ o, pre ++ byte '%' :: e = byte '%' :: o) ∧
        (pre ++ byte '%' :: e).IsChain PercentBang := by
    intro pre hp e he
    obtain ⟨⟨o, ho⟩, hc, hl⟩ := hpre pre hp
    refine ⟨⟨o ++ e, ?_⟩, List.isChain_append.mpr ⟨hc, he, ?_⟩⟩
    · rw [← List.cons_append, ← ho, List.append_assoc]
      rfl
    · intro x hx y _ hxp
      exact absurd (hxp ▸ hx) hl
  obtain ⟨pre, hp, h | h | ⟨rune, text, h, htext, hrune, -⟩⟩ := directive_cases format
  · rw [h]
    exact hjoin pre hp [] (by decide)
  · rw [h]
    exact hjoin pre hp (ascii "!(NOVERB)") (by decide)
  · rw [h]
    refine hjoin pre hp (byte '!' :: (rune ++ text)) ?_
    have hmem : byte '%' ∉ byte '!' :: (rune ++ text) := by
      have ht : byte '%' ∉ text := by
        rcases htext with rfl | rfl <;> decide
      simp only [List.mem_cons, List.mem_append, not_or]
      exact ⟨by decide, hrune, ht⟩
    refine List.isChain_cons.mpr ⟨?_, isChain_of_not_mem hmem⟩
    intro d hd _
    exact (Option.some.inj hd).symm

/-- A directive of an exclamation mark has no argument. -/
theorem directive_bang (t : Bytes) :
    directive (byte '!' :: t) = (ascii "%!!(MISSING)", t) := by
  have hflag : (byte '!' :: t).dropWhile isFlag = byte '!' :: t := rfl
  have hrune : decodeRune (byte '!' :: t) = some ([byte '!'], t) :=
    decodeRune_ascii (by decide) t
  have hmod : modifiers (byte '!' :: t) = ⟨byte '!' :: t, [], true, false⟩ := rfl
  rw [directive, hmod, verb]
  simp only [nextRune, hrune, Option.getD_some]
  rfl

/-- Printed text without a percent sign comes from the same text in the
format. -/
theorem exists_of_fprintf_append {p y : Bytes} (hp : byte '%' ∉ p) (h : fprintf s = p ++ y) :
    ∃ t, s = p ++ t ∧ y = fprintf t := by
  induction p generalizing s with
  | nil => exact ⟨s, rfl, h.symm⟩
  | cons d p ih =>
    simp only [List.mem_cons, not_or] at hp
    cases s with
    | nil =>
      rw [fprintf_nil] at h
      cases h
    | cons c s =>
      by_cases hc : c = byte '%'
      · obtain ⟨o, ho⟩ := (directive_chain s).1
        rw [hc, fprintf_percent, ho] at h
        exact absurd (List.cons.inj h).1 hp.1
      · rw [fprintf_cons hc] at h
        obtain ⟨rfl, hs⟩ := List.cons.inj h
        obtain ⟨t, rfl, ht⟩ := ih hp.2 hs
        exact ⟨t, rfl, ht⟩

end VideooServer.FormatVerbs
