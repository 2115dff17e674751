import VideooServer.Utf8Text

/-!
# File names in multipart headers

A part that CreateFormFile writes carries its file name as a quoted string
in a header line. The reader unfolds continued lines and then reads the
quoted string rune by rune. A name arrives unchanged exactly when it is nonempty,
well formed and has no line breaks.
-/

namespace VideooServer.MultipartName

open ByteText Utf8Text

/-- The writer's escapes of quotes and backslashes. -/
def escapeQuotes (name : Bytes) : Bytes :=
  name.flatMap fun c => if c = byte '\\' ∨ c = byte '"' then [byte '\\', c] else [c]

/-- Blanks around a header line. -/
def isBlank (c : UInt8) : Bool := c == byte ' ' || c == byte '\t'

/-- A header line without the carriage return and the blanks behind it. -/
def trimLine (line : Bytes) : Bytes :=
  ((if line.getLast? = some (byte '\r') then line.dropLast else line).reverse.dropWhile
    isBlank).reverse

/-- A header value from its raw lines. A line that begins with a blank
continues the one before it, any other line ends the value. -/
def unfoldLines (raw : Bytes) : Bytes :=
  if _h : byte '\n' ∈ raw then
    if (pastFirst (byte '\n') raw).head?.any isBlank then
      trimLine (upTo (byte '\n') raw) ++
        byte ' ' :: unfoldLines ((pastFirst (byte '\n') raw).dropWhile isBlank)
    else trimLine (upTo (byte '\n') raw)
  else raw
termination_by raw.length
decreasing_by
  have hcut := length_cut _h
  have hdrop := (List.dropWhile_suffix isBlank (l := pastFirst (byte '\n') raw)).length_le
  omega

/-- A quoted string from behind its opening quote, rune by rune. A line
break or a missing closing quote makes it unreadable. -/
def unquote (nextIsLiteral : Bool) : Bytes → Option Bytes
  | [] => none
  | c :: t =>
    if nextIsLiteral then (unquote false (nextRune c t).2).map fun n => (nextRune c t).1 ++ n
    else if c = byte '"' then some []
    else if c = byte '\\' then unquote true t
    else if c = byte '\r' ∨ c = byte '\n' then none
    else (unquote false (nextRune c t).2).map fun n => (nextRune c t).1 ++ n
termination_by s => s.length
decreasing_by
  all_goals
    have hc := nextRune_length c t
    simp only [List.length_cons]
    omega

/-- The file name that the reader finds in a part written for a name, none
when it finds no file there. -/
def partFileName (name : Bytes) : Option Bytes :=
  (unquote false (unfoldLines (escapeQuotes name ++ [byte '"']))).filter fun n => !n.isEmpty

/-- A name that arrives unchanged. -/
def HeaderSafe (name : Bytes) : Prop :=
  name ≠ [] ∧ validUtf8 name = true ∧ byte '\r' ∉ name ∧ byte '\n' ∉ name

instance (name : Bytes) : Decidable (HeaderSafe name) := inferInstanceAs (Decidable (_ ∧ _))

variable {name : Bytes}

/-- Escaping goes byte by byte. -/
theorem escapeQuotes_cons (c : UInt8) (name : Bytes) :
    escapeQuotes (c :: name) =
      (if c = byte '\\' ∨ c = byte '"' then [byte '\\', c] else [c]) ++ escapeQuotes name := by
  rw [escapeQuotes, List.flatMap_cons, escapeQuotes]

/-- Escaping adds backslashes only. -/
theorem mem_escapeQuotes {c : UInt8} (hc : c ≠ byte '\\') (h : c ∈ escapeQuotes name) :
    c ∈ name := by
  obtain ⟨d, hd, hm⟩ := List.mem_flatMap.mp h
  split_ifs at hm
  · rcases List.mem_cons.mp hm with he | hm
    · exact absurd he hc
    · rwa [List.mem_singleton.mp hm]
  · rwa [List.mem_singleton.mp hm]

/-- A line without a newline is not folded. -/
theorem unfoldLines_of_not_mem {raw : Bytes} (h : byte '\n' ∉ raw) : unfoldLines raw = raw := by
  rw [unfoldLines, dif_neg h]

/-- Bytes outside ASCII are not escaped. -/
theorem escapeQuotes_append {r : Bytes} (h : ∀ c ∈ r, 0x80 ≤ c) (s : Bytes) :
    escapeQuotes (r ++ s) = r ++ escapeQuotes s := by
  induction r with
  | nil => rfl
  | cons c r ih =>
    have hc : ¬(c = byte '\\' ∨ c = byte '"') := by
      intro he
      have hlow := h c (by simp)
      rcases he with he | he <;> rw [he] at hlow <;> exact absurd hlow (by decide)
    rw [List.cons_append, escapeQuotes_cons, if_neg hc, ih fun d hd => h d (by simp [hd])]
    rfl

/-- An ASCII byte is read back, with or without its backslash, unless it is
a line break. -/
theorem unquote_ascii {b : UInt8} (hb : b < 0x80) (t : Bytes) :
    unquote false (escapeQuotes (b :: t) ++ [byte '"']) =
      if b = byte '\r' ∨ b = byte '\n' then none
      else (unquote false (escapeQuotes t ++ [byte '"'])).map fun n => b :: n := by
  rw [escapeQuotes_cons]
  split_ifs with hq hbreak hbreak
  · rcases hq with rfl | rfl <;> exact absurd hbreak (by decide)
  · rw [List.append_assoc, List.cons_append, unquote, if_neg (by decide), if_neg (by decide),
      if_pos rfl, List.cons_append, List.nil_append, unquote, if_pos rfl, nextRune_ascii hb]
    rfl
  · rw [not_or] at hq
    rw [List.append_assoc, List.cons_append, unquote, if_neg (by decide), if_neg hq.2,
      if_neg hq.1, if_pos hbreak]
  · rw [not_or] at hq
    rw [List.append_assoc, List.cons_append, List.nil_append, unquote, if_neg (by decide),
      if_neg hq.2, if_neg hq.1, if_neg hbreak, nextRune_ascii hb]
    rfl

/-- A rune outside ASCII is read back. -/
theorem unquote_rune {b : UInt8} {t r u : Bytes} (hb : ¬b < 0x80)
    (hd : decodeRune (b :: t) = some (r, u)) :
    (∀ c ∈ r, 0x80 ≤ c) ∧ b :: t = r ++ u ∧
      unquote false (escapeQuotes (b :: t) ++ [byte '"']) =
        (unquote false (escapeQuotes u ++ [byte '"'])).map fun n => r ++ n := by
  obtain ⟨he, hrune⟩ := decodeRune_spec hd
  have hhigh : ∀ c ∈ r, 0x80 ≤ c := by
    rcases hrune with ⟨c, rfl, hc⟩ | ⟨-, hc⟩
    · exact absurd (by rw [(List.cons.inj he).1]; exact hc) hb
    · exact hc
  refine ⟨hhigh, he, ?_⟩
  have hread := decodeRune_append hd (escapeQuotes u ++ [byte '"'])
  rw [he, escapeQuotes_append hhigh, List.append_assoc]
  cases r with
  | nil =>
    rcases hrune with ⟨c, hc, -⟩ | ⟨hl, -⟩
    · cases hc
    · simp at hl
  | cons c r =>
    have hne : ∀ d < 0x80, c ≠ d := fun d hlow hcd =>
      absurd (UInt8.lt_of_lt_of_le hlow (hcd ▸ hhigh c (by simp))) (UInt8.lt_irrefl d)
    have hnext : nextRune c (r ++ (escapeQuotes u ++ [byte '"'])) =
        (c :: r, escapeQuotes u ++ [byte '"']) := by
      rw [nextRune, ← List.cons_append, hread, Option.getD_some]
    rw [List.cons_append, unquote, if_neg (by decide), if_neg (hne _ (by decide)),
      if_neg (hne _ (by decide)), if_neg (by simp [hne _ (show byte '\r' < 0x80 by decide),
        hne _ (show byte '\n' < 0x80 by decide)]), hnext]

/-- The quoted string is read back rune by rune, up to a line break. -/
theorem unquote_escapeQuotes (hv : validUtf8 name = true) :
    unquote false (escapeQuotes name ++ [byte '"']) =
      if byte '\r' ∈ name ∨ byte '\n' ∈ name then none else some name := by
  refine rune_induction (P := fun name => unquote false (escapeQuotes name ++ [byte '"']) =
    if byte '\r' ∈ name ∨ byte '\n' ∈ name then none else some name) ?_ ?_ ?_ hv
  · rw [escapeQuotes, List.flatMap_nil, List.nil_append, unquote, if_neg (by decide), if_pos rfl]
    rfl
  · intro b t hb ih
    rw [unquote_ascii hb, ih]
    by_cases hbreak : b = byte '\r' ∨ b = byte '\n'
    · rw [if_pos hbreak, if_pos (by rcases hbreak with rfl | rfl <;> simp)]
    · rw [not_or] at hbreak
      have hmem : byte '\r' ∈ b :: t ∨ byte '\n' ∈ b :: t ↔ byte '\r' ∈ t ∨ byte '\n' ∈ t := by
        simp [Ne.symm hbreak.1, Ne.symm hbreak.2]
      rw [if_neg (by simp [hbreak])]
      split_ifs with hrest hall hall
      · rfl
      · exact absurd (hmem.mpr hrest) hall
      · exact absurd (hmem.mp hall) hrest
      · rfl
  · intro b t r u hb hd ih
    obtain ⟨hhigh, he, hread⟩ := unquote_rune hb hd
    have hmem : ∀ c < 0x80, c ∈ b :: t ↔ c ∈ u := by
      intro c hc
      rw [he, List.mem_append, or_iff_right]
      exact fun hm => absurd (UInt8.lt_of_lt_of_le hc (hhigh c hm)) (UInt8.lt_irrefl c)
    rw [hread, ih, if_congr (or_congr (hmem _ (by decide)) (hmem _ (by decide))) rfl rfl]
    split_ifs
    · rfl
    · rw [he]
      rfl

/-- The rune that is read keeps a text well formed, and its ASCII bytes are
bytes of the input. -/
theorem nextRune_wellFormed (c : UInt8) (t : Bytes) :
    (∀ x, validUtf8 ((nextRune c t).1 ++ x) = validUtf8 x) ∧
      ∀ d ∈ (nextRune c t).1, d ∈ c :: t ∨ 0x80 ≤ d := by
  unfold nextRune
  cases hd : decodeRune (c :: t) with
  | none =>
    have hread : decodeRune replacement = some (replacement, []) := by decide
    have hhigh : ∀ d ∈ replacement, 0x80 ≤ d := by decide
    exact ⟨validUtf8_append_rune hread, fun d hm => Or.inr (hhigh d hm)⟩
  | some p =>
    refine ⟨validUtf8_append_rune (t := p.2) hd, fun d hm => Or.inl ?_⟩
    rw [(decodeRune_spec (t := p.2) hd).1]
    exact List.mem_append_left _ hm

/-- What is read from a quoted string is well formed, and its ASCII bytes
are bytes of the string. -/
theorem unquote_wellFormed {nextIsLiteral : Bool} {s n : Bytes}
    (h : unquote nextIsLiteral s = some n) :
    validUtf8 n = true ∧ ∀ d ∈ n, d ∈ s ∨ 0x80 ≤ d := by
  induction hlen : s.length using Nat.strong_induction_on generalizing s nextIsLiteral n with
  | _ size ih =>
    cases s with
    | nil => simp [unquote] at h
    | cons c t =>
      rw [List.length_cons] at hlen
      have hrune : ∀ n, ((unquote false (nextRune c t).2).map fun n => (nextRune c t).1 ++ n) =
          some n → validUtf8 n = true ∧ ∀ d ∈ n, d ∈ c :: t ∨ 0x80 ≤ d := by
        intro n h
        obtain ⟨m, hm, rfl⟩ := Option.map_eq_some_iff.mp h
        have hshort := nextRune_length c t
        obtain ⟨hvalid, hbytes⟩ := ih _ (by omega) hm rfl
        obtain ⟨hkeep, hread⟩ := nextRune_wellFormed c t
        refine ⟨by rw [hkeep, hvalid], fun d hd => ?_⟩
        rcases List.mem_append.mp hd with hd | hd
        · exact hread d hd
        · obtain ⟨⟨u, hu, -⟩, -⟩ := nextRune_spec c t
          refine (hbytes d hd).imp_left fun hd => ?_
          rw [hu]
          exact List.mem_append_right _ hd
      rw [unquote] at h
      split_ifs at h with hliteral hquote hback hbreak
      · exact hrune n h
      · obtain rfl := Option.some.inj h
        exact ⟨rfl, by simp⟩
      · obtain ⟨hvalid, hbytes⟩ := ih _ (by omega) h rfl
        exact ⟨hvalid, fun d hd => (hbytes d hd).imp_left (List.mem_cons_of_mem c)⟩
      · exact hrune n h

/-- Trimming a line only takes bytes away. -/
theorem mem_trimLine {c : UInt8} {line : Bytes} (h : c ∈ trimLine line) : c ∈ line := by
  rw [trimLine, List.mem_reverse] at h
  have hm := (List.dropWhile_sublist isBlank).subset h
  rw [List.mem_reverse] at hm
  split_ifs at hm
  · exact (List.dropLast_sublist _).subset hm
  · exact hm

/-- A header value is one line of bytes of the raw one and of blanks. -/
theorem mem_unfoldLines {c : UInt8} {raw : Bytes} (h : c ∈ unfoldLines raw) :
    c ≠ byte '\n' ∧ (c ∈ raw ∨ c = byte ' ') := by
  induction hlen : raw.length using Nat.strong_induction_on generalizing raw with
  | _ size ih =>
    rw [unfoldLines] at h
    split_ifs at h with hline hfold
    · have hcut := length_cut hline
      have hdrop := (List.dropWhile_suffix isBlank (l := pastFirst (byte '\n') raw)).length_le
      have hfirst : ∀ d ∈ trimLine (upTo (byte '\n') raw), d ≠ byte '\n' ∧ d ∈ raw := by
        intro d hd
        have hup := mem_trimLine hd
        exact ⟨fun he => not_mem_upTo _ _ (he ▸ hup), (upTo_sublist _ _).subset hup⟩
      rcases List.mem_append.mp h with h | h
      · exact (hfirst c h).imp_right Or.inl
      · rcases List.mem_cons.mp h with rfl | h
        · exact ⟨by decide, Or.inr rfl⟩
        · obtain ⟨hne, hin⟩ := ih _ (by omega) h rfl
          refine ⟨hne, hin.imp_left fun hin => ?_⟩
          have hpast := (List.dropWhile_sublist isBlank).subset hin
          exact (List.dropWhile_sublist _).subset (List.mem_of_mem_tail hpast)
    · have hup := mem_trimLine h
      exact ⟨fun he => not_mem_upTo _ _ (he ▸ hup), Or.inl ((upTo_sublist _ _).subset hup)⟩
    · exact ⟨fun he => hline (he ▸ h), Or.inl h⟩

/-- The name that arrives is well formed and has no line feed and no slash
that was not sent. -/
theorem partFileName_spec {n : Bytes} (h : partFileName name = some n) :
    n ≠ [] ∧ validUtf8 n = true ∧ byte '\n' ∉ n ∧ (byte '/' ∈ n → byte '/' ∈ name) := by
  obtain ⟨hread, hne⟩ := Option.filter_eq_some_iff.mp h
  obtain ⟨hvalid, hbytes⟩ := unquote_wellFormed hread
  refine ⟨by simpa using hne, hvalid, fun hm => ?_, fun hm => ?_⟩
  · rcases hbytes _ hm with hm | hm
    · exact (mem_unfoldLines hm).1 rfl
    · exact absurd hm (by decide)
  · rcases hbytes _ hm with hm | hm
    · rcases (mem_unfoldLines hm).2 with hm | hm
      · rcases List.mem_append.mp hm with hm | hm
        · exact mem_escapeQuotes (by decide) hm
        · exact absurd hm (by decide)
      · exact absurd hm (by decide)
    · exact absurd hm (by decide)

/-- Exactly the safe names arrive unchanged. -/
theorem partFileName_eq_self_iff : partFileName name = some name ↔ HeaderSafe name := by
  have hline : byte '\n' ∉ name → byte '\n' ∉ escapeQuotes name ++ [byte '"'] := by
    intro hn
    rw [List.mem_append, not_or]
    exact ⟨fun hm => hn (mem_escapeQuotes (by decide) hm), by decide⟩
  constructor
  · intro h
    obtain ⟨hne, hv, hn, -⟩ := partFileName_spec h
    refine ⟨hne, hv, fun hr => ?_, hn⟩
    rw [partFileName, unfoldLines_of_not_mem (hline hn), unquote_escapeQuotes hv,
      if_pos (Or.inl hr)] at h
    cases h
  · intro ⟨hne, hv, hr, hn⟩
    rw [partFileName, unfoldLines_of_not_mem (hline hn), unquote_escapeQuotes hv,
      if_neg (by simp [hr, hn])]
    simp [hne]

end VideooServer.MultipartName
