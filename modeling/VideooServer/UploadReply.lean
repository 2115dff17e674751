import VideooServer.FormatVerbs
import VideooServer.JsonText
import VideooServer.OutputName

/-!
# The reply to an upload

The fs server prints the stored name into a JSON template and then uses the
result as a format. A reader of the reply gets the name back exactly when
the extension is well formed UTF-8 without percent signs, quotes, backslashes
and control characters. No other name survives: an escape or an error text
is never as long as the text it was read from and the same at once.
-/

namespace VideooServer.UploadReply

open ByteText Utf8Text FormatVerbs JsonText OutputName

/-- The template in front of the name. -/
def opening : Bytes := ascii "\x7b\"files\":[\x7b\"name\":\""

/-- The template behind the name. -/
def closing : Bytes := ascii "\"\x7d]\x7d"

/-- What upload writes to the response for a stored file: the template with
the name in it, used as a format. -/
def uploadReply (fileName : Bytes) : Bytes := fprintf (opening ++ fileName ++ closing)

/-- A body is a JSON text whose "files" array has one entry with this name. -/
def ReplyNames (body name : Bytes) : Prop :=
  ∃ v entry, Decodes body v ∧ v.field (ascii "files") = some (.arr [entry]) ∧
    entry.field (ascii "name") = some (.str name)

/-- A byte that neither the format nor JSON interprets. -/
def Inert (c : UInt8) : Prop := c ≠ byte '%' ∧ Literal c

instance (c : UInt8) : Decidable (Inert c) := inferInstanceAs (Decidable (_ ∧ _))

/-- Text that passes both layers unchanged. -/
def JsonSafe (s : Bytes) : Prop := validUtf8 s = true ∧ ∀ c ∈ s, Inert c

instance (s : Bytes) : Decidable (JsonSafe s) := inferInstanceAs (Decidable (_ ∧ _))

variable {s u r w x m : Bytes} {c : UInt8}

/-- Inert bytes are no percent signs. -/
theorem not_mem_of_inert (h : ∀ c ∈ s, Inert c) : byte '%' ∉ s :=
  fun hm => (h _ hm).1 rfl

/-- Inert bytes in front of the closing template are read as a string. -/
theorem scanString_closing (h : ∀ c ∈ s, Inert c) :
    scanString (s ++ closing) = some (s, ascii "\x7d]\x7d") :=
  scanString_cut (fun c hc => (h c hc).2) _

/-- The reader goes through the template and finds the name. -/
theorem readValue_template (h : ∀ c ∈ s, Inert c) :
    readValue 7 (opening ++ s ++ closing) =
      some (.obj [(ascii "files", .arr [.obj [(ascii "name", .str s)]])], []) := by
  have hname : readValue 1 (byte '"' :: (s ++ closing)) = some (.str s, ascii "\x7d]\x7d") :=
    readValue_string (scanString_closing h)
  have hkey : scanString (ascii "name\":\"" ++ (s ++ closing)) =
      some (ascii "name", byte ':' :: byte '"' :: (s ++ closing)) :=
    scanString_cut (s := ascii "name") (by decide) _
  have hentry : readValue 3 (byte '\x7b' :: byte '"' :: (ascii "name\":\"" ++ (s ++ closing))) =
      some (.obj [(ascii "name", .str s)], ascii "]\x7d") :=
    readValue_object (readMembers_last hkey hname)
  have hfiles : readValue 5
      (byte '[' :: byte '\x7b' :: byte '"' :: (ascii "name\":\"" ++ (s ++ closing))) =
        some (.arr [.obj [(ascii "name", .str s)]], ascii "\x7d") :=
    readValue_array (by decide) (by decide) (readItems_last hentry)
  have hkey' : scanString (ascii "files\":[\x7b\"name\":\"" ++ (s ++ closing)) =
      some (ascii "files", byte ':' :: byte '[' :: byte '\x7b' :: byte '"' ::
        (ascii "name\":\"" ++ (s ++ closing))) :=
    scanString_cut (s := ascii "files") (by decide) _
  have hbody : opening ++ s ++ closing =
      byte '\x7b' :: byte '"' :: (ascii "files\":[\x7b\"name\":\"" ++ (s ++ closing)) := by
    rw [List.append_assoc]
    rfl
  rw [hbody]
  exact readValue_object (readMembers_last hkey' hfiles)

/-- A well formed name makes a well formed text. -/
theorem validUtf8_template (h : validUtf8 s = true) : validUtf8 (opening ++ s ++ closing) = true :=
  validUtf8_append (validUtf8_append (by decide) h) (by decide)

/-- The reply for a name of inert bytes. -/
theorem uploadReply_of_inert (h : ∀ c ∈ s, Inert c) :
    uploadReply s = opening ++ s ++ closing := by
  have hp : byte '%' ∉ opening ++ s ++ closing := by
    simp only [List.mem_append, not_or]
    exact ⟨⟨by decide, not_mem_of_inert h⟩, by decide⟩
  exact fprintf_of_not_mem hp

/-- A name that passes both layers unchanged is read back. -/
theorem replyNames_of_jsonSafe (h : JsonSafe s) : ReplyNames (uploadReply s) s := by
  rw [uploadReply_of_inert h.2]
  refine ⟨.obj [(ascii "files", .arr [.obj [(ascii "name", .str s)]])],
    .obj [(ascii "name", .str s)], ⟨validUtf8_template h.1, 7, [], readValue_template h.2, rfl⟩,
    ?_, ?_⟩
  · simp [Json.field]
  · simp [Json.field]

/-- What a directive prints is literal but for one byte at most, the rune of
its verb, which an opening bracket follows. -/
theorem directive_shape (format : Bytes) :
    (∀ c ∈ (directive format).1, Literal c) ∨
      ∃ o c t, (directive format).1 = (o ++ ascii "%!") ++ c :: byte '(' :: t ∧ ¬Literal c ∧
        (∀ d ∈ o ++ ascii "%!", Literal d) ∧ ∀ d ∈ byte '(' :: t, Literal d := by
  have hpre : ∀ pre ∈ starErrors, ∀ c ∈ pre, Literal c := by decide
  have htail : ∀ text, Complaint text → ∃ t, text = byte '(' :: t ∧ ∀ c ∈ text, Literal c := by
    intro text h
    rcases h with rfl | rfl
    · exact ⟨_, rfl, by decide⟩
    · exact ⟨_, rfl, by decide⟩
  obtain ⟨pre, hp, h | h | ⟨rune, text, h, htext, -, hrune⟩⟩ := directive_cases format
  · left
    rw [h]
    exact List.forall_mem_append.mpr ⟨hpre pre hp, by decide⟩
  · left
    rw [h]
    exact List.forall_mem_append.mpr ⟨hpre pre hp, by decide⟩
  · obtain ⟨t, ht, hlit⟩ := htail text htext
    have hbang : ∀ c ∈ ascii "%!", Literal c := by decide
    have hclean : (∀ c ∈ rune, Literal c) → ∀ c ∈ (directive format).1, Literal c := by
      intro hr
      rw [h]
      simp only [List.forall_mem_append]
      exact ⟨hpre pre hp, hbang, hr, hlit⟩
    rcases hrune with ⟨c, rfl, -⟩ | hhigh
    · by_cases hc : Literal c
      · exact Or.inl (hclean (by simpa using hc))
      · refine Or.inr ⟨pre, c, t, ?_, hc, List.forall_mem_append.mpr ⟨hpre pre hp, hbang⟩, ?_⟩
        · rw [h, ht, List.append_assoc]
          rfl
        · rwa [← ht]
    · exact Or.inl (hclean fun c hc => literal_of_high (hhigh c hc))

/-- A bracket is no escape. -/
theorem escape_bracket (t : Bytes) : escape (byte '(' :: t) = none := by
  have hu : unitEscape (byte '(' :: t) = none := by
    unfold unitEscape
    split
    · next c h1 h2 h3 h4 r heq =>
      obtain ⟨rfl, -⟩ := List.cons.inj heq
      exact if_neg (by decide)
    · rfl
  have hl : letterEscape (byte '(') = none := by decide
  simp only [escape, hu, hl, Option.map_none]

/-- A string that begins in what a directive prints goes through all of it
or ends at a quote that is the rune of the verb. -/
theorem scanString_directive {format y : Bytes}
    (h : scanString ((directive format).1 ++ y) = some (u, r)) :
    (∃ v, u = (directive format).1 ++ v ∧ scanString y = some (v, r)) ∨
      ∃ o t, u = o ++ ascii "%!" ∧ (directive format).1 = u ++ byte '"' :: t := by
  rcases directive_shape format with hlit | ⟨o, c, t, ho, hc, hlit, -⟩
  · rw [scanString_append hlit] at h
    obtain ⟨p, hp, he⟩ := Option.map_eq_some_iff.mp h
    obtain ⟨rfl, rfl⟩ := Prod.mk.inj he
    exact Or.inl ⟨p.1, rfl, hp⟩
  · rw [ho, List.append_assoc, scanString_append hlit, List.cons_append] at h
    obtain ⟨p, hp, he⟩ := Option.map_eq_some_iff.mp h
    obtain ⟨rfl, rfl⟩ := Prod.mk.inj he
    by_cases hquote : c = byte '"'
    · rw [hquote, scanString_quote] at hp
      obtain rfl := Option.some.inj hp
      exact Or.inr ⟨o, byte '(' :: t, by simp, by rw [ho, hquote, List.append_nil]⟩
    · by_cases hback : c = byte '\\'
      · rw [hback, List.cons_append, scanString_malformed (escape_bracket _)] at hp
        cases hp
      · have hcontrol : c < 0x20 := by
          by_contra hge
          exact hc ⟨hquote, hback, UInt8.not_lt.mp hge⟩
        rw [scanString_control hquote hback hcontrol] at hp
        cases hp

/-- Text that was cut off the name and the closing template: either a part
of the name is left, or no string can be read from the rest. -/
theorem exists_of_cut {e t : Bytes} {p : Bytes × Bytes} (h : w ++ closing = e ++ t)
    (hs : scanString (fprintf t) = some p) : ∃ y, w = e ++ y ∧ t = y ++ closing := by
  rcases List.append_eq_append_iff.mp h with ⟨a, rfl, ha⟩ | ⟨y, rfl, rfl⟩
  · cases a with
    | nil => exact ⟨[], by simp, by simpa using ha.symm⟩
    | cons d a =>
      have ht : t <:+ ascii "\x7d]\x7d" := ⟨a, ((List.cons.inj ha).2).symm⟩
      have hpct : byte '%' ∉ t := fun hm => absurd (ht.subset hm) (by decide)
      have hquote : byte '"' ∉ t := fun hm => absurd (ht.subset hm) (by decide)
      rw [fprintf_of_not_mem hpct, scanString_of_not_mem hquote] at hs
      cases hs
  · exact ⟨y, rfl, rfl⟩

/-- A shorter front leaves a longer rest. -/
theorem exists_of_longer {a b : Bytes} (h : a ++ u = b ++ w) (hl : a.length < b.length) :
    ∃ m, m ≠ [] ∧ u = m ++ w := by
  rcases List.append_eq_append_iff.mp h with ⟨m, rfl, rfl⟩ | ⟨m, rfl, -⟩
  · refine ⟨m, ?_, rfl⟩
    intro hm
    simp [hm] at hl
  · rw [List.length_append] at hl
    omega

/-- A later part of the name is read with some text too much in front of it. -/
def Behind (n : ℕ) (r : Bytes) : Prop :=
  ∃ m y : Bytes, m ≠ [] ∧ y.length < n ∧ scanString (fprintf (y ++ closing)) = some (m ++ y, r)

/-- Decoding an escape loses a byte that nothing behind it makes up for. -/
theorem behind_of_backslash
    (h : scanString (fprintf (byte '\\' :: w ++ closing)) = some (m ++ byte '\\' :: w, r)) :
    Behind (w.length + 1) r := by
  rw [List.cons_append, fprintf_cons (by decide)] at h
  cases he : escape (fprintf (w ++ closing)) with
  | none =>
    rw [scanString_malformed he] at h
    cases h
  | some p =>
    obtain ⟨o, e, t⟩ := p
    obtain ⟨hs, -, hlen, hpct, -⟩ := escape_spec he
    obtain ⟨z, hz, rfl⟩ := exists_of_fprintf_append hpct hs
    rw [scanString_escape he] at h
    obtain ⟨v, hv, hp⟩ := Option.map_eq_some_iff.mp h
    obtain ⟨hu, rfl⟩ := Prod.mk.inj hp
    obtain ⟨y, rfl, rfl⟩ := exists_of_cut hz hv
    have hu' : o ++ v.1 = (m ++ byte '\\' :: e) ++ y := by
      rw [hu]
      simp
    have hlt : o.length < (m ++ byte '\\' :: e).length := by
      simp only [List.length_append, List.length_cons]
      omega
    obtain ⟨k, hk, hvk⟩ := exists_of_longer hu' hlt
    refine ⟨k, y, hk, ?_, by rw [← hvk, hv]⟩
    simp only [List.length_append]
    omega

/-- Behind a percent sign of such a text stands an exclamation mark. -/
theorem eq_bang_of_chain {d : UInt8} (hc : u.IsChain PercentBang) (h : u = m ++ byte '%' :: d :: w) :
    d = byte '!' := by
  rw [h] at hc
  have ht := (List.isChain_append.mp hc).2.1
  exact (List.isChain_cons_cons.mp ht).1 rfl

/-- The error text of the verb '!' behind its first two bytes. -/
def bangText : Bytes := ascii "!(MISSING)"

/-- The error text of the verb '!'. -/
theorem directive_bangText (t : Bytes) :
    directive (byte '!' :: t) = (byte '%' :: byte '!' :: bangText, t) := directive_bang t

/-- A text in front of a name is not read away: each reading would leave a
shorter name with the same text in front of it. -/
theorem scanString_bangText (n : ℕ) (hn : u.length = n) (r : Bytes) :
    scanString (fprintf (bangText ++ u ++ closing)) ≠ some (u, r) := by
  induction n using Nat.strong_induction_on generalizing u with
  | _ n ih =>
    intro h
    rw [List.append_assoc, fprintf_append (by decide), scanString_append (by decide)] at h
    obtain ⟨p, hp, he⟩ := Option.map_eq_some_iff.mp h
    obtain ⟨hu, rfl⟩ := Prod.mk.inj he
    have hlen := congrArg List.length hu
    have hq : bangText.length = 10 := by decide
    rw [List.length_append, hq] at hlen
    refine ih p.1.length (by omega) rfl ?_
    rw [hu, hp]

/-- An error text does not cover the directive and what comes before it: it
would be the one of the verb '!', and a name would follow it that is read
behind its own text. -/
theorem not_cover {e a v : Bytes} (hne : e ≠ [])
    (hrest : (directive (e ++ (a ++ v) ++ closing)).2 = (a ++ v) ++ closing)
    (hout : (directive (e ++ (a ++ v) ++ closing)).1 = (m ++ byte '%' :: e) ++ a)
    (hv : scanString (fprintf ((a ++ v) ++ closing)) = some (v, r)) : False := by
  have hchain := (directive_chain (e ++ (a ++ v) ++ closing)).2
  cases e with
  | nil => exact hne rfl
  | cons d e =>
    have hd : d = byte '!' := by
      refine eq_bang_of_chain (m := m) (w := e ++ a) hchain ?_
      rw [hout]
      simp
    rw [hd, List.cons_append, List.cons_append, directive_bangText] at hout hrest
    have hlen := congrArg List.length hrest
    simp only [List.length_append] at hlen
    obtain rfl : e = [] := List.length_eq_zero_iff.mp (by omega)
    have hm : m = [] := by
      cases m with
      | nil => rfl
      | cons c m =>
        have hmem : byte '%' ∈ byte '!' :: bangText := by
          rw [(List.cons.inj hout).2]
          simp
        exact absurd hmem (by decide)
    rw [hm] at hout
    have ha : a = bangText := by
      simpa using hout.symm
    rw [ha] at hv
    exact scanString_bangText _ rfl r hv

/-- A string that ends inside of an error text, at a quote that is its verb,
is not the directive with what comes before it. -/
theorem not_inside {o t : Bytes} (hu : m ++ byte '%' :: w = o ++ ascii "%!")
    (hout : (directive (w ++ closing)).1 = (m ++ byte '%' :: w) ++ byte '"' :: t) : False := by
  have hchain := (directive_chain (w ++ closing)).2
  rw [hout] at hchain
  cases w with
  | nil =>
    have hl := congrArg List.getLast? hu
    rw [List.getLast?_append, List.getLast?_append] at hl
    have hlast : some (byte '%') = some (byte '!') := hl
    exact absurd hlast (by decide)
  | cons d w =>
    have hd := eq_bang_of_chain hchain.left_of_append rfl
    rw [hd, List.cons_append, directive_bangText] at hout
    have hmem : byte '"' ∈ byte '%' :: byte '!' :: bangText := by
      rw [show byte '%' :: byte '!' :: bangText = _ from hout]
      simp
    exact absurd hmem (by decide)

/-- The error text of a directive is not read as the directive: it is
shorter than what it replaces and leaves bytes behind. -/
theorem behind_of_percent
    (h : scanString (fprintf (byte '%' :: w ++ closing)) = some (m ++ byte '%' :: w, r)) :
    Behind (w.length + 1) r := by
  rw [List.cons_append, fprintf_percent] at h
  rcases scanString_directive h with ⟨v, hu, hv⟩ | ⟨o, t, hu, hout⟩
  · obtain ⟨e, he, hne⟩ := directive_suffix (w ++ closing)
    obtain ⟨y, rfl, hy⟩ := exists_of_cut he hv
    rw [hy] at hv
    have hu' : (directive (e ++ y ++ closing)).1 ++ v = (m ++ byte '%' :: e) ++ y := by
      rw [← hu]
      simp
    have hnonempty : e ≠ [] := hne (by simp [closing, ascii])
    by_cases hlt : (directive (e ++ y ++ closing)).1.length < (m ++ byte '%' :: e).length
    · obtain ⟨k, hk, hvk⟩ := exists_of_longer hu' hlt
      have hpos : 0 < e.length := List.length_pos_of_ne_nil hnonempty
      refine ⟨k, y, hk, ?_, by rw [← hvk, hv]⟩
      rw [List.length_append]
      omega
    · obtain ⟨a, hout, rfl⟩ :
          ∃ a, (directive (e ++ y ++ closing)).1 = (m ++ byte '%' :: e) ++ a ∧ y = a ++ v := by
        rcases List.append_eq_append_iff.mp hu' with ⟨a, ha, rfl⟩ | ⟨a, ha, hya⟩
        · have hl := congrArg List.length ha
          simp only [List.length_append] at hl hlt
          obtain rfl : a = [] := List.length_eq_zero_iff.mp (by omega)
          exact ⟨[], by simpa using ha.symm, by simp⟩
        · exact ⟨a, ha, hya⟩
      exact (not_cover hnonempty hy hout hv).elim
  · exact (not_inside hu hout).elim

/-- No later part of a name is read with text too much in front of it. -/
theorem not_behind (n : ℕ) (r : Bytes) : ¬Behind n r := by
  induction n with
  | zero =>
    intro ⟨m, y, _, hlt, _⟩
    omega
  | succ n ih =>
    intro ⟨m, y, hm, hlt, h⟩
    cases y with
    | nil =>
      have hquote : scanString (fprintf ([] ++ closing)) = some ([], ascii "\x7d]\x7d") := by
        rw [List.nil_append, fprintf_of_not_mem (by decide)]
        exact scanString_quote _
      rw [hquote] at h
      simp [hm.symm] at h
    | cons c y =>
      rw [List.length_cons] at hlt
      have hmono : ∀ k, k ≤ n → ¬Behind k r := by
        intro k hk ⟨m', y', hm', hlt', h'⟩
        exact ih ⟨m', y', hm', by omega, h'⟩
      by_cases hpct : c = byte '%'
      · rw [hpct] at h
        exact hmono _ (by omega) (behind_of_percent h)
      · by_cases hback : c = byte '\\'
        · rw [hback] at h
          exact hmono _ (by omega) (behind_of_backslash h)
        · rw [List.cons_append, fprintf_cons hpct] at h
          by_cases hquote : c = byte '"'
          · rw [hquote, scanString_quote] at h
            simp at h
          · by_cases hcontrol : c < 0x20
            · rw [scanString_control hquote hback hcontrol] at h
              cases h
            · rw [scanString_literal ⟨hquote, hback, UInt8.not_lt.mp hcontrol⟩] at h
              obtain ⟨⟨v, r'⟩, hp, he⟩ := Option.map_eq_some_iff.mp h
              obtain ⟨hu, rfl⟩ := Prod.mk.inj he
              cases m with
              | nil => exact hm rfl
              | cons d m =>
                obtain ⟨-, hu'⟩ := List.cons.inj hu
                have hv : v = m ++ [c] ++ y := by
                  rw [List.append_assoc]
                  exact hu'
                exact ih ⟨m ++ [c], y, by simp, by omega, hv ▸ hp⟩

/-- A name that is read back from the template consists of inert bytes. -/
theorem inert_of_scanString (h : scanString (fprintf (w ++ closing)) = some (w, r)) :
    ∀ c ∈ w, Inert c := by
  induction w with
  | nil => simp
  | cons c w ih =>
    by_cases hpct : c = byte '%'
    · rw [hpct] at h
      exact absurd (behind_of_percent (m := []) h) (not_behind _ _)
    · by_cases hback : c = byte '\\'
      · rw [hback] at h
        exact absurd (behind_of_backslash (m := []) h) (not_behind _ _)
      · rw [List.cons_append, fprintf_cons hpct] at h
        by_cases hquote : c = byte '"'
        · rw [hquote, scanString_quote] at h
          simp at h
        · by_cases hcontrol : c < 0x20
          · rw [scanString_control hquote hback hcontrol] at h
            cases h
          · have hlit : Literal c := ⟨hquote, hback, UInt8.not_lt.mp hcontrol⟩
            rw [scanString_literal hlit] at h
            obtain ⟨⟨v, r'⟩, hp, he⟩ := Option.map_eq_some_iff.mp h
            obtain ⟨hu, rfl⟩ := Prod.mk.inj he
            obtain rfl : v = w := (List.cons.inj hu).2
            exact List.forall_mem_cons.mpr ⟨⟨hpct, hlit⟩, ih hp⟩

/-- A quote in printed text was in the format, or it is the rune of a verb
without an operand. -/
theorem exists_of_fprintf_quote {z a : Bytes} (h : fprintf z = a ++ byte '"' :: x) :
    (∃ b y, z = b ++ byte '"' :: y ∧ x = fprintf y) ∨ ∃ y, x = byte '(' :: y := by
  induction z using fprintf.induct generalizing a with
  | case1 =>
    rw [fprintf_nil] at h
    simp at h
  | case2 t ih =>
    rw [fprintf_percent] at h
    obtain ⟨e, he, -⟩ := directive_suffix t
    have hrest : ∀ a', fprintf (directive t).2 = a' ++ byte '"' :: x →
        (∃ b y, byte '%' :: t = b ++ byte '"' :: y ∧ x = fprintf y) ∨ ∃ y, x = byte '(' :: y := by
      intro a' ha'
      rcases ih ha' with ⟨b, y, hb, hx⟩ | hx
      · exact Or.inl ⟨byte '%' :: (e ++ b), y, by rw [he, hb]; simp, hx⟩
      · exact Or.inr hx
    rcases List.append_eq_append_iff.mp h with ⟨a', -, ha'⟩ | ⟨k, hk, hx⟩
    · exact hrest a' ha'
    · cases k with
      | nil => exact hrest [] hx.symm
      | cons d k =>
        obtain ⟨rfl, rfl⟩ := List.cons.inj hx
        rcases directive_shape t with hlit | ⟨o, c, s, ho, -, hpre, hpost⟩
        · exact absurd rfl (hlit (byte '"') (by simp [hk])).1
        · have hno : byte '"' ∉ o ++ ascii "%!" := fun hm => (hpre _ hm).1 rfl
          have hns : byte '"' ∉ byte '(' :: s := fun hm => (hpost _ hm).1 rfl
          obtain ⟨-, -, rfl⟩ :=
            (List.append_cons_inj_of_notMem hno hns).mp (ho.symm.trans hk)
          exact Or.inr ⟨_, rfl⟩
  | case3 c t hc ih =>
    rw [fprintf_cons hc] at h
    cases a with
    | nil =>
      obtain ⟨rfl, rfl⟩ := List.cons.inj h
      exact Or.inl ⟨[], t, rfl, rfl⟩
    | cons d a =>
      obtain ⟨rfl, ht⟩ := List.cons.inj h
      rcases ih ht with ⟨b, y, rfl, hx⟩ | hx
      · exact Or.inl ⟨c :: b, y, rfl, hx⟩
      · exact Or.inr hx

/-- The strings that can be read from inside the opening template. -/
def templateKeys : List Bytes := [ascii "files", ascii ":[\x7b", ascii "name", ascii ":"]

/-- Behind a quote of the opening template stands one of its own strings, or
nothing. -/
theorem exists_of_opening_quote {a y : Bytes} (h : opening = a ++ byte '"' :: y) :
    y = [] ∨ ∃ k ∈ templateKeys, ∃ z, y = k ++ byte '"' :: z := by
  have hall : ∀ i < opening.length, opening[i]? = some (byte '"') →
      opening.drop (i + 1) = [] ∨ ∃ k ∈ templateKeys, k ++ [byte '"'] <+: opening.drop (i + 1) := by
    decide
  have hlt : a.length < opening.length := by
    simp [h]
  have hget : opening[a.length]? = some (byte '"') := by
    simp [h]
  have hdrop : opening.drop (a.length + 1) = y := by
    rw [h, List.drop_length_add_append]
    rfl
  have hy := hall a.length hlt hget
  rw [hdrop] at hy
  rcases hy with hy | ⟨k, hk, z, hz⟩
  · exact Or.inl hy
  · exact Or.inr ⟨k, hk, z, by rw [← hz]; simp⟩

/-- The strings of the template are literal. -/
theorem literal_of_templateKeys : ∀ k ∈ templateKeys, ∀ c ∈ k, Literal c := by decide

/-- A name that begins with a digit or a minus sign and stands as a string
anywhere in the reply consists of inert bytes. -/
theorem inert_of_stringIn (hc : IsDigit c ∨ c = byte '-')
    (h : StringIn (uploadReply (c :: s)) (c :: s)) : ∀ d ∈ c :: s, Inert d := by
  obtain ⟨a, x, r, hx, hr⟩ := h
  rw [uploadReply, List.append_assoc, fprintf_append (by decide)] at hx
  have hkeys : ∀ k ∈ templateKeys, k ≠ c :: s := by
    have hhead : ∀ k ∈ templateKeys, ∀ d ∈ k.head?, ¬(IsDigit d ∨ d = byte '-') := by
      decide +kernel
    intro k hk hks
    exact hhead k hk c (by simp [hks]) hc
  have hbracket : c ≠ byte '(' := by
    intro he
    rw [he] at hc
    exact absurd hc (by decide)
  -- A quote behind the template's last one cannot begin the name.
  have hlate : ∀ b, fprintf (c :: s ++ closing) ≠ b ++ byte '"' :: x := by
    intro b hb
    rcases exists_of_fprintf_quote hb with ⟨p, y, hp, rfl⟩ | ⟨y, rfl⟩
    · obtain ⟨z, hz, rfl⟩ := exists_of_cut (w := c :: s) (e := p ++ [byte '"']) (t := y)
        (by simpa using hp) hr
      rw [hz] at hr
      exact not_behind _ _ ⟨p ++ [byte '"'], z, by simp, Nat.lt_succ_self _, hr⟩
    · rw [scanString_literal (by decide)] at hr
      obtain ⟨q, -, he⟩ := Option.map_eq_some_iff.mp hr
      exact hbracket (List.cons.inj (Prod.mk.inj he).1).1.symm
  rcases List.append_eq_append_iff.mp hx with ⟨b, -, hb⟩ | ⟨b, hb, hy⟩
  · exact absurd hb (hlate b)
  · cases b with
    | nil => exact absurd hy.symm (hlate [])
    | cons d b =>
      rw [List.cons_append] at hy
      obtain ⟨rfl, rfl⟩ := List.cons.inj hy
      rcases exists_of_opening_quote hb with rfl | ⟨k, hk, z, rfl⟩
      · exact inert_of_scanString hr
      · rw [List.append_assoc, List.cons_append,
          scanString_cut (literal_of_templateKeys k hk)] at hr
        exact absurd (Prod.mk.inj (Option.some.inj hr)).1 (hkeys k hk)

/-- A name that a body decodes to stands in it as a string. -/
theorem ReplyNames.stringIn {body name : Bytes} (h : ReplyNames body name) :
    StringIn body name := by
  obtain ⟨v, entry, hv, hfiles, hname⟩ := h
  have hfield := hv.allStr.field hfiles
  cases hfield with
  | arr hall =>
    have hentry := (hall entry (by simp)).field hname
    cases hentry with
    | str hs => exact hs

/-- A name that is read back passes both layers unchanged. -/
theorem jsonSafe_of_replyNames (hc : IsDigit c ∨ c = byte '-')
    (h : ReplyNames (uploadReply (c :: s)) (c :: s)) : JsonSafe (c :: s) := by
  have hinert := inert_of_stringIn hc h.stringIn
  obtain ⟨v, entry, ⟨hutf8, -⟩, -⟩ := h
  rw [uploadReply_of_inert hinert, List.append_assoc,
    validUtf8_ascii_append (by decide)] at hutf8
  exact ⟨validUtf8_of_append_ascii (c := byte '"') (by decide) hutf8, hinert⟩

/-- Numerals are inert. -/
theorem inert_of_decimal {now : Int} (h : c ∈ decimal now) : Inert c := by
  have hall : ∀ n < 256, IsDigit (UInt8.ofNat n) ∨ UInt8.ofNat n = byte '-' →
      Inert (UInt8.ofNat n) := by decide +kernel
  have hc := hall c.toNat c.toNat_lt
  rw [UInt8.ofNat_toNat] at hc
  exact hc (mem_decimal h)

/-- They are ASCII. -/
theorem ascii_of_decimal {now : Int} (h : c ∈ decimal now) : c < 0x80 := by
  have hall : ∀ n < 256, IsDigit (UInt8.ofNat n) ∨ UInt8.ofNat n = byte '-' →
      UInt8.ofNat n < 0x80 := by decide +kernel
  have hc := hall c.toNat c.toNat_lt
  rw [UInt8.ofNat_toNat] at hc
  exact hc (mem_decimal h)

/-- The numeral of the clock passes both layers, so the extension decides. -/
theorem jsonSafe_storedName_iff (now : Int) (filename : Bytes) :
    JsonSafe (storedName now filename) ↔ JsonSafe (ext filename) := by
  unfold JsonSafe storedName
  rw [validUtf8_ascii_append fun c => ascii_of_decimal, List.forall_mem_append]
  exact and_congr_right fun _ => and_iff_right fun c => inert_of_decimal

/-- A stored name that is read back has an extension that passes both layers. -/
theorem jsonSafe_ext_of_replyNames {now : Int} {filename : Bytes}
    (h : ReplyNames (uploadReply (storedName now filename)) (storedName now filename)) :
    JsonSafe (ext filename) := by
  obtain ⟨c, d, hcd, hc⟩ := decimal_cons now
  have hname : storedName now filename = c :: (d ++ ext filename) := by
    rw [storedName, hcd, List.cons_append]
  rw [← jsonSafe_storedName_iff now]
  rw [hname] at h ⊢
  exact jsonSafe_of_replyNames hc h

/-- A name with a safe extension is read from its reply. -/
theorem replyNames_storedName {filename : Bytes} (now : Int) (h : JsonSafe (ext filename)) :
    ReplyNames (uploadReply (storedName now filename)) (storedName now filename) :=
  replyNames_of_jsonSafe ((jsonSafe_storedName_iff now filename).mpr h)

/-- The reply to an upload decodes to the stored name exactly when the
extension is well formed UTF-8 without percent signs, quotes, backslashes
and control characters. -/
theorem uploadReply_names_iff (now : Int) (filename : Bytes) :
    ReplyNames (uploadReply (storedName now filename)) (storedName now filename) ↔
      JsonSafe (ext filename) :=
  ⟨jsonSafe_ext_of_replyNames, replyNames_storedName now⟩

/-- The extension ".m%p" is printed as ".m%!p(MISSING)". -/
theorem uploadReply_percent :
    ¬ReplyNames (uploadReply (storedName 7 (ascii "a.m%p"))) (storedName 7 (ascii "a.m%p")) := by
  intro h
  have hsafe : JsonSafe (storedName 7 (ascii "a.m%p")) := jsonSafe_of_replyNames (by decide) h
  exact absurd hsafe (by decide)

end VideooServer.UploadReply
