import Mathlib.Data.List.DropRight
import VideooServer.ByteText
import VideooServer.TextSearch

/-!
# Pages that may connect

The check of the vod and the live application that a client's page and its
player come from a listed domain, from the lines of the two lists to the
decision. A host passes when a listed text stands at its end and, in the
whole URL, nowhere before it for vod and nowhere after it for live. The
listed text need not begin a label of the host name. Script texts are kept
as UTF-8.
-/

namespace VideooServer.AllowedDomains

open ByteText TextSearch

/-- The two applications. -/
inductive Application where
  | vod
  | live
  deriving DecidableEq

/-- The search that validate makes for a pattern. -/
def Application.search : Application → Bytes → Bytes → Option ℕ
  | .vod => indexOf
  | .live => lastIndexOf

/-- indexOf of one byte, from a position on. -/
def indexFrom (c : UInt8) (url : Bytes) (start : ℕ) : Option ℕ :=
  (indexOf [c] (url.drop start)).map (start + ·)

/-- The position behind the scheme, zero when it is not HTTP or HTTPS. -/
def domainStart (url : Bytes) : ℕ :=
  match indexOf (ascii "://") url with
  | some 4 => if indexOf (ascii "http://") url = some 0 then 7 else 0
  | some 5 => if indexOf (ascii "https://") url = some 0 then 8 else 0
  | _ => 0

/-- The end of the host: the first slash, or a colon in front of it. -/
def domainEnd (url : Bytes) (start : ℕ) : Option ℕ :=
  match indexFrom (byte '/') url start with
  | none => none
  | some slash =>
    match indexFrom (byte ':') url start with
    | none => some slash
    | some colon => if colon < slash then some colon else some slash

/-- A pattern is found at the end of the host. -/
def endsHost (app : Application) (url : Bytes) (domainEndPos : ℕ) (pattern : Bytes) : Bool :=
  match app.search pattern url with
  | none => false
  | some pos => 0 < pos ∧ pos < domainEndPos ∧ domainEndPos = pos + pattern.length

/-- application.validate, with the conversion to lower case. -/
def validate (app : Application) (toLowerCase : Bytes → Bytes) (url : Bytes)
    (patterns : List Bytes) : Bool :=
  let url := toLowerCase url
  let start := domainStart url
  if start = 0 then false
  else
    match domainEnd url start with
    | none => false
    | some domainEndPos => patterns.any (endsHost app url domainEndPos)

/-- The white space of ASCII. -/
def isSpace (c : UInt8) : Bool := c ∈ ascii " \t\n\r" ∨ c = 11 ∨ c = 12

/-- String.prototype.trim. -/
def trim (s : Bytes) : Bytes := (s.dropWhile isSpace).rdropWhile isSpace

/-- A line of a list is skipped, or its text without white space at both
ends. -/
def entry (line : Bytes) : Option Bytes :=
  if line = [] ∨ line.head? = some (byte '#') then none
  else if byte ' ' ∈ trim line then none
  else some (trim line)

/-- readValidDomains: the entries in lower case, and whether the check stays
on. A file that cannot be opened has no entries. -/
def readValidDomains (toLowerCase : Bytes → Bytes) (file : Option (List Bytes)) :
    List Bytes × Bool :=
  let entries := (file.getD []).filterMap entry
  (entries.map toLowerCase, !entries.contains (ascii "*"))

/-- A client that connects. -/
structure Client where
  /-- Network address. -/
  ip : Bytes
  /-- Name of its player or encoder. -/
  agent : Bytes
  /-- URL of the page. -/
  pageUrl : Bytes
  /-- URL of the player. -/
  referrer : Bytes

/-- The two lists, none when a file cannot be opened. -/
structure Lists where
  /-- Lines of allowedHTMLdomains.txt. -/
  html : Option (List Bytes)
  /-- Lines of allowedSWFdomains.txt. -/
  swf : Option (List Bytes)

/-- One of the two checks of onConnect. -/
def passes (app : Application) (toLowerCase : Bytes → Bytes) (ip url : Bytes)
    (file : Option (List Bytes)) : Bool :=
  let domains := readValidDomains toLowerCase file
  !(ip ≠ ascii "127.0.0.1" && domains.2 && !validate app toLowerCase url domains.1)

/-- Encoders that the live application does not check. -/
def isEncoder (client : Client) : Bool :=
  indexOf (ascii "FME") client.agent ≠ none ∨ indexOf (ascii "FMLE") client.agent ≠ none

/-- application.onConnect accepts a client, with the lists of onAppStart. -/
def onConnect (app : Application) (toLowerCase : Bytes → Bytes) (lists : Lists) (client : Client) :
    Bool :=
  if app = .live ∧ isEncoder client = true then true
  else if !passes app toLowerCase client.ip client.pageUrl lists.html then false
  else passes app toLowerCase client.ip client.referrer lists.swf

variable {app : Application} {toLowerCase : Bytes → Bytes} {url w p line : Bytes} {start pos : ℕ}
  {patterns : List Bytes}

/-- The position of a byte is the length of what is in front of it. -/
theorem indexOf_singleton (c : UInt8) (s : Bytes) :
    indexOf [c] s = if c ∈ s then some (upTo c s).length else none := by
  split_ifs with hc
  · obtain ⟨a, b, rfl, ha⟩ := List.eq_append_cons_of_mem hc
    rw [upTo_append_cons ha, indexOf_eq_some_iff]
    refine ⟨occursAt_iff.mpr ⟨a, b, by simp, rfl⟩, fun j hj hat => ?_⟩
    obtain ⟨x, y, hxy, rfl⟩ := occursAt_iff.mp hat
    have hget := congrArg (fun s : Bytes => s[x.length]?) hxy
    simp only [List.append_assoc, List.singleton_append, List.getElem?_append_left hj] at hget
    rw [List.getElem?_append_right le_rfl, Nat.sub_self, List.getElem?_cons_zero] at hget
    exact ha (List.mem_of_getElem? hget)
  · rw [indexOf_eq_none_iff, List.singleton_infix_iff]
    exact hc

/-- The host and what follows it, a port or nothing and then a slash. -/
structure Splits (w host rest : Bytes) : Prop where
  /-- They make up the text. -/
  text : w = host ++ rest
  /-- The host has no slash. -/
  slash : byte '/' ∉ host
  /-- It has no colon. -/
  colon : byte ':' ∉ host
  /-- A port begins with a colon. -/
  port : ∃ port t, rest = port ++ byte '/' :: t ∧ byte '/' ∉ port ∧
    (port = [] ∨ port.head? = some (byte ':'))

/-- The end of the host, in terms of the cuts at the two bytes. -/
theorem domainEnd_eq (scheme w : Bytes) :
    domainEnd (scheme ++ w) scheme.length =
      if byte '/' ∈ w then some (scheme.length + (upTo (byte ':') (upTo (byte '/') w)).length)
      else none := by
  have hdrop : (scheme ++ w).drop scheme.length = w := List.drop_left
  rw [domainEnd, indexFrom, indexFrom, hdrop, indexOf_singleton, indexOf_singleton]
  split_ifs with hslash hcolon hcolon
  · obtain ⟨a, t, rfl, ha⟩ := List.eq_append_cons_of_mem hslash
    rw [upTo_append_cons ha]
    by_cases hport : byte ':' ∈ a
    · obtain ⟨h, q, rfl, hh⟩ := List.eq_append_cons_of_mem hport
      simp [upTo_append_cons hh]
    · have hup : upTo (byte ':') (a ++ byte '/' :: t) = a ++ upTo (byte ':') (byte '/' :: t) :=
        upTo_append hport _
      have hlen : ¬a.length + (upTo (byte ':') (byte '/' :: t)).length < a.length := by omega
      simp [hup, upTo_of_not_mem hport, hlen]
  · obtain ⟨a, t, rfl, ha⟩ := List.eq_append_cons_of_mem hslash
    have hport : byte ':' ∉ a := fun hm => hcolon (List.mem_append_left _ hm)
    rw [upTo_append_cons ha, upTo_of_not_mem hport]
    rfl
  · rfl
  · rfl

/-- The host is cut at the first slash and then at the first colon. -/
theorem splits_iff {host : Bytes} :
    (∃ rest, Splits w host rest) ↔
      byte '/' ∈ w ∧ host = upTo (byte ':') (upTo (byte '/') w) := by
  constructor
  · rintro ⟨rest, rfl, hslash, hcolon, port, t, rfl, hport, hfirst⟩
    have hfree : byte '/' ∉ host ++ port := by simp [hslash, hport]
    rw [← List.append_assoc, upTo_append_cons hfree]
    refine ⟨by simp, ?_⟩
    rcases hfirst with rfl | hfirst
    · rw [List.append_nil, upTo_of_not_mem hcolon]
    · obtain ⟨q, rfl⟩ := List.head?_eq_some_iff.mp hfirst
      rw [upTo_append_cons hcolon]
  · rintro ⟨hslash, rfl⟩
    obtain ⟨a, t, rfl, ha⟩ := List.eq_append_cons_of_mem hslash
    rw [upTo_append_cons ha]
    by_cases hport : byte ':' ∈ a
    · obtain ⟨h, q, rfl, hh⟩ := List.eq_append_cons_of_mem hport
      simp only [List.mem_append, List.mem_cons, not_or] at ha
      rw [upTo_append_cons hh]
      refine ⟨byte ':' :: (q ++ byte '/' :: t), by simp, ha.1, hh, byte ':' :: q, t, by simp, ?_,
        Or.inr rfl⟩
      exact List.not_mem_cons_of_ne_of_not_mem ha.2.1 ha.2.2
    · rw [upTo_of_not_mem hport]
      exact ⟨byte '/' :: t, rfl, ha, hport, [], t, rfl, List.not_mem_nil, Or.inl rfl⟩

/-- The host ends where the part after the scheme splits. -/
theorem domainEnd_eq_some_iff {scheme : Bytes} :
    domainEnd (scheme ++ w) scheme.length = some pos ↔
      ∃ host rest, Splits w host rest ∧ pos = (scheme ++ host).length := by
  rw [domainEnd_eq]
  constructor
  · intro h
    split_ifs at h with hslash
    obtain ⟨rest, hrest⟩ := splits_iff.mpr ⟨hslash, rfl⟩
    exact ⟨_, rest, hrest, by rw [← Option.some.inj h, List.length_append]⟩
  · rintro ⟨host, rest, hsplits, rfl⟩
    obtain ⟨hslash, rfl⟩ := splits_iff.mp ⟨rest, hsplits⟩
    rw [if_pos hslash, List.length_append]

/-- The schemes of the pages that may connect. -/
def schemes : List Bytes := [ascii "http://", ascii "https://"]

/-- The scheme is recognised exactly in front of the URL. -/
theorem domainStart_eq {scheme : Bytes} (h : scheme ∈ schemes) (w : Bytes) :
    domainStart (scheme ++ w) = scheme.length := by
  simp only [schemes, List.mem_cons, List.not_mem_nil, or_false] at h
  rcases h with rfl | rfl
  · have hsep : indexOf (ascii "://") (ascii "http://" ++ w) = some 4 := rfl
    have hfirst : indexOf (ascii "http://") (ascii "http://" ++ w) = some 0 := rfl
    rw [domainStart, hsep, hfirst]
    rfl
  · have hsep : indexOf (ascii "://") (ascii "https://" ++ w) = some 5 := rfl
    have hfirst : indexOf (ascii "https://") (ascii "https://" ++ w) = some 0 := rfl
    rw [domainStart, hsep, hfirst]
    rfl

/-- A host only starts after one of the schemes. -/
theorem exists_scheme (h : domainStart url ≠ 0) : ∃ scheme ∈ schemes, ∃ w, url = scheme ++ w := by
  rw [domainStart] at h
  split at h
  · split_ifs at h with hfirst
    · obtain ⟨w, hw⟩ := indexOf_eq_zero_iff.mp hfirst
      exact ⟨_, List.mem_cons_self, w, hw.symm⟩
    · exact absurd rfl h
  · split_ifs at h with hfirst
    · obtain ⟨w, hw⟩ := indexOf_eq_zero_iff.mp hfirst
      exact ⟨_, List.mem_cons_of_mem _ List.mem_cons_self, w, hw.symm⟩
    · exact absurd rfl h
  · exact absurd rfl h

/-- What a search has to find: vod the first position of the text, live the
last one. -/
def Application.Finds (app : Application) (p url : Bytes) (i : ℕ) : Prop :=
  OccursAt p url i ∧
    match app with
    | .vod => ∀ j < i, ¬OccursAt p url j
    | .live => ∀ j, i < j → ¬OccursAt p url j

/-- The search gives the first occurrence for vod and the last one for live. -/
theorem search_eq_some_iff : app.search p url = some pos ↔ app.Finds p url pos := by
  cases app with
  | vod => exact indexOf_eq_some_iff
  | live => exact lastIndexOf_eq_some_iff

/-- A listed text lets a URL pass: it is not empty, it stands at the end of
the scheme and the host but not in front of the URL, and it is found there. -/
structure LetsPass (app : Application) (url p : Bytes) : Prop where
  /-- There is a scheme, a host and a slash behind them. -/
  host : ∃ scheme ∈ schemes, ∃ host rest front, url = scheme ++ (host ++ rest) ∧
    Splits (host ++ rest) host rest ∧ scheme ++ host = front ++ p ∧ front ≠ [] ∧
      app.Finds p url front.length
  /-- It is not empty. -/
  nonempty : p ≠ []

/-- A pattern ends the host exactly when the occurrence searched for does. -/
theorem endsHost_iff {scheme host rest : Bytes} (h : url = scheme ++ (host ++ rest)) :
    endsHost app url (scheme ++ host).length p = true ↔
      p ≠ [] ∧ ∃ front, scheme ++ host = front ++ p ∧ front ≠ [] ∧
        app.Finds p url front.length := by
  rw [endsHost]
  cases hsearch : app.search p url with
  | none =>
    refine iff_of_false nofun ?_
    rintro ⟨-, front, -, -, hfinds⟩
    rw [search_eq_some_iff.mpr hfinds] at hsearch
    cases hsearch
  | some pos =>
    have hfinds := search_eq_some_iff.mp hsearch
    simp only [decide_eq_true_eq]
    constructor
    · rintro ⟨hpos, hlt, hend⟩
      obtain ⟨a, b, hab, hlen⟩ := occursAt_iff.mp hfinds.1
      have hcut : (scheme ++ host) ++ rest = (a ++ p) ++ b := by
        rw [List.append_assoc, ← h, hab]
      have hfront : scheme ++ host = a ++ p := by
        refine (List.append_inj hcut ?_).1
        rw [hend, ← hlen, List.length_append]
      refine ⟨fun hnil => ?_, a, hfront, fun hnil => ?_, by rwa [hlen]⟩
      · rw [hnil, List.length_nil] at hend
        omega
      · rw [hnil, List.length_nil] at hlen
        omega
    · rintro ⟨hne, front, hfront, hnonempty, hat⟩
      obtain rfl : pos = front.length := by
        have heq := search_eq_some_iff.mpr hat
        rw [hsearch] at heq
        exact Option.some.inj heq
      have hlen : (scheme ++ host).length = front.length + p.length := by
        rw [hfront, List.length_append]
      exact ⟨List.length_pos_iff.mpr hnonempty, by
        have := List.length_pos_iff.mpr hne
        omega, hlen⟩

/-- A URL is validated exactly when a listed text lets it pass. -/
theorem validate_iff : validate app toLowerCase url patterns = true ↔
    ∃ p ∈ patterns, LetsPass app (toLowerCase url) p := by
  rw [validate]
  constructor
  · intro h
    split_ifs at h with hstart
    obtain ⟨scheme, hscheme, w, hw⟩ := exists_scheme hstart
    rw [hw, domainStart_eq hscheme] at h
    cases hend : domainEnd (scheme ++ w) scheme.length with
    | none =>
      rw [hend] at h
      cases h
    | some pos =>
      rw [hend] at h
      obtain ⟨host, rest, hsplits, rfl⟩ := domainEnd_eq_some_iff.mp hend
      obtain ⟨p, hp, hends⟩ := List.any_eq_true.mp h
      obtain rfl := hsplits.text
      obtain ⟨hne, front, hfront, hnonempty, hat⟩ := (endsHost_iff rfl).mp hends
      rw [hw]
      exact ⟨p, hp, ⟨scheme, hscheme, host, rest, front, rfl, hsplits, hfront, hnonempty, hat⟩, hne⟩
  · rintro ⟨p, hp, ⟨scheme, hscheme, host, rest, front, hurl, hsplits, hfront, hnonempty, hat⟩, hne⟩
    have hstart : scheme.length ≠ 0 := by
      simp only [schemes, List.mem_cons, List.not_mem_nil, or_false] at hscheme
      rcases hscheme with rfl | rfl <;> decide
    have hend : domainEnd (scheme ++ (host ++ rest)) scheme.length = some (scheme ++ host).length :=
      domainEnd_eq_some_iff.mpr ⟨host, rest, hsplits, rfl⟩
    rw [hurl, domainStart_eq hscheme, if_neg hstart, hend]
    refine List.any_eq_true.mpr ⟨p, hp, (endsHost_iff rfl).mpr ⟨hne, front, hfront, hnonempty, ?_⟩⟩
    rwa [← hurl]

/-- The text without white space at both ends, and what is taken off. -/
structure Trims (s p front back : Bytes) : Prop where
  /-- They make up the text. -/
  text : s = front ++ (p ++ back)
  /-- White space is taken off in front. -/
  front : ∀ c ∈ front, isSpace c = true
  /-- White space is taken off at the end. -/
  back : ∀ c ∈ back, isSpace c = true
  /-- No white space is left in front. -/
  first : ∀ c ∈ p.head?, isSpace c = false
  /-- No white space is left at the end. -/
  last : ∀ c ∈ p.getLast?, isSpace c = false

/-- Every line is its trimmed text between white space. -/
theorem exists_trims (s : Bytes) : ∃ front back, Trims s (trim s) front back := by
  let rest := s.dropWhile isSpace
  have hcut : rest.rdropWhile isSpace ++ rest.rtakeWhile isSpace = rest :=
    List.rdropWhile_append_rtakeWhile
  refine ⟨s.takeWhile isSpace, rest.rtakeWhile isSpace, ?_, ?_, ?_, ?_, ?_⟩
  · rw [trim, hcut, List.takeWhile_append_dropWhile]
  · exact List.all_eq_true.mp List.all_takeWhile
  · exact fun c => List.mem_rtakeWhile_imp
  · intro c hc
    obtain ⟨t, ht⟩ := List.head?_eq_some_iff.mp hc
    have hhead : rest.head? = some c := by
      rw [← hcut]
      exact congrArg (fun l => (l ++ rest.rtakeWhile isSpace).head?) ht
    have hnot := List.head?_dropWhile_not isSpace s
    rw [show (s.dropWhile isSpace).head? = some c from hhead] at hnot
    simpa using hnot
  · intro c hc
    have hne : rest.rdropWhile isSpace ≠ [] := fun hnil => by
      rw [trim, hnil] at hc
      cases hc
    have hnot := List.rdropWhile_last_not isSpace rest hne
    rw [trim, List.getLast?_eq_some_getLast hne, Option.mem_some_iff] at hc
    rw [hc] at hnot
    exact Bool.eq_false_iff.mpr hnot

/-- White space at the ends determines what is between. -/
theorem Trims.trim_eq {s front back : Bytes} (h : Trims s p front back) : trim s = p := by
  have hfront : s.dropWhile isSpace = (p ++ back).dropWhile isSpace := by
    rw [h.text]
    exact List.dropWhile_append_of_pos h.front
  rw [trim, hfront]
  cases p with
  | nil =>
    rw [List.nil_append, List.dropWhile_eq_nil_iff.mpr h.back, List.rdropWhile_nil]
  | cons c t =>
    have hc : ¬isSpace c = true := by simp [h.first c rfl]
    rw [List.cons_append, List.dropWhile_cons_of_neg hc, ← List.cons_append, List.rdropWhile,
      List.reverse_append,
      List.dropWhile_append_of_pos (fun a ha => h.back a (List.mem_reverse.mp ha))]
    change (c :: t).rdropWhile isSpace = c :: t
    rw [List.rdropWhile_eq_self_iff]
    intro hne
    simp [h.last _ (List.getLast?_eq_some_getLast hne)]

/-- A line of a list enters a text: it is neither empty nor a comment, and
without white space at both ends it is the text, which has no blank. -/
structure Enters (line p : Bytes) : Prop where
  /-- The text is in the line. -/
  trims : ∃ front back, Trims line p front back
  /-- The line is not empty. -/
  nonempty : line ≠ []
  /-- It is not a comment. -/
  comment : line.head? ≠ some (byte '#')
  /-- The text has no blank. -/
  blank : byte ' ' ∉ p

/-- What a line yields is an entry, and every entry comes from its line. -/
theorem entry_eq_some_iff : entry line = some p ↔ Enters line p := by
  rw [entry]
  constructor
  · intro h
    split_ifs at h with hskip hblank
    obtain rfl := Option.some.inj h
    rw [not_or] at hskip
    exact ⟨exists_trims line, hskip.1, hskip.2, hblank⟩
  · rintro ⟨⟨front, back, htrims⟩, hne, hcomment, hblank⟩
    rw [if_neg (not_or.mpr ⟨hne, hcomment⟩), htrims.trim_eq, if_neg hblank]

/-- A list admits a URL: a line enters a wildcard, or a text that in lower
case lets the URL in lower case pass. -/
def Admits (app : Application) (toLowerCase : Bytes → Bytes) (file : Option (List Bytes))
    (url : Bytes) : Prop :=
  ∃ lines, file = some lines ∧ ∃ line ∈ lines, ∃ p, Enters line p ∧
    (p = ascii "*" ∨ LetsPass app (toLowerCase url) (toLowerCase p))

/-- A client passes exactly when it is local or the file admits its URL. -/
theorem passes_iff {ip : Bytes} {file : Option (List Bytes)} :
    passes app toLowerCase ip url file = true ↔
      ip = ascii "127.0.0.1" ∨ Admits app toLowerCase file url := by
  have hadmits : Admits app toLowerCase file url ↔
      ascii "*" ∈ (file.getD []).filterMap entry ∨
        ∃ p ∈ ((file.getD []).filterMap entry).map toLowerCase,
          LetsPass app (toLowerCase url) p := by
    cases file with
    | none => simp [Admits]
    | some lines =>
      simp only [Admits, Option.some.injEq, exists_eq_left', ← entry_eq_some_iff,
        Option.getD_some, List.mem_map, List.mem_filterMap, exists_exists_and_eq_and]
      constructor
      · rintro ⟨line, hline, p, hp, rfl | hpass⟩
        · exact Or.inl ⟨line, hline, hp⟩
        · exact Or.inr ⟨p, ⟨line, hline, hp⟩, hpass⟩
      · rintro (⟨line, hline, hp⟩ | ⟨p, ⟨line, hline, hp⟩, hpass⟩)
        · exact ⟨line, hline, _, hp, Or.inl rfl⟩
        · exact ⟨line, hline, p, hp, Or.inr hpass⟩
  rw [hadmits, ← validate_iff, passes, readValidDomains]
  by_cases hlocal : ip = ascii "127.0.0.1"
  · simp [hlocal]
  · by_cases hwild : ascii "*" ∈ (file.getD []).filterMap entry
    · simp [hwild]
    · simp [hlocal, hwild]

end VideooServer.AllowedDomains
