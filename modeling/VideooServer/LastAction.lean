import VideooServer.FormatVerbs
import VideooServer.JsonMarshal
import VideooServer.StepRuns

/-!
# The last successful action

The app server's /handle and /last handlers as a step relation: a request
waits for the encode server, checks the status, stores its file name in a
global variable and answers. The variable is reported as JSON that is used
as a format. The report names the request that passed the status check most
recently, as long as no percent sign is in it and no request or report runs
between that check and the assignment.
-/

namespace VideooServer.LastAction

open ByteText Utf8Text FormatVerbs JsonText JsonMarshal StepRuns

/-- What a /handle request is doing. -/
inductive Phase where
  /-- The request has not arrived. -/
  | idle
  /-- The encode server was asked. -/
  | waiting
  /-- The answer has status 200. -/
  | passed
  /-- The file name is stored. -/
  | stored
  /-- The request is answered. -/
  | answered (text : Bytes)
  deriving DecidableEq

/-- The state of the app server. -/
structure State where
  /-- The global variable. -/
  lastFileName : Bytes
  /-- What each request is doing. -/
  phase : ℕ → Phase
  /-- History: the request that passed the check most recently. -/
  lastPassed : Option ℕ

/-- The steps of /handle and /last requests. -/
inductive Event where
  /-- A request reads its file name and asks the encode server. -/
  | handle (i : ℕ)
  /-- The request to the encode server fails. -/
  | encodeError (i : ℕ)
  /-- The encode server answers with a status. -/
  | encodeStatus (i : ℕ) (code : ℕ)
  /-- The file name is stored. -/
  | store (i : ℕ)
  /-- The request is answered. -/
  | answer (i : ℕ)
  /-- A /last request reads the variable and writes its report. -/
  | last
  deriving DecidableEq

/-- The answer to a request that fails. -/
def encodeFail : Bytes := ascii "encode fail"

/-- The answer to a request that passes the check. -/
def success : Bytes := ascii "success"

/-- One step of handler2, or a report. -/
def handleStep (fileName : ℕ → Bytes) (s : State) : Event → Option State
  | .handle i =>
    if s.phase i = .idle then some { s with phase := Function.update s.phase i .waiting }
    else none
  | .encodeError i =>
    if s.phase i = .waiting then
      some { s with phase := Function.update s.phase i (.answered encodeFail) }
    else none
  | .encodeStatus i code =>
    if s.phase i = .waiting then
      if code ≠ 200 then some { s with phase := Function.update s.phase i (.answered encodeFail) }
      else some { s with phase := Function.update s.phase i .passed, lastPassed := some i }
    else none
  | .store i =>
    if s.phase i = .passed then
      some { s with phase := Function.update s.phase i .stored, lastFileName := fileName i }
    else none
  | .answer i =>
    if s.phase i = .stored then
      some { s with phase := Function.update s.phase i (.answered success) }
    else none
  | .last => some s

/-- What getLastActionInfoHandler writes: the marshalled map, as a format. -/
def getLastActionInfoHandler (appIP lastFileName : Bytes) : Bytes :=
  fprintf (marshalMap lastFileName appIP)

/-- Before the first request. -/
def initial : State := ⟨[], fun _ => .idle, none⟩

/-- The request that passed the status check most recently, after a step. -/
def latestAfter (latest : Option ℕ) : Event → Option ℕ
  | .encodeStatus i code => if code ≠ 200 then latest else some i
  | _ => latest

/-- The request of a run that passed the status check most recently. -/
def latestPassed (es : List Event) : Option ℕ := es.foldl latestAfter none

/-- The file name of that request, the empty one when there is none. -/
def latestName (fileName : ℕ → Bytes) (es : List Event) : Bytes :=
  ((latestPassed es).map fileName).getD []

/-- A body is a JSON text of an object with this file name and host. -/
def Reports (body fileName host : Bytes) : Prop :=
  ∃ v, Decodes body v ∧ v.field (ascii "fileName") = some (.str fileName) ∧
    v.field (ascii "host") = some (.str host)

/-- The condition on the steps of a run: a request only stores its name
while the last one to pass the check has not stored its own, and a report
is only made when it has, of strings that pass the format unchanged. -/
def Orderly (appIP : Bytes) (s : State) : Event → Prop
  | .store _ => ∃ j, s.lastPassed = some j ∧ s.phase j = .passed
  | .last => (∀ j, s.lastPassed = some j → s.phase j ≠ .passed) ∧
      byte '%' ∉ s.lastFileName ∧ byte '%' ∉ appIP ∧ validUtf8 appIP = true
  | _ => True

/-- The variable holds the name of the last request to pass the check once
that request has stored it. -/
structure Tracks (fileName : ℕ → Bytes) (s : State) : Prop where
  /-- The name of the last request to pass, when it has stored it. -/
  passed : ∀ j, s.lastPassed = some j → s.phase j ≠ .passed → s.lastFileName = fileName j
  /-- The empty name before the first request passes. -/
  none : s.lastPassed = .none → s.lastFileName = []
  /-- The variable only ever holds well formed names. -/
  valid : validUtf8 s.lastFileName = true

variable {fileName : ℕ → Bytes} {appIP : Bytes} {s t u : State} {e : Event} {es : List Event}

/-- A step of a request outside of the check and the assignment keeps the
variable in line. -/
theorem Tracks.of_phase (hs : Tracks fileName s) {i : ℕ} {q : Phase} (hi : s.phase i ≠ .passed) :
    Tracks fileName { s with phase := Function.update s.phase i q } := by
  refine ⟨fun j hj hne => ?_, hs.none, hs.valid⟩
  by_cases hji : j = i
  · exact hs.passed j hj (by rw [hji]; exact hi)
  · refine hs.passed j hj ?_
    dsimp only at hne
    rwa [Function.update_of_ne hji] at hne

/-- A step that meets the condition keeps the variable in line. -/
theorem Tracks.step (hvalid : ∀ i, validUtf8 (fileName i) = true) (hs : Tracks fileName s)
    (hcond : Orderly appIP s e) (h : handleStep fileName s e = some t) : Tracks fileName t := by
  cases e with
  | handle i =>
    simp only [handleStep] at h
    split_ifs at h with hi
    rw [← Option.some.inj h]
    exact hs.of_phase (by rw [hi]; decide)
  | encodeError i =>
    simp only [handleStep] at h
    split_ifs at h with hi
    rw [← Option.some.inj h]
    exact hs.of_phase (by rw [hi]; decide)
  | encodeStatus i code =>
    simp only [handleStep] at h
    split_ifs at h with hi hcode <;> rw [← Option.some.inj h]
    · exact hs.of_phase (by rw [hi]; decide)
    · -- The check has just passed, and the name is not stored yet.
      refine ⟨fun j hj hne => ?_, fun hn => ?_, hs.valid⟩
      · obtain rfl := Option.some.inj hj
        exact absurd (Function.update_self ..) hne
      · cases hn
  | store i =>
    simp only [handleStep] at h
    split_ifs at h with hi
    rw [← Option.some.inj h]
    obtain ⟨k, hk, hpassed⟩ := hcond
    refine ⟨fun j hj hne => ?_, fun hn => ?_, hvalid i⟩
    · obtain rfl := Option.some.inj (hk.symm.trans hj)
      by_cases hki : k = i
      · rw [hki]
      · dsimp only at hne
        rw [Function.update_of_ne hki] at hne
        exact absurd hpassed hne
    · dsimp only at hn
      rw [hk] at hn
      cases hn
  | answer i =>
    simp only [handleStep] at h
    split_ifs at h with hi
    rw [← Option.some.inj h]
    exact hs.of_phase (by rw [hi]; decide)
  | last =>
    rw [← Option.some.inj h]
    exact hs

/-- The variable is in line before the first request. -/
theorem tracks_initial (fileName : ℕ → Bytes) : Tracks fileName initial := by
  refine ⟨fun j hj => ?_, fun _ => rfl, rfl⟩
  cases hj

/-- A step keeps the history. -/
theorem lastPassed_of_step (h : handleStep fileName s e = some t) :
    t.lastPassed = latestAfter s.lastPassed e := by
  cases e <;> simp only [handleStep] at h <;> (try split_ifs at h) <;>
    rw [← Option.some.inj h] <;> simp [latestAfter, *]

/-- The history at the end of a run. -/
theorem lastPassed_of_run (h : run (handleStep fileName) s es = some u) :
    u.lastPassed = es.foldl latestAfter s.lastPassed := by
  induction es generalizing s with
  | nil =>
    cases h
    rfl
  | cons e es ih =>
    obtain ⟨t, ht, h⟩ := run_cons_eq_some h
    rw [ih h, List.foldl_cons, lastPassed_of_step ht]

/-- Strings without percent signs are reported as they are. -/
theorem reports_of_not_mem {host name : Bytes} (hn : validUtf8 name = true)
    (hh : validUtf8 host = true) (hpn : byte '%' ∉ name) (hph : byte '%' ∉ host) :
    Reports (getLastActionInfoHandler host name) name host := by
  have hkeys : ascii "host" ≠ ascii "fileName" := by decide
  refine ⟨.obj [(ascii "fileName", .str name), (ascii "host", .str host)], ?_, ?_, ?_⟩
  · rw [getLastActionInfoHandler, fprintf_of_not_mem (not_mem_marshalMap hn hh hpn hph)]
    exact decodes_marshalMap hn hh
  · simp [Json.field, hkeys]
  · simp [Json.field]

/-- In an orderly run every report names the request that passed the status
check most recently before it. -/
theorem reports_of_run (fileName : ℕ → Bytes) (hvalid : ∀ i, validUtf8 (fileName i) = true)
    (hcond : Along (handleStep fileName) (Orderly appIP) initial es) :
    ∀ bs cs t, es = bs ++ .last :: cs → run (handleStep fileName) initial bs = some t →
      Reports (getLastActionInfoHandler appIP t.lastFileName) (latestName fileName bs) appIP := by
  intro bs cs t hes hbs
  rw [hes] at hcond
  obtain ⟨hbefore, hlast⟩ := hcond.append hbs
  have htracks : Tracks fileName t :=
    run_invariant_along (fun _ _ _ hs hstep h => hs.step hvalid hstep h)
      (tracks_initial fileName) hbefore hbs
  have hlatest : t.lastPassed = latestPassed bs := lastPassed_of_run hbs
  obtain ⟨hstored, hname, hhost, hutf8⟩ := hlast.1
  have hreported : t.lastFileName = latestName fileName bs := by
    rw [latestName, ← hlatest]
    cases hp : t.lastPassed with
    | none => exact htracks.none hp
    | some j => exact htracks.passed j hp (hstored j hp)
  rw [← hreported]
  exact reports_of_not_mem htracks.valid hutf8 hname hhost

/-- A request that passes, and a report after it. -/
def oneReport : List Event := [.handle 0, .encodeStatus 0 200, .store 0, .answer 0, .last]

/-- A report of a name without percent signs. -/
theorem reports_plain : Reports (getLastActionInfoHandler (ascii "10.0.0.3") (ascii "a.mp4"))
    (ascii "a.mp4") (ascii "10.0.0.3") := by
  refine reports_of_run (fun _ => ascii "a.mp4") (fun _ => by decide) ?_
    [.handle 0, .encodeStatus 0 200, .store 0, .answer 0] [] _ rfl rfl
  refine along_cons rfl trivial (along_cons rfl trivial (along_cons rfl ?_
    (along_cons rfl trivial (along_cons rfl ?_ trivial))))
  · exact ⟨0, rfl, rfl⟩
  · refine ⟨fun j hj => ?_, by decide, by decide, by decide⟩
    obtain rfl := Option.some.inj hj
    decide

/-- The name "a%b" is printed as "a%!b(MISSING)". -/
theorem reports_percent :
    ¬∀ (fileName : ℕ → Bytes) (appIP : Bytes) (es : List Event),
      (∀ i, validUtf8 (fileName i) = true) →
        ∀ bs cs t, es = bs ++ .last :: cs → run (handleStep fileName) initial bs = some t →
          Reports (getLastActionInfoHandler appIP t.lastFileName) (latestName fileName bs)
            appIP := by
  intro hclaim
  obtain ⟨v, hv, hname, -⟩ := hclaim (fun _ => ascii "a%b") (ascii "10.0.0.3") oneReport
    (fun _ => by decide) [.handle 0, .encodeStatus 0 200, .store 0, .answer 0] [] _ rfl rfl
  have hfield := hv.allStr.field hname
  cases hfield with
  | str hin => exact absurd hin (by decide +kernel)

end VideooServer.LastAction
