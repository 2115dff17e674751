import VideooServer.EncodeRuns
import VideooServer.EncodeServer
import VideooServer.InnerUploadRuns
import VideooServer.LastAction
import VideooServer.RequestHops

/-!
# The three services together

Requests to /handle on their way through the app server, the encode server
and the fs server, as one step relation: a request reaches the encode
handler under the URL that survives the query, the file that postFile sends
is what innerUpload copies, and every handler that returns is answered with
status 200. When a request is answered with success although nothing failed
on its way, the fs server holds exactly what its ffmpeg has produced.
-/

namespace VideooServer.Pipeline

open ByteText UrlParse StepRuns FileWriters OutputName RequestHops MultipartName FsServer
open EncodeServer (greeting outputName outputName_eq_iff)
open EncodeRuns (encodeStep Tracks Fresh)
open InnerUploadRuns (Request innerStep innerStep_writer target)
open LastAction (handleStep success)

/-- The hosts, the fs server's directories and the form values of the
requests. -/
structure Net where
  /-- The encode server's address. -/
  encodeHost : Host
  /-- The fs server's address. -/
  fsHost : Host
  /-- The fs server's directories. -/
  dirs : Folders
  /-- The form value "filename" of each request. -/
  fileName : ℕ → Bytes

/-- The source URL that the encode handler reads, if it is reached. -/
def Net.srcURL (net : Net) (i : ℕ) : Option Bytes :=
  encodeSrcURL net.encodeHost net.fsHost (net.fileName i)

/-- The output name of a request. -/
def Net.output (net : Net) (i : ℕ) : Bytes := outputName ((net.srcURL i).getD [])

/-- The state of the three services. -/
structure State where
  /-- The app server. -/
  app : LastAction.State
  /-- The encode server. -/
  encode : EncodeRuns.State
  /-- The fs server. -/
  fs : Writers ℕ Path UInt8

/-- The steps of the three services. -/
inductive Label where
  /-- A step of handler2, or a report. -/
  | app (e : LastAction.Event)
  /-- A step of the encode handler. -/
  | encode (a : EncodeRuns.Action)
  /-- A step of innerUpload. -/
  | fs (a : Action ℕ Path)

/-- The content that innerUpload finds in each request. -/
def State.content (s : State) (i : ℕ) : Bytes := (s.encode.posted i).getD []

/-- The inner-upload request that postFile makes. A part whose file name is
lost is no file, which is refused like the name of a directory. -/
def State.requests (net : Net) (s : State) (i : ℕ) : Request :=
  ⟨(partFileName (net.output i)).getD [], s.content i⟩

/-- The status of the encode handler arrives when it has returned, any other
one is the answer to a request that does not reach it. -/
def appEnabled (net : Net) (s : State) : LastAction.Event → Bool
  | .encodeStatus i code =>
    if code = greeting.status then (s.encode.phase i).hasReturned else (net.srcURL i).isNone
  | _ => true

/-- A handler that has returned or will never be asked to write. -/
def hasReturned : Phase Path → Bool
  | .stored _ _ | .refused => true
  | _ => false

/-- A request arrives after it was made, and postFile gets its response when
innerUpload has returned. -/
def encodeEnabled (net : Net) (s : State) : EncodeRuns.Action → Bool
  | .arrive i => s.app.phase i ≠ .idle && (net.srcURL i).isSome
  | .finish i => hasReturned (s.fs.phase i)
  | _ => true

/-- innerUpload works on requests that were sent. -/
def fsEnabled (s : State) (a : Action ℕ Path) : Bool := (s.encode.posted a.writer).isSome

/-- One step of one of the services. -/
def pipelineStep (net : Net) (s : State) : Label → Option State
  | .app e =>
    if appEnabled net s e then
      (handleStep net.fileName s.app e).map fun app => { s with app := app }
    else none
  | .encode a =>
    if encodeEnabled net s a then
      (encodeStep net.output s.encode a).map fun encode => { s with encode := encode }
    else none
  | .fs a =>
    if fsEnabled s a then
      (innerStep net.dirs (s.requests net) s.fs a).map fun fs => { s with fs := fs }
    else none

/-- No request has been made yet. -/
structure Initial (s : State) : Prop where
  /-- The app server is idle. -/
  app : ∀ i, s.app.phase i = .idle
  /-- The encode server is idle. -/
  encode : ∀ i, s.encode.phase i = .waiting
  /-- Nothing was sent to the fs server. -/
  posted : ∀ i, s.encode.posted i = none
  /-- The fs server is idle. -/
  fs : ∀ i, s.fs.phase i = .waiting

/-- The ffmpeg run for the source of a request has exited without an error,
and the fs server holds what it has produced. -/
def Delivered (net : Net) (s : State) (i : ℕ) : Prop :=
  net.srcURL i = some (sourceURL net.fsHost (net.fileName i)) ∧
    (s.encode.phase i).exited = true ∧
      ∃ output, genOutFileName (sourceURL net.fsHost (net.fileName i)) = .ok output ∧
        s.fs.files (encodedPath output) = some (s.encode.produced i)

/-- innerUpload has copied a content of this length and returned. -/
def copiedAll (size : ℕ) : Phase Path → Bool
  | .stored _ n => n = size
  | _ => false

/-- The condition on the steps of a run: outputs are still absent when they
are created, encoded files arrive under their own name and are no shorter
than what they replace, and a request that is answered with success has a
name without reserved bytes and no handler on its way has returned early. -/
def Sound (net : Net) (s : State) : Label → Prop
  | .app (.answer i) =>
    (∀ c ∈ net.fileName i, ¬Reserved c) ∧ s.encode.phase i = .returned .finished ∧
      copiedAll (s.content i).length (s.fs.phase i) = true
  | .encode a => Fresh net.output s.encode a
  | .fs (.openFile i _) =>
    HeaderSafe (net.output i) ∧
      ((s.fs.files (encodedPath (net.output i))).getD []).length ≤ (s.content i).length
  | _ => True

instance (net : Net) (s : State) : ∀ a, Decidable (Sound net s a)
  | .app (.answer _) => inferInstanceAs (Decidable (_ ∧ _ ∧ _))
  | .encode a => inferInstanceAs (Decidable (Fresh net.output s.encode a))
  | .fs (.openFile _ _) => inferInstanceAs (Decidable (_ ∧ _))
  | .app (.handle _) | .app (.encodeError _) | .app (.encodeStatus _ _) | .app (.store _)
  | .app .last | .fs (.refuse _) | .fs (.write _ _) | .fs (.finish _) => isTrue trivial

/-- What holds of the services in a run whose steps meet the condition. -/
structure Aligned (net : Net) (s : State) : Prop where
  /-- The outputs of the encode server are in line. -/
  encode : Tracks net.output s.encode
  /-- innerUpload works on what was sent. -/
  sent : ∀ i, s.fs.phase i ≠ .waiting → s.encode.posted i ≠ none
  /-- A request has opened the file of its output name. -/
  target : ∀ i p, (s.fs.phase i).file = some p → p = encodedPath (net.output i)
  /-- A file that was opened exists. -/
  exists_file : ∀ i p, (s.fs.phase i).file = some p → s.fs.files p ≠ none
  /-- What was copied lies over an old content that is no longer. -/
  copied : ∀ i p, (s.fs.phase i).file = some p →
    ∃ base : Bytes, base.length ≤ (s.content i).length ∧ Overlaid s.content i p base s.fs

variable {net : Net} {s t u : State} {a : Label} {as : List Label} {i : ℕ}

/-- A step is a step of one of the services. -/
theorem pipelineStep_cases (h : pipelineStep net s a = some t) :
    (∃ e app, a = .app e ∧ handleStep net.fileName s.app e = some app ∧
        t = { s with app := app }) ∨
      (∃ b encode, a = .encode b ∧ encodeStep net.output s.encode b = some encode ∧
        t = { s with encode := encode }) ∨
      ∃ b fs, a = .fs b ∧ s.encode.posted b.writer ≠ none ∧
        innerStep net.dirs (s.requests net) s.fs b = some fs ∧ t = { s with fs := fs } := by
  cases a with
  | app e =>
    simp only [pipelineStep] at h
    split_ifs at h
    obtain ⟨app, happ, rfl⟩ := Option.map_eq_some_iff.mp h
    exact Or.inl ⟨e, app, rfl, happ, rfl⟩
  | encode b =>
    simp only [pipelineStep] at h
    split_ifs at h
    obtain ⟨encode, hencode, rfl⟩ := Option.map_eq_some_iff.mp h
    exact Or.inr (Or.inl ⟨b, encode, rfl, hencode, rfl⟩)
  | fs b =>
    simp only [pipelineStep] at h
    split_ifs at h with hsent
    obtain ⟨fs, hfs, rfl⟩ := Option.map_eq_some_iff.mp h
    exact Or.inr (Or.inr ⟨b, fs, rfl, Option.isSome_iff_ne_none.mp hsent, hfs, rfl⟩)

section EncodeSteps

variable {b : EncodeRuns.Action} {encode : EncodeRuns.State} {body : Bytes}

/-- A request goes on to another phase on the encode server. -/
def State.enter (s : State) (i : ℕ) (q : EncodeRuns.Phase) : State :=
  { s with encode := s.encode.enter i q }

/-- The app server is not concerned. -/
@[simp]
theorem State.enter_app (q : EncodeRuns.Phase) : (s.enter i q).app = s.app := rfl

/-- The fs server is not concerned. -/
@[simp]
theorem State.enter_fs (q : EncodeRuns.Phase) : (s.enter i q).fs = s.fs := rfl

/-- The data directory is kept. -/
@[simp]
theorem State.enter_data (q : EncodeRuns.Phase) : (s.enter i q).encode.data = s.encode.data := rfl

/-- The phase of the request that goes on. -/
@[simp]
theorem State.enter_phase_self (q : EncodeRuns.Phase) : (s.enter i q).encode.phase i = q :=
  EncodeRuns.State.enter_phase_self ..

/-- An enabled step of the encode server is a step of the pipeline. -/
theorem step_encode (henabled : encodeEnabled net s b = true)
    (h : encodeStep net.output s.encode b = some encode) :
    pipelineStep net s (.encode b) = some { s with encode := encode } := by
  rw [pipelineStep, if_pos henabled, h, Option.map_some]

/-- A request that was made and whose URL reaches the handler arrives. -/
theorem step_arrive (happ : s.app.phase i ≠ .idle) (hsrc : net.srcURL i ≠ none)
    (hi : s.encode.phase i = .waiting) :
    pipelineStep net s (.encode (.arrive i)) = some (s.enter i .started) := by
  refine step_encode ?_ (if_pos hi)
  rw [encodeEnabled, Bool.and_eq_true, decide_eq_true_eq, Option.isSome_iff_ne_none]
  exact ⟨happ, hsrc⟩

/-- ffmpeg refuses an output that exists, and the directory itself. -/
theorem step_refuse (hi : s.encode.phase i = .started)
    (hout : net.output i = [] ∨ s.encode.data (net.output i) ≠ none) :
    pipelineStep net s (.encode (.refuse i)) = some (s.enter i (.returned .ffmpegError)) :=
  step_encode rfl (if_pos ⟨hi, hout⟩)

/-- ffmpeg goes on when its output is absent. -/
theorem step_probe (hi : s.encode.phase i = .started) (hname : net.output i ≠ [])
    (hfree : s.encode.data (net.output i) = none) :
    pipelineStep net s (.encode (.probe i)) = some (s.enter i .probed) :=
  step_encode rfl (if_pos ⟨hi, hname, hfree⟩)

/-- ffmpeg creates its output empty. -/
theorem step_create (hi : s.encode.phase i = .probed) (hname : net.output i ≠ []) :
    pipelineStep net s (.encode (.create i)) =
      some { s with encode := { s.encode.enter i .encoding with
        data := Function.update s.encode.data (net.output i) (some [])
        produced := Function.update s.encode.produced i [] } } :=
  step_encode rfl (if_pos ⟨hi, hname⟩)

/-- ffmpeg writes to the output it has created. -/
theorem step_write (hi : s.encode.phase i = .encoding) (offset : ℕ) (chunk : Bytes) :
    pipelineStep net s (.encode (.write i offset chunk)) =
      some { s with encode := { s.encode with
        data := s.encode.data.write (net.output i) offset chunk
        produced := Function.update s.encode.produced i
          (writeAt offset chunk (s.encode.produced i)) } } :=
  step_encode rfl (if_pos hi)

/-- ffmpeg can fail as long as it runs. -/
theorem step_fail (hi : s.encode.phase i = .started ∨ s.encode.phase i = .probed ∨
      s.encode.phase i = .encoding) :
    pipelineStep net s (.encode (.fail i)) = some (s.enter i (.returned .ffmpegError)) :=
  step_encode rfl (if_pos hi)

/-- ffmpeg can exit once it has created its output. -/
theorem step_exit (hi : s.encode.phase i = .encoding) :
    pipelineStep net s (.encode (.exit i)) = some (s.enter i .encoded) :=
  step_encode rfl (if_pos hi)

/-- postFile opens an output that exists. -/
theorem step_openFile (hi : s.encode.phase i = .encoded)
    (hdata : s.encode.data (net.output i) ≠ none) :
    pipelineStep net s (.encode (.openFile i)) = some (s.enter i (.reading [])) :=
  step_encode rfl (if_pos ⟨hi, hdata⟩)

/-- postFile copies the next bytes of the output. -/
theorem step_copy (hi : s.encode.phase i = .reading body) (count : ℕ) :
    pipelineStep net s (.encode (.copy i count)) =
      some (s.enter i (.reading (body ++
        (((s.encode.data (net.output i)).getD []).drop body.length).take count))) := by
  refine step_encode rfl ?_
  simp only [encodeStep, hi]

/-- postFile sends the request when it has read the output to its end. -/
theorem step_post (hi : s.encode.phase i = .reading body)
    (hend : ((s.encode.data (net.output i)).getD []).length ≤ body.length) :
    pipelineStep net s (.encode (.post i)) =
      some { s with encode := { s.encode.enter i .posted with
        posted := Function.update s.encode.posted i (some body) } } := by
  refine step_encode rfl ?_
  simp only [encodeStep, hi]
  exact if_pos hend

/-- postFile can fail until it has its response. -/
theorem step_postError (hi : EncodeRuns.Move (s.encode.phase i) (.returned .postError)) :
    pipelineStep net s (.encode (.postError i)) = some (s.enter i (.returned .postError)) :=
  step_encode rfl (EncodeRuns.encodeStep_postError hi)

/-- postFile gets its response once innerUpload has returned. -/
theorem step_finish (hi : s.encode.phase i = .posted)
    (hreturned : hasReturned (s.fs.phase i) = true) :
    pipelineStep net s (.encode (.finish i)) = some (s.enter i (.returned .finished)) :=
  step_encode hreturned (if_pos hi)

end EncodeSteps

/-- The services are aligned before the first request. -/
theorem aligned_of_initial (h : Initial s) : Aligned net s := by
  have hlive : ∀ i, (s.encode.phase i).live ≠ true := by
    intro i
    rw [h.encode i]
    decide
  have hfile : ∀ i, (s.fs.phase i).file = none := by
    intro i
    rw [h.fs i, Phase.file]
  refine ⟨⟨fun i hi => absurd hi (hlive i), fun i hi => absurd hi (hlive i),
    fun i _ hi => absurd hi (hlive i), fun i body hi => ?_, fun i body hi => ?_⟩,
    fun i hi => absurd (h.fs i) hi, fun i p hp => ?_, fun i p hp => ?_, fun i p hp => ?_⟩
  · rw [h.encode i] at hi
    cases hi
  · rw [h.posted i] at hi
    cases hi
  all_goals
    rw [hfile i] at hp
    cases hp

/-- What a request has posted is its own ffmpeg's product. -/
theorem Aligned.content_eq (hs : Aligned net s) (hi : s.encode.posted i ≠ none) :
    s.content i = s.encode.produced i := by
  obtain ⟨body, hbody⟩ := Option.ne_none_iff_exists'.mp hi
  rw [State.content, hbody, Option.getD_some]
  exact (hs.encode.posted i body hbody).2

/-- A request that was sent is live. -/
theorem Aligned.live (hs : Aligned net s) (hi : s.encode.posted i ≠ none) :
    (s.encode.phase i).live = true := by
  obtain ⟨body, hbody⟩ := Option.ne_none_iff_exists'.mp hi
  exact EncodeRuns.Phase.live_of_sent (hs.encode.posted i body hbody).1

/-- A request that has opened a file was sent. -/
theorem Aligned.posted_of_file (hs : Aligned net s) {p : Path}
    (hp : (s.fs.phase i).file = some p) :
    s.encode.posted i ≠ none := by
  refine hs.sent i fun hw => ?_
  rw [hw] at hp
  cases hp

/-- A posted request has a plain output name that was derived from its
source. -/
theorem Aligned.output (hs : Aligned net s) (hi : s.encode.posted i ≠ none) :
    genOutFileName ((net.srcURL i).getD []) = .ok (net.output i) :=
  (outputName_eq_iff (hs.encode.named i (hs.live hi))).mp rfl

/-- Requests that work on one file are one request. -/
theorem Aligned.unique (hs : Aligned net s) {j : ℕ} {p : Path}
    (hi : (s.fs.phase i).file = some p) (hj : (s.fs.phase j).file = some p) : i = j := by
  have hpath : encodedPath (net.output i) = encodedPath (net.output j) := by
    rw [← hs.target i p hi, ← hs.target j p hj]
  simp only [encodedPath, List.cons.injEq, true_and, and_true] at hpath
  exact hs.encode.distinct i j (hs.live (hs.posted_of_file hi)) (hs.live (hs.posted_of_file hj))
    hpath

/-- A step of the encode server changes no content that was sent before. -/
theorem Aligned.encode_step (hs : Aligned net s) {b : EncodeRuns.Action}
    {encode : EncodeRuns.State} (hsound : Fresh net.output s.encode b)
    (h : encodeStep net.output s.encode b = some encode) :
    Aligned net { s with encode := encode } := by
  have hposted : ∀ i, s.encode.posted i ≠ none → encode.posted i = s.encode.posted i := by
    intro i hi
    obtain ⟨body, hbody⟩ := Option.ne_none_iff_exists'.mp hi
    rw [hbody, EncodeRuns.posted_of_step hs.encode h hbody]
  refine ⟨hs.encode.step hsound h, fun i hi => ?_, hs.target, hs.exists_file,
    fun i p hp => ?_⟩
  · have hsent := hs.sent i hi
    dsimp only
    rwa [hposted i hsent]
  · obtain ⟨base, hbase, hover⟩ := hs.copied i p hp
    have hcontent : State.content { s with encode := encode } i = s.content i :=
      congrArg (Option.getD · []) (hposted i (hs.posted_of_file hp))
    refine ⟨base, by rwa [hcontent], ?_⟩
    rw [Overlaid, hcontent]
    exact hover

/-- A request that opens its target under its own name finds a direct child
of the folder of encoded files. -/
theorem Aligned.opened (hs : Aligned net s) {p : Path} {fs : Writers ℕ Path UInt8}
    (hsafe : HeaderSafe (net.output i)) (hi : s.encode.posted i ≠ none)
    (h : innerStep net.dirs (s.requests net) s.fs (.openFile i p) = some fs) :
    p = encodedPath (net.output i) := by
  have hname : (s.requests net i).filename = net.output i := by
    rw [State.requests, partFileName_eq_self_iff.mpr hsafe, Option.getD_some]
  simp only [innerStep] at h
  split_ifs at h with hopen
  rw [hname] at hopen
  exact openFile_encoded (plainName_of_genOutFileName (hs.output hi)).2.2.2 hopen

/-- A step of the fs server that meets the condition keeps them aligned. -/
theorem Aligned.fs_step (hs : Aligned net s) {b : Action ℕ Path} {fs : Writers ℕ Path UInt8}
    (hsent : s.encode.posted b.writer ≠ none) (hsound : Sound net s (.fs b))
    (h : innerStep net.dirs (s.requests net) s.fs b = some fs) :
    Aligned net { s with fs := fs } := by
  have hstep : writerStep s.content s.fs b = some fs := innerStep_writer h
  have hfile : ∀ i p, (fs.phase i).file = some p →
      (s.fs.phase i).file = some p ∨ b = .openFile i p := fun i p => file_of_step hstep
  have honly : ∀ i p, (s.fs.phase i).file = some p → OnlyWriter i p s.fs b := by
    intro i p hp j k n _ hj
    refine hs.unique (p := p) ?_ hp
    rw [hj, Phase.file]
  have hopen : ∀ i p, b = .openFile i p → p = encodedPath (net.output i) ∧
      ((s.fs.files p).getD []).length ≤ (s.content i).length := by
    intro i p hb
    subst hb
    obtain rfl := hs.opened hsound.1 hsent h
    exact ⟨rfl, hsound.2⟩
  refine ⟨hs.encode, fun i hi => ?_, fun i p hp => ?_, fun i p hp => ?_, fun i p hp => ?_⟩
  · by_cases hw : i = b.writer
    · rw [hw]
      exact hsent
    · rw [writerStep_phase_ne hstep hw] at hi
      exact hs.sent i hi
  · rcases hfile i p hp with hold | hb
    · exact hs.target i p hold
    · exact (hopen i p hb).1
  · exact exists_file_of_step (fun j hj => hs.exists_file j p hj) hstep i hp
  · rcases hfile i p hp with hold | hb
    · obtain ⟨base, hbase, hover⟩ := hs.copied i p hold
      exact ⟨base, hbase, hover.step (honly i p hold) hstep⟩
    · rw [hb] at hstep
      exact ⟨(s.fs.files p).getD [], (hopen i p hb).2, overlaid_of_openFile hstep⟩

/-- Every step that meets the condition keeps the services aligned. -/
theorem Aligned.step (hs : Aligned net s) (hsound : Sound net s a)
    (h : pipelineStep net s a = some t) : Aligned net t := by
  obtain ⟨e, app, rfl, happ, rfl⟩ | ⟨b, encode, rfl, hencode, rfl⟩ |
      ⟨b, fs, rfl, hsent, hfs, rfl⟩ := pipelineStep_cases h
  · exact ⟨hs.encode, hs.sent, hs.target, hs.exists_file, hs.copied⟩
  · exact hs.encode_step hsound hencode
  · exact hs.fs_step hsent hsound hfs

/-- A content that was copied to its end has replaced the old one. -/
theorem Aligned.stored (hs : Aligned net s) {p : Path} {n : ℕ}
    (hi : s.fs.phase i = .stored p n) (hn : n = (s.content i).length) :
    s.fs.files (encodedPath (net.output i)) = some (s.encode.produced i) := by
  have hfile : (s.fs.phase i).file = some p := by rw [hi, Phase.file]
  obtain rfl := hs.target i p hfile
  obtain ⟨content, hcontent⟩ := Option.ne_none_iff_exists'.mp (hs.exists_file i _ hfile)
  obtain ⟨base, hbase, -, hover⟩ := hs.copied i _ hfile
  rw [hi, Phase.copied, if_pos rfl, hn, List.take_length, hcontent, Option.getD_some,
    overlay_eq_new_iff.mpr hbase] at hover
  rw [hcontent, hover, hs.content_eq (hs.posted_of_file hfile)]

/-- In a run whose steps meet the condition, a request that is answered with
success has been encoded, and the fs server holds the encoding. -/
theorem success_delivered (hinit : Initial s)
    (h : run (pipelineStep net) s (as ++ [.app (.answer i)]) = some u)
    (hsound : Along (pipelineStep net) (Sound net) s (as ++ [.app (.answer i)])) :
    u.app.phase i = .answered success ∧ Delivered net u i := by
  obtain ⟨t, ht, hlast⟩ := run_append_eq_some h
  obtain ⟨hbefore, hanswer⟩ := hsound.append ht
  have hs : Aligned net t :=
    run_invariant_along (fun _ _ _ hs hcond hstep => hs.step hcond hstep)
      (aligned_of_initial hinit) hbefore ht
  obtain ⟨hname, hreturned, hcopied⟩ := hanswer.1
  obtain ⟨v, hv, hu⟩ := run_cons_eq_some hlast
  obtain rfl : v = u := Option.some.inj hu
  obtain ⟨app, happ, rfl⟩ := Option.map_eq_some_iff.mp hv
  simp only [handleStep] at happ
  split_ifs at happ with hstored
  obtain rfl := Option.some.inj happ
  refine ⟨Function.update_self .., ?_⟩
  have hrequested : net.srcURL i = some (sourceURL net.fsHost (net.fileName i)) :=
    (encodeSrcURL_eq_iff _ _ _).mpr hname
  cases hfs : t.fs.phase i with
  | stored p n =>
    rw [hfs] at hcopied
    have hfile := hs.stored hfs (of_decide_eq_true hcopied)
    have hposted : t.encode.posted i ≠ none := hs.sent i (by rw [hfs]; simp)
    have houtput := hs.output hposted
    rw [hrequested, Option.getD_some] at houtput
    have hexited : (t.encode.phase i).exited = true := by
      rw [hreturned]
      rfl
    exact ⟨hrequested, hexited, net.output i, houtput, hfile⟩
  | _ =>
    rw [hfs] at hcopied
    cases hcopied

/-- Once the encode handler has returned, in whatever way, the request goes
on to be answered with success. -/
theorem success_of_returned (net : Net) (happ : s.app.phase i = .waiting)
    (hreturned : (s.encode.phase i).hasReturned = true) :
    ∃ u, run (pipelineStep net) s
        [.app (.encodeStatus i 200), .app (.store i), .app (.answer i)] = some u ∧
      u.app.phase i = .answered success ∧ u.encode = s.encode ∧ u.fs = s.fs := by
  simp [run, pipelineStep, appEnabled, greeting, handleStep, happ, hreturned]

/-- Requests for the file name "a" between three hosts. -/
def plainNet : Net where
  encodeHost := ⟨ascii "10.0.0.3", by decide⟩
  fsHost := ⟨ascii "10.0.0.2", by decide⟩
  dirs := .plain
  fileName _ := ascii "a"

/-- Services without files and without requests. -/
def blank : State :=
  ⟨LastAction.initial, ⟨fun _ => none, fun _ => .waiting, fun _ => none, fun _ => []⟩,
    InnerUploadRuns.idle⟩

theorem initial_blank : Initial blank := ⟨fun _ => rfl, fun _ => rfl, fun _ => rfl, fun _ => rfl⟩

/-- One request on its way through the services, up to its answer. -/
def oneRequest : List Label :=
  [.app (.handle 0), .encode (.arrive 0), .encode (.probe 0), .encode (.create 0),
    .encode (.write 0 0 [1]), .encode (.exit 0), .encode (.openFile 0), .encode (.copy 0 1),
    .encode (.post 0), .fs (.openFile 0 (encodedPath (ascii "a.mp4"))), .fs (.write 0 1),
    .fs (.finish 0), .encode (.finish 0), .app (.encodeStatus 0 200), .app (.store 0)]

/-- A request on whose way nothing fails. -/
theorem success_delivered_plain :
    ∃ u, run (pipelineStep plainNet) blank (oneRequest ++ [.app (.answer 0)]) = some u ∧
      u.app.phase 0 = .answered success ∧ Delivered plainNet u 0 := by
  have hruns : (run (pipelineStep plainNet) blank
      (oneRequest ++ [.app (.answer 0)])).isSome = true := by decide +kernel
  obtain ⟨u, hu⟩ := Option.isSome_iff_exists.mp hruns
  exact ⟨u, hu, success_delivered initial_blank hu (by decide +kernel)⟩

/-- The run of a request whose ffmpeg fails. -/
def failedRequest : List Label := [.app (.handle 0), .encode (.arrive 0), .encode (.fail 0)]

/-- ffmpeg fails, and the request is answered with success. -/
theorem success_not_delivered :
    ¬∀ (net : Net) (s u : State) (as : List Label) (i : ℕ), Initial s →
      run (pipelineStep net) s (as ++ [.app (.answer i)]) = some u →
        u.app.phase i = .answered success → Delivered net u i := by
  intro hclaim
  have hfails : (run (pipelineStep plainNet) blank failedRequest).map
      (fun t => (t.app.phase 0, t.encode.phase 0)) =
        some (.waiting, .returned .ffmpegError) := by decide +kernel
  obtain ⟨t, ht, hphases⟩ := Option.map_eq_some_iff.mp hfails
  obtain ⟨happ, hencode⟩ := Prod.mk.inj hphases
  obtain ⟨u, hu, hsuccess, hkept, -⟩ :=
    success_of_returned plainNet happ (by rw [hencode]; rfl)
  have hrun := run_trans ht hu
  rw [show failedRequest ++ [.app (.encodeStatus 0 200), .app (.store 0), .app (.answer 0)] =
    (failedRequest ++ [.app (.encodeStatus 0 200), .app (.store 0)]) ++ [.app (.answer 0)] by
      simp] at hrun
  obtain ⟨-, hexited, -⟩ := hclaim plainNet blank u _ 0 initial_blank hrun hsuccess
  rw [hkept, hencode] at hexited
  cases hexited

end VideooServer.Pipeline
