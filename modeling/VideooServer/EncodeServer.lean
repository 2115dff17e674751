import VideooServer.InnerUpload
import VideooServer.MultipartName

/-!
# Encode requests, one after the other

The encode handler with ffmpeg and postFile, and runs of such requests. What
ffmpeg has written to the data directory stays there on every way out of the
handler, and ffmpeg refuses to write to a file that exists. A later request
for the same output name can therefore only fail, whatever became of the
earlier one.
-/

namespace VideooServer.EncodeServer

open ByteText FileWriters OutputName FsServer InnerUpload MultipartName

/-- The files of the encode server's data directory and of the fs server. -/
structure World where
  /-- The files of data/, by name. -/
  data : Store Bytes UInt8
  /-- The files of the fs server. -/
  files : Store Path UInt8

/-- What ffmpeg does with a source when it can create its output. -/
inductive FfmpegRun where
  /-- It exits with an error, before or after it has created the output. -/
  | fails (written : Option Bytes)
  /-- It exits without an error. -/
  | exits (encoding : Bytes)
  deriving DecidableEq

/-- Run ffmpeg, without -y and without a terminal: the data directory after
it and whether it exits without an error. An existing output, the directory
itself when the name is empty, is not overwritten. -/
def ffmpeg (data : Store Bytes UInt8) (output : Bytes) (run : FfmpegRun) :
    Store Bytes UInt8 × Bool :=
  if output = [] ∨ data output ≠ none then (data, false)
  else
    match run with
    | .fails none => (data, false)
    | .fails (some written) => (Function.update data output (some written), false)
    | .exits encoding => (Function.update data output (some encoding), true)

/-- The outcomes of the steps of postFile, and of the innerUpload request it
makes. -/
structure PostRun where
  /-- The file in the data directory can be opened. -/
  opens : Bool
  /-- It can be read to its end. -/
  reads : Bool
  /-- The request reaches the fs server. -/
  reaches : Bool
  /-- The fs server can open the part. -/
  readable : Bool
  /-- The part's MIME header, as fmt prints it. -/
  header : Bytes
  /-- The fs server's operating system. -/
  env : Environment
  /-- The response is read to its end. -/
  answered : Bool

/-- The form that innerUpload finds in postFile's request. -/
def postedForm (filename content : Bytes) (run : PostRun) : FormFile :=
  match partFileName filename with
  | none => .missing
  | some name =>
    if run.readable then .file ⟨name, run.header⟩ content else .unreadable ⟨name, run.header⟩

/-- The encode server's postFile: what it leaves behind and whether it
returns without an error. The status of the response is not looked at. -/
def postFile (w : World) (filename : Bytes) (run : PostRun) : World × Bool :=
  match w.data filename with
  | none => (w, false)
  | some content =>
    if !run.opens then (w, false)
    else if !run.reads then (w, false)
    else if !run.reaches then (w, false)
    else
      ({ w with files := (innerUpload run.env w.files (postedForm filename content run)).files },
        run.answered)

/-- An HTTP response. -/
structure Response where
  /-- The status, 200 when the handler does not set one. -/
  status : ℕ
  /-- The body. -/
  body : Bytes
  deriving DecidableEq

/-- An encode request and the outcomes of its steps. -/
structure EncodeRequest where
  /-- The form value "src_url". -/
  srcURL : Bytes
  /-- The run of ffmpeg. -/
  ffmpeg : FfmpegRun
  /-- The course of postFile. -/
  post : PostRun

/-- What an encode request leaves behind. -/
structure Served where
  /-- The files after the request. -/
  world : World
  /-- The response. -/
  response : Response

/-- The response of the encode handler, written before anything else. -/
def greeting : Response := ⟨200, ascii "Hi there, I love encode!"⟩

/-- The output name the handler goes on with: errors are only logged. -/
def outputName (srcURL : Bytes) : Bytes := (genOutFileName srcURL).toOption.getD []

/-- The encode server's handler. -/
def encodeHandler (w : World) (r : EncodeRequest) : Served :=
  match ffmpeg w.data (outputName r.srcURL) r.ffmpeg with
  | (data, false) => ⟨{ w with data := data }, greeting⟩
  | (data, true) =>
    -- An error of postFile is only logged.
    ⟨(postFile { w with data := data } (outputName r.srcURL) r.post).1, greeting⟩

/-- Serve requests in order. -/
def serve (w : World) (rs : List EncodeRequest) : World :=
  rs.foldl (fun w r => (encodeHandler w r).world) w

/-- The request can be encoded, and its POST to the fs server works. -/
structure Healthy (r : EncodeRequest) (encoding : Bytes) : Prop where
  /-- The source is decoded. -/
  decoded : r.ffmpeg = .exits encoding
  /-- The data file can be opened. -/
  opens : r.post.opens = true
  /-- It is read to its end. -/
  reads : r.post.reads = true
  /-- The request reaches the fs server. -/
  reaches : r.post.reaches = true
  /-- The fs server can open the part. -/
  readable : r.post.readable = true
  /-- It opens the target of the output name and copies to the end. -/
  completed : ∀ output, genOutFileName r.srcURL = .ok output →
    Completed r.post.env output encoding

/-- The innerUpload request that a POST of a file makes opens this file and
copies the content into it. -/
def PostRun.Writes (run : PostRun) (filename content : Bytes) (p : Path) : Prop :=
  ∃ handler, postedForm filename content run = .file handler content ∧
    openFile run.env.dirs run.env.permits (ascii "./content/encoded/" ++ handler.filename) =
      some p

/-- A request stores this content under its output name: its ffmpeg is not
refused, its POST writes the file of that name, and the file holds the
content after it. -/
def Stores (w : World) (r : EncodeRequest) (encoding : Bytes) : Prop :=
  ∃ output, genOutFileName r.srcURL = .ok output ∧
    (ffmpeg w.data output r.ffmpeg).2 = true ∧
      r.post.Writes output encoding (encodedPath output) ∧
        (encodeHandler w r).world.files (encodedPath output) = some encoding

/-- A request lets ffmpeg create a file of this name. -/
def Creates (r : EncodeRequest) (output : Bytes) : Prop :=
  genOutFileName r.srcURL = .ok output ∧ r.ffmpeg ≠ .fails none

variable {w : World} {r : EncodeRequest} {rs : List EncodeRequest} {output encoding : Bytes}

/-- The response is the same on every way out of the handler. -/
theorem encodeHandler_response (w : World) (r : EncodeRequest) :
    (encodeHandler w r).response = greeting := by
  unfold encodeHandler
  cases ffmpeg w.data (outputName r.srcURL) r.ffmpeg with
  | mk data ok => cases ok <;> rfl

/-- The output name of a source that has one. -/
theorem outputName_eq {srcURL : Bytes} (h : genOutFileName srcURL = .ok output) :
    outputName srcURL = output := by
  rw [outputName, h]
  rfl

/-- The file that ffmpeg looks for is the output of a parsed source, or the
directory itself. -/
theorem outputName_eq_iff {srcURL : Bytes} (hne : output ≠ []) :
    outputName srcURL = output ↔ genOutFileName srcURL = .ok output := by
  refine ⟨fun h => ?_, outputName_eq⟩
  cases hg : genOutFileName srcURL with
  | ok o =>
    rw [outputName_eq hg] at h
    rw [h]
  | error e =>
    rw [outputName, hg] at h
    exact absurd h.symm hne

/-- What ffmpeg has written stays, whether or not it fails. -/
theorem ffmpeg_data (data : Store Bytes UInt8) (name : Bytes) (run : FfmpegRun) :
    (ffmpeg data name run).1 output = none ↔
      data output = none ∧ ¬(name = output ∧ output ≠ [] ∧ run ≠ .fails none) := by
  unfold ffmpeg
  by_cases hname : name = output
  · rw [hname]
    split_ifs with hold
    · rcases hold with hold | hold <;> simp [hold]
    · rw [not_or, not_not] at hold
      cases run with
      | fails written => cases written <;> simp [hold]
      | exits encoding => simp [hold]
  · split_ifs
    · simp [hname]
    · cases run with
      | fails written => cases written <;> simp [hname, Ne.symm hname]
      | exits encoding => simp [hname, Ne.symm hname]

/-- postFile leaves the data directory as it is. -/
theorem postFile_data (w : World) (filename : Bytes) (run : PostRun) :
    (postFile w filename run).1.data = w.data := by
  unfold postFile
  cases w.data filename with
  | none => rfl
  | some content => dsimp only; split_ifs <;> rfl

/-- Nothing removes a file from the data directory. -/
theorem encodeHandler_data (w : World) (r : EncodeRequest) :
    (encodeHandler w r).world.data = (ffmpeg w.data (outputName r.srcURL) r.ffmpeg).1 := by
  unfold encodeHandler
  cases ffmpeg w.data (outputName r.srcURL) r.ffmpeg with
  | mk data ok => cases ok <;> simp [postFile_data]

/-- A derived name is not empty. -/
theorem genOutFileName_ne_nil {srcURL : Bytes} (h : genOutFileName srcURL = .ok output) :
    output ≠ [] := (plainName_of_genOutFileName h).1

/-- After a request an output name is free when it was before and the
request has not let ffmpeg create it. -/
theorem encodeHandler_data_eq_none :
    (encodeHandler w r).world.data output = none ↔ w.data output = none ∧ ¬Creates r output := by
  rw [encodeHandler_data, ffmpeg_data]
  refine and_congr_right fun _ => not_congr ⟨fun ⟨hname, hne, hrun⟩ => ?_, fun ⟨hg, hrun⟩ => ?_⟩
  · exact ⟨(outputName_eq_iff hne).mp hname, hrun⟩
  · exact ⟨outputName_eq hg, genOutFileName_ne_nil hg, hrun⟩

/-- After a run an output name is free when it was before and no request of
the run has let ffmpeg create it. -/
theorem serve_data_eq_none :
    (serve w rs).data output = none ↔ w.data output = none ∧ ∀ r ∈ rs, ¬Creates r output := by
  induction rs generalizing w with
  | nil => simp [serve]
  | cons r rs ih =>
    rw [show serve w (r :: rs) = serve (encodeHandler w r).world rs from rfl, ih,
      encodeHandler_data_eq_none, and_assoc, List.forall_mem_cons]

/-- The posted content is copied over the old file when its name arrives
unchanged. Otherwise no file of that name is touched. -/
theorem innerUpload_postedForm {run : PostRun} {content : Bytes} (files : Store Path UInt8)
    (hslash : byte '/' ∉ output) (hreadable : run.readable = true)
    (hdone : Completed run.env output content) :
    (innerUpload run.env files (postedForm output content run)).files (encodedPath output) =
      if HeaderSafe output then some (overlay content ((files (encodedPath output)).getD []))
      else files (encodedPath output) := by
  by_cases hsafe : HeaderSafe output
  · obtain ⟨p, hp⟩ := Option.ne_none_iff_exists'.mp hdone.1
    have hfile := (innerUpload_opened ⟨output, run.header⟩ files content hslash hp).1
    rw [(run.env.transfer content).complete hdone.2] at hfile
    rw [if_pos hsafe, postedForm, partFileName_eq_self_iff.mpr hsafe]
    simp only [hreadable, if_true]
    exact hfile
  · rw [if_neg hsafe, postedForm]
    cases hpart : partFileName output with
    | none => rfl
    | some name =>
      have hname : name ≠ output := fun he => hsafe (partFileName_eq_self_iff.mp (he ▸ hpart))
      simp only [hreadable, if_true]
      refine innerUpload_files_ne ⟨name, run.header⟩ ?_ ?_
      · exact fun hm => hslash ((partFileName_spec hpart).2.2.2 hm)
      · intro he
        simp only [encodedPath, List.cons.injEq, true_and, and_true] at he
        exact hname he.symm

/-- A healthy request copies its encoding over the old file when its output
name is free and arrives unchanged, and leaves it alone otherwise. -/
theorem encodeHandler_healthy (h : Healthy r encoding)
    (hg : genOutFileName r.srcURL = .ok output) :
    (encodeHandler w r).world.files (encodedPath output) =
      if w.data output = none ∧ HeaderSafe output then
        some (overlay encoding ((w.files (encodedPath output)).getD []))
      else w.files (encodedPath output) := by
  have hplain := plainName_of_genOutFileName hg
  by_cases hfree : w.data output = none
  · have hrun : ffmpeg w.data output r.ffmpeg =
        (Function.update w.data output (some encoding), true) := by
      rw [h.decoded]
      exact if_neg (by simp [hplain.1, hfree])
    have hposted := innerUpload_postedForm w.files hplain.2.2.2 h.readable (h.completed output hg)
    simp only [encodeHandler, outputName_eq hg, hrun, postFile, Function.update_self, h.opens,
      h.reads, h.reaches, Bool.not_true, Bool.false_eq_true, if_false, hfree, true_and]
    exact hposted
  · simp [encodeHandler, outputName_eq hg, ffmpeg, hfree]

/-- An ffmpeg that can read its source is refused exactly when its output
exists. -/
theorem ffmpeg_exits_iff (data : Store Bytes UInt8) (hne : output ≠ []) :
    (ffmpeg data output (.exits encoding)).2 = true ↔ data output = none := by
  rw [ffmpeg]
  by_cases hfree : data output = none
  · simp [hne, hfree]
  · simp [hfree]

/-- A POST that works writes the file of a name exactly when the name
arrives unchanged. -/
theorem writes_iff {run : PostRun} {content : Bytes} (hslash : byte '/' ∉ output)
    (hreadable : run.readable = true) (hdone : Completed run.env output content) :
    run.Writes output content (encodedPath output) ↔ HeaderSafe output := by
  constructor
  · rintro ⟨handler, hform, hopen⟩
    cases hpart : partFileName output with
    | none =>
      rw [postedForm, hpart] at hform
      cases hform
    | some name =>
      rw [postedForm, hpart] at hform
      simp only [hreadable, if_true, FormFile.file.injEq, and_true] at hform
      rw [← hform] at hopen
      have hname : byte '/' ∉ name := fun hm => hslash ((partFileName_spec hpart).2.2.2 hm)
      have hsame := (openFile_encoded hname hopen).symm
      simp only [encodedPath, List.cons.injEq, true_and, and_true] at hsame
      rw [← partFileName_eq_self_iff, hpart, hsame]
  · intro hsafe
    obtain ⟨p, hp⟩ := Option.ne_none_iff_exists'.mp hdone.1
    refine ⟨⟨output, run.header⟩, ?_, ?_⟩
    · simp [postedForm, partFileName_eq_self_iff.mpr hsafe, hreadable]
    · rw [← openFile_encoded hslash hp]
      exact hp

/-- A healthy request after any run stores the encoding of its source under
its output name exactly when the source has such a name, the name is not used
in the data directory by any earlier request, and it arrives at the fs server
unchanged and has no longer file there. -/
theorem retry_stores_iff (w : World) (rs : List EncodeRequest) (r : EncodeRequest)
    (encoding : Bytes) (h : Healthy r encoding) :
    Stores (serve w rs) r encoding ↔
      ∃ output, genOutFileName r.srcURL = .ok output ∧ w.data output = none ∧
        (∀ e ∈ rs, ¬Creates e output) ∧ HeaderSafe output ∧
          ∀ old, (serve w rs).files (encodedPath output) = some old →
            old.length ≤ encoding.length := by
  refine exists_congr fun output => and_congr_right fun hg => ?_
  have hplain := plainName_of_genOutFileName hg
  rw [encodeHandler_healthy h hg, h.decoded, ffmpeg_exits_iff _ hplain.1,
    writes_iff hplain.2.2.2 h.readable (h.completed output hg),
    ← and_assoc (a := w.data output = none), ← serve_data_eq_none]
  refine and_congr_right fun hfree => and_congr_right fun hsafe => ?_
  rw [if_pos ⟨hfree, hsafe⟩, Option.some_inj, overlay_getD_eq_new_iff]

/-- Servers without files. -/
def blank : World := ⟨fun _ => none, fun _ => none⟩

/-- A request for one source, with nothing in the way of its POST. -/
def request (run : FfmpegRun) : EncodeRequest :=
  ⟨ascii "http://h/a.b", run, ⟨true, true, true, true, [], .undisturbed, true⟩⟩

theorem genOutFileName_request : genOutFileName (ascii "http://h/a.b") = .ok (ascii "a.mp4") := by
  decide +kernel

theorem healthy_request (encoding : Bytes) : Healthy (request (.exits encoding)) encoding := by
  refine ⟨rfl, rfl, rfl, rfl, rfl, fun output hg => ⟨?_, rfl⟩⟩
  obtain rfl : ascii "a.mp4" = output :=
    Except.ok.inj (genOutFileName_request.symm.trans hg)
  have hopen : openFile .plain true (ascii "./content/encoded/" ++ ascii "a.mp4") ≠ none := by
    decide +kernel
  exact hopen

/-- A request for a source that could not be fetched is retried. -/
theorem retry_fetched :
    Stores (serve blank [request (.fails none)]) (request (.exits [2])) [2] := by
  refine (retry_stores_iff blank [request (.fails none)] _ _ (healthy_request [2])).mpr
    ⟨ascii "a.mp4", genOutFileName_request, rfl, ?_, by decide, ?_⟩
  · intro e he hcreates
    rw [List.mem_singleton.mp he] at hcreates
    exact hcreates.2 rfl
  · intro old hold
    rw [show (serve blank [request (.fails none)]).files (encodedPath (ascii "a.mp4")) = none by
      decide +kernel] at hold
    cases hold

/-- After ffmpeg has failed in the middle of its output, the same source is
never encoded. -/
theorem retry_refused :
    (encodeHandler (serve blank [request (.fails (some [1]))])
        (request (.exits [2]))).world.files (encodedPath (ascii "a.mp4")) = none ∧
      ¬∀ (rs : List EncodeRequest) (r : EncodeRequest) (encoding : Bytes),
        Healthy r encoding → Stores (serve blank rs) r encoding := by
  have hnone : (encodeHandler (serve blank [request (.fails (some [1]))])
      (request (.exits [2]))).world.files (encodedPath (ascii "a.mp4")) = none := by
    decide +kernel
  refine ⟨hnone, fun h => ?_⟩
  obtain ⟨output, hg, -, -, hfile⟩ := h [request (.fails (some [1]))] _ _ (healthy_request [2])
  obtain rfl : ascii "a.mp4" = output :=
    Except.ok.inj (genOutFileName_request.symm.trans hg)
  rw [hnone] at hfile
  cases hfile

end VideooServer.EncodeServer
