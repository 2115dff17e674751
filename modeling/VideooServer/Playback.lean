import VideooServer.FileService
import VideooServer.RequestHops
import VideooServer.WrittenPaths

/-!
# From an upload to the encoded file

What becomes of an uploaded content: it stays where it was stored whatever
the fs server serves after it, the names on its way lead the encoder back to
it exactly when the extension passes every layer, and then the encoding of
just this content is stored under the name that the page asks for. ffmpeg is
given as what it makes of the content that it is answered with.
-/

namespace VideooServer.Playback

open ByteText PercentCodec UrlParse StepRuns FileWriters OutputName UploadReply RequestHops
open MultipartName FsServer FileService InnerUpload Upload EncodeServer WrittenPaths

/-- A request that leaves the upload under a name alone: another name is
given to an upload, and an inner upload is harmless. -/
def Spares (name : Bytes) (env : Environment) (files : Store Path UInt8) : Request → Prop
  | .upload now (.file handler _) => storedName now handler.filename ≠ name
  | .upload _ _ => True
  | .innerUpload form => Harmless env files (.innerUpload form)

/-- The target that a client sends for a URL with a scheme and a host. -/
def sourceTarget (srcURL : Bytes) : Bytes := byte '/' :: pastFirst (byte '/') (srcURL.drop 7)

/-- The run of ffmpeg for the answer it gets: it makes something of a
content, and nothing of any other answer. -/
def fetched (codec : Bytes → FfmpegRun) : Answer → FfmpegRun
  | .content _ body => codec body
  | _ => .fails none

variable {env : Environment} {files last : Store Path UInt8} {r : Request} {name : Bytes}
  {now : Int} {handler : FileHeader} {content encoding : Bytes}
  {rs : List (Environment × Request)} {codec : Bytes → FfmpegRun} {w : World} {post : PostRun}

/-- A request that spares a name keeps the upload under it. -/
theorem spared_step (h : Spares name env files r) :
    (serveRequest env files r).files (contentPath name) = files (contentPath name) := by
  cases r with
  | upload now form =>
    cases form with
    | missing => rfl
    | unreadable handler => rfl
    | file handler content =>
      refine upload_files_ne env files now handler content fun he => ?_
      exact h (by simpa [contentPath] using he.symm)
  | innerUpload form =>
    obtain ⟨child, -, hframe⟩ := confined_of_harmless h
    exact hframe _ (by simp [contentPath, Request.folder])

/-- In a run of such requests the upload keeps its content. -/
theorem spared_of_run
    (hspares : Along serveStep (fun files r => Spares name r.1 files r.2) files rs)
    (hrun : run serveStep files rs = some last) :
    last (contentPath name) = files (contentPath name) := by
  refine run_invariant_along (P := fun now => now (contentPath name) = files (contentPath name))
    ?_ rfl hspares hrun
  intro before r after hbefore hr hstep
  obtain rfl := Option.some.inj hstep
  rw [spared_step hr, hbefore]

/-- The upload is still stored at the end of such a run. -/
theorem stored_of_run
    (hopen : openFile env.dirs env.permits
      (ascii "./content/" ++ storedName now handler.filename) ≠ none)
    (hfree : files (contentPath (storedName now handler.filename)) = none)
    (hcopied : (env.transfer content).chunks.flatten = content)
    (hspares : Along serveStep
      (fun files r => Spares (storedName now handler.filename) r.1 files r.2)
      (upload env files now (.file handler content)).files rs)
    (hrun : run serveStep (upload env files now (.file handler content)).files rs = some last) :
    last (contentPath (storedName now handler.filename)) = some content := by
  obtain ⟨f, hf⟩ := Option.ne_none_iff_exists'.mp hopen
  rw [spared_of_run hspares hrun, (upload_opened content hf hfree).1, hcopied]

/-- A name that can be opened is not the name of a directory. -/
theorem isDir_of_openFile
    (hopen : openFile env.dirs env.permits
      (ascii "./content/" ++ storedName now handler.filename) ≠ none) :
    env.dirs.isDir (contentPath (storedName now handler.filename)) = false := by
  obtain ⟨f, hf⟩ := Option.ne_none_iff_exists'.mp hopen
  have hdir := (openFile_eq_some hf).2
  rwa [openFile_content hf] at hdir

/-- What was uploaded can be fetched after any run of requests that spare
it, exactly when the path of a request carries the extension. -/
theorem download_of_run
    (hopen : openFile env.dirs env.permits
      (ascii "./content/" ++ storedName now handler.filename) ≠ none)
    (hfree : files (contentPath (storedName now handler.filename)) = none)
    (hcopied : (env.transfer content).chunks.flatten = content)
    (hspares : Along serveStep
      (fun files r => Spares (storedName now handler.filename) r.1 files r.2)
      (upload env files now (.file handler content)).files rs)
    (hrun : run serveStep (upload env files now (.file handler content)).files rs = some last) :
    httpGet env.dirs last (byte '/' :: storedName now handler.filename) =
        .content (contentPath (storedName now handler.filename)) content ↔
      ∀ c ∈ ext handler.filename, PathByte c := by
  rw [get_stored_iff, stored_of_run hopen hfree hcopied hspares hrun]
  exact ⟨fun h => h.2.2, fun h => ⟨rfl, isDir_of_openFile hopen, h⟩⟩

/-- The stored name is read from the reply, reaches handler2 and the encode
server, and leads ffmpeg to the content. -/
structure Reaches (encodeHost fsHost : Host) (dirs : Folders) (o : Outcome) (name content : Bytes) :
    Prop where
  /-- The reply names it. -/
  named : ReplyNames o.body name
  /-- The page's request carries it. -/
  handled : handleFileName name = some name
  /-- So does the request of handler2. -/
  requested : encodeSrcURL encodeHost fsHost name = some (sourceURL fsHost name)
  /-- The fs server answers with the content. -/
  answered : httpGet dirs o.files (sourceTarget (sourceURL fsHost name)) =
    .content (contentPath name) content

/-- The target of a source URL is the file name. -/
theorem sourceTarget_sourceURL (fsHost : Host) (fileName : Bytes) :
    sourceTarget (sourceURL fsHost fileName) = byte '/' :: fileName := by
  have hslash : byte '/' ∉ authority fsHost (ascii "5000") :=
    not_mem_authority (by decide) (by decide) (by decide)
  have hdrop : (sourceURL fsHost fileName).drop 7 =
      authority fsHost (ascii "5000") ++ byte '/' :: fileName := by
    rw [sourceURL, httpURL_eq]
    rfl
  rw [sourceTarget, hdrop, pastFirst_append_cons hslash]

/-- A stored name is not empty. -/
theorem storedName_ne_nil (now : Int) (filename : Bytes) : storedName now filename ≠ [] :=
  (plainName_storedName now filename).1

/-- A stored name has no reserved byte when its extension has none. -/
theorem reserved_storedName_iff (now : Int) (filename : Bytes) :
    (∀ c ∈ storedName now filename, ¬Reserved c) ↔ ∀ c ∈ ext filename, ¬Reserved c := by
  rw [storedName, List.forall_mem_append]
  exact and_iff_right fun c hc => decimal_not_reserved hc

/-- The bytes of an extension that the layers between the upload and ffmpeg
leave alone, one after the other. -/
def Carried (e : Bytes) : Prop := JsonSafe e ∧ ∀ c ∈ e, ¬Reserved c ∧ c ≠ byte '?'

instance (e : Bytes) : Decidable (Carried e) := inferInstanceAs (Decidable (_ ∧ _))

/-- Bytes that pass every layer are path bytes. -/
theorem Carried.pathByte {e : Bytes} (h : Carried e) : ∀ c ∈ e, PathByte c := by
  intro c hc
  obtain ⟨hreserved, hquery⟩ := h.2 c hc
  refine ⟨fun hbad => ?_, ?_⟩
  · have hcases : c = byte '?' ∨ c = byte '%' ∨ c = byte ' ' ∨ c = byte '\n' := by
      simpa [ascii] using hbad
    rcases hcases with rfl | rfl | rfl | rfl
    · exact hquery rfl
    · exact hreserved (by decide)
    · exact hreserved (by decide)
    · exact hreserved (by decide)
  · rintro rfl
    exact absurd (h.1.2 0 hc).2.2.2 (by decide)

/-- A stored upload reaches ffmpeg exactly when its extension is left alone
by the reply, by both requests and by the path of the third. -/
theorem reaches_iff (encodeHost fsHost : Host) {f : Path}
    (hopen : openFile env.dirs env.permits
      (ascii "./content/" ++ storedName now handler.filename) = some f)
    (hfree : files (contentPath (storedName now handler.filename)) = none)
    (hcopied : (env.transfer content).chunks.flatten = content) :
    Reaches encodeHost fsHost env.dirs (upload env files now (.file handler content))
        (storedName now handler.filename) content ↔ Carried (ext handler.filename) := by
  obtain ⟨hstored, hbody, -⟩ := upload_opened content hopen hfree
  have hdir := (openFile_eq_some hopen).2
  rw [openFile_content hopen] at hdir
  constructor
  · intro h
    have hsafe := h.named
    rw [hbody] at hsafe
    have hget := h.answered
    rw [sourceTarget_sourceURL, get_stored_iff] at hget
    have hreserved := (reserved_storedName_iff now _).mp
      ((handleFileName_eq_iff (storedName_ne_nil now _)).mp h.handled)
    refine ⟨jsonSafe_ext_of_replyNames hsafe, fun c hc => ⟨hreserved c hc, ?_⟩⟩
    rintro rfl
    exact (hget.2.2 _ hc).1 (by decide)
  · intro h
    have hreserved := (reserved_storedName_iff now _).mpr fun c hc => (h.2 c hc).1
    refine ⟨?_, (handleFileName_eq_iff (storedName_ne_nil now _)).mpr hreserved,
      (encodeSrcURL_eq_iff encodeHost fsHost _).mpr hreserved, ?_⟩
    · rw [hbody]
      exact replyNames_storedName now h.1
    · rw [sourceTarget_sourceURL, get_stored_iff, hstored, hcopied]
      exact ⟨rfl, hdir, h.pathByte⟩

/-- An upload with a plain extension. -/
theorem reaches_stored :
    Reaches ⟨ascii "10.0.0.3", by decide⟩ ⟨ascii "10.0.0.2", by decide⟩ .plain
      (upload .undisturbed (fun _ => none) 7 (.file ⟨ascii "a.mp4", []⟩ [1, 2]))
        (storedName 7 (ascii "a.mp4")) [1, 2] := by
  have hopen : openFile Environment.undisturbed.dirs Environment.undisturbed.permits
      (ascii "./content/" ++ storedName 7 (ascii "a.mp4")) =
        some (contentPath (storedName 7 (ascii "a.mp4"))) := by
    decide +kernel
  exact (@reaches_iff .undisturbed (fun _ => none) 7 ⟨ascii "a.mp4", []⟩ [1, 2] _ _ _ hopen
    rfl rfl).mpr (by decide +kernel)

/-- The encode server derives the page's name from the source URL. -/
theorem genOutFileName_of_carried (fsHost : Host) (now : Int) {filename : Bytes}
    (h : Carried (ext filename)) :
    genOutFileName (sourceURL fsHost (storedName now filename)) =
      .ok (pageName (storedName now filename)) := by
  have hnum : byte '#' ∉ ext filename := fun hm => (h.2 _ hm).1 (by decide)
  have hquery : byte '?' ∉ ext filename := fun hm => (h.2 _ hm).2 rfl
  have hplain : ∀ c ∈ ext filename, Plain .encodePath c := by
    intro c hc
    refine ⟨?_, fun hp => nomatch hp.2⟩
    rintro rfl
    exact (h.2 _ hc).1 (by decide)
  have hd : unescape .encodePath (pathPart (ext filename)) = some (ext filename) := by
    rw [pathPart, upTo_of_not_mem hnum, upTo_of_not_mem hquery, unescape_of_plain hplain]
  have hf : unescape .encodeFragment (fragmentPart (ext filename)) = some [] := by
    rw [fragmentPart, pastFirst_of_not_mem hnum]
    rfl
  rw [genOutFileName_sourceURL hd hf, if_neg (not_mem_ext_slash filename), pageName_storedName]

/-- The page's name arrives at the fs server unchanged. -/
theorem headerSafe_pageName (now : Int) (filename : Bytes) :
    HeaderSafe (pageName (storedName now filename)) := by
  have hbytes : ∀ n : ℕ, n < 256 → IsDigit (UInt8.ofNat n) ∨ UInt8.ofNat n = byte '-' →
      UInt8.ofNat n < 0x80 ∧ UInt8.ofNat n ≠ byte '\r' ∧ UInt8.ofNat n ≠ byte '\n' := by
    decide +kernel
  have hdecimal : ∀ c ∈ decimal now, c < 0x80 ∧ c ≠ byte '\r' ∧ c ≠ byte '\n' := by
    intro c hc
    have hn := hbytes c.toNat c.toNat_lt
    rw [UInt8.ofNat_toNat] at hn
    exact hn (mem_decimal hc)
  rw [pageName_storedName]
  refine ⟨by simp [decimal_ne_nil], ?_, ?_, ?_⟩
  · rw [Utf8Text.validUtf8_ascii_append fun c hc => (hdecimal c hc).1]
    decide
  · rw [List.mem_append, not_or]
    exact ⟨fun hm => (hdecimal _ hm).2.1 rfl, by decide⟩
  · rw [List.mem_append, not_or]
    exact ⟨fun hm => (hdecimal _ hm).2.2 rfl, by decide⟩

/-- Posting an encoded file leaves the uploads alone. -/
theorem postFile_spares {rawSrcURL output : Bytes} (h : genOutFileName rawSrcURL = .ok output)
    (w : World) (run : PostRun) (name : Bytes) :
    (postFile w output run).1.files (contentPath name) = w.files (contentPath name) := by
  unfold postFile
  cases w.data output with
  | none => rfl
  | some content =>
    have hspared : (serveRequest run.env w.files
        (.innerUpload (postedForm output content run))).files (contentPath name) =
          w.files (contentPath name) := spared_step (harmless_of_posted h content run)
    dsimp only
    split_ifs
    · rfl
    · rfl
    · rfl
    · exact hspared

/-- So does an encode request, whatever becomes of it. -/
theorem encodeHandler_spares (w : World) (r : EncodeRequest) (name : Bytes) :
    (encodeHandler w r).world.files (contentPath name) = w.files (contentPath name) := by
  cases hg : genOutFileName r.srcURL with
  | error e =>
    have hempty : outputName r.srcURL = [] := by
      rw [outputName, hg]
      rfl
    have hrefused : ffmpeg w.data [] r.ffmpeg = (w.data, false) := if_pos (Or.inl rfl)
    rw [encodeHandler, hempty, hrefused]
  | ok output =>
    rw [encodeHandler, outputName_eq hg]
    cases ffmpeg w.data output r.ffmpeg with
    | mk data ok =>
      cases ok with
      | false => rfl
      | true => exact postFile_spares hg _ _ _

/-- The encode request that the page's request for an upload leads to. -/
def uploadRequest (codec : Bytes → FfmpegRun) (dirs : Folders) (files : Store Path UInt8)
    (srcURL : Bytes) (post : PostRun) : EncodeRequest :=
  ⟨srcURL, fetched codec (httpGet dirs files (sourceTarget srcURL)), post⟩

/-- An upload whose extension is left alone on the way is encoded under the
page's name, whatever was served between the upload and the encoding, when
the name is new to both servers and no call on the way of the encoding
fails. The upload itself stays. -/
theorem upload_encoded (fsHost : Host) {data : Store Bytes UInt8}
    (hopen : openFile env.dirs env.permits
      (ascii "./content/" ++ storedName now handler.filename) ≠ none)
    (hfree : files (contentPath (storedName now handler.filename)) = none)
    (hcopied : (env.transfer content).chunks.flatten = content)
    (hspares : Along serveStep
      (fun files r => Spares (storedName now handler.filename) r.1 files r.2)
      (upload env files now (.file handler content)).files rs)
    (hrun : run serveStep (upload env files now (.file handler content)).files rs = some last)
    (hext : Carried (ext handler.filename)) (hcodec : codec content = .exits encoding)
    (hdata : data (pageName (storedName now handler.filename)) = none)
    (hnew : last (encodedPath (pageName (storedName now handler.filename))) = none)
    (hpost : post.opens = true ∧ post.reads = true ∧ post.reaches = true ∧ post.readable = true)
    (hdone : Completed post.env (pageName (storedName now handler.filename)) encoding) :
    let served := (encodeHandler ⟨data, last⟩ (uploadRequest codec env.dirs last
      (sourceURL fsHost (storedName now handler.filename)) post)).world
    served.files (encodedPath (pageName (storedName now handler.filename))) = some encoding ∧
      served.files (contentPath (storedName now handler.filename)) = some content := by
  have hstored := stored_of_run hopen hfree hcopied hspares hrun
  have hget := (get_stored_iff env.dirs last now handler.filename content).mpr
    ⟨hstored, isDir_of_openFile hopen, hext.pathByte⟩
  have hout := genOutFileName_of_carried fsHost now hext
  have hhealthy : Healthy (uploadRequest codec env.dirs last
      (sourceURL fsHost (storedName now handler.filename)) post) encoding := by
    refine ⟨?_, hpost.1, hpost.2.1, hpost.2.2.1, hpost.2.2.2, fun output ho => ?_⟩
    · rw [uploadRequest, sourceTarget_sourceURL, hget]
      exact hcodec
    · obtain rfl := Except.ok.inj (hout.symm.trans ho)
      exact hdone
  dsimp only
  constructor
  · rw [encodeHandler_healthy hhealthy hout, if_pos ⟨hdata, headerSafe_pageName now _⟩]
    simp [hnew, overlay]
  · rw [encodeHandler_spares]
    exact hstored

/-- A codec that keeps what it is given. -/
def plainCodec (content : Bytes) : FfmpegRun := .exits content

/-- An upload, another upload and the post of another encoded file. -/
def laterRequests : List (Environment × Request) :=
  [(.undisturbed, .upload 8 (.file ⟨ascii "b.mov", []⟩ [3])),
    (.undisturbed, .innerUpload (.file ⟨ascii "6.mp4", []⟩ [4]))]

/-- The later requests of the example spare the upload. -/
theorem spares_laterRequests (files : Store Path UInt8) :
    Along serveStep (fun files r => Spares (storedName 7 (ascii "a.mp4")) r.1 files r.2) files
      laterRequests := by
  have hother : storedName 8 (ascii "b.mov") ≠ storedName 7 (ascii "a.mp4") := by decide +kernel
  have hslash : byte '/' ∉ ascii "6.mp4" := by decide
  exact ⟨hother, fun _ _ => ⟨harmless_of_not_mem_slash hslash, fun _ _ => trivial⟩⟩

/-- The files of the fs server after these requests. -/
def laterFiles : Store Path UInt8 :=
  (serveRequest .undisturbed (serveRequest .undisturbed
    (upload .undisturbed (fun _ => none) 7 (.file ⟨ascii "a.mp4", []⟩ [1, 2])).files
      (.upload 8 (.file ⟨ascii "b.mov", []⟩ [3]))).files
        (.innerUpload (.file ⟨ascii "6.mp4", []⟩ [4]))).files

/-- The files after them. -/
theorem run_laterRequests : run serveStep
    (upload .undisturbed (fun _ => none) 7 (.file ⟨ascii "a.mp4", []⟩ [1, 2])).files
      laterRequests = some laterFiles := by
  rw [laterRequests, run, serveStep, Option.bind_some, run, serveStep, Option.bind_some, run,
    laterFiles]

theorem openFile_seven :
    openFile Environment.undisturbed.dirs Environment.undisturbed.permits
      (ascii "./content/" ++ storedName 7 (ascii "a.mp4")) ≠ none := by
  decide +kernel

/-- The upload of the example is served after them. -/
theorem download_of_run_later :
    httpGet .plain laterFiles (byte '/' :: storedName 7 (ascii "a.mp4")) =
      .content (contentPath (storedName 7 (ascii "a.mp4"))) [1, 2] :=
  (@download_of_run .undisturbed (fun _ => none) laterFiles 7 ⟨ascii "a.mp4", []⟩ [1, 2]
    laterRequests openFile_seven rfl rfl (spares_laterRequests _) run_laterRequests).mpr
      (by decide +kernel)

/-- It is encoded after them. -/
theorem upload_encoded_later :
    (encodeHandler ⟨fun _ => none, laterFiles⟩ (uploadRequest plainCodec
      Environment.undisturbed.dirs laterFiles
      (sourceURL ⟨ascii "10.0.0.2", by decide⟩ (storedName 7 (ascii "a.mp4")))
      ⟨true, true, true, true, [], .undisturbed, true⟩)).world.files
        (encodedPath (pageName (storedName 7 (ascii "a.mp4")))) = some [1, 2] := by
  have hnew : laterFiles (encodedPath (pageName (storedName 7 (ascii "a.mp4")))) = none := by
    decide +kernel
  have htarget : openFile .plain true (ascii "./content/encoded/" ++
      pageName (storedName 7 (ascii "a.mp4"))) ≠ none := by
    decide +kernel
  have hext : Carried (ext (ascii "a.mp4")) := by decide +kernel
  have hboth := @upload_encoded .undisturbed (fun _ => none) laterFiles 7 ⟨ascii "a.mp4", []⟩ [1, 2]
    [1, 2] laterRequests plainCodec ⟨true, true, true, true, [], .undisturbed, true⟩
      ⟨ascii "10.0.0.2", by decide⟩ (fun _ => none) openFile_seven rfl rfl
        (spares_laterRequests _) run_laterRequests hext rfl rfl hnew ⟨rfl, rfl, rfl, rfl⟩
          ⟨htarget, rfl⟩
  dsimp only at hboth
  exact hboth.1

end VideooServer.Playback
