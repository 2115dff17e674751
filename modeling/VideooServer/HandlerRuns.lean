import VideooServer.Pipeline

/-!
# Handlers as runs of steps

The encode handler with its outcomes is a run of the pipeline's steps of one
request: the same files remain in the data directory and on the fs server.
Whatever the outcomes are, handler2 goes on to answer with success.
-/

namespace VideooServer.HandlerRuns

open ByteText StepRuns FileWriters FsServer MultipartName InnerUpload InnerUploadRuns
open EncodeServer Pipeline
open EncodeRuns (encodeStep)

variable {net : Net} {s : State} {i : ℕ}

/-- ffmpeg writes its output. -/
theorem run_encoding (hi : s.encode.phase i = .started) (hname : net.output i ≠ [])
    (hfree : s.encode.data (net.output i) = none) (written : Bytes) :
    ∃ t, run (pipelineStep net) s
        [.encode (.probe i), .encode (.create i), .encode (.write i 0 written)] = some t ∧
      t.app = s.app ∧ t.fs = s.fs ∧
      t.encode.data = Function.update s.encode.data (net.output i) (some written) ∧
      t.encode.phase i = .encoding := by
  rw [run_cons (step_probe hi hname hfree), run_cons (step_create (by simp) hname),
    run_cons (step_write (by simp) 0 written), run]
  refine ⟨_, rfl, rfl, rfl, ?_, ?_⟩
  · simp [Store.write, writeAt]
  · simp

/-- The steps of ffmpeg on its own leave what ffmpeg leaves. -/
theorem run_ffmpeg (net : Net) (ffmpegRun : FfmpegRun) (hi : s.encode.phase i = .started) :
    ∃ as t, run (pipelineStep net) s as = some t ∧ t.app = s.app ∧ t.fs = s.fs ∧
      t.encode.data = (ffmpeg s.encode.data (net.output i) ffmpegRun).1 ∧
      t.encode.phase i =
        if (ffmpeg s.encode.data (net.output i) ffmpegRun).2 then .encoded
        else .returned .ffmpegError := by
  by_cases hold : net.output i = [] ∨ s.encode.data (net.output i) ≠ none
  · refine ⟨[.encode (.refuse i)], _, run_cons (step_refuse hi hold) [], rfl, rfl, ?_, ?_⟩ <;>
      simp [ffmpeg, hold]
  obtain ⟨hname, hfree⟩ := not_or.mp hold
  rw [not_not] at hfree
  cases ffmpegRun with
  | fails written =>
    cases written with
    | none =>
      refine ⟨[.encode (.fail i)], _, run_cons (step_fail (Or.inl hi)) [], rfl, rfl, ?_, ?_⟩ <;>
        simp [ffmpeg, hname, hfree]
    | some written =>
      obtain ⟨t, ht, happ, hfs, hdata, hphase⟩ := run_encoding hi hname hfree written
      refine ⟨_, _, run_trans ht (run_cons (step_fail (Or.inr (Or.inr hphase))) []), happ, hfs,
        ?_, ?_⟩ <;> simp [ffmpeg, hname, hfree, hdata]
  | exits encoding =>
    obtain ⟨t, ht, happ, hfs, hdata, hphase⟩ := run_encoding hi hname hfree encoding
    refine ⟨_, _, run_trans ht (run_cons (step_exit hphase) []), happ, hfs, ?_, ?_⟩ <;>
      simp [ffmpeg, hname, hfree, hdata]

/-- The steps of innerUpload on its own leave what innerUpload leaves, for
every form that a posted part can become. -/
theorem run_postedForm (requests : ℕ → Request) {w : Writers ℕ Path UInt8} (output : Bytes)
    (post : PostRun) (hi : w.phase i = .waiting)
    (hname : (requests i).filename = (partFileName output).getD []) :
    ∃ as u, run (innerStep post.env.dirs requests) w as = some u ∧ (∀ a ∈ as, a.writer = i) ∧
      hasReturned (u.phase i) = true ∧ u.files =
        (innerUpload post.env w.files (postedForm output (requests i).content post)).files := by
  have hrefused : (innerUpload post.env w.files
        (postedForm output (requests i).content post)).files = w.files →
      ∃ as u, run (innerStep post.env.dirs requests) w as = some u ∧ (∀ a ∈ as, a.writer = i) ∧
        hasReturned (u.phase i) = true ∧ u.files =
          (innerUpload post.env w.files (postedForm output (requests i).content post)).files := by
    intro hfiles
    refine ⟨[.refuse i], ⟨w.files, Function.update w.phase i .refused⟩, ?_, ?_, ?_, hfiles.symm⟩
    · simp [run, innerStep, writerStep, hi]
    · simp [Action.writer]
    · simp [hasReturned]
  cases hpart : partFileName output with
  | none => exact hrefused (by simp [postedForm, hpart, innerUpload])
  | some name =>
    cases hreadable : post.readable with
    | false => exact hrefused (by simp [postedForm, hpart, hreadable, innerUpload])
    | true =>
      have hform : postedForm output (requests i).content post =
          .file ⟨(requests i).filename, post.header⟩ (requests i).content := by
        simp [postedForm, hpart, hreadable, hname]
      cases hopen : openFile post.env.dirs post.env.permits (target (requests i).filename) with
      | none =>
        rw [target] at hopen
        exact hrefused (by simp [hform, innerUpload, hopen])
      | some p =>
        obtain ⟨u, hu, hfiles, n, hn⟩ := run_innerUpload post.header hi hopen
        refine ⟨_, u, hu, fun a ha => writer_of_mem_copySteps ha, ?_, ?_⟩
        · rw [hn, hasReturned]
        · rw [hfiles, hform]

/-- Steps of one request on the fs server are steps of the pipeline once the
request was sent. -/
theorem run_fs {as : List (Action ℕ Path)} {w : Writers ℕ Path UInt8}
    (hsent : s.encode.posted i ≠ none) (has : ∀ a ∈ as, a.writer = i)
    (h : run (innerStep net.dirs (s.requests net)) s.fs as = some w) :
    run (pipelineStep net) s (as.map .fs) = some { s with fs := w } := by
  refine run_map (pipelineStep net) (fun w => { s with fs := w }) .fs (fun a ha v v' hv => ?_) h
  have henabled : fsEnabled { s with fs := v } a = true := by
    rw [fsEnabled, has a ha]
    exact Option.isSome_iff_ne_none.mpr hsent
  have hrequests : State.requests net { s with fs := v } = s.requests net := rfl
  simp only [pipelineStep, henabled, if_true, hrequests, hv, Option.map_some]

/-- The request that postFile has sent runs through innerUpload and returns,
with its response or without. -/
theorem run_posted {content : Bytes} (post : PostRun) (hdirs : post.env.dirs = net.dirs)
    (hi : s.encode.phase i = .posted) (hposted : s.encode.posted i = some content)
    (hfs : s.fs.phase i = .waiting) :
    ∃ as t, run (pipelineStep net) s as = some t ∧ t.app = s.app ∧
      t.encode.data = s.encode.data ∧
      t.fs.files =
        (innerUpload post.env s.fs.files (postedForm (net.output i) content post)).files ∧
      t.encode.phase i = .returned (if post.answered then .finished else .postError) := by
  have hrequest : (s.requests net i).content = content := by
    rw [State.requests, State.content, hposted, Option.getD_some]
  obtain ⟨as, w, hw, has, hreturned, hfiles⟩ :=
    run_postedForm (s.requests net) (net.output i) post hfs rfl
  rw [hdirs] at hw
  rw [hrequest] at hfiles
  have hrun := run_fs (by rw [hposted]; simp) has hw
  cases post.answered with
  | false =>
    have hfailed : pipelineStep net { s with fs := w } (.encode (.postError i)) = _ :=
      step_postError (by rw [hi]; exact .sendError)
    exact ⟨_, _, run_trans hrun (run_cons hfailed []), rfl, rfl, hfiles, by simp⟩
  | true =>
    have hfinished : pipelineStep net { s with fs := w } (.encode (.finish i)) = _ :=
      step_finish hi hreturned
    exact ⟨_, _, run_trans hrun (run_cons hfinished []), rfl, rfl, hfiles, by simp⟩

/-- postFile reads the output to its end. -/
theorem run_reading {content : Bytes} (hi : s.encode.phase i = .encoded)
    (hdata : s.encode.data (net.output i) = some content) :
    run (pipelineStep net) s [.encode (.openFile i), .encode (.copy i content.length)] =
      some ((s.enter i (.reading [])).enter i (.reading content)) := by
  rw [run_cons (step_openFile hi (by rw [hdata]; simp)),
    run_cons (step_copy (State.enter_phase_self _) _), run]
  simp [hdata]

/-- postFile sends what it has read. -/
theorem run_sending {content : Bytes} (hi : s.encode.phase i = .encoded)
    (hdata : s.encode.data (net.output i) = some content) :
    ∃ t, run (pipelineStep net) s
        [.encode (.openFile i), .encode (.copy i content.length), .encode (.post i)] = some t ∧
      t.app = s.app ∧ t.fs = s.fs ∧ t.encode.data = s.encode.data ∧
      t.encode.posted i = some content ∧ t.encode.phase i = .posted := by
  have hend : ((((s.enter i (.reading [])).enter i (.reading content)).encode.data
      (net.output i)).getD []).length ≤ content.length := by simp [hdata]
  refine ⟨_, run_trans (run_reading hi hdata)
    (run_cons (step_post (State.enter_phase_self _) hend) []), rfl, rfl, rfl, ?_, ?_⟩
  · exact Function.update_self ..
  · exact EncodeRuns.State.enter_phase_self ..

/-- The steps of postFile, with the request it makes, leave what postFile
leaves. -/
theorem run_postFile (post : PostRun) (hdirs : post.env.dirs = net.dirs)
    (hi : s.encode.phase i = .encoded) (hfs : s.fs.phase i = .waiting) :
    ∃ as t, run (pipelineStep net) s as = some t ∧ t.app = s.app ∧
      (⟨t.encode.data, t.fs.files⟩ : World) =
        (postFile ⟨s.encode.data, s.fs.files⟩ (net.output i) post).1 ∧
      t.encode.phase i =
        .returned (if (postFile ⟨s.encode.data, s.fs.files⟩ (net.output i) post).2 then .finished
          else .postError) := by
  have hfailed : pipelineStep net s (.encode (.postError i)) = _ :=
    step_postError (by rw [hi]; exact .openError)
  cases hdata : s.encode.data (net.output i) with
  | none =>
    refine ⟨_, _, run_cons hfailed [], rfl, ?_, ?_⟩ <;> simp [postFile, hdata]
  | some content =>
    cases hopens : post.opens
    · refine ⟨_, _, run_cons hfailed [], rfl, ?_, ?_⟩ <;> simp [postFile, hdata, hopens]
    cases hreads : post.reads
    · have hopened : pipelineStep net s (.encode (.openFile i)) = _ :=
        step_openFile hi (by rw [hdata]; simp)
      have hunread : pipelineStep net (s.enter i (.reading [])) (.encode (.postError i)) = _ :=
        step_postError (by rw [State.enter_phase_self]; exact .copyError [])
      refine ⟨_, _, (run_cons hopened _).trans (run_cons hunread []), rfl, ?_, ?_⟩ <;>
        simp [postFile, hdata, hopens, hreads]
    have hread := run_reading hi hdata
    cases hreaches : post.reaches
    · have hunsent : pipelineStep net ((s.enter i (.reading [])).enter i (.reading content))
          (.encode (.postError i)) = _ :=
        step_postError (by rw [State.enter_phase_self]; exact .copyError content)
      refine ⟨_, _, run_trans hread (run_cons hunsent []), rfl, ?_, ?_⟩ <;>
        simp [postFile, hdata, hopens, hreads, hreaches]
    obtain ⟨v, hv, hvapp, hvfs, hvdata, hvposted, hvphase⟩ := run_sending hi hdata
    obtain ⟨as, t, ht, happ, htdata, hfiles, hphase⟩ :=
      run_posted post hdirs hvphase hvposted (by rw [hvfs, hfs])
    refine ⟨_, t, run_trans hv ht, happ.trans hvapp, ?_, ?_⟩
    · rw [htdata, hfiles, hvdata, hvfs]
      simp [postFile, hdata, hopens, hreads, hreaches]
    · rw [hphase]
      simp [postFile, hdata, hopens, hreads, hreaches]

/-- The encode handler with any outcomes is a run of the pipeline's steps of
one request. -/
theorem run_encodeHandler (r : EncodeRequest) (hsrc : net.srcURL i = some r.srcURL)
    (hdirs : r.post.env.dirs = net.dirs) (happ : s.app.phase i ≠ .idle)
    (hi : s.encode.phase i = .waiting) (hfs : s.fs.phase i = .waiting) :
    ∃ as t, run (pipelineStep net) s as = some t ∧ t.app = s.app ∧
      (⟨t.encode.data, t.fs.files⟩ : World) = (encodeHandler ⟨s.encode.data, s.fs.files⟩ r).world ∧
      (t.encode.phase i).hasReturned = true := by
  have hout : net.output i = outputName r.srcURL := by
    rw [Net.output, hsrc, Option.getD_some]
  have harrive := step_arrive happ (by rw [hsrc]; simp) hi
  obtain ⟨as, v, hv, hvapp, hvfs, hdata, hphase⟩ :=
    run_ffmpeg net r.ffmpeg (s.enter_phase_self .started)
  rw [State.enter_app] at hvapp
  rw [State.enter_fs] at hvfs
  have hrun := (run_cons harrive as).trans hv
  simp only [State.enter_data, hout] at hdata hphase
  cases hffmpeg : ffmpeg s.encode.data (outputName r.srcURL) r.ffmpeg with
  | mk data ok =>
    rw [hffmpeg] at hdata hphase
    cases ok with
    | false =>
      refine ⟨_, v, hrun, hvapp, ?_, ?_⟩
      · simp [encodeHandler, hffmpeg, hdata, hvfs]
      · simp [hphase, EncodeRuns.Phase.hasReturned]
    | true =>
      obtain ⟨bs, t, ht, htapp, hworld, hreturned⟩ :=
        run_postFile r.post hdirs (s := v) (i := i) (by simpa using hphase) (by rw [hvfs, hfs])
      refine ⟨_, t, run_trans hrun ht, htapp.trans hvapp, ?_, ?_⟩
      · rw [hworld]
        simp [encodeHandler, hffmpeg, hdata, hvfs, hout]
      · rw [hreturned, EncodeRuns.Phase.hasReturned]

/-- The request of a client whose source does not decode. -/
def undecodable : EncodeRequest where
  srcURL := OutputName.sourceURL plainNet.fsHost (plainNet.fileName 0)
  ffmpeg := .fails none
  post := ⟨true, true, true, true, [], .undisturbed, true⟩

end VideooServer.HandlerRuns
