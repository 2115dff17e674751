import VideooServer.InnerUpload

/-!
# Encoded files, requests in any order

Inner-upload requests as a step relation: every request opens its target,
writes its content in chunks through a handle of its own and returns, and
the steps of different requests interleave. Requests for one file share it
byte by byte; a request that writes after all the others is stored in full.
-/

namespace VideooServer.InnerUploadRuns

open ByteText StepRuns FileWriters FsServer InnerUpload

/-- The part of an inner-upload request. -/
structure Request where
  /-- File name parameter of the part. -/
  filename : Bytes
  /-- Content of the part. -/
  content : Bytes

/-- The path that innerUpload opens for a file name. -/
def target (filename : Bytes) : Bytes := ascii "./content/encoded/" ++ filename

/-- One step of some innerUpload request. -/
def innerStep (dirs : Folders) (requests : ℕ → Request) (s : Writers ℕ Path UInt8)
    (a : Action ℕ Path) : Option (Writers ℕ Path UInt8) :=
  match a with
  | .openFile i p =>
    if openFile dirs true (target (requests i).filename) = some p then
      writerStep (fun i => (requests i).content) s a
    else none
  | _ => writerStep (fun i => (requests i).content) s a

variable {dirs : Folders} {requests : ℕ → Request} {s t u : Writers ℕ Path UInt8}
  {a : Action ℕ Path} {as : List (Action ℕ Path)} {p : Path}

/-- A step of innerUpload is a step of its writer. -/
theorem innerStep_writer (h : innerStep dirs requests s a = some t) :
    writerStep (fun i => (requests i).content) s a = some t := by
  cases a with
  | openFile i p =>
    simp only [innerStep] at h
    split_ifs at h
    exact h
  | refuse i => exact h
  | write i k => exact h
  | finish i => exact h

/-- Every run of requests is a run of writers. -/
theorem run_writer (h : run (innerStep dirs requests) s as = some t) :
    run (writerStep fun i => (requests i).content) s as = some t := by
  have hrun := run_map (writerStep fun i => (requests i).content) id id
    (fun _ _ _ _ hstep => innerStep_writer hstep) h
  rwa [List.map_id] at hrun

/-- A request on its own runs through the steps of the handler: one write
for each chunk of the copy. -/
theorem run_innerUpload {env : Environment} {i : ℕ} (header : Bytes) (hi : s.phase i = .waiting)
    (h : openFile env.dirs env.permits (target (requests i).filename) = some p) :
    ∃ u, run (innerStep env.dirs requests) s
        (copySteps i p (env.transfer (requests i).content).chunks) = some u ∧
      u.files = (innerUpload env s.files
        (.file ⟨(requests i).filename, header⟩ (requests i).content)).files ∧
      ∃ n, u.phase i = .stored p n := by
  have hcopy := run_copySteps (fun i => (requests i).content) hi
    (env.transfer (requests i).content).isPrefix (p := p)
  have hstep : ∀ a ∈ copySteps i p (env.transfer (requests i).content).chunks, ∀ s t,
      writerStep (fun i => (requests i).content) s a = some t →
        innerStep env.dirs requests s a = some t := by
    intro a ha s t hwriter
    cases a with
    | openFile j q =>
      obtain ⟨rfl, rfl⟩ := openFile_of_mem_copySteps ha
      simp only [innerStep, openFile_permitted h, if_true]
      exact hwriter
    | _ => exact hwriter
  have hrun := run_map (innerStep env.dirs requests) id id hstep hcopy
  rw [List.map_id] at hrun
  refine ⟨_, hrun, ?_, _, Function.update_self ..⟩
  rw [target] at h
  simp only [innerUpload, h, id]

/-- All requests that have opened a file have copied a content of one
length into it and returned. -/
def Finished (requests : ℕ → Request) (p : Path) (size : ℕ) (u : Writers ℕ Path UInt8) : Prop :=
  ∀ i, (u.phase i).file = some p →
    u.phase i = .stored p size ∧ (requests i).content.length = size

/-- After any run every file is blended from the contents and the old file. -/
theorem blended_of_run (hinit : ∀ i, s.phase i = .waiting) (p : Path)
    (h : run (innerStep dirs requests) s as = some u) :
    Blended (fun i => (requests i).content) p u :=
  run_invariant (fun _ _ _ hs hstep => hs.step (innerStep_writer hstep))
    (blended_of_waiting p hinit) h

/-- A file that a request has opened exists at the end. -/
theorem exists_file_of_run (hinit : ∀ i, s.phase i = .waiting)
    (h : run (innerStep dirs requests) s as = some u) {i : ℕ} (hi : (u.phase i).file = some p) :
    ∃ stored, u.files p = some stored := by
  have hfiles : ∀ i, (u.phase i).file = some p → u.files p ≠ none := by
    refine run_invariant (P := fun u => ∀ i, (u.phase i).file = some p → u.files p ≠ none)
      (fun _ _ _ hs hstep => exists_file_of_step hs (innerStep_writer hstep)) ?_ h
    intro i hi
    rw [hinit i] at hi
    cases hi
  exact Option.ne_none_iff_exists'.mp (hfiles i hi)

/-- A file extends no further than it did at the start and what some request
has copied. -/
theorem reached_of_run (p : Path) (h : run (innerStep dirs requests) s as = some u) :
    Reached p ((s.files p).getD []).length u :=
  run_invariant (fun _ _ _ hs hstep => hs.step (innerStep_writer hstep))
    (fun _ hx => Or.inl hx) h

/-- A request that has written nothing yet and from now on writes alone
leaves its content over the old one. -/
theorem overlaid_of_run {j : ℕ} (hj : (t.phase j).copied p = 0)
    (honly : Along (innerStep dirs requests) (OnlyWriter j p) t as)
    (h : run (innerStep dirs requests) t as = some u) :
    Overlaid (fun i => (requests i).content) j p ((t.files p).getD []) u :=
  run_invariant_along (fun _ _ _ hs hcond hstep => hs.step hcond (innerStep_writer hstep))
    (overlaid_of_copied hj) honly h

/-- When all requests for a name have returned, every byte below their
common length comes from one of them, and a request whose chunks were all
written after those of the others is stored in full. A file that was no
longer before has just that length. -/
theorem innerUpload_interleaved (name : Bytes) (size : ℕ) (hinit : ∀ i, s.phase i = .waiting)
    (h : run (innerStep dirs requests) s as = some u)
    (hdone : Finished requests (resolve (target name)) size u)
    (hsome : ∃ i, (u.phase i).file = some (resolve (target name))) :
    ∃ stored, u.files (resolve (target name)) = some stored ∧
      (∀ x < size, ∃ i, (u.phase i).file = some (resolve (target name)) ∧
        stored[x]? = (requests i).content[x]?) ∧
      ((∀ old, s.files (resolve (target name)) = some old → old.length ≤ size) →
        stored.length = size) ∧
      ∀ bs cs t j, as = bs ++ cs → run (innerStep dirs requests) s bs = some t →
        (t.phase j).copied (resolve (target name)) = 0 →
        Along (innerStep dirs requests) (OnlyWriter j (resolve (target name))) t cs →
        (u.phase j).file = some (resolve (target name)) →
          stored.take size = (requests j).content ∧
            ((∀ old, s.files (resolve (target name)) = some old → old.length ≤ size) →
              stored = (requests j).content) := by
  obtain ⟨i, hi⟩ := hsome
  obtain ⟨stored, hstored⟩ := exists_file_of_run hinit h hi
  have hcopied : ∀ j, (u.phase j).file = some (resolve (target name)) →
      (u.phase j).copied (resolve (target name)) = size := by
    intro j hj
    rw [(hdone j hj).1]
    simp [Phase.copied]
  have hblend := blended_of_run hinit (resolve (target name)) h
  have hlength : (∀ old, s.files (resolve (target name)) = some old → old.length ≤ size) →
      stored.length = size := by
    intro hold
    have hold' : ((s.files (resolve (target name))).getD []).length ≤ size := by
      cases hfile : s.files (resolve (target name)) with
      | none => simp
      | some old => exact hold old hfile
    have hmin := hblend.copied_le_file i
    rw [hstored, hcopied i hi, Option.getD_some] at hmin
    refine le_antisymm (Nat.le_of_not_lt fun hlong => ?_) hmin
    have hreached := reached_of_run (resolve (target name)) h size
      (by rw [hstored, Option.getD_some]; exact hlong)
    rcases hreached with hbefore | ⟨j, hj⟩
    · omega
    · rw [hcopied j (Phase.file_of_copied (by omega))] at hj
      omega
  refine ⟨stored, hstored, ?_, hlength, ?_⟩
  · intro x hx
    obtain ⟨j, hj, hbyte⟩ := hblend.byte_of x ⟨i, by rw [hcopied i hi]; exact hx⟩
    rw [hstored, Option.getD_some] at hbyte
    exact ⟨j, Phase.file_of_copied (by omega), hbyte⟩
  · intro bs cs t j has hbs hzero honly hj
    rw [has] at h
    obtain ⟨v, hv, hcs⟩ := run_append_eq_some h
    obtain rfl := Option.some.inj (hbs.symm.trans hv)
    have hover := (overlaid_of_run hzero honly hcs).2
    have hsize := (hdone j hj).2
    dsimp only at hover
    rw [hstored, Option.getD_some, hcopied j hj, List.take_of_length_le (by omega)] at hover
    have htake : stored.take size = (requests j).content := by
      rw [hover, overlay, ← hsize, List.take_left]
    refine ⟨htake, fun hold => ?_⟩
    rw [← htake, List.take_of_length_le (hlength hold).le]

/-- Two requests for one name with contents of equal length. -/
def pair (i : ℕ) : Request := if i = 0 then ⟨[7], [1, 1]⟩ else ⟨[7], [2, 2]⟩

/-- A store without files and requests that have not begun. -/
def idle : Writers ℕ Path UInt8 := ⟨fun _ => none, fun _ => .waiting⟩

theorem target_pair : resolve (target [7]) = encodedPath [7] := by decide +kernel

/-- A run of the pair with its outcome. -/
theorem exists_run_pair (as : List (Action ℕ Path)) (stored : Bytes)
    (hothers : ∀ a ∈ as, Action.writer a = 0 ∨ Action.writer a = 1)
    (h : ((run (innerStep .plain pair) idle as).map fun u =>
        (u.files (encodedPath [7]), u.phase 0, u.phase 1)) =
      some (some stored, .stored (encodedPath [7]) 2, .stored (encodedPath [7]) 2)) :
    ∃ u, run (innerStep .plain pair) idle as = some u ∧
      u.files (encodedPath [7]) = some stored ∧ u.phase 1 = .stored (encodedPath [7]) 2 ∧
        Finished pair (encodedPath [7]) 2 u := by
  obtain ⟨u, hu, hout⟩ := Option.map_eq_some_iff.mp h
  obtain ⟨hfile, h0, h1⟩ : u.files (encodedPath [7]) = some stored ∧
      u.phase 0 = .stored (encodedPath [7]) 2 ∧ u.phase 1 = .stored (encodedPath [7]) 2 := by
    simpa using hout
  refine ⟨u, hu, hfile, h1, fun i hi => ?_⟩
  by_cases hi0 : i = 0
  · rw [hi0]
    exact ⟨h0, rfl⟩
  · by_cases hi1 : i = 1
    · rw [hi1]
      exact ⟨h1, rfl⟩
    · have hwaiting : u.phase i = idle.phase i := by
        refine run_phase_ne (run_writer hu) fun a ha he => ?_
        rcases hothers a ha with hw | hw
        · exact hi0 (he.trans hw)
        · exact hi1 (he.trans hw)
      rw [hwaiting] at hi
      cases hi

/-- One request after the other: the second one is stored in full. -/
theorem innerUpload_serial :
    ∃ u, run (innerStep .plain pair) idle
        ([.openFile 0 (encodedPath [7]), .write 0 2, .finish 0] ++
          [.openFile 1 (encodedPath [7]), .write 1 2, .finish 1]) = some u ∧
      u.files (encodedPath [7]) = some [2, 2] := by
  obtain ⟨u, hu, -, h1, hdone⟩ := exists_run_pair
    ([.openFile 0 (encodedPath [7]), .write 0 2, .finish 0] ++
      [.openFile 1 (encodedPath [7]), .write 1 2, .finish 1]) [2, 2] (by decide)
        (by decide +kernel)
  have hfile : (u.phase 1).file = some (encodedPath [7]) := by rw [h1, Phase.file]
  obtain ⟨t, ht, -⟩ := run_append_eq_some hu
  have hzero : (t.phase 1).copied (encodedPath [7]) = 0 := by
    rw [run_phase_ne (run_writer ht) (j := 1) (by decide)]
    rfl
  have honly : Along (innerStep .plain pair) (OnlyWriter 1 (encodedPath [7])) t
      [.openFile 1 (encodedPath [7]), .write 1 2, .finish 1] := by
    refine along_of_forall (fun a ha s i k n he _ => ?_) t
    have hwrite : i = 1 ∧ k = 2 := by
      rw [he] at ha
      simpa using ha
    exact hwrite.1
  rw [← target_pair] at hdone hfile hzero honly
  obtain ⟨stored, hstored, -, -, hlast⟩ :=
    innerUpload_interleaved [7] 2 (fun _ => rfl) hu hdone ⟨1, hfile⟩
  have hfull := (hlast _ _ t 1 rfl ht hzero honly hfile).2 fun old hold => by cases hold
  rw [target_pair, hfull] at hstored
  exact ⟨u, hu, hstored⟩

/-- Two requests that write in turn leave bytes of both contents. -/
theorem innerUpload_mixed :
    ¬∀ (dirs : Folders) (requests : ℕ → Request) (name : Bytes) (size : ℕ)
        (s u : Writers ℕ Path UInt8) (as : List (Action ℕ Path)),
      (∀ i, s.phase i = .waiting) → run (innerStep dirs requests) s as = some u →
        Finished requests (resolve (target name)) size u →
          (∃ i, (u.phase i).file = some (resolve (target name))) →
            ∃ i, (u.phase i).file = some (resolve (target name)) ∧
              u.files (resolve (target name)) = some (requests i).content := by
  intro hclaim
  obtain ⟨u, hu, hfile, h1, hdone⟩ := exists_run_pair
    [.openFile 0 (encodedPath [7]), .openFile 1 (encodedPath [7]), .write 1 1, .write 0 2,
      .write 1 1, .finish 0, .finish 1] [1, 2] (by decide) (by decide +kernel)
  have hopened : (u.phase 1).file = some (encodedPath [7]) := by rw [h1, Phase.file]
  rw [← target_pair] at hdone hopened hfile
  obtain ⟨i, -, hi⟩ := hclaim .plain pair [7] 2 idle u _ (fun _ => rfl) hu hdone ⟨1, hopened⟩
  have hcontent := Option.some.inj (hfile.symm.trans hi)
  by_cases hi0 : i = 0
  · rw [hi0] at hcontent
    exact absurd hcontent (by decide)
  · rw [pair, if_neg hi0] at hcontent
    exact absurd hcontent (by decide)

end VideooServer.InnerUploadRuns
