import VideooServer.InnerUploadRuns
import VideooServer.Upload

/-!
# Uploads in any order

Upload requests as a step relation over a clock that never runs back: every
request reads the clock, opens the file of that name, writes its content in
chunks and returns, and the steps of different requests interleave. Nothing
but the clock reading separates the names, so uploads are kept apart exactly
in the runs in which no two requests read the same value.
-/

namespace VideooServer.UploadRuns

open ByteText StepRuns FileWriters OutputName FsServer Upload
open InnerUploadRuns (Request idle)

/-- The clock, the readings taken from it and the files being written. -/
structure State where
  /-- The least value the clock can still show. -/
  clock : Int
  /-- The reading of each request that has taken one. -/
  reading : ℕ → Option Int
  /-- The files and the requests that write to them. -/
  writers : Writers ℕ Path UInt8

/-- The steps of upload requests. -/
inductive Event where
  /-- Read the clock and compute the name. -/
  | readClock (i : ℕ) (now : Int)
  /-- A step of the copy. -/
  | copy (a : Action ℕ Path)

/-- The path that upload opens for a name. -/
def contentTarget (name : Bytes) : Bytes := ascii "./content/" ++ name

/-- A request may only open the file of its name, after reading the clock. -/
def mayCopy (dirs : Folders) (requests : ℕ → Request) (s : State) : Action ℕ Path → Bool
  | .openFile i p => (s.reading i).any fun now =>
      openFile dirs true (contentTarget (storedName now (requests i).filename)) == some p
  | .refuse i => (s.reading i).isSome
  | .write _ _ => true
  | .finish _ => true

/-- One step of some upload request. -/
def uploadStep (dirs : Folders) (requests : ℕ → Request) (s : State) : Event → Option State
  | .readClock i now =>
    if s.reading i = none ∧ s.clock ≤ now then
      some { s with clock := now, reading := Function.update s.reading i (some now) }
    else none
  | .copy a =>
    if mayCopy dirs requests s a then
      (writerStep (fun i => (requests i).content) s.writers a).map fun w => { s with writers := w }
    else none

/-- Before the first request: any clock, any files. -/
def Initial (s : State) : Prop :=
  (∀ i, s.reading i = none) ∧ ∀ i, s.writers.phase i = .waiting

/-- The names given so far keep the uploads apart: they differ, and where
the extensions differ, so do the parts before the first dot. -/
def Separate (requests : ℕ → Request) (s : State) : Prop :=
  ∀ i j, i ≠ j → ∀ now now', s.reading i = some now → s.reading j = some now' →
    storedName now (requests i).filename ≠ storedName now' (requests j).filename ∧
      (ext (requests i).filename ≠ ext (requests j).filename →
        upTo (byte '.') (storedName now (requests i).filename) ≠
          upTo (byte '.') (storedName now' (requests j).filename))

/-- At the end of a run the names are separate, and every file whose upload
was complete at some point of the run holds what it held then. -/
def NoUploadLost (dirs : Folders) (requests : ℕ → Request) (s : State) (es : List Event)
    (u : State) : Prop :=
  Separate requests u ∧
    ∀ bs cs t, es = bs ++ cs → run (uploadStep dirs requests) s bs = some t →
      ∀ i p n, t.writers.phase i = .stored p n → u.writers.files p = t.writers.files p

/-- No two requests have read the same clock value. -/
def DistinctReadings (s : State) : Prop :=
  ∀ i j, i ≠ j → ∀ now, s.reading i = some now → s.reading j ≠ some now

variable {dirs : Folders} {requests : ℕ → Request} {s t u : State} {e : Event} {es : List Event}

/-- Everything a step can do. -/
theorem uploadStep_cases (h : uploadStep dirs requests s e = some t) :
    (∃ i now, e = .readClock i now ∧ s.reading i = none ∧
        t = ⟨now, Function.update s.reading i (some now), s.writers⟩) ∨
      ∃ a w, e = .copy a ∧ mayCopy dirs requests s a = true ∧
        writerStep (fun i => (requests i).content) s.writers a = some w ∧
          t = ⟨s.clock, s.reading, w⟩ := by
  cases e with
  | readClock i now =>
    simp only [uploadStep] at h
    split_ifs at h with hc
    exact Or.inl ⟨i, now, rfl, hc.1, (Option.some.inj h).symm⟩
  | copy a =>
    simp only [uploadStep] at h
    split_ifs at h with hc
    obtain ⟨w, hw, ht⟩ := Option.map_eq_some_iff.mp h
    exact Or.inr ⟨a, w, rfl, hc, hw, ht.symm⟩

/-- A request on its own runs through the steps of the handler: the clock,
the file and one write for each chunk of the copy. -/
theorem run_upload {env : Environment} {i : ℕ} {now : Int} {p : Path} (header : Bytes)
    (hreading : s.reading i = none) (hclock : s.clock ≤ now) (hi : s.writers.phase i = .waiting)
    (h : openFile env.dirs env.permits
      (contentTarget (storedName now (requests i).filename)) = some p) :
    ∃ u, run (uploadStep env.dirs requests) s (.readClock i now ::
        (copySteps i p (env.transfer (requests i).content).chunks).map .copy) = some u ∧
      u.writers.files = (upload env s.writers.files now
        (.file ⟨(requests i).filename, header⟩ (requests i).content)).files := by
  have hclocked : uploadStep env.dirs requests s (.readClock i now) =
      some ⟨now, Function.update s.reading i (some now), s.writers⟩ := by
    simp [uploadStep, hreading, hclock]
  have hcopy := run_copySteps (fun i => (requests i).content) hi
    (env.transfer (requests i).content).isPrefix (p := p)
  have hstep : ∀ a ∈ copySteps i p (env.transfer (requests i).content).chunks, ∀ w w',
      writerStep (fun i => (requests i).content) w a = some w' →
        uploadStep env.dirs requests ⟨now, Function.update s.reading i (some now), w⟩ (.copy a) =
          some ⟨now, Function.update s.reading i (some now), w'⟩ := by
    intro a ha w w' hwriter
    have hmay : mayCopy env.dirs requests ⟨now, Function.update s.reading i (some now), w⟩ a =
        true := by
      cases a with
      | openFile j q =>
        obtain ⟨rfl, rfl⟩ := openFile_of_mem_copySteps ha
        simp [mayCopy, openFile_permitted h]
      | refuse j => simp [copySteps] at ha
      | write j k => rfl
      | finish j => rfl
    simp only [uploadStep, hmay, if_true, hwriter, Option.map_some]
  have hrun := run_map (uploadStep env.dirs requests)
    (fun w => ⟨now, Function.update s.reading i (some now), w⟩) .copy hstep hcopy
  refine ⟨_, (run_cons hclocked _).trans hrun, ?_⟩
  rw [contentTarget] at h
  simp only [upload, h]

/-- A reading is taken once. -/
theorem reading_of_step (h : uploadStep dirs requests s e = some t) {i : ℕ} {now : Int}
    (hi : s.reading i = some now) : t.reading i = some now := by
  obtain ⟨j, now', rfl, hj, rfl⟩ | ⟨a, w, rfl, -, -, rfl⟩ := uploadStep_cases h
  · have hij : i ≠ j := by
      intro he
      rw [he, hj] at hi
      cases hi
    exact (Function.update_of_ne hij _ _).trans hi
  · exact hi

/-- A clock value stays read. -/
theorem reading_of_run (h : run (uploadStep dirs requests) s es = some u) {i : ℕ} {now : Int}
    (hi : s.reading i = some now) : u.reading i = some now :=
  run_invariant (P := fun s => s.reading i = some now)
    (fun _ _ _ hs hstep => reading_of_step hstep hs) hi h

/-- Every reading was taken by a step of the run. -/
theorem readClock_mem_of_run (hs : Initial s) (h : run (uploadStep dirs requests) s es = some u)
    {i : ℕ} {now : Int} (hi : u.reading i = some now) : .readClock i now ∈ es := by
  have hmem : ∀ es s, run (uploadStep dirs requests) s es = some u →
      s.reading i = some now ∨ .readClock i now ∈ es := by
    intro es
    induction es with
    | nil =>
      intro s h
      cases h
      exact Or.inl hi
    | cons e es ih =>
      intro s h
      obtain ⟨t, ht, h⟩ := run_cons_eq_some h
      rcases ih t h with hread | hmem
      · obtain ⟨j, now', rfl, -, rfl⟩ | ⟨a, w, rfl, -, -, rfl⟩ := uploadStep_cases ht
        · by_cases hij : i = j
          · subst hij
            obtain rfl : now' = now := by simpa using hread
            exact Or.inr (by simp)
          · exact Or.inl (by simpa [hij] using hread)
        · exact Or.inl hread
      · exact Or.inr (List.mem_cons_of_mem e hmem)
  rcases hmem es s h with hold | hmem
  · rw [hs.1 i] at hold
    cases hold
  · exact hmem

/-- Values that are distinct at the end were distinct before. -/
theorem DistinctReadings.of_run (hu : DistinctReadings u)
    (h : run (uploadStep dirs requests) s es = some u) : DistinctReadings s :=
  fun i j hij now hi hj => hu i j hij now (reading_of_run h hi) (reading_of_run h hj)

/-- Every open file is the file of the name that its request was given. -/
def Named (requests : ℕ → Request) (s : State) : Prop :=
  ∀ i p, (s.writers.phase i).file = some p →
    ∃ now, s.reading i = some now ∧ p = contentPath (storedName now (requests i).filename)

/-- A step keeps open files under their names. -/
theorem Named.step (hs : Named requests s) (h : uploadStep dirs requests s e = some t) :
    Named requests t := by
  intro i p hi
  obtain ⟨j, now, rfl, hj, rfl⟩ | ⟨a, w, rfl, hmay, hw, rfl⟩ := uploadStep_cases h
  · obtain ⟨now', hnow, hp⟩ := hs i p hi
    exact ⟨now', reading_of_step h hnow, hp⟩
  · rcases file_of_step hw hi with hold | rfl
    · exact hs i p hold
    · obtain ⟨now, hnow, hopen⟩ := (Option.any_eq_true _ _).mp hmay
      exact ⟨now, hnow, openFile_content (beq_iff_eq.mp hopen)⟩

/-- No file is open before the first request. -/
theorem Initial.named (hs : Initial s) : Named requests s := by
  intro i p hi
  rw [hs.2 i] at hi
  cases hi

/-- A stored name determines the reading it was made from. -/
theorem reading_of_storedName {now now' : Int} {filename filename' : Bytes}
    (h : storedName now filename = storedName now' filename') : now = now' := by
  have hstem := congrArg (upTo (byte '.')) h
  rw [upTo_dot_storedName, upTo_dot_storedName] at hstem
  exact decimal_injective hstem

/-- Distinct readings give distinct names, and distinct stems even. -/
theorem DistinctReadings.separate (hs : DistinctReadings s) : Separate requests s := by
  intro i j hij now now' hi hj
  have hnow : now ≠ now' := by
    intro he
    rw [← he] at hj
    exact hs i j hij now hi hj
  refine ⟨fun he => hnow (reading_of_storedName he), fun _ he => hnow ?_⟩
  rw [upTo_dot_storedName, upTo_dot_storedName] at he
  exact decimal_injective he

/-- Equal readings give equal names or, with different extensions, equal
stems. -/
theorem distinctReadings_of_separate (hs : Separate requests s) : DistinctReadings s := by
  intro i j hij now hi hj
  obtain ⟨hname, hstem⟩ := hs i j hij now now hi hj
  by_cases hext : ext (requests i).filename = ext (requests j).filename
  · exact hname (by rw [storedName, storedName, hext])
  · exact hstem hext (by rw [upTo_dot_storedName, upTo_dot_storedName])

/-- With distinct readings the file of a request is its own. -/
theorem Named.eq_of_file (hs : Named requests s) (hd : DistinctReadings s) {i j : ℕ} {p : Path}
    (hi : (s.writers.phase i).file = some p) (hj : (s.writers.phase j).file = some p) :
    i = j := by
  by_contra hij
  obtain ⟨now, hnow, hp⟩ := hs i p hi
  obtain ⟨now', hnow', hp'⟩ := hs j p hj
  have hname : storedName now (requests i).filename = storedName now' (requests j).filename := by
    have he := hp.symm.trans hp'
    simpa [contentPath] using he
  rw [← reading_of_storedName hname] at hnow'
  exact hd i j hij now hnow hnow'

/-- A step of another request leaves a completed file alone. -/
theorem files_of_step (hs : Named requests s) (hd : DistinctReadings t)
    (h : uploadStep dirs requests s e = some t) {i n : ℕ} {p : Path}
    (hi : s.writers.phase i = .stored p n) :
    t.writers.phase i = .stored p n ∧ t.writers.files p = s.writers.files p := by
  have hfile : (s.writers.phase i).file = some p := by rw [hi, Phase.file]
  have hnamed := hs.step h
  obtain ⟨j, now, rfl, -, rfl⟩ | ⟨a, w, rfl, -, hw, rfl⟩ := uploadStep_cases h
  · exact ⟨hi, rfl⟩
  · have hne : i ≠ a.writer := (writerStep_stored hw hi).symm
    have hphase : w.phase i = .stored p n := by
      rw [writerStep_phase_ne hw hne]
      exact hi
    have hown : ∀ j, (w.phase j).file = some p → j = i := by
      intro j hj
      exact hnamed.eq_of_file hd hj (by rw [hphase, Phase.file])
    exact ⟨hphase, writerStep_files_ne hw fun hf => hne (hown _ hf).symm⟩

/-- No step of a run touches a file whose upload was complete before. -/
theorem files_of_run (hs : Named requests s) (hd : DistinctReadings u)
    (h : run (uploadStep dirs requests) s es = some u) {i n : ℕ} {p : Path}
    (hi : s.writers.phase i = .stored p n) : u.writers.files p = s.writers.files p := by
  induction es generalizing s with
  | nil =>
    cases h
    rfl
  | cons e es ih =>
    obtain ⟨t, ht, h⟩ := run_cons_eq_some h
    obtain ⟨hphase, hfile⟩ := files_of_step hs (hd.of_run h) ht hi
    rw [ih (hs.step ht) h hphase, hfile]

/-- No upload is lost in a run exactly when no two requests have read the
same clock value. -/
theorem noUploadLost_iff (hs : Initial s) (h : run (uploadStep dirs requests) s es = some u) :
    NoUploadLost dirs requests s es u ↔ DistinctReadings u := by
  constructor
  · intro hlost
    exact distinctReadings_of_separate hlost.1
  · intro hd
    refine ⟨hd.separate, fun bs cs t hes hbs i p n hi => ?_⟩
    rw [hes] at h
    obtain ⟨v, hv, hcs⟩ := run_append_eq_some h
    obtain rfl := Option.some.inj (hbs.symm.trans hv)
    have hnamed : Named requests t :=
      run_invariant (fun _ _ _ hw hstep => hw.step hstep) hs.named hbs
    exact files_of_run hnamed hd hcs hi

/-- Two uploads of one name and of different contents. -/
def twins (i : ℕ) : Request := if i = 0 then ⟨ascii "a.mp4", [1]⟩ else ⟨ascii "a.mp4", [2]⟩

/-- Before the first request, without files. -/
def fresh : State := ⟨0, fun _ => none, idle⟩

theorem initial_fresh : Initial fresh := ⟨fun _ => rfl, fun _ => rfl⟩

/-- The first of two uploads at the same time. -/
theorem run_upload_twin : ∃ u, run (uploadStep Environment.undisturbed.dirs twins) fresh
    (.readClock 0 7 :: (copySteps 0 (contentPath (storedName 7 (twins 0).filename))
      (Environment.undisturbed.transfer (twins 0).content).chunks).map .copy) = some u ∧
    u.writers.files = (upload .undisturbed fresh.writers.files 7
      (.file ⟨(twins 0).filename, []⟩ (twins 0).content)).files := by
  have hopen : openFile Environment.undisturbed.dirs Environment.undisturbed.permits
      (contentTarget (storedName 7 (twins 0).filename)) =
        some (contentPath (storedName 7 (twins 0).filename)) := by
    decide +kernel
  exact @run_upload twins fresh .undisturbed 0 7 _ [] rfl (by decide) rfl hopen

/-- The twins one after the other, with different readings. -/
def twinsApart : List Event :=
  .readClock 0 7 :: (copySteps 0 (contentPath (ascii "7.mp4")) [[1]]).map .copy ++
    .readClock 1 8 :: (copySteps 1 (contentPath (ascii "8.mp4")) [[2]]).map .copy

/-- Two requests that read different values. -/
theorem twins_apart : ∃ u, run (uploadStep .plain twins) fresh twinsApart = some u ∧
    NoUploadLost .plain twins fresh twinsApart u := by
  have hruns : (run (uploadStep .plain twins) fresh twinsApart).isSome = true := by
    decide +kernel
  obtain ⟨u, hu⟩ := Option.isSome_iff_exists.mp hruns
  have htaken : ∀ i now, u.reading i = some now → i = 0 ∧ now = 7 ∨ i = 1 ∧ now = 8 := by
    intro i now hi
    simpa [twinsApart, copySteps] using readClock_mem_of_run initial_fresh hu hi
  refine ⟨u, hu, (noUploadLost_iff initial_fresh hu).mpr fun i j hij now hi hj => hij ?_⟩
  have h1 := htaken i now hi
  have h2 := htaken j now hj
  omega

/-- The path both twins store their file under when they read 7. -/
def twinPath : Path := contentPath (ascii "7.mp4")

/-- Two requests that read the same value: the second upload overwrites the
first one after it was complete. -/
theorem twins_collide :
    ¬∀ (dirs : Folders) (requests : ℕ → Request) (s u : State) (es : List Event),
      Initial s → run (uploadStep dirs requests) s es = some u →
        NoUploadLost dirs requests s es u := by
  intro hclaim
  have hbs : ((run (uploadStep .plain twins) fresh
      [.readClock 0 7, .copy (.openFile 0 twinPath), .copy (.write 0 1), .copy (.finish 0)]).map
        fun t => (t.writers.files twinPath, t.writers.phase 0)) =
          some (some [1], .stored twinPath 1) := by
    decide +kernel
  have hes : ((run (uploadStep .plain twins) fresh
      ([.readClock 0 7, .copy (.openFile 0 twinPath), .copy (.write 0 1), .copy (.finish 0)] ++
        [.readClock 1 7, .copy (.openFile 1 twinPath), .copy (.write 1 1)])).map
          fun u => u.writers.files twinPath) = some (some [2]) := by
    decide +kernel
  obtain ⟨t, ht, hout⟩ := Option.map_eq_some_iff.mp hbs
  obtain ⟨u, hu, hfinal⟩ := Option.map_eq_some_iff.mp hes
  obtain ⟨hfile, hphase⟩ := Prod.mk.inj hout
  have hkept := (hclaim .plain twins fresh u _ initial_fresh hu).2 _ _ t rfl ht 0 _ _ hphase
  rw [hfile, hfinal] at hkept
  exact absurd hkept (by decide)

end VideooServer.UploadRuns
