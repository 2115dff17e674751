import VideooServer.FileWriters
import VideooServer.FsServer

/-!
# Encode requests in any order

The encode handler as a step relation: ffmpeg looks whether its output
exists, creates it and writes to it at any offsets, then postFile reads the
file in chunks and sends what it has read. The steps of different requests
interleave. As long as every output is still absent when it is created, what
is sent is what the request's own ffmpeg has produced.
-/

namespace VideooServer.EncodeRuns

open ByteText FileWriters

/-- The ways out of the handler. -/
inductive Exit where
  /-- ffmpeg fails. -/
  | ffmpegError
  /-- postFile returns an error. -/
  | postError
  /-- The end of the handler. -/
  | finished
  deriving DecidableEq

/-- What an encode request is doing. -/
inductive Phase where
  /-- The request has not arrived. -/
  | waiting
  /-- ffmpeg is started. -/
  | started
  /-- ffmpeg has found no output file. -/
  | probed
  /-- ffmpeg has created the output. -/
  | encoding
  /-- ffmpeg has exited without an error. -/
  | encoded
  /-- postFile has copied a part of the output. -/
  | reading (body : Bytes)
  /-- The file is sent to the fs server. -/
  | posted
  /-- The handler has returned. -/
  | returned (how : Exit)
  deriving DecidableEq

/-- The output file was created, and ffmpeg has not failed since. -/
def Phase.live : Phase → Bool
  | .encoding | .encoded | .reading _ | .posted => true
  | .returned how => how ≠ .ffmpegError
  | _ => false

/-- ffmpeg has exited without an error. -/
def Phase.exited : Phase → Bool
  | .encoded | .reading _ | .posted => true
  | .returned how => how ≠ .ffmpegError
  | _ => false

/-- The file may be on its way to the fs server. -/
def Phase.sent : Phase → Bool
  | .posted => true
  | .returned how => how ≠ .ffmpegError
  | _ => false

/-- The handler has returned. -/
def Phase.hasReturned : Phase → Bool
  | .returned _ => true
  | _ => false

/-- The state of the encode server. -/
structure State where
  /-- The files of data/, by name. -/
  data : Store Bytes UInt8
  /-- What each request is doing. -/
  phase : ℕ → Phase
  /-- The body each request has sent to the fs server. -/
  posted : ℕ → Option Bytes
  /-- History: the bytes that each request's ffmpeg has produced. -/
  produced : ℕ → Bytes

/-- The steps of encode requests. -/
inductive Action where
  /-- The request arrives, and ffmpeg is started. -/
  | arrive (i : ℕ)
  /-- ffmpeg finds its output and exits with an error. -/
  | refuse (i : ℕ)
  /-- ffmpeg finds no output. -/
  | probe (i : ℕ)
  /-- ffmpeg creates the output or truncates it. -/
  | create (i : ℕ)
  /-- ffmpeg writes some bytes. -/
  | write (i : ℕ) (offset : ℕ) (chunk : Bytes)
  /-- ffmpeg fails. -/
  | fail (i : ℕ)
  /-- ffmpeg exits without an error. -/
  | exit (i : ℕ)
  /-- postFile opens the output. -/
  | openFile (i : ℕ)
  /-- postFile copies the next bytes of the output. -/
  | copy (i : ℕ) (count : ℕ)
  /-- postFile has reached the end of the output and sends the request. -/
  | post (i : ℕ)
  /-- postFile fails to open, to read, to send or to get its response. -/
  | postError (i : ℕ)
  /-- postFile gets its response, and the handler ends. -/
  | finish (i : ℕ)
  deriving DecidableEq

/-- A request goes on to another phase. -/
def State.enter (s : State) (i : ℕ) (q : Phase) : State :=
  { s with phase := Function.update s.phase i q }

/-- One step of the encode handler, given the output names. -/
def encodeStep (output : ℕ → Bytes) (s : State) : Action → Option State
  | .arrive i => if s.phase i = .waiting then some (s.enter i .started) else none
  | .refuse i =>
    if s.phase i = .started ∧ (output i = [] ∨ s.data (output i) ≠ none) then
      some (s.enter i (.returned .ffmpegError))
    else none
  | .probe i =>
    if s.phase i = .started ∧ output i ≠ [] ∧ s.data (output i) = none then
      some (s.enter i .probed)
    else none
  | .create i =>
    -- The directory itself cannot be opened for writing.
    if s.phase i = .probed ∧ output i ≠ [] then
      some { s.enter i .encoding with
        data := Function.update s.data (output i) (some [])
        produced := Function.update s.produced i [] }
    else none
  | .write i offset chunk =>
    if s.phase i = .encoding then
      some { s with
        data := s.data.write (output i) offset chunk
        produced := Function.update s.produced i (writeAt offset chunk (s.produced i)) }
    else none
  | .fail i =>
    if s.phase i = .started ∨ s.phase i = .probed ∨ s.phase i = .encoding then
      some (s.enter i (.returned .ffmpegError))
    else none
  | .exit i => if s.phase i = .encoding then some (s.enter i .encoded) else none
  | .openFile i =>
    if s.phase i = .encoded ∧ s.data (output i) ≠ none then some (s.enter i (.reading []))
    else none
  | .copy i k =>
    match s.phase i with
    | .reading body =>
      some (s.enter i
        (.reading (body ++ (((s.data (output i)).getD []).drop body.length).take k)))
    | _ => none
  | .post i =>
    match s.phase i with
    | .reading body =>
      if ((s.data (output i)).getD []).length ≤ body.length then
        some { s.enter i .posted with posted := Function.update s.posted i (some body) }
      else none
    | _ => none
  | .postError i =>
    match s.phase i with
    | .encoded | .reading _ | .posted => some (s.enter i (.returned .postError))
    | _ => none
  | .finish i => if s.phase i = .posted then some (s.enter i (.returned .finished)) else none

/-- The moves of a request that touch no file and no history. -/
inductive Move : Phase → Phase → Prop where
  | arrive : Move .waiting .started
  | refuse : Move .started (.returned .ffmpegError)
  | probe : Move .started .probed
  | failProbed : Move .probed (.returned .ffmpegError)
  | failEncoding : Move .encoding (.returned .ffmpegError)
  | exit : Move .encoding .encoded
  | openFile : Move .encoded (.reading [])
  | openError : Move .encoded (.returned .postError)
  | copyError (body : Bytes) : Move (.reading body) (.returned .postError)
  | sendError : Move .posted (.returned .postError)
  | finish : Move .posted (.returned .finished)

section Moves

variable {p q : Phase}

/-- Only creating the output makes a request live. -/
theorem Move.live (h : Move p q) (hq : q.live = true) : p.live = true := by
  cases h <;> first | rfl | cases hq

/-- What is sent stays sent. -/
theorem Move.sent (h : Move p q) (hp : p.sent = true) : q.sent = true := by
  cases h <;> first | rfl | cases hp

/-- A move only enters the reading phase with nothing read. -/
theorem Move.reading {body : Bytes} (h : Move p (.reading body)) : body = [] := by
  cases h
  rfl

/-- A request whose file is sent is live. -/
theorem Phase.live_of_sent (h : p.sent = true) : p.live = true := by
  cases p <;> first | exact h | cases h

end Moves

variable {output : ℕ → Bytes} {s t : State} {a : Action}

/-- The phase of the request that goes on. -/
@[simp]
theorem State.enter_phase_self (s : State) (i : ℕ) (q : Phase) : (s.enter i q).phase i = q :=
  Function.update_self ..

/-- postFile can fail wherever a move for it exists. -/
theorem encodeStep_postError {i : ℕ} (h : Move (s.phase i) (.returned .postError)) :
    encodeStep output s (.postError i) = some (s.enter i (.returned .postError)) := by
  generalize hp : s.phase i = p at h
  cases h <;> simp only [encodeStep, hp]

/-- Everything a step can do. -/
theorem encodeStep_cases (h : encodeStep output s a = some t) :
    (∃ i q, Move (s.phase i) q ∧ t = s.enter i q) ∨
      (∃ i, a = .create i ∧ s.phase i = .probed ∧ output i ≠ [] ∧
        t = { s.enter i .encoding with
          data := Function.update s.data (output i) (some [])
          produced := Function.update s.produced i [] }) ∨
      (∃ i offset chunk, s.phase i = .encoding ∧
        t = { s with
          data := s.data.write (output i) offset chunk
          produced := Function.update s.produced i (writeAt offset chunk (s.produced i)) }) ∨
      (∃ i k body, s.phase i = .reading body ∧
        t = s.enter i
          (.reading (body ++ (((s.data (output i)).getD []).drop body.length).take k))) ∨
      ∃ i body, s.phase i = .reading body ∧
        ((s.data (output i)).getD []).length ≤ body.length ∧
        t = { s.enter i .posted with posted := Function.update s.posted i (some body) } := by
  cases a with
  | arrive i =>
    simp only [encodeStep] at h
    split_ifs at h with hi
    exact Or.inl ⟨i, _, hi ▸ .arrive, (Option.some.inj h).symm⟩
  | refuse i =>
    simp only [encodeStep] at h
    split_ifs at h with hi
    exact Or.inl ⟨i, _, hi.1 ▸ .refuse, (Option.some.inj h).symm⟩
  | probe i =>
    simp only [encodeStep] at h
    split_ifs at h with hi
    exact Or.inl ⟨i, _, hi.1 ▸ .probe, (Option.some.inj h).symm⟩
  | create i =>
    simp only [encodeStep] at h
    split_ifs at h with hi
    exact Or.inr (Or.inl ⟨i, rfl, hi.1, hi.2, (Option.some.inj h).symm⟩)
  | write i offset chunk =>
    simp only [encodeStep] at h
    split_ifs at h with hi
    exact Or.inr (Or.inr (Or.inl ⟨i, offset, chunk, hi, (Option.some.inj h).symm⟩))
  | fail i =>
    simp only [encodeStep] at h
    split_ifs at h with hi
    refine Or.inl ⟨i, _, ?_, (Option.some.inj h).symm⟩
    rcases hi with hi | hi | hi <;> rw [hi]
    · exact .refuse
    · exact .failProbed
    · exact .failEncoding
  | exit i =>
    simp only [encodeStep] at h
    split_ifs at h with hi
    exact Or.inl ⟨i, _, hi ▸ .exit, (Option.some.inj h).symm⟩
  | openFile i =>
    simp only [encodeStep] at h
    split_ifs at h with hi
    exact Or.inl ⟨i, _, hi.1 ▸ .openFile, (Option.some.inj h).symm⟩
  | copy i k =>
    cases hi : s.phase i with
    | reading body =>
      simp only [encodeStep, hi] at h
      exact Or.inr (Or.inr (Or.inr (Or.inl ⟨i, k, body, hi, (Option.some.inj h).symm⟩)))
    | _ => simp [encodeStep, hi] at h
  | post i =>
    cases hi : s.phase i with
    | reading body =>
      simp only [encodeStep, hi] at h
      split_ifs at h with hend
      exact Or.inr (Or.inr (Or.inr (Or.inr ⟨i, body, hi, hend, (Option.some.inj h).symm⟩)))
    | _ => simp [encodeStep, hi] at h
  | postError i =>
    cases hi : s.phase i with
    | encoded =>
      simp only [encodeStep, hi] at h
      exact Or.inl ⟨i, _, hi ▸ .openError, (Option.some.inj h).symm⟩
    | reading body =>
      simp only [encodeStep, hi] at h
      exact Or.inl ⟨i, _, hi ▸ .copyError body, (Option.some.inj h).symm⟩
    | posted =>
      simp only [encodeStep, hi] at h
      exact Or.inl ⟨i, _, hi ▸ .sendError, (Option.some.inj h).symm⟩
    | _ => simp [encodeStep, hi] at h
  | finish i =>
    simp only [encodeStep] at h
    split_ifs at h with hi
    exact Or.inl ⟨i, _, hi ▸ .finish, (Option.some.inj h).symm⟩

/-- The output of a live request holds what its own ffmpeg has produced, no
two live requests have the same output, and what was read or sent is what
was produced. -/
structure Tracks (output : ℕ → Bytes) (s : State) : Prop where
  /-- The output file is the produced one. -/
  data_eq : ∀ i, (s.phase i).live = true → s.data (output i) = some (s.produced i)
  /-- The output is a file. -/
  named : ∀ i, (s.phase i).live = true → output i ≠ []
  /-- Live requests have different outputs. -/
  distinct : ∀ i j, (s.phase i).live = true → (s.phase j).live = true →
    output i = output j → i = j
  /-- What postFile has read is the beginning of the output. -/
  reading : ∀ i body, s.phase i = .reading body → body <+: s.produced i
  /-- What postFile has sent is the output. -/
  posted : ∀ i body, s.posted i = some body →
    (s.phase i).sent = true ∧ body = s.produced i

/-- A request that goes on without touching a file leaves everything in
line. -/
theorem Tracks.enter (hs : Tracks output s) {i : ℕ} {q : Phase}
    (hlive : q.live = true → (s.phase i).live = true)
    (hsent : (s.phase i).sent = true → q.sent = true)
    (hreading : ∀ body, q = .reading body → body <+: s.produced i) :
    Tracks output (s.enter i q) := by
  have hold : ∀ j, ((s.enter i q).phase j).live = true → (s.phase j).live = true := by
    intro j hj
    by_cases hji : j = i
    · rw [hji] at hj ⊢
      exact hlive (by simpa [State.enter] using hj)
    · simpa [State.enter, hji] using hj
  refine ⟨fun j hj => hs.data_eq j (hold j hj), fun j hj => hs.named j (hold j hj),
    fun j k hj hk => hs.distinct j k (hold j hj) (hold k hk), fun j body hj => ?_,
    fun j body hj => ?_⟩
  · by_cases hji : j = i
    · rw [hji] at hj ⊢
      exact hreading body (by simpa [State.enter] using hj)
    · exact hs.reading j body (by simpa [State.enter, hji] using hj)
  · obtain ⟨hphase, hbody⟩ := hs.posted j body hj
    refine ⟨?_, hbody⟩
    by_cases hji : j = i
    · rw [hji] at hphase ⊢
      simpa [State.enter] using hsent hphase
    · simpa [State.enter, hji] using hphase

/-- A step creates no output that exists. -/
def Fresh (output : ℕ → Bytes) (s : State) : Action → Prop
  | .create i => s.data (output i) = none
  | _ => True

instance (output : ℕ → Bytes) (s : State) : ∀ a, Decidable (Fresh output s a)
  | .create i => inferInstanceAs (Decidable (s.data (output i) = none))
  | .arrive _ | .refuse _ | .probe _ | .write _ _ _ | .fail _ | .exit _ | .openFile _ | .copy _ _
  | .post _ | .postError _ | .finish _ => isTrue trivial

/-- Creating an output that is absent makes its request the only live one
with this output. -/
theorem Tracks.create (hs : Tracks output s) {i : ℕ} (hi : s.phase i = .probed)
    (hname : output i ≠ []) (hfree : s.data (output i) = none) :
    Tracks output { s.enter i .encoding with
      data := Function.update s.data (output i) (some [])
      produced := Function.update s.produced i [] } := by
  have hother : ∀ j, (s.phase j).live = true → output j ≠ output i := by
    intro j hj he
    have hdata := hs.data_eq j hj
    rw [he, hfree] at hdata
    cases hdata
  have hold : ∀ j ≠ i, ((s.enter i .encoding).phase j).live = true → (s.phase j).live = true := by
    intro j hj hlive
    simpa [State.enter, hj] using hlive
  refine ⟨fun j hj => ?_, fun j hj => ?_, fun j k hj hk he => ?_, fun j body hj => ?_,
    fun j body hj => ?_⟩
  · by_cases hji : j = i
    · simp [hji]
    · simpa [hji, hother j (hold j hji hj)] using hs.data_eq j (hold j hji hj)
  · by_cases hji : j = i
    · rw [hji]
      exact hname
    · exact hs.named j (hold j hji hj)
  · by_cases hji : j = i
    · by_cases hki : k = i
      · rw [hji, hki]
      · exact absurd (he.symm.trans (congrArg output hji)) (hother k (hold k hki hk))
    · by_cases hki : k = i
      · exact absurd (he.trans (congrArg output hki)) (hother j (hold j hji hj))
      · exact hs.distinct j k (hold j hji hj) (hold k hki hk) he
  · by_cases hji : j = i
    · simp [hji, State.enter] at hj
    · simpa [hji] using hs.reading j body (by simpa [State.enter, hji] using hj)
  · obtain ⟨hphase, hbody⟩ := hs.posted j body hj
    by_cases hji : j = i
    · rw [hji, hi] at hphase
      cases hphase
    · exact ⟨by simpa [State.enter, hji] using hphase, by simpa [hji] using hbody⟩

/-- ffmpeg writes to its own output only. -/
theorem Tracks.write (hs : Tracks output s) {i : ℕ} (hi : s.phase i = .encoding) (offset : ℕ)
    (chunk : Bytes) :
    Tracks output { s with
      data := s.data.write (output i) offset chunk
      produced := Function.update s.produced i (writeAt offset chunk (s.produced i)) } := by
  have hlive : (s.phase i).live = true := by
    rw [hi]
    rfl
  refine ⟨fun j hj => ?_, hs.named, hs.distinct, fun j body hj => ?_, fun j body hj => ?_⟩
  · by_cases hji : j = i
    · rw [hji]
      dsimp only
      rw [Store.write_self, hs.data_eq i hlive, Option.getD_some, Function.update_self]
    · have hne : output j ≠ output i := fun he => hji (hs.distinct j i hj hlive he)
      dsimp only
      rw [Store.write_ne hne, Function.update_of_ne hji]
      exact hs.data_eq j hj
  · have hji : j ≠ i := by
      intro he
      rw [he, hi] at hj
      cases hj
    simpa [hji] using hs.reading j body hj
  · obtain ⟨hphase, hbody⟩ := hs.posted j body hj
    have hji : j ≠ i := by
      intro he
      rw [he, hi] at hphase
      cases hphase
    exact ⟨hphase, by simpa [hji] using hbody⟩

/-- Every step keeps the outputs in line when it creates none that exists. -/
theorem Tracks.step (hs : Tracks output s) (hfresh : Fresh output s a)
    (h : encodeStep output s a = some t) : Tracks output t := by
  obtain ⟨i, q, hmove, rfl⟩ | ⟨i, rfl, hi, hname, rfl⟩ | ⟨i, offset, chunk, hi, rfl⟩ |
      ⟨i, k, body, hi, rfl⟩ | ⟨i, body, hi, hend, rfl⟩ := encodeStep_cases h
  · refine hs.enter hmove.live hmove.sent fun body hq => ?_
    rw [hq] at hmove
    rw [hmove.reading]
    exact List.nil_prefix
  · exact hs.create hi hname hfresh
  · exact hs.write hi offset chunk
  · have hlive : (s.phase i).live = true := by
      rw [hi]
      rfl
    refine hs.enter (fun _ => hlive) (fun hsent => ?_) fun body' hbody => ?_
    · rw [hi] at hsent
      cases hsent
    · -- The next bytes extend a prefix of the output to a longer one.
      obtain ⟨rest, hrest⟩ := hs.reading i body hi
      rw [← Phase.reading.inj hbody, hs.data_eq i hlive, Option.getD_some, ← hrest,
        List.drop_left]
      exact (List.prefix_append_right_inj body).mpr (List.take_prefix _ _)
  · have hlive : (s.phase i).live = true := by
      rw [hi]
      rfl
    have hbody : body = s.produced i := by
      rw [hs.data_eq i hlive, Option.getD_some] at hend
      exact (hs.reading i body hi).eq_of_length_le hend
    have henter : Tracks output (s.enter i .posted) :=
      hs.enter (fun _ => hlive) (fun _ => rfl) fun _ hq => Phase.noConfusion hq
    refine ⟨henter.data_eq, henter.named, henter.distinct, henter.reading, fun j body' hj => ?_⟩
    by_cases hji : j = i
    · obtain rfl : body = body' := by simpa [hji] using hj
      rw [hji]
      exact ⟨by simp [State.enter, Phase.sent], hbody⟩
    · exact henter.posted j body' (by simpa [hji, State.enter] using hj)

/-- A body that was sent is not sent again. -/
theorem posted_of_step (hs : Tracks output s) (h : encodeStep output s a = some t) {i : ℕ}
    {body : Bytes} (hi : s.posted i = some body) : t.posted i = some body := by
  obtain ⟨j, q, -, rfl⟩ | ⟨j, -, -, -, rfl⟩ | ⟨j, offset, chunk, -, rfl⟩ |
      ⟨j, k, b, -, rfl⟩ | ⟨j, b, hj, -, rfl⟩ := encodeStep_cases h
  · exact hi
  · exact hi
  · exact hi
  · exact hi
  · have hij : i ≠ j := by
      intro he
      have hsent := (hs.posted i body hi).1
      rw [he, hj] at hsent
      cases hsent
    simpa [hij, State.enter] using hi

end VideooServer.EncodeRuns
