import VideooServer.StepRuns
import Mathlib.Data.List.TakeDrop
import Mathlib.Logic.Function.Basic

/-!
# Writers of a store of files

A store maps names to contents. A writer opens a file without truncating
it and copies its content in chunks, each at its own offset. A copy that
nobody interferes with overlays the beginning of the old content. When
several writers share a file, every byte of it comes from one of them or
from the old content.
-/

namespace VideooServer.FileWriters

open StepRuns

variable {ι κ β : Type*}

/-- The files of a store, none where there is no file. -/
abbrev Store (κ β : Type*) := κ → Option (List β)

/-- A content with a chunk written at an offset. A gap in front of it is
filled up. -/
def writeAt [Inhabited β] (offset : ℕ) (chunk old : List β) : List β :=
  old.takeD offset default ++ chunk ++ old.drop (offset + chunk.length)

/-- A new content over the beginning of an old one. -/
def overlay (new old : List β) : List β := new ++ old.drop new.length

section Contents

variable {offset : ℕ} {new chunk old : List β}

theorem overlay_nil (old : List β) : overlay [] old = old := rfl

/-- The longer content decides on the length. -/
theorem overlay_length (new old : List β) :
    (overlay new old).length = max new.length old.length := by
  simp only [overlay, List.length_append, List.length_drop]
  omega

/-- The new content replaces an old one that is no longer. -/
theorem overlay_eq_new_iff : overlay new old = new ↔ old.length ≤ new.length := by
  rw [overlay, List.append_right_eq_self, List.drop_eq_nil_iff]

/-- The old content only stays when it starts with the new one. -/
theorem overlay_eq_old_iff : overlay new old = old ↔ new <+: old := by
  constructor
  · intro h
    exact ⟨old.drop new.length, h⟩
  · intro ⟨rest, h⟩
    rw [overlay, ← h, List.drop_left]

/-- A new content replaces what was there when that was no longer. -/
theorem overlay_getD_eq_new_iff {file : Option (List β)} :
    overlay new (file.getD []) = new ↔ ∀ old, file = some old → old.length ≤ new.length := by
  rw [overlay_eq_new_iff]
  cases file with
  | none => simp
  | some old => simp

/-- A new content leaves what was there when it only repeats its beginning. -/
theorem some_overlay_getD_eq_iff {file : Option (List β)} :
    some (overlay new (file.getD [])) = file ↔ ∃ old, file = some old ∧ new <+: old := by
  cases file with
  | none => simp
  | some old => simp [overlay_eq_old_iff]

variable [Inhabited β]

/-- The next chunk extends the overlay. -/
theorem writeAt_overlay (new chunk old : List β) :
    writeAt new.length chunk (overlay new old) = overlay (new ++ chunk) old := by
  have hlen : new.length ≤ (overlay new old).length := by
    rw [overlay_length]
    omega
  have hdrop : new.drop (new.length + chunk.length) = [] := List.drop_eq_nil_of_le (by omega)
  rw [writeAt, List.takeD_eq_take _ hlen, overlay, overlay, List.take_left, List.drop_append,
    List.drop_drop, List.length_append, hdrop, List.nil_append, Nat.add_sub_cancel_left]

/-- A write extends a content up to its end. -/
theorem writeAt_length (offset : ℕ) (chunk old : List β) :
    (writeAt offset chunk old).length = max (offset + chunk.length) old.length := by
  simp only [writeAt, List.length_append, List.takeD_length, List.length_drop]
  omega

/-- Bytes outside of the chunk are not changed. -/
theorem writeAt_getElem? (h : offset ≤ old.length) (x : ℕ) :
    (writeAt offset chunk old)[x]? =
      if offset ≤ x ∧ x < offset + chunk.length then chunk[x - offset]? else old[x]? := by
  have htake : (old.takeD offset default) = old.take offset := List.takeD_eq_take _ h
  have hlen : (old.take offset).length = offset := by
    rw [List.length_take]
    omega
  rw [writeAt, htake]
  by_cases hlow : x < offset
  · rw [if_neg (by omega), List.append_assoc, List.getElem?_append_left (by omega),
      List.getElem?_take_of_lt hlow]
  · by_cases hhigh : x < offset + chunk.length
    · have hx : x < (old.take offset ++ chunk).length := by
        rw [List.length_append]
        omega
      rw [if_pos ⟨by omega, hhigh⟩, List.getElem?_append_left hx,
        List.getElem?_append_right (by omega), hlen]
    · have hx : (old.take offset ++ chunk).length ≤ x := by
        rw [List.length_append]
        omega
      rw [if_neg (by omega), List.getElem?_append_right hx, List.getElem?_drop,
        List.length_append, hlen]
      congr 1
      omega

end Contents

section Stores

variable [DecidableEq κ] [Inhabited β] {d : Store κ β} {p q : κ}

/-- Open a file for writing. An absent file is created, an existing one
keeps its content. -/
def Store.create (d : Store κ β) (p : κ) : Store κ β :=
  Function.update d p (some ((d p).getD []))

/-- Write a chunk of a file at an offset. -/
def Store.write (d : Store κ β) (p : κ) (offset : ℕ) (chunk : List β) : Store κ β :=
  Function.update d p (some (writeAt offset chunk ((d p).getD [])))

/-- Write chunks one after the other, from an offset on. -/
def Store.copy (d : Store κ β) (p : κ) (offset : ℕ) : List (List β) → Store κ β
  | [] => d
  | chunk :: chunks => (d.write p offset chunk).copy p (offset + chunk.length) chunks

omit [Inhabited β] in
/-- A file that is opened keeps its content. -/
@[simp] theorem Store.create_self (d : Store κ β) (p : κ) :
    d.create p p = some ((d p).getD []) := by
  simp [Store.create]

omit [Inhabited β] in
/-- Other files are not touched. -/
theorem Store.create_ne (h : q ≠ p) : d.create p q = d q := by
  simp [Store.create, h]

omit [Inhabited β] in
/-- Opening changes no content. -/
theorem Store.create_getD (d : Store κ β) (p q : κ) :
    (d.create p q).getD [] = (d q).getD [] := by
  by_cases h : q = p
  · rw [h, Store.create_self, Option.getD_some]
  · rw [Store.create_ne h]

omit [Inhabited β] in
/-- Opening removes no file. -/
theorem Store.create_ne_none (h : d q ≠ none) : d.create p q ≠ none := by
  by_cases hq : q = p
  · simp [hq]
  · rwa [Store.create_ne hq]

/-- The file that is written. -/
@[simp] theorem Store.write_self (d : Store κ β) (p : κ) (offset : ℕ) (chunk : List β) :
    d.write p offset chunk p = some (writeAt offset chunk ((d p).getD [])) := by
  simp [Store.write]

/-- Other files are not touched. -/
theorem Store.write_ne {offset : ℕ} {chunk : List β} (h : q ≠ p) :
    d.write p offset chunk q = d q := by
  simp [Store.write, h]

/-- Writing removes no file. -/
theorem Store.write_ne_none {offset : ℕ} {chunk : List β} (h : d q ≠ none) :
    d.write p offset chunk q ≠ none := by
  by_cases hq : q = p
  · simp [hq]
  · rwa [Store.write_ne hq]

/-- Copying touches no other file. -/
theorem Store.copy_ne {offset : ℕ} {chunks : List (List β)} (h : q ≠ p) :
    d.copy p offset chunks q = d q := by
  induction chunks generalizing d offset with
  | nil => rfl
  | cons chunk chunks ih =>
    rw [Store.copy, ih, Store.write_ne h]

/-- Chunks go on where the new content ends. -/
theorem Store.copy_overlay {new old : List β} (h : d p = some (overlay new old))
    (chunks : List (List β)) :
    d.copy p new.length chunks p = some (overlay (new ++ chunks.flatten) old) := by
  induction chunks generalizing d new with
  | nil => simpa [Store.copy] using h
  | cons chunk chunks ih =>
    have hwrite : d.write p new.length chunk p = some (overlay (new ++ chunk) old) := by
      rw [Store.write_self, h, Option.getD_some, writeAt_overlay]
    have hcopy := ih hwrite
    rw [List.length_append, List.append_assoc] at hcopy
    exact hcopy

/-- Open a file and copy into it: the chunks overlay the old content. -/
theorem Store.copy_create (d : Store κ β) (p : κ) (chunks : List (List β)) :
    (d.create p).copy p 0 chunks p = some (overlay chunks.flatten ((d p).getD [])) := by
  have h : d.create p p = some (overlay [] ((d p).getD [])) := by
    rw [Store.create_self, overlay_nil]
  exact Store.copy_overlay h chunks

end Stores

/-- What a writer is doing. -/
inductive Phase (κ : Type*) where
  /-- The file is not open yet. -/
  | waiting
  /-- The file is open and some of the content is copied. -/
  | writing (file : κ) (copied : ℕ)
  /-- The copy has stopped, at the end of the content or at an error. -/
  | stored (file : κ) (copied : ℕ)
  /-- The file could not be opened. -/
  | refused
  deriving DecidableEq

/-- How much of its content a writer has copied into a file. -/
def Phase.copied [DecidableEq κ] (p : κ) : Phase κ → ℕ
  | .writing q n => if q = p then n else 0
  | .stored q n => if q = p then n else 0
  | .waiting => 0
  | .refused => 0

/-- The file a writer has opened. -/
def Phase.file : Phase κ → Option κ
  | .writing q _ => some q
  | .stored q _ => some q
  | .waiting => none
  | .refused => none

/-- A writer has only copied into the file it has opened. -/
theorem Phase.file_of_copied [DecidableEq κ] {q : Phase κ} {p : κ} (h : 0 < q.copied p) :
    q.file = some p := by
  cases q with
  | waiting => simp [Phase.copied] at h
  | refused => simp [Phase.copied] at h
  | writing r n =>
    by_cases hr : r = p
    · rw [Phase.file, hr]
    · simp [Phase.copied, hr] at h
  | stored r n =>
    by_cases hr : r = p
    · rw [Phase.file, hr]
    · simp [Phase.copied, hr] at h

/-- Files with writers that work on them. -/
structure Writers (ι κ β : Type*) where
  /-- The files. -/
  files : Store κ β
  /-- What each writer is doing. -/
  phase : ι → Phase κ

/-- The steps of writers, in any order. -/
inductive Action (ι κ : Type*) where
  /-- Open a file. -/
  | openFile (i : ι) (file : κ)
  /-- Fail to open the file. -/
  | refuse (i : ι)
  /-- Write the next bytes of the content. -/
  | write (i : ι) (count : ℕ)
  /-- Stop copying. -/
  | finish (i : ι)

section Steps

variable [DecidableEq ι] [DecidableEq κ] [Inhabited β]

/-- One step of a writer, given the contents to be copied. -/
def writerStep (content : ι → List β) (s : Writers ι κ β) :
    Action ι κ → Option (Writers ι κ β)
  | .openFile i p =>
    match s.phase i with
    | .waiting => some ⟨s.files.create p, Function.update s.phase i (.writing p 0)⟩
    | _ => none
  | .refuse i =>
    match s.phase i with
    | .waiting => some { s with phase := Function.update s.phase i .refused }
    | _ => none
  | .write i k =>
    match s.phase i with
    | .writing p n =>
      if n + k ≤ (content i).length then
        some ⟨s.files.write p n (((content i).drop n).take k),
          Function.update s.phase i (.writing p (n + k))⟩
      else none
    | _ => none
  | .finish i =>
    match s.phase i with
    | .writing p n => some { s with phase := Function.update s.phase i (.stored p n) }
    | _ => none

variable {content : ι → List β} {s t : Writers ι κ β} {a : Action ι κ}

/-- Everything a step can do. -/
theorem writerStep_cases (h : writerStep content s a = some t) :
    (∃ i p, a = .openFile i p ∧ s.phase i = .waiting ∧
        t = ⟨s.files.create p, Function.update s.phase i (.writing p 0)⟩) ∨
      (∃ i, a = .refuse i ∧ s.phase i = .waiting ∧
        t = ⟨s.files, Function.update s.phase i .refused⟩) ∨
      (∃ i k p n, a = .write i k ∧ s.phase i = .writing p n ∧ n + k ≤ (content i).length ∧
        t = ⟨s.files.write p n (((content i).drop n).take k),
          Function.update s.phase i (.writing p (n + k))⟩) ∨
      ∃ i p n, a = .finish i ∧ s.phase i = .writing p n ∧
        t = ⟨s.files, Function.update s.phase i (.stored p n)⟩ := by
  cases a with
  | openFile i p =>
    cases hp : s.phase i <;> simp only [writerStep, hp] at h
    · exact Or.inl ⟨i, p, rfl, hp, (Option.some.inj h).symm⟩
    all_goals cases h
  | refuse i =>
    cases hp : s.phase i <;> simp only [writerStep, hp] at h
    · exact Or.inr (Or.inl ⟨i, rfl, hp, (Option.some.inj h).symm⟩)
    all_goals cases h
  | write i k =>
    cases hp : s.phase i with
    | writing p n =>
      simp only [writerStep, hp] at h
      split_ifs at h with hk
      exact Or.inr (Or.inr (Or.inl ⟨i, k, p, n, rfl, hp, hk, (Option.some.inj h).symm⟩))
    | waiting => simp [writerStep, hp] at h
    | stored p n => simp [writerStep, hp] at h
    | refused => simp [writerStep, hp] at h
  | finish i =>
    cases hp : s.phase i with
    | writing p n =>
      simp only [writerStep, hp] at h
      exact Or.inr (Or.inr (Or.inr ⟨i, p, n, rfl, hp, (Option.some.inj h).symm⟩))
    | waiting => simp [writerStep, hp] at h
    | stored p n => simp [writerStep, hp] at h
    | refused => simp [writerStep, hp] at h

/-- The writer that takes a step. -/
def Action.writer : Action ι κ → ι
  | .openFile i _ => i
  | .refuse i => i
  | .write i _ => i
  | .finish i => i

/-- A step leaves the phases of the other writers alone. -/
theorem writerStep_phase_ne (h : writerStep content s a = some t) {j : ι} (hj : j ≠ a.writer) :
    t.phase j = s.phase j := by
  obtain ⟨i, p, rfl, -, rfl⟩ | ⟨i, rfl, -, rfl⟩ | ⟨i, k, p, n, rfl, -, -, rfl⟩ |
      ⟨i, p, n, rfl, -, rfl⟩ := writerStep_cases h <;>
    exact Function.update_of_ne hj _ _

/-- A writer without a step in a run keeps its phase. -/
theorem run_phase_ne {as : List (Action ι κ)} (h : run (writerStep content) s as = some t) {j : ι}
    (hj : ∀ a ∈ as, j ≠ a.writer) : t.phase j = s.phase j := by
  induction as generalizing s with
  | nil =>
    cases h
    rfl
  | cons a as ih =>
    obtain ⟨v, hv, h⟩ := run_cons_eq_some h
    rw [ih h fun b hb => hj b (by simp [hb]), writerStep_phase_ne hv (hj a (by simp))]

/-- One write for each chunk of a copy. -/
theorem run_writes (content : ι → List β) {i : ι} {p : κ} {n : ℕ} {chunks : List (List β)}
    (hi : s.phase i = .writing p n) (hn : n ≤ (content i).length)
    (hchunks : chunks.flatten <+: (content i).drop n) :
    run (writerStep content) s (chunks.map fun chunk => .write i chunk.length) =
      some ⟨s.files.copy p n chunks,
        Function.update s.phase i (.writing p (n + chunks.flatten.length))⟩ := by
  induction chunks generalizing s n with
  | nil =>
    have hphase : Function.update s.phase i (.writing p n) = s.phase := by
      rw [← hi, Function.update_eq_self]
    simp [run, Store.copy, hphase]
  | cons chunk chunks ih =>
    obtain ⟨rest, hrest⟩ := hchunks
    rw [List.flatten_cons, List.append_assoc] at hrest
    have htake : ((content i).drop n).take chunk.length = chunk := by
      rw [← hrest, List.take_left]
    have hdrop : (content i).drop (n + chunk.length) = chunks.flatten ++ rest := by
      rw [← List.drop_drop, ← hrest, List.drop_left]
    have hlen := congrArg List.length hrest
    simp only [List.length_append, List.length_drop] at hlen
    have hwrite : writerStep content s (.write i chunk.length) =
        some ⟨s.files.write p n chunk,
          Function.update s.phase i (.writing p (n + chunk.length))⟩ := by
      simp only [writerStep, hi, htake]
      rw [if_pos (by omega)]
    rw [List.map_cons, run_cons hwrite, ih (Function.update_self ..) (by omega) ⟨rest, hdrop.symm⟩,
      Function.update_idem, List.flatten_cons, List.length_append, Nat.add_assoc]
    rfl

/-- The steps of a writer on its own: open the file, write the chunks and
stop. -/
def copySteps (i : ι) (p : κ) (chunks : List (List β)) : List (Action ι κ) :=
  .openFile i p :: (chunks.map (fun chunk => .write i chunk.length) ++ [.finish i])

omit [DecidableEq ι] [DecidableEq κ] [Inhabited β] in
/-- All steps of a copy are of its writer. -/
theorem writer_of_mem_copySteps {i : ι} {p : κ} {chunks : List (List β)}
    (ha : a ∈ copySteps i p chunks) : a.writer = i := by
  simp only [copySteps, List.mem_cons, List.mem_append, List.mem_map, List.not_mem_nil,
    or_false] at ha
  rcases ha with rfl | ⟨chunk, -, rfl⟩ | rfl <;> rfl

omit [DecidableEq ι] [DecidableEq κ] [Inhabited β] in
/-- A copy opens its own file. -/
theorem openFile_of_mem_copySteps {i j : ι} {p q : κ} {chunks : List (List β)}
    (ha : .openFile j q ∈ copySteps i p chunks) : j = i ∧ q = p := by
  simpa [copySteps] using ha

/-- A writer on its own copies its chunks over the beginning of the file. -/
theorem run_copySteps (content : ι → List β) {i : ι} {p : κ} {chunks : List (List β)}
    (hi : s.phase i = .waiting) (hchunks : chunks.flatten <+: content i) :
    run (writerStep content) s (copySteps i p chunks) =
      some ⟨(s.files.create p).copy p 0 chunks,
        Function.update s.phase i (.stored p chunks.flatten.length)⟩ := by
  have hopen : writerStep content s (.openFile i p) =
      some ⟨s.files.create p, Function.update s.phase i (.writing p 0)⟩ := by
    simp only [writerStep, hi]
  have hphase : (⟨s.files.create p, Function.update s.phase i (.writing p 0)⟩ :
      Writers ι κ β).phase i = .writing p 0 := Function.update_self ..
  rw [copySteps, run_cons hopen, run_append, run_writes content hphase (Nat.zero_le _) hchunks,
    Option.bind_some]
  simp [run, writerStep]

/-- A step of a writer with another file leaves a file alone. -/
theorem writerStep_files_ne (h : writerStep content s a = some t) {q : κ}
    (hq : (t.phase a.writer).file ≠ some q) : t.files q = s.files q := by
  obtain ⟨i, p, rfl, -, rfl⟩ | ⟨i, rfl, -, rfl⟩ | ⟨i, k, p, n, rfl, hp, -, rfl⟩ |
      ⟨i, p, n, rfl, -, rfl⟩ := writerStep_cases h
  · refine Store.create_ne fun he => hq ?_
    simp [Action.writer, Phase.file, he]
  · rfl
  · refine Store.write_ne fun he => hq ?_
    simp [Action.writer, Phase.file, he]
  · rfl

/-- A writer that has stopped takes no more steps. -/
theorem writerStep_stored (h : writerStep content s a = some t) {i : ι} {p : κ} {n : ℕ}
    (hi : s.phase i = .stored p n) : a.writer ≠ i := by
  intro he
  rw [← he] at hi
  obtain ⟨i, p, rfl, hp, -⟩ | ⟨i, rfl, hp, -⟩ | ⟨i, k, p, n, rfl, hp, -⟩ |
      ⟨i, p, n, rfl, hp, -⟩ := writerStep_cases h <;>
    · rw [Action.writer, hp] at hi
      cases hi

/-- A phase with the same progress changes no progress. -/
theorem copied_update {phase : ι → Phase κ} {i : ι} {q : Phase κ} {p : κ}
    (h : q.copied p = (phase i).copied p) (j : ι) :
    (Function.update phase i q j).copied p = (phase j).copied p := by
  by_cases hj : j = i
  · rw [hj, Function.update_self, h]
  · rw [Function.update_of_ne hj]

/-- What a step means for one file: it keeps the content and the progress
of all writers, or one of its writers appends a chunk. -/
theorem writerStep_effect (h : writerStep content s a = some t) (p : κ) :
    ((t.files p).getD [] = (s.files p).getD [] ∧
        ∀ j, (t.phase j).copied p = (s.phase j).copied p) ∨
      ∃ i k n, a = .write i k ∧ s.phase i = .writing p n ∧ n + k ≤ (content i).length ∧
        t = ⟨s.files.write p n (((content i).drop n).take k),
          Function.update s.phase i (.writing p (n + k))⟩ := by
  obtain ⟨i, q, rfl, hq, rfl⟩ | ⟨i, rfl, hq, rfl⟩ | ⟨i, k, q, n, rfl, hq, hk, rfl⟩ |
      ⟨i, q, n, rfl, hq, rfl⟩ := writerStep_cases h
  · exact Or.inl ⟨Store.create_getD _ _ _, copied_update (by simp [hq, Phase.copied])⟩
  · exact Or.inl ⟨rfl, copied_update (by simp [hq, Phase.copied])⟩
  · by_cases hp : p = q
    · rw [← hp] at hq ⊢
      exact Or.inr ⟨i, k, n, rfl, hq, hk, rfl⟩
    · have hfile : s.files.write q n (((content i).drop n).take k) p = s.files p :=
        Store.write_ne hp
      refine Or.inl ⟨congrArg (Option.getD · []) hfile, copied_update ?_⟩
      simp [hq, Phase.copied, Ne.symm hp]
  · exact Or.inl ⟨rfl, copied_update (by simp [hq, Phase.copied])⟩

/-- The part of a file that was written consists of bytes of its writers. -/
structure Blended (content : ι → List β) (p : κ) (s : Writers ι κ β) : Prop where
  /-- No writer is past the end of its content. -/
  copied_le : ∀ i, (s.phase i).copied p ≤ (content i).length
  /-- No writer is past the end of the file. -/
  copied_le_file : ∀ i, (s.phase i).copied p ≤ ((s.files p).getD []).length
  /-- Each byte that some writer has passed comes from one that has. -/
  byte_of : ∀ x, (∃ i, x < (s.phase i).copied p) →
    ∃ i, x < (s.phase i).copied p ∧ ((s.files p).getD [])[x]? = (content i)[x]?

omit [DecidableEq ι] [Inhabited β] in
/-- Before the first step every content is the old one. -/
theorem blended_of_waiting (p : κ) (h : ∀ i, s.phase i = .waiting) : Blended content p s := by
  have hzero : ∀ i, (s.phase i).copied p = 0 := by
    intro i
    rw [h i, Phase.copied]
  refine ⟨fun i => ?_, fun i => ?_, fun x ⟨i, hi⟩ => ?_⟩
  · rw [hzero i]
    omega
  · rw [hzero i]
    omega
  · rw [hzero i] at hi
    omega

omit [Inhabited β] in
/-- The progress of a writer that goes on. -/
theorem copied_writing (phase : ι → Phase κ) (i j : ι) (p : κ) (m : ℕ) :
    (Function.update phase i (.writing p m) j).copied p =
      if j = i then m else (phase j).copied p := by
  split_ifs with hj
  · simp [hj, Phase.copied]
  · rw [Function.update_of_ne hj]

/-- A chunk that a writer appends keeps its file blended. -/
theorem Blended.write {p : κ} (hs : Blended content p s) {i : ι} {n k : ℕ}
    (hi : s.phase i = .writing p n) (hk : n + k ≤ (content i).length) :
    Blended content p ⟨s.files.write p n (((content i).drop n).take k),
      Function.update s.phase i (.writing p (n + k))⟩ := by
  have hn : (s.phase i).copied p = n := by
    simp [hi, Phase.copied]
  have hfile := hs.copied_le_file i
  rw [hn] at hfile
  have hlen : (((content i).drop n).take k).length = k := by
    rw [List.length_take, List.length_drop]
    omega
  have hnew : ((s.files.write p n (((content i).drop n).take k)) p).getD [] =
      writeAt n (((content i).drop n).take k) ((s.files p).getD []) := by
    rw [Store.write_self, Option.getD_some]
  refine ⟨fun j => ?_, fun j => ?_, fun x ⟨j, hj⟩ => ?_⟩
  · rw [copied_writing]
    split_ifs with hj
    · rw [hj]
      exact hk
    · exact hs.copied_le j
  · have hold := hs.copied_le_file j
    rw [copied_writing, hnew, writeAt_length, hlen]
    split_ifs <;> omega
  · rw [hnew, writeAt_getElem? hfile, hlen]
    by_cases hx : n ≤ x ∧ x < n + k
    · -- The byte lies in the new chunk.
      refine ⟨i, by rw [copied_writing, if_pos rfl]; exact hx.2, ?_⟩
      rw [if_pos hx, List.getElem?_take_of_lt (by omega), List.getElem?_drop]
      congr 1
      omega
    · have hpassed : ∃ l, x < (s.phase l).copied p := by
        rw [copied_writing] at hj
        split_ifs at hj
        · exact ⟨i, by omega⟩
        · exact ⟨j, hj⟩
      obtain ⟨l, hl, hbyte⟩ := hs.byte_of x hpassed
      refine ⟨l, ?_, by rw [if_neg hx]; exact hbyte⟩
      rw [copied_writing]
      split_ifs with hli
      · rw [hli, hn] at hl
        omega
      · exact hl

/-- Every step keeps a file blended, whatever the order of the writers. -/
theorem Blended.step {p : κ} (hs : Blended content p s) (h : writerStep content s a = some t) :
    Blended content p t := by
  rcases writerStep_effect h p with ⟨hfile, hcopied⟩ | ⟨i, k, n, -, hi, hk, rfl⟩
  · refine ⟨fun j => ?_, fun j => ?_, fun x ⟨j, hj⟩ => ?_⟩
    · rw [hcopied]
      exact hs.copied_le j
    · rw [hcopied, hfile]
      exact hs.copied_le_file j
    · rw [hcopied] at hj
      obtain ⟨l, hl, hbyte⟩ := hs.byte_of x ⟨j, hj⟩
      exact ⟨l, by rw [hcopied]; exact hl, by rw [hfile, hbyte]⟩
  · exact hs.write hi hk

/-- A file extends no further than a given size and what some writer has
passed. -/
def Reached (p : κ) (size : ℕ) (s : Writers ι κ β) : Prop :=
  ∀ x < ((s.files p).getD []).length, x < size ∨ ∃ i, x < (s.phase i).copied p

/-- No step extends a file beyond what its writers have passed. -/
theorem Reached.step {p : κ} {size : ℕ} (hs : Reached p size s)
    (h : writerStep content s a = some t) : Reached p size t := by
  rcases writerStep_effect h p with ⟨hfile, hcopied⟩ | ⟨i, k, n, -, hi, hk, rfl⟩
  · intro x hx
    rw [hfile] at hx
    simp only [hcopied]
    exact hs x hx
  · have hlen : (((content i).drop n).take k).length = k := by
      rw [List.length_take, List.length_drop]
      omega
    have hn : (s.phase i).copied p = n := by
      simp [hi, Phase.copied]
    intro x hx
    simp only [copied_writing]
    dsimp only at hx
    rw [Store.write_self, Option.getD_some, writeAt_length, hlen] at hx
    by_cases hnew : x < n + k
    · exact Or.inr ⟨i, by rw [if_pos rfl]; exact hnew⟩
    · refine (hs x (by omega)).imp id fun ⟨j, hj⟩ => ⟨j, ?_⟩
      split_ifs with hji
      · rw [hji, hn] at hj
        omega
      · exact hj

/-- A step that writes to a file only by one writer. -/
def OnlyWriter (j : ι) (p : κ) (s : Writers ι κ β) (a : Action ι κ) : Prop :=
  ∀ i k n, a = .write i k → s.phase i = .writing p n → i = j

/-- A file is what it was with the part over it that a writer has copied. -/
def Overlaid (content : ι → List β) (j : ι) (p : κ) (base : List β) (s : Writers ι κ β) : Prop :=
  (s.phase j).copied p ≤ (content j).length ∧
    (s.files p).getD [] = overlay ((content j).take ((s.phase j).copied p)) base

/-- While one writer alone writes to a file, its content overlays the file. -/
theorem Overlaid.step {j : ι} {p : κ} {base : List β} (hs : Overlaid content j p base s)
    (honly : OnlyWriter j p s a) (h : writerStep content s a = some t) :
    Overlaid content j p base t := by
  rcases writerStep_effect h p with ⟨hfile, hcopied⟩ | ⟨i, k, n, ha, hi, hk, rfl⟩
  · rw [Overlaid, hcopied, hfile]
    exact hs
  · obtain rfl := honly i k n ha hi
    have hn : (s.phase i).copied p = n := by
      simp [hi, Phase.copied]
    have hlen : ((content i).take n).length = n := by
      rw [List.length_take]
      omega
    have hwrite := writeAt_overlay ((content i).take n) (((content i).drop n).take k) base
    rw [hlen, ← List.take_add] at hwrite
    have hbase := hs.2
    rw [hn] at hbase
    rw [Overlaid, copied_writing, if_pos rfl]
    refine ⟨hk, ?_⟩
    dsimp only
    rw [Store.write_self, Option.getD_some, hbase, hwrite]

omit [DecidableEq ι] [Inhabited β] in
/-- A writer that has copied nothing overlays nothing. -/
theorem overlaid_of_copied {j : ι} {p : κ} (hj : (s.phase j).copied p = 0) :
    Overlaid content j p ((s.files p).getD []) s := by
  rw [Overlaid, hj]
  exact ⟨Nat.zero_le _, by rw [List.take_zero, overlay_nil]⟩

/-- A writer that has just opened a file has left its content alone. -/
theorem overlaid_of_openFile {i : ι} {p : κ}
    (h : writerStep content s (.openFile i p) = some t) :
    Overlaid content i p ((s.files p).getD []) t := by
  obtain ⟨j, q, he, hj, -⟩ | ⟨j, he, -⟩ | ⟨j, k, q, n, he, -⟩ | ⟨j, q, n, he, -⟩ :=
    writerStep_cases h
  · obtain ⟨rfl, rfl⟩ := Action.openFile.inj he
    refine (overlaid_of_copied (by rw [hj, Phase.copied])).step (fun j k n he _ => ?_) h
    cases he
  all_goals cases he

/-- A writer keeps its file from the step in which it opens it. -/
theorem file_of_step (h : writerStep content s a = some t) {i : ι} {p : κ}
    (hi : (t.phase i).file = some p) : (s.phase i).file = some p ∨ a = .openFile i p := by
  by_cases hw : i = a.writer
  · obtain ⟨j, q, rfl, hq, rfl⟩ | ⟨j, rfl, hq, rfl⟩ | ⟨j, k, q, n, rfl, hq, -, rfl⟩ |
        ⟨j, q, n, rfl, hq, rfl⟩ := writerStep_cases h <;>
      obtain rfl : i = j := hw <;>
      simp only [Function.update_self, Phase.file] at hi
    · exact Or.inr (by rw [Option.some.inj hi])
    · cases hi
    · exact Or.inl (by rw [hq]; exact hi)
    · exact Or.inl (by rw [hq]; exact hi)
  · rw [writerStep_phase_ne h hw] at hi
    exact Or.inl hi

/-- No step removes a file. -/
theorem writerStep_ne_none (h : writerStep content s a = some t) {p : κ} (hp : s.files p ≠ none) :
    t.files p ≠ none := by
  obtain ⟨i, q, rfl, -, rfl⟩ | ⟨i, rfl, -, rfl⟩ | ⟨i, k, q, n, rfl, -, -, rfl⟩ |
      ⟨i, q, n, rfl, -, rfl⟩ := writerStep_cases h
  · exact Store.create_ne_none hp
  · exact hp
  · exact Store.write_ne_none hp
  · exact hp

/-- A file that a writer has opened exists. -/
theorem exists_file_of_step {p : κ} (hs : ∀ i, (s.phase i).file = some p → s.files p ≠ none)
    (h : writerStep content s a = some t) :
    ∀ i, (t.phase i).file = some p → t.files p ≠ none := by
  intro i hi
  rcases file_of_step h hi with hold | rfl
  · exact writerStep_ne_none h (hs i hold)
  · obtain ⟨j, q, he, -, rfl⟩ | ⟨j, he, -⟩ | ⟨j, k, q, n, he, -⟩ | ⟨j, q, n, he, -⟩ :=
      writerStep_cases h
    · obtain ⟨rfl, rfl⟩ := Action.openFile.inj he
      simp
    all_goals cases he

end Steps

end VideooServer.FileWriters
