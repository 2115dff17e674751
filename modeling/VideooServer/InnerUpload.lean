import VideooServer.FsServer

/-!
# Encoded files, one request at a time

The inner-upload handler over the outcomes of form parsing, opening and
copying. The target is opened without truncation and the result of the copy
is not looked at, so a shorter content leaves the end of the old one behind
and a copy that fails leaves its beginning.
-/

namespace VideooServer.InnerUpload

open ByteText FileWriters FsServer

/-- The fs server's innerUpload. -/
def innerUpload (env : Environment) (files : Store Path UInt8) : FormFile → Outcome
  | .missing => ⟨files, [], false⟩
  | .unreadable _ => ⟨files, [], false⟩
  | .file handler content =>
    match openFile env.dirs env.permits (ascii "./content/encoded/" ++ handler.filename) with
    | none => ⟨files, handler.header, false⟩
    | some f =>
      ⟨(files.create f).copy f 0 (env.transfer content).chunks, handler.header, false⟩

/-- The target was opened and the content was copied to its end. -/
def Completed (env : Environment) (name content : Bytes) : Prop :=
  openFile env.dirs env.permits (ascii "./content/encoded/" ++ name) ≠ none ∧
    (env.transfer content).failed = false

/-- After a complete copy the file holds the content, otherwise what it held
before, and no other file is changed. -/
def AllOrNothing (env : Environment) (files : Store Path UInt8) (name content : Bytes)
    (o : Outcome) : Prop :=
  (Completed env name content → o.files (encodedPath name) = some content) ∧
    (¬Completed env name content → o.files (encodedPath name) = files (encodedPath name)) ∧
      ∀ q ≠ encodedPath name, o.files q = files q

/-- The target is not opened, or a complete copy is no shorter than the old
content, or a failed copy has only repeated the beginning of it. -/
def CleanReplacement (env : Environment) (files : Store Path UInt8) (name content : Bytes) :
    Prop :=
  openFile env.dirs env.permits (ascii "./content/encoded/" ++ name) = none ∨
    ((env.transfer content).failed = false ∧
        ∀ old, files (encodedPath name) = some old → old.length ≤ content.length) ∨
      ((env.transfer content).failed = true ∧
        ∃ old, files (encodedPath name) = some old ∧
          (env.transfer content).chunks.flatten <+: old)

variable {env : Environment}

/-- The chunks overlay the old content of the file that is opened, and no
other file is changed. -/
theorem innerUpload_written (handler : FileHeader) {f : Path} (files : Store Path UInt8)
    (content : Bytes)
    (h : openFile env.dirs env.permits (ascii "./content/encoded/" ++ handler.filename) = some f) :
    (innerUpload env files (.file handler content)).files f =
        some (overlay (env.transfer content).chunks.flatten ((files f).getD [])) ∧
      ∀ q ≠ f, (innerUpload env files (.file handler content)).files q = files q := by
  simp only [innerUpload, h]
  refine ⟨Store.copy_create _ _ _, fun q hq => ?_⟩
  rw [Store.copy_ne hq, Store.create_ne hq]

/-- The file that is opened for a name without a slash is the target. -/
theorem innerUpload_opened (handler : FileHeader) {f : Path} (files : Store Path UInt8)
    (content : Bytes)
    (hname : byte '/' ∉ handler.filename)
    (h : openFile env.dirs env.permits (ascii "./content/encoded/" ++ handler.filename) = some f) :
    (innerUpload env files (.file handler content)).files (encodedPath handler.filename) =
        some (overlay (env.transfer content).chunks.flatten
          ((files (encodedPath handler.filename)).getD [])) ∧
      ∀ q ≠ encodedPath handler.filename,
        (innerUpload env files (.file handler content)).files q = files q := by
  obtain rfl := openFile_encoded hname h
  exact innerUpload_written handler files content h

/-- A request leaves every other file alone. -/
theorem innerUpload_files_ne (handler : FileHeader) {files : Store Path UInt8} {content : Bytes}
    {q : Path}
    (hname : byte '/' ∉ handler.filename) (hq : q ≠ encodedPath handler.filename) :
    (innerUpload env files (.file handler content)).files q = files q := by
  cases ho : openFile env.dirs env.permits (ascii "./content/encoded/" ++ handler.filename) with
  | none => simp [innerUpload, ho]
  | some f => exact (innerUpload_opened handler files content hname ho).2 q hq

variable {files : Store Path UInt8} {handler : FileHeader} {content : Bytes}

/-- After a complete copy the file holds the new content exactly when the old
one was not longer. -/
theorem allOrNothing_of_completed (hname : byte '/' ∉ handler.filename)
    (hdone : Completed env handler.filename content) :
    AllOrNothing env files handler.filename content
        (innerUpload env files (.file handler content)) ↔
      ∀ old, files (encodedPath handler.filename) = some old → old.length ≤ content.length := by
  obtain ⟨f, ho⟩ := Option.ne_none_iff_exists'.mp hdone.1
  obtain ⟨hfile, hframe⟩ := innerUpload_opened handler files content hname ho
  rw [(env.transfer content).complete hdone.2] at hfile
  constructor
  · intro h
    have hnew := h.1 hdone
    rw [hfile] at hnew
    exact overlay_getD_eq_new_iff.mp (Option.some.inj hnew)
  · intro hlen
    refine ⟨fun _ => ?_, fun hnot => absurd hdone hnot, hframe⟩
    rw [hfile, overlay_getD_eq_new_iff.mpr hlen]

/-- After a failed copy the file holds the old content exactly when the copy
has only repeated the beginning of it. -/
theorem allOrNothing_of_failed {f : Path} (hname : byte '/' ∉ handler.filename)
    (ho : openFile env.dirs env.permits (ascii "./content/encoded/" ++ handler.filename) = some f)
    (hfailed : (env.transfer content).failed = true) :
    AllOrNothing env files handler.filename content
        (innerUpload env files (.file handler content)) ↔
      ∃ old, files (encodedPath handler.filename) = some old ∧
        (env.transfer content).chunks.flatten <+: old := by
  obtain ⟨hfile, hframe⟩ := innerUpload_opened handler files content hname ho
  have hnot : ¬Completed env handler.filename content := by
    intro hdone
    rw [hdone.2] at hfailed
    cases hfailed
  constructor
  · intro h
    have hkept := h.2.1 hnot
    rw [hfile] at hkept
    exact some_overlay_getD_eq_iff.mp hkept
  · intro hprefix
    refine ⟨fun hdone => absurd hdone hnot, fun _ => ?_, hframe⟩
    rw [hfile, some_overlay_getD_eq_iff.mpr hprefix]

/-- Replacing an encoded file is all or nothing exactly when no bytes of the
old and the new content end up side by side. -/
theorem innerUpload_allOrNothing_iff (env : Environment) (files : Store Path UInt8)
    (handler : FileHeader) (content : Bytes) (hname : byte '/' ∉ handler.filename) :
    AllOrNothing env files handler.filename content
        (innerUpload env files (.file handler content)) ↔
      CleanReplacement env files handler.filename content := by
  cases ho : openFile env.dirs env.permits (ascii "./content/encoded/" ++ handler.filename) with
  | none => simp [AllOrNothing, CleanReplacement, Completed, innerUpload, ho]
  | some f =>
    cases hfailed : (env.transfer content).failed with
    | false =>
      rw [allOrNothing_of_completed hname ⟨by simp [ho], hfailed⟩]
      simp [CleanReplacement, ho, hfailed]
    | true =>
      rw [allOrNothing_of_failed hname ho hfailed]
      simp [CleanReplacement, ho, hfailed]

/-- A longer content over an old one. -/
theorem innerUpload_longer :
    AllOrNothing .undisturbed (Function.update (fun _ => none) (encodedPath [7]) (some [1]))
      [7] [2, 3] (innerUpload .undisturbed
        (Function.update (fun _ => none) (encodedPath [7]) (some [1])) (.file ⟨[7], []⟩ [2, 3])) := by
  refine (innerUpload_allOrNothing_iff .undisturbed _ ⟨[7], []⟩ [2, 3] (by decide)).mpr
    (Or.inr (Or.inl ⟨rfl, fun old hold => ?_⟩))
  obtain rfl : [1] = old := by simpa using hold
  decide

/-- A shorter content leaves the last byte of the old one behind. -/
theorem innerUpload_shorter :
    (innerUpload .undisturbed
        (Function.update (fun _ => none) (encodedPath [7]) (some [1, 1])) (.file ⟨[7], []⟩ [2])).files
          (encodedPath [7]) = some [2, 1] ∧
      ¬∀ (env : Environment) (files : Store Path UInt8) (handler : FileHeader) (content : Bytes),
        byte '/' ∉ handler.filename → AllOrNothing env files handler.filename content
          (innerUpload env files (.file handler content)) := by
  have hstale : (innerUpload .undisturbed
      (Function.update (fun _ => none) (encodedPath [7]) (some [1, 1])) (.file ⟨[7], []⟩ [2])).files
        (encodedPath [7]) = some [2, 1] := by
    decide +kernel
  refine ⟨hstale, fun h => ?_⟩
  have hnew := (h .undisturbed
    (Function.update (fun _ => none) (encodedPath [7]) (some [1, 1])) ⟨[7], []⟩ [2]
      (by decide)).1 ⟨by decide +kernel, rfl⟩
  rw [hstale] at hnew
  exact absurd hnew (by decide)

end VideooServer.InnerUpload
