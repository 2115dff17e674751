import VideooServer.FsServer
import VideooServer.UploadReply

/-!
# Uploads, one at a time

The upload handler over the outcomes of form parsing, opening and copying.
A request stores its file and is answered with the name, or it changes
nothing and names nothing, exactly when the form has the part and the file
is either not opened or copied to its end and named by a readable reply.
-/

namespace VideooServer.Upload

open ByteText JsonText FileWriters OutputName UploadReply FsServer

/-- The fs server's upload. Its header is used before the error of FormFile
is looked at, and the result of the copy is not looked at. -/
def upload (env : Environment) (files : Store Path UInt8) (now : Int) : FormFile → Outcome
  | .missing => ⟨files, [], true⟩
  | .unreadable _ => ⟨files, [], false⟩
  | .file handler content =>
    let fileName := storedName now handler.filename
    match openFile env.dirs env.permits (ascii "./content/" ++ fileName) with
    | none => ⟨files, [], false⟩
    | some f =>
      ⟨(files.create f).copy f 0 (env.transfer content).chunks, uploadReply fileName, false⟩

/-- The name computed for a request is not in use. -/
def NameFree (files : Store Path UInt8) (now : Int) (form : FormFile) : Prop :=
  ∀ handler content, form = .file handler content →
    files (contentPath (storedName now handler.filename)) = none

/-- A request has succeeded completely or changed nothing, without a panic. -/
def AllOrNothing (files : Store Path UInt8) (now : Int) (form : FormFile) (o : Outcome) : Prop :=
  o.panicked = false ∧
    ((∃ handler content, form = .file handler content ∧
        ReplyNames o.body (storedName now handler.filename) ∧
          o.files (contentPath (storedName now handler.filename)) = some content) ∨
      ((∀ name, ¬ReplyNames o.body name) ∧ o.files = files))

/-- The form has the part, and its file is not opened, or it is copied to
its end and has an extension that passes the reply unchanged. -/
def CleanRequest (env : Environment) (now : Int) : FormFile → Prop
  | .missing => False
  | .unreadable _ => True
  | .file handler content =>
    openFile env.dirs env.permits (ascii "./content/" ++ storedName now handler.filename) = none ∨
      (env.transfer content).chunks.flatten = content ∧ JsonSafe (ext handler.filename)

/-- An empty body is no JSON text. -/
theorem not_replyNames_nil (name : Bytes) : ¬ReplyNames [] name := by
  intro h
  obtain ⟨a, x, r, hx, -⟩ := h.stringIn
  simp at hx

/-- What a request that opens its target leaves behind. -/
theorem upload_opened {env : Environment} {files : Store Path UInt8} {now : Int}
    {handler : FileHeader} {f : Path} (content : Bytes)
    (h : openFile env.dirs env.permits
      (ascii "./content/" ++ storedName now handler.filename) = some f)
    (hfree : files (contentPath (storedName now handler.filename)) = none) :
    (upload env files now (.file handler content)).files
        (contentPath (storedName now handler.filename)) =
          some (env.transfer content).chunks.flatten ∧
      (upload env files now (.file handler content)).body =
        uploadReply (storedName now handler.filename) ∧
      (upload env files now (.file handler content)).panicked = false := by
  obtain rfl := openFile_content h
  simp only [upload, h]
  refine ⟨?_, trivial, trivial⟩
  rw [Store.copy_create, hfree]
  simp [overlay]

/-- A request changes no file but the one it names. -/
theorem upload_files_ne (env : Environment) (files : Store Path UInt8) (now : Int)
    (handler : FileHeader) (content : Bytes) {q : Path}
    (hq : q ≠ contentPath (storedName now handler.filename)) :
    (upload env files now (.file handler content)).files q = files q := by
  cases ho : openFile env.dirs env.permits
      (ascii "./content/" ++ storedName now handler.filename) with
  | none => simp [upload, ho]
  | some f =>
    obtain rfl := openFile_content ho
    simp only [upload, ho]
    rw [Store.copy_ne hq, Store.create_ne hq]

/-- A request to upload succeeds completely or changes nothing exactly when
it is clean. -/
theorem upload_allOrNothing_iff (env : Environment) (files : Store Path UInt8) (now : Int)
    (form : FormFile) (hfree : NameFree files now form) :
    AllOrNothing files now form (upload env files now form) ↔ CleanRequest env now form := by
  cases form with
  | missing => simp [AllOrNothing, CleanRequest, upload]
  | unreadable handler =>
    have hnone : ∀ name, ¬ReplyNames [] name := not_replyNames_nil
    simp [AllOrNothing, CleanRequest, upload, hnone]
  | file handler content =>
    have hfree := hfree handler content rfl
    cases ho : openFile env.dirs env.permits
        (ascii "./content/" ++ storedName now handler.filename) with
    | none =>
      have hnone : ∀ name, ¬ReplyNames [] name := not_replyNames_nil
      simp [AllOrNothing, CleanRequest, upload, ho, hnone]
    | some f =>
      obtain ⟨hfile, hbody, hpanic⟩ := upload_opened content ho hfree
      constructor
      · intro ⟨_, h⟩
        refine Or.inr ?_
        rcases h with ⟨handler', content', he, hnames, hstored⟩ | ⟨-, hfiles⟩
        · obtain ⟨rfl, rfl⟩ := FormFile.file.inj he
          rw [hfile] at hstored
          rw [hbody] at hnames
          exact ⟨Option.some.inj hstored, jsonSafe_ext_of_replyNames hnames⟩
        · rw [hfiles, hfree] at hfile
          cases hfile
      · intro h
        rcases h with h | ⟨hcopied, hsafe⟩
        · rw [ho] at h
          cases h
        · refine ⟨hpanic, Or.inl ⟨handler, content, rfl, ?_, ?_⟩⟩
          · rw [hbody]
            exact replyNames_storedName now hsafe
          · rw [hfile, hcopied]

/-- A request that stores its file and is answered with the name. -/
theorem upload_allOrNothing_stored :
    AllOrNothing (fun _ => none) 7 (.file ⟨ascii "a.mp4", []⟩ [1, 2])
      (upload .undisturbed (fun _ => none) 7 (.file ⟨ascii "a.mp4", []⟩ [1, 2])) := by
  have hfree : NameFree (fun _ => none) 7 (.file ⟨ascii "a.mp4", []⟩ [1, 2]) :=
    fun _ _ _ => rfl
  exact (upload_allOrNothing_iff .undisturbed (fun _ => none) 7 _ hfree).mpr
    (Or.inr ⟨rfl, by decide⟩)

/-- A request without the part dereferences a nil header. -/
theorem upload_missing_panics :
    (upload .undisturbed (fun _ => none) 7 .missing).panicked = true ∧
      ¬∀ (env : Environment) (files : Store Path UInt8) (now : Int) (form : FormFile),
        NameFree files now form → AllOrNothing files now form (upload env files now form) := by
  refine ⟨rfl, fun h => ?_⟩
  have hfree : NameFree (fun _ => none) 7 .missing := by
    intro handler content he
    cases he
  have hmissing := (h .undisturbed (fun _ => none) 7 .missing hfree).1
  cases hmissing

end VideooServer.Upload
