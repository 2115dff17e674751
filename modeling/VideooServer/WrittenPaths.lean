import VideooServer.EncodeServer
import VideooServer.LexicalWalk
import VideooServer.Upload

/-!
# Which files a request can write

Lexical resolution is a walk, so a path below a folder resolves to a direct
child exactly when its rest stays in the folder or leaves it and comes back
by the folder's own names. The upload handler takes only the extension of a
client's name and always writes a direct child of its folder. The
inner-upload handler takes the whole name and follows it wherever it leads,
but the names that the encode server sends lead nowhere else.
-/

namespace VideooServer.WrittenPaths

open ByteText LexicalWalk StepRuns FileWriters OutputName MultipartName FsServer
open InnerUpload Upload EncodeServer

/-- A segment that leads down. -/
structure Name where
  /-- Bytes of the segment. -/
  text : Bytes
  /-- It is none of the segments that lead elsewhere. -/
  down : text ≠ [] ∧ text ≠ ascii "." ∧ text ≠ ascii ".."
  deriving DecidableEq

/-- The move of a segment. -/
def readSegment (segment : Bytes) : Move Name :=
  if hstay : segment = [] ∨ segment = ascii "." then .stay
  else if hup : segment = ascii ".." then .up
  else .down ⟨segment, fun h => hstay (Or.inl h), fun h => hstay (Or.inr h), hup⟩

/-- Where a path leads. -/
def place (path : Bytes) : Place Name :=
  Place.start.walk ((path.splitOn (byte '/')).map readSegment)

/-- The segments of a place. -/
def segments (p : Place Name) : Path := p.segments (ascii "..") Name.text

/-- Different places have different segments. -/
theorem segments_injective : Function.Injective segments :=
  Place.segments_injective (fun name => name.down.2.2) fun ⟨_, _⟩ ⟨_, _⟩ h => by
    rw [Name.mk.injEq]
    exact h

/-- Resolving one segment is one move. -/
theorem pushSegment_segments (p : Place Name) (segment : Bytes) :
    pushSegment (segments p) segment = segments (p.move (readSegment segment)) := by
  have hup : ∀ name : Name, name.text ≠ ascii ".." := fun name => name.down.2.2
  rw [pushSegment, readSegment]
  split_ifs with hstay hdots hempty
  · rfl
  · rw [segments, segments, Place.segments_up, if_pos ((Place.names_eq_nil_iff hup).mpr hempty),
      hdots]
  · rw [segments, segments, Place.segments_up,
      if_neg fun h => hempty ((Place.names_eq_nil_iff hup).mp h)]
  · rw [segments, segments, Place.segments_down]

/-- Lexical resolution gives the segments of the place a path leads to. -/
theorem resolve_eq (path : Bytes) : resolve path = segments (place path) := by
  have hfold : (path.splitOn (byte '/')).foldl pushSegment (segments .start) =
      segments ((path.splitOn (byte '/')).foldl (fun p s => p.move (readSegment s)) .start) :=
    List.foldl_hom segments pushSegment_segments
  rw [place, Place.walk, List.foldl_map, ← hfold]
  rfl

/-- What follows a slash is seen from where the part before it leads. -/
theorem place_append_slash (dir rest : Bytes) :
    place (dir ++ byte '/' :: rest) = (place dir).join (place rest) := by
  rw [place, List.splitOn_append_cons_self, List.map_append, Place.walk, List.foldl_append]
  exact Place.walk_eq_join _ _

/-- A path below a folder leads to a direct child exactly when its rest goes
up some levels and comes back by the names of the folder. -/
theorem resolve_child_iff {dir : Bytes} {names : List Name} (hdir : place dir = ⟨0, names⟩)
    (rest : Bytes) (name : Name) :
    resolve (dir ++ byte '/' :: rest) = segments ⟨0, names ++ [name]⟩ ↔
      ∃ k ≤ names.length, resolve rest = segments ⟨k, names.rtake k ++ [name]⟩ := by
  rw [resolve_eq, resolve_eq, segments_injective.eq_iff, place_append_slash, hdir,
    Place.join_eq_child_iff]
  constructor
  · intro ⟨hups, hnames⟩
    exact ⟨(place rest).ups, hups, by rw [← hnames]⟩
  · rintro ⟨k, hk, hrest⟩
    rw [segments_injective.eq_iff] at hrest
    rw [hrest]
    exact ⟨hk, rfl⟩

/-- The file name resolves to a plain name, or it leaves the folder of
encoded files and comes back to a plain name in it. -/
def StaysInside (filename : Bytes) : Prop :=
  ∃ name, PlainName name ∧
    (resolve filename = [name] ∨ resolve filename = [ascii "..", ascii "encoded", name] ∨
      resolve filename = [ascii "..", ascii "..", ascii "content", ascii "encoded", name])

/-- The names of the folder of encoded files. -/
def encodedFolder : List Name := [⟨ascii "content", by decide⟩, ⟨ascii "encoded", by decide⟩]

/-- The folder of encoded files. -/
theorem place_encoded : place (ascii "./content/encoded") = ⟨0, encodedFolder⟩ := by
  decide +kernel

/-- Exactly the file names that stay inside lead to a direct child of the
folder of encoded files. -/
theorem staysInside_iff {filename : Bytes} :
    StaysInside filename ↔
      ∃ name, PlainName name ∧
        resolve (ascii "./content/encoded/" ++ filename) = encodedPath name := by
  have hslash : ascii "./content/encoded/" ++ filename =
      ascii "./content/encoded" ++ byte '/' :: filename := by
    rw [show ascii "./content/encoded/" = ascii "./content/encoded" ++ [byte '/'] by decide,
      List.append_assoc, List.singleton_append]
  refine exists_congr fun name => and_congr_right fun hplain => ?_
  have hchild := resolve_child_iff place_encoded filename
    ⟨name, hplain.1, hplain.2.1, hplain.2.2.1⟩
  rw [hslash]
  refine Iff.trans ?_ hchild.symm
  constructor
  · rintro (h | h | h)
    · exact ⟨0, by decide, h⟩
    · exact ⟨1, by decide, h⟩
    · exact ⟨2, by decide, h⟩
  · rintro ⟨k, hk, h⟩
    have hle : k ≤ 2 := hk
    obtain rfl | rfl | rfl : k = 0 ∨ k = 1 ∨ k = 2 := by omega
    · exact Or.inl h
    · exact Or.inr (Or.inl h)
    · exact Or.inr (Or.inr h)

/-- A request to one of the two upload handlers. -/
inductive Request where
  /-- A request to upload, at a clock reading. -/
  | upload (now : Int) (form : FormFile)
  /-- A request to innerUpload. -/
  | innerUpload (form : FormFile)

/-- The folder a request is to write in. -/
def Request.folder : Request → Path
  | .upload _ _ => [ascii "content"]
  | .innerUpload _ => [ascii "content", ascii "encoded"]

/-- The handler that a request is routed to. -/
def serveRequest (env : Environment) (files : Store Path UInt8) : Request → Outcome
  | .upload now form => upload env files now form
  | .innerUpload form => innerUpload env files form

/-- Only one file is created or modified, a direct child of the folder. -/
def Confined (env : Environment) (files : Store Path UInt8) (r : Request) : Prop :=
  ∃ name, PlainName name ∧
    ∀ q ≠ r.folder ++ [name], (serveRequest env files r).files q = files q

/-- The file name of an inner upload cannot be opened, stays inside, or
leads to a file that begins with the copied bytes already. -/
def Harmless (env : Environment) (files : Store Path UInt8) : Request → Prop
  | .innerUpload (.file handler content) =>
    openFile env.dirs env.permits (ascii "./content/encoded/" ++ handler.filename) = none ∨
      StaysInside handler.filename ∨
        ∃ old, files (resolve (ascii "./content/encoded/" ++ handler.filename)) = some old ∧
          (env.transfer content).chunks.flatten <+: old
  | _ => True

variable {env : Environment} {files : Store Path UInt8}

/-- A request that changes no file is confined. -/
theorem confined_of_unchanged {r : Request}
    (h : ∀ q, (serveRequest env files r).files q = files q) : Confined env files r :=
  ⟨ascii "a", by decide, fun q _ => h q⟩

/-- An upload is always confined: its name is plain, whatever the client
sends. -/
theorem upload_confined (env : Environment) (files : Store Path UInt8) (now : Int)
    (form : FormFile) : Confined env files (.upload now form) := by
  cases form with
  | missing => exact confined_of_unchanged fun _ => rfl
  | unreadable handler => exact confined_of_unchanged fun _ => rfl
  | file handler content =>
    exact ⟨storedName now handler.filename, plainName_storedName _ _, fun q hq =>
      upload_files_ne env files now handler content hq⟩

/-- An inner upload that opens a file is confined exactly when the file is a
direct child, or when the copied bytes are there already. -/
theorem innerUpload_confined_iff {handler : FileHeader} {content : Bytes} {f : Path}
    (ho : openFile env.dirs env.permits (ascii "./content/encoded/" ++ handler.filename) = some f) :
    Confined env files (.innerUpload (.file handler content)) ↔
      StaysInside handler.filename ∨
        ∃ old, files f = some old ∧ (env.transfer content).chunks.flatten <+: old := by
  have hf : f = resolve (ascii "./content/encoded/" ++ handler.filename) := (openFile_eq_some ho).1
  obtain ⟨hfile, hframe⟩ := innerUpload_written handler files content ho
  constructor
  · intro ⟨name, hplain, hkept⟩
    by_cases hname : f = encodedPath name
    · exact Or.inl (staysInside_iff.mpr ⟨name, hplain, by rw [← hf, hname]⟩)
    · have hsame : (innerUpload env files (.file handler content)).files f = files f :=
        hkept f hname
      rw [hfile] at hsame
      exact Or.inr (some_overlay_getD_eq_iff.mp hsame)
  · rintro (hinside | hold)
    · obtain ⟨name, hplain, hresolve⟩ := staysInside_iff.mp hinside
      refine ⟨name, hplain, fun q hq => hframe q ?_⟩
      rw [hf, hresolve]
      exact hq
    · refine confined_of_unchanged fun q => ?_
      by_cases hq : q = f
      · rw [hq]
        exact hfile.trans (some_overlay_getD_eq_iff.mpr hold)
      · exact hframe q hq

/-- A harmless request is confined to its folder. -/
theorem confined_of_harmless {r : Request} (h : Harmless env files r) : Confined env files r := by
  cases r with
  | upload now form => exact upload_confined env files now form
  | innerUpload form =>
    cases form with
    | missing => exact confined_of_unchanged fun _ => rfl
    | unreadable handler => exact confined_of_unchanged fun _ => rfl
    | file handler content =>
      cases ho : openFile env.dirs env.permits
          (ascii "./content/encoded/" ++ handler.filename) with
      | none => exact confined_of_unchanged fun q => by simp [serveRequest, innerUpload, ho]
      | some f =>
        have hf := (openFile_eq_some ho).1
        have hinside : openFile env.dirs env.permits
            (ascii "./content/encoded/" ++ handler.filename) ≠ none := by simp [ho]
        refine (innerUpload_confined_iff ho).mpr ?_
        rw [hf]
        exact h.resolve_left hinside

/-- A request writes only inside its folder exactly when it is harmless. -/
theorem confined_iff (env : Environment) (files : Store Path UInt8) (r : Request) :
    Confined env files r ↔ Harmless env files r := by
  refine ⟨fun h => ?_, confined_of_harmless⟩
  cases r with
  | upload now form => trivial
  | innerUpload form =>
    cases form with
    | missing => trivial
    | unreadable handler => trivial
    | file handler content =>
      cases ho : openFile env.dirs env.permits
          (ascii "./content/encoded/" ++ handler.filename) with
      | none => exact Or.inl ho
      | some f =>
        have hf := (openFile_eq_some ho).1
        rw [innerUpload_confined_iff ho, hf] at h
        exact Or.inr h

/-- A file name that goes up reaches the uploads, and one of them is
overwritten. -/
theorem innerUpload_escapes :
    (serveRequest .undisturbed
        (Function.update (fun _ => none) (contentPath (ascii "7.mp4")) (some [1]))
        (.innerUpload (.file ⟨ascii "../7.mp4", []⟩ [2]))).files (contentPath (ascii "7.mp4")) =
          some [2] ∧
      ¬∀ (env : Environment) (files : Store Path UInt8) (r : Request), Confined env files r := by
  have hover : (serveRequest .undisturbed
      (Function.update (fun _ => none) (contentPath (ascii "7.mp4")) (some [1]))
      (.innerUpload (.file ⟨ascii "../7.mp4", []⟩ [2]))).files (contentPath (ascii "7.mp4")) =
        some [2] := by
    decide +kernel
  refine ⟨hover, fun h => ?_⟩
  obtain ⟨name, -, hkept⟩ := h .undisturbed
    (Function.update (fun _ => none) (contentPath (ascii "7.mp4")) (some [1]))
    (.innerUpload (.file ⟨ascii "../7.mp4", []⟩ [2]))
  have hsame := hkept (contentPath (ascii "7.mp4")) (by simp [contentPath, Request.folder])
  rw [hover, Function.update_self] at hsame
  exact absurd hsame (by decide)

/-- A file name without a slash stays inside when it can be opened. -/
theorem harmless_of_not_mem_slash {handler : FileHeader} {content : Bytes}
    (h : byte '/' ∉ handler.filename) :
    Harmless env files (.innerUpload (.file handler content)) := by
  cases ho : openFile env.dirs env.permits (ascii "./content/encoded/" ++ handler.filename) with
  | none => exact Or.inl ho
  | some f =>
    have hplain : PlainName handler.filename := plainName_of_openFile h ho
    exact Or.inr (Or.inl (staysInside_iff.mpr ⟨_, hplain, resolve_encoded hplain⟩))

/-- The requests of the encode server are harmless, whatever URL it was
given and whatever becomes of the name in the header. -/
theorem harmless_of_posted {rawSrcURL output : Bytes} (h : genOutFileName rawSrcURL = .ok output)
    (content : Bytes) (run : PostRun) :
    Harmless env files (.innerUpload (postedForm output content run)) := by
  unfold postedForm
  cases hpart : partFileName output with
  | none => trivial
  | some name =>
    have hslash : byte '/' ∉ name := fun hm =>
      (plainName_of_genOutFileName h).2.2.2 ((partFileName_spec hpart).2.2.2 hm)
    dsimp only
    split_ifs
    · exact harmless_of_not_mem_slash hslash
    · trivial

/-- Serve one request after the other, each with what the operating system
contributes to it. -/
def serveStep (files : Store Path UInt8) (r : Environment × Request) :
    Option (Store Path UInt8) :=
  some (serveRequest r.1 files r.2).files

/-- A harmless request changes no file outside of the two folders. -/
theorem outside_unchanged_step {r : Request} (h : Harmless env files r) {q : Path}
    (hcontent : ∀ name, q ≠ contentPath name) (hencoded : ∀ name, q ≠ encodedPath name) :
    (serveRequest env files r).files q = files q := by
  obtain ⟨name, -, hframe⟩ := confined_of_harmless h
  refine hframe q ?_
  cases r with
  | upload now form => exact hcontent name
  | innerUpload form => exact hencoded name

/-- In a run of harmless requests no file outside of the two folders is ever
created or modified. -/
theorem outside_unchanged {rs : List (Environment × Request)} {last : Store Path UInt8}
    (hharmless : Along serveStep (fun files r => Harmless r.1 files r.2) files rs)
    (hrun : run serveStep files rs = some last) {q : Path}
    (hcontent : ∀ name, q ≠ contentPath name) (hencoded : ∀ name, q ≠ encodedPath name) :
    last q = files q := by
  refine run_invariant_along (P := fun now => now q = files q) ?_ rfl hharmless hrun
  intro before r after hbefore hr hstep
  obtain rfl := Option.some.inj hstep
  rw [outside_unchanged_step hr hcontent hencoded, hbefore]

/-- The server's own program. -/
def ownProgram : Store Path UInt8 := Function.update (fun _ => none) [ascii "fs"] (some [1])

/-- An upload and the post of an encoded file. -/
def twoRequests : List (Environment × Request) :=
  [(.undisturbed, .upload 7 (.file ⟨ascii "a.mp4", []⟩ [2])),
    (.undisturbed, .innerUpload (.file ⟨ascii "7.mp4", []⟩ [3]))]

/-- The files after them. -/
def servedFiles : Store Path UInt8 :=
  (serveRequest .undisturbed (serveRequest .undisturbed ownProgram
    (.upload 7 (.file ⟨ascii "a.mp4", []⟩ [2]))).files
      (.innerUpload (.file ⟨ascii "7.mp4", []⟩ [3]))).files

/-- The program of the server survives both requests. -/
theorem outside_unchanged_served : servedFiles [ascii "fs"] = some [1] := by
  have hslash : byte '/' ∉ ascii "7.mp4" := by decide
  have hharmless : Along serveStep (fun files r => Harmless r.1 files r.2) ownProgram
      twoRequests :=
    ⟨trivial, fun _ _ => ⟨harmless_of_not_mem_slash hslash, fun _ _ => trivial⟩⟩
  have hrun : run serveStep ownProgram twoRequests = some servedFiles := by
    rw [twoRequests, run, serveStep, Option.bind_some, run, serveStep, Option.bind_some, run,
      servedFiles]
  rw [outside_unchanged hharmless hrun (fun _ => by simp [contentPath])
    fun _ => by simp [encodedPath], ownProgram, Function.update_self]

end VideooServer.WrittenPaths
