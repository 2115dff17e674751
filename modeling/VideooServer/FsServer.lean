import VideooServer.FileWriters
import VideooServer.OutputName

/-!
# The file server's requests and its folders

A path is a list of segments after lexical resolution of the empty segment,
"." and "..". The two upload handlers build their target below ./content
and open it for writing; a directory cannot be opened, nor a file whose
directory is missing. What net/http and the operating system contribute to
a request, the parsed form and the course of the copy, are parameters.
-/

namespace VideooServer.FsServer

open ByteText UrlParse FileWriters OutputName

/-- Segments of a path relative to the working directory. -/
abbrev Path := List Bytes

/-- Resolve one segment against the segments before it. -/
def pushSegment (path : Path) (segment : Bytes) : Path :=
  if segment = [] ∨ segment = ascii "." then path
  else if segment = ascii ".." then
    if path = [] ∨ path.getLast? = some (ascii "..") then path ++ [segment] else path.dropLast
  else path ++ [segment]

/-- Lexical resolution of a relative path. -/
def resolve (path : Bytes) : Path := (path.splitOn (byte '/')).foldl pushSegment []

/-- Where upload stores a file. -/
def contentPath (name : Bytes) : Path := [ascii "content", name]

/-- Where innerUpload stores a file. -/
def encodedPath (name : Bytes) : Path := [ascii "content", ascii "encoded", name]

/-- The directories of the server, the two upload folders among them. -/
structure Folders where
  /-- Whether there is a directory at a path. -/
  isDir : Path → Bool
  /-- The folder of uploaded files. -/
  content : isDir [ascii "content"] = true
  /-- The folder of encoded files. -/
  encoded : isDir [ascii "content", ascii "encoded"] = true

/-- A name that stays in the folder it is looked up in. -/
def PlainName (name : Bytes) : Prop :=
  name ≠ [] ∧ name ≠ ascii "." ∧ name ≠ ascii ".." ∧ byte '/' ∉ name

instance (name : Bytes) : Decidable (PlainName name) := inferInstanceAs (Decidable (_ ∧ _))

/-- The header of a part with a file. -/
structure FileHeader where
  /-- File name parameter of the part. -/
  filename : Bytes
  /-- The part's MIME header, as fmt prints it. -/
  header : Bytes

/-- What FormFile returns for the field "uploadfile". -/
inductive FormFile where
  /-- No file and no header: the part is missing or the form is malformed. -/
  | missing
  /-- A header, but the part's temporary file cannot be opened. -/
  | unreadable (handler : FileHeader)
  /-- A header and the content of the file. -/
  | file (handler : FileHeader) (content : Bytes)

/-- The course of a copy: its chunks are the content, or the copy has failed
and they are a prefix of it. -/
structure Transfer (content : Bytes) where
  /-- Chunks that were written. -/
  chunks : List Bytes
  /-- Whether the copy ended with an error. -/
  failed : Bool
  /-- The chunks are copied in order. -/
  isPrefix : chunks.flatten <+: content
  /-- Without an error everything was copied. -/
  complete : failed = false → chunks.flatten = content

/-- OpenFile with O_WRONLY and O_CREATE, when the operating system permits
it: the file that is opened. -/
def openFile (dirs : Folders) (permits : Bool) (path : Bytes) : Option Path :=
  if permits && !dirs.isDir (resolve path) && dirs.isDir (resolve path).dropLast then
    some (resolve path)
  else none

/-- What the operating system contributes to a request. -/
structure Environment where
  /-- The directories of the server. -/
  dirs : Folders
  /-- Whether the operating system lets the target be opened. -/
  permits : Bool
  /-- The course of the copy of a content. -/
  transfer : ∀ content, Transfer content

/-- A copy in one chunk. -/
def Transfer.whole (content : Bytes) : Transfer content := ⟨[content], false, by simp, by simp⟩

/-- The two upload folders and nothing else. -/
def Folders.plain : Folders where
  isDir p := p ∈ [[], [ascii "content"], [ascii "content", ascii "encoded"]]
  content := by decide
  encoded := by decide

/-- An environment in which nothing fails. -/
def Environment.undisturbed : Environment := ⟨.plain, true, .whole⟩

/-- What a request to the server leaves behind. -/
structure Outcome where
  /-- The files after the request. -/
  files : Store Path UInt8
  /-- The body of the response. -/
  body : Bytes
  /-- The handler has dereferenced a nil pointer. -/
  panicked : Bool

/-- A plain name is one segment more. -/
theorem pushSegment_plain {name : Bytes} (h : PlainName name) (path : Path) :
    pushSegment path name = path ++ [name] := by
  obtain ⟨hne, hdot, hdots, -⟩ := h
  rw [pushSegment, if_neg (by simp [hne, hdot]), if_neg hdots]

/-- What follows a slash is resolved against what is in front of it. -/
theorem resolve_append_slash (dir rest : Bytes) :
    resolve (dir ++ byte '/' :: rest) =
      (rest.splitOn (byte '/')).foldl pushSegment (resolve dir) := by
  rw [resolve, List.splitOn_append_cons_self, List.foldl_append, resolve]

/-- A plain name below a folder is a direct child of it. -/
theorem resolve_plain {name : Bytes} (h : PlainName name) (dir : Bytes) :
    resolve (dir ++ byte '/' :: name) = resolve dir ++ [name] := by
  rw [resolve_append_slash, List.splitOn_eq_singleton h.2.2.2, List.foldl_cons, List.foldl_nil,
    pushSegment_plain h]

/-- A plain name behind a folder and a slash resolves to a child of it. -/
theorem resolve_folder {name folder dir : Bytes} {path : Path} (h : PlainName name)
    (hslash : folder = dir ++ [byte '/']) (hdir : resolve dir = path) :
    resolve (folder ++ name) = path ++ [name] := by
  rw [hslash, List.append_assoc, List.singleton_append, resolve_plain h, hdir]

/-- A plain name is a direct child of the folder of uploads. -/
theorem resolve_content {name : Bytes} (h : PlainName name) :
    resolve (ascii "./content/" ++ name) = contentPath name := by
  have hslash : ascii "./content/" = ascii "./content" ++ [byte '/'] := by decide
  have hdir : resolve (ascii "./content") = [ascii "content"] := by decide +kernel
  exact resolve_folder h hslash hdir

/-- A plain name is a direct child of the folder of encoded files. -/
theorem resolve_encoded {name : Bytes} (h : PlainName name) :
    resolve (ascii "./content/encoded/" ++ name) = encodedPath name := by
  have hslash : ascii "./content/encoded/" = ascii "./content/encoded" ++ [byte '/'] := by decide
  have hdir : resolve (ascii "./content/encoded") = [ascii "content", ascii "encoded"] := by
    decide +kernel
  exact resolve_folder h hslash hdir

/-- Without a slash a name is plain or it names a directory. -/
theorem resolve_encoded_cases {name : Bytes} (h : byte '/' ∉ name) :
    PlainName name ∨ resolve (ascii "./content/encoded/" ++ name) =
        [ascii "content", ascii "encoded"] ∨
      resolve (ascii "./content/encoded/" ++ name) = [ascii "content"] := by
  by_cases hne : name = []
  · rw [hne]
    exact Or.inr (Or.inl (by decide +kernel))
  · by_cases hdot : name = ascii "."
    · rw [hdot]
      exact Or.inr (Or.inl (by decide +kernel))
    · by_cases hdots : name = ascii ".."
      · rw [hdots]
        exact Or.inr (Or.inr (by decide +kernel))
      · exact Or.inl ⟨hne, hdot, hdots, h⟩

/-- A file that is opened is the one that its path resolves to, and no
directory. -/
theorem openFile_eq_some {dirs : Folders} {permits : Bool} {path : Bytes} {p : Path}
    (h : openFile dirs permits path = some p) : p = resolve path ∧ dirs.isDir p = false := by
  unfold openFile at h
  split_ifs at h with hopen
  simp only [Bool.and_eq_true, Bool.not_eq_true'] at hopen
  obtain rfl := Option.some.inj h
  exact ⟨rfl, hopen.1.2⟩

/-- What is opened once can be opened when nothing forbids it. -/
theorem openFile_permitted {dirs : Folders} {permits : Bool} {path : Bytes} {p : Path}
    (h : openFile dirs permits path = some p) : openFile dirs true path = some p := by
  unfold openFile at h ⊢
  split_ifs at h with hopen
  simp only [Bool.and_eq_true] at hopen
  rw [if_pos (by simp [hopen.1.2, hopen.2])]
  exact h

/-- A name without a slash that can be opened is plain, since it names no
directory. -/
theorem plainName_of_openFile {dirs : Folders} {permits : Bool} {name : Bytes} {p : Path}
    (hname : byte '/' ∉ name)
    (h : openFile dirs permits (ascii "./content/encoded/" ++ name) = some p) :
    PlainName name := by
  obtain ⟨hp, hdir⟩ := openFile_eq_some h
  rcases resolve_encoded_cases hname with hplain | hpath | hpath
  · exact hplain
  · rw [hp, hpath, dirs.encoded] at hdir
    cases hdir
  · rw [hp, hpath, dirs.content] at hdir
    cases hdir

/-- A name without a slash can only be opened as a direct child. -/
theorem openFile_encoded {dirs : Folders} {permits : Bool} {name : Bytes} {p : Path}
    (hname : byte '/' ∉ name)
    (h : openFile dirs permits (ascii "./content/encoded/" ++ name) = some p) :
    p = encodedPath name := by
  rw [(openFile_eq_some h).1, resolve_encoded (plainName_of_openFile hname h)]

/-- A stored name is plain: it begins with a digit or a minus sign, and the
extension has no slash. -/
theorem plainName_storedName (now : Int) (filename : Bytes) :
    PlainName (storedName now filename) := by
  obtain ⟨c, d, hcd, hc⟩ := decimal_cons now
  have hname : storedName now filename = c :: (d ++ ext filename) := by
    rw [storedName, hcd, List.cons_append]
  have hdot : c ≠ byte '.' := by
    intro he
    rw [he] at hc
    exact absurd hc (by decide)
  refine ⟨by simp [hname], ?_, ?_, ?_⟩
  · intro he
    rw [hname] at he
    exact hdot (List.cons.inj he).1
  · intro he
    rw [hname] at he
    exact hdot (List.cons.inj he).1
  · rw [storedName, List.mem_append, not_or]
    exact ⟨not_mem_decimal (by decide) (by decide) now, not_mem_ext_slash filename⟩

/-- The name of an encoded file is plain: it is a part of one path segment
with a suffix. -/
theorem plainName_of_genOutFileName {rawSrcURL output : Bytes}
    (h : genOutFileName rawSrcURL = .ok output) : PlainName output := by
  obtain ⟨srcURL, -, rfl⟩ := exists_of_genOutFileName h
  have hlen : 4 ≤ (stem srcURL.path ++ ascii ".mp4").length := by
    rw [List.length_append]
    exact Nat.le_add_left 4 _
  refine ⟨?_, ?_, ?_, ?_⟩
  · intro he
    simp [he] at hlen
  · intro he
    rw [he] at hlen
    exact absurd hlen (by decide)
  · intro he
    rw [he] at hlen
    exact absurd hlen (by decide)
  · rw [List.mem_append, not_or]
    exact ⟨(stem_spec srcURL.path).2.2.1, by decide⟩

/-- A stored name can only be opened as a direct child. -/
theorem openFile_content {dirs : Folders} {permits : Bool} {now : Int} {filename : Bytes}
    {p : Path}
    (h : openFile dirs permits (ascii "./content/" ++ storedName now filename) = some p) :
    p = contentPath (storedName now filename) := by
  rw [(openFile_eq_some h).1, resolve_content (plainName_storedName now filename)]

end VideooServer.FsServer
