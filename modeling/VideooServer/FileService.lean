import Mathlib.Data.List.DropRight
import VideooServer.HttpQuery
import VideooServer.Upload

/-!
# What the file server hands out

GET requests to the fs server, as of the golang 1.4 images: the mux redirects
a path that is not clean, keeps two paths for the upload handlers and leaves
the rest to http.FileServer over the directory "content". The answers are
those to requests without a range or a condition. A file is handed out
exactly when it lies in that directory and no handler or index page is in
its way.
-/

namespace VideooServer.FileService

open ByteText PercentCodec UrlParse HttpQuery FileWriters OutputName FsServer

/-- Resolve one segment of a path that begins at the root. -/
def pushRooted (names : Path) (segment : Bytes) : Path :=
  if segment = [] ∨ segment = ascii "." then names
  else if segment = ascii ".." then names.dropLast
  else names ++ [segment]

/-- The names that are left of a path that begins at the root. -/
def rootedNames (path : Bytes) : Path := (path.splitOn (byte '/')).foldl pushRooted []

/-- The path of these names. -/
def rooted (names : Path) : Bytes := byte '/' :: [byte '/'].intercalate names

/-- path.Clean of a path with a slash in front. -/
def clean (path : Bytes) : Bytes := rooted (rootedNames path)

/-- The path itself if it has a slash in front, otherwise with one. -/
def withSlash (path : Bytes) : Bytes :=
  if path.head? = some (byte '/') then path else byte '/' :: path

/-- cleanPath of net/http. -/
def cleanPath (path : Bytes) : Bytes :=
  if path = [] then ascii "/"
  else
    let np := clean (withSlash path)
    if path.getLast? = some (byte '/') ∧ np ≠ ascii "/" then np ++ ascii "/" else np

/-- path.Base. -/
def base (path : Bytes) : Bytes :=
  if path = [] then ascii "."
  else
    let stripped := path.rdropWhile (· == byte '/')
    if stripped = [] then ascii "/" else pastLast (byte '/') stripped

/-- What opening a path yields. -/
inductive Opened where
  /-- A directory. -/
  | dir (path : Path)
  /-- A file with its content. -/
  | file (path : Path) (content : Bytes)

/-- http.Dir("content").Open. -/
def dirOpen (dirs : Folders) (files : Store Path UInt8) (name : Bytes) : Option Opened :=
  if 0 ∈ name then none
  else
    let fullName := resolve (ascii "content" ++ byte '/' :: clean (byte '/' :: name))
    if dirs.isDir fullName then some (.dir fullName) else (files fullName).map (.file fullName)

/-- The answer to a request. -/
inductive Answer where
  /-- The request is malformed. -/
  | badRequest
  /-- Another path, not yet escaped. -/
  | redirect (location : Bytes)
  /-- There is nothing under the path. -/
  | notFound
  /-- The entries of a directory. -/
  | listing (dir : Path)
  /-- A file with its content. -/
  | content (file : Path) (body : Bytes)
  /-- The request is left to the handler of a path. -/
  | handler (path : Bytes)
  deriving DecidableEq

/-- The page that stands for its directory. -/
def indexPage : Bytes := ascii "/index.html"

/-- serveFile of net/http, with redirects. -/
def serveFile (dirs : Folders) (files : Store Path UInt8) (urlPath name : Bytes) : Answer :=
  if indexPage <:+ urlPath then .redirect (ascii "./")
  else
    match dirOpen dirs files name with
    | none => .notFound
    | some (.file file body) =>
      if urlPath.getLast? = some (byte '/') then .redirect (ascii "../" ++ base urlPath)
      else .content file body
    | some (.dir dir) =>
      if urlPath.getLast? ≠ some (byte '/') then .redirect (base urlPath ++ ascii "/")
      else
        match dirOpen dirs files (name ++ indexPage) with
        | none => .listing dir
        | some (.file file body) => .content file body
        | some (.dir index) => .listing index

/-- http.FileServer(http.Dir("content")). -/
def fileServer (dirs : Folders) (files : Store Path UInt8) (urlPath : Bytes) : Answer :=
  serveFile dirs files (withSlash urlPath) (clean (withSlash urlPath))

/-- The paths of the two upload handlers. -/
def handlerPaths : List Bytes := [ascii "/upload", ascii "/inner-upload"]

/-- The default mux with the three registrations of main. -/
def serveMux (dirs : Folders) (files : Store Path UInt8) (urlPath : Bytes) : Answer :=
  if cleanPath urlPath ≠ urlPath then .redirect (cleanPath urlPath)
  else if urlPath ∈ handlerPaths then .handler urlPath
  else fileServer dirs files urlPath

/-- A GET request with a target. -/
def serveGet (dirs : Folders) (files : Store Path UInt8) (target : Bytes) : Answer :=
  match ParseRequestURI target with
  | none => .badRequest
  | some url => if target = ascii "*" then .badRequest else serveMux dirs files url.path

/-- What a client is answered that sends a target as it stands. -/
def httpGet (dirs : Folders) (files : Store Path UInt8) (target : Bytes) : Answer :=
  match readTarget (requestLine target) with
  | none => .badRequest
  | some t => serveGet dirs files t

variable {dirs : Folders} {files : Store Path UInt8} {names : Path} {path : Bytes} {file : Path}
  {body : Bytes}

/-- What is left of a path are plain names. -/
theorem plainName_of_mem_rootedNames (path : Bytes) :
    ∀ name ∈ rootedNames path, PlainName name := by
  have hfold : ∀ (segments : List Bytes) (names : Path), (∀ s ∈ segments, byte '/' ∉ s) →
      (∀ name ∈ names, PlainName name) →
        ∀ name ∈ segments.foldl pushRooted names, PlainName name := by
    intro segments
    induction segments with
    | nil => exact fun names _ hnames => hnames
    | cons s segments ih =>
      intro names hsegments hnames
      refine ih _ (fun t ht => hsegments t (List.mem_cons_of_mem _ ht)) ?_
      rw [pushRooted]
      split_ifs with hstay hup
      · exact hnames
      · exact fun name hname => hnames name ((List.dropLast_sublist names).subset hname)
      · intro name hname
        rcases List.mem_append.mp hname with hname | hname
        · exact hnames name hname
        · rw [List.mem_singleton.mp hname]
          obtain ⟨hne, hdot⟩ := not_or.mp hstay
          exact ⟨hne, hdot, hup, hsegments s List.mem_cons_self⟩
  exact hfold _ [] (fun s hs => not_mem_of_mem_splitOn path hs) (by simp)

/-- Plain names are pushed as they are. -/
theorem foldl_pushRooted (hplain : ∀ name ∈ names, PlainName name) (start : Path) :
    names.foldl pushRooted start = start ++ names := by
  induction names generalizing start with
  | nil => simp
  | cons name names ih =>
    obtain ⟨hne, hdot, hdots, -⟩ := hplain name List.mem_cons_self
    have hpush : pushRooted start name = start ++ [name] := by
      rw [pushRooted, if_neg (by simp [hne, hdot]), if_neg hdots]
    rw [List.foldl_cons, hpush, ih fun n hn => hplain n (List.mem_cons_of_mem _ hn)]
    simp

/-- The segments of a path of names. -/
theorem splitOn_intercalate_names (hplain : ∀ name ∈ names, PlainName name) :
    ([byte '/'].intercalate names).splitOn (byte '/') = if names = [] then [[]] else names := by
  split_ifs with hnames
  · rw [hnames]
    rfl
  · exact List.splitOn_intercalate _ (fun n hn => (hplain n hn).2.2.2) hnames

/-- A leading slash names nothing. -/
theorem rootedNames_slash (rest : Bytes) : rootedNames (byte '/' :: rest) = rootedNames rest := by
  have hcons : byte '/' :: rest = [] ++ byte '/' :: rest := rfl
  have hpush : pushRooted [] [] = [] := rfl
  rw [rootedNames, hcons, List.splitOn_append_cons_self, List.foldl_append, List.splitOn_nil,
    List.foldl_cons, List.foldl_nil, hpush, rootedNames]

/-- A path of plain names has these names. -/
theorem rootedNames_rooted (hplain : ∀ name ∈ names, PlainName name) :
    rootedNames (rooted names) = names := by
  rw [rooted, rootedNames_slash, rootedNames, splitOn_intercalate_names hplain]
  split_ifs with hnames
  · rw [hnames]
    rfl
  · rw [foldl_pushRooted hplain, List.nil_append]

/-- Nor does a trailing one. -/
theorem rootedNames_append_slash (path : Bytes) :
    rootedNames (path ++ [byte '/']) = rootedNames path := by
  have hpush : ∀ n : Path, pushRooted n [] = n := fun n => if_pos (Or.inl rfl)
  rw [rootedNames, List.splitOn_append_cons_self, List.foldl_append, List.splitOn_nil,
    List.foldl_cons, List.foldl_nil, hpush, rootedNames]

/-- What is opened lies in the directory, with the names of the path below
it. -/
theorem resolve_content_clean (path : Bytes) :
    resolve (ascii "content" ++ byte '/' :: clean path) =
      ascii "content" :: rootedNames path := by
  have hplain := plainName_of_mem_rootedNames path
  have hfold : ∀ (names start : Path), (∀ name ∈ names, PlainName name) →
      names.foldl pushSegment start = start ++ names := by
    intro names
    induction names with
    | nil => simp
    | cons name names ih =>
      intro start hnames
      rw [List.foldl_cons, pushSegment_plain (hnames name List.mem_cons_self),
        ih _ fun n hn => hnames n (List.mem_cons_of_mem _ hn)]
      simp
  have hdir : resolve (ascii "content") = [ascii "content"] := by decide +kernel
  have hcons : clean path = [] ++ byte '/' :: [byte '/'].intercalate (rootedNames path) := rfl
  have hstay : ∀ start : Path, pushSegment start [] = start := fun start => if_pos (Or.inl rfl)
  rw [resolve_append_slash, hdir, hcons, List.splitOn_append_cons_self, List.splitOn_nil,
    List.singleton_append, List.foldl_cons, hstay, splitOn_intercalate_names hplain]
  split_ifs with hnames
  · rw [hnames, List.foldl_cons, List.foldl_nil, hstay]
  · rw [hfold _ _ hplain, List.singleton_append]

/-- A path is determined by its segments. -/
theorem eq_of_splitOn_eq {s t : Bytes} (h : s.splitOn (byte '/') = t.splitOn (byte '/')) :
    s = t := by
  have hjoin (u : Bytes) : [byte '/'].intercalate (u.splitOn (byte '/')) = u :=
    List.intercalate_splitOn (byte '/')
  rw [← hjoin s, h, hjoin]

/-- The segments of a rooted path are its names. -/
theorem splitOn_rooted (hplain : ∀ name ∈ names, PlainName name) (hne : names ≠ []) :
    (rooted names).splitOn (byte '/') = [] :: names := by
  have hcons : rooted names = [] ++ byte '/' :: [byte '/'].intercalate names := rfl
  rw [hcons, List.splitOn_append_cons_self, List.splitOn_nil, splitOn_intercalate_names hplain,
    if_neg hne, List.singleton_append]

/-- The path of a name below a directory. -/
theorem rooted_concat (hplain : ∀ name ∈ names, PlainName name) {name : Bytes}
    (hname : PlainName name) :
    rooted (names ++ [name]) = (if names = [] then [] else rooted names) ++ byte '/' :: name := by
  have hall : ∀ n ∈ names ++ [name], PlainName n :=
    List.forall_mem_append.mpr ⟨hplain, by simpa using hname⟩
  refine eq_of_splitOn_eq ?_
  rw [splitOn_rooted hall (by simp), List.splitOn_append_cons_self,
    List.splitOn_eq_singleton hname.2.2.2]
  split_ifs with hnames
  · rw [hnames]
    rfl
  · rw [splitOn_rooted hplain hnames, List.cons_append]

/-- Only the root ends with a slash. -/
theorem rooted_getLast? (hplain : ∀ name ∈ names, PlainName name) (hne : names ≠ []) :
    (rooted names).getLast? ≠ some (byte '/') := by
  intro hlast
  obtain ⟨q, hq⟩ := List.getLast?_eq_some_iff.mp hlast
  have hsplit := splitOn_rooted hplain hne
  rw [hq, List.splitOn_append_cons_self, List.splitOn_nil] at hsplit
  have hend := congrArg List.getLast? hsplit
  rw [List.getLast?_concat, List.getLast?_cons_of_ne_nil hne] at hend
  exact (hplain [] (List.mem_of_getLast? hend.symm)).1 rfl

/-- Only no names make the root. -/
theorem rooted_eq_root_iff (hplain : ∀ name ∈ names, PlainName name) :
    rooted names = ascii "/" ↔ names = [] := by
  constructor
  · intro h
    rw [← rootedNames_rooted hplain, h]
    rfl
  · intro h
    rw [h]
    rfl

/-- The index page is the last name of the paths that end with it. -/
theorem indexPage_suffix_iff (hplain : ∀ name ∈ names, PlainName name) :
    indexPage <:+ rooted names ↔ names.getLast? = some (ascii "index.html") := by
  have hpage : indexPage = byte '/' :: ascii "index.html" := by decide
  have hslash : byte '/' ∉ ascii "index.html" := by decide
  constructor
  · rintro ⟨q, hq⟩
    have hne : names ≠ [] := by
      rintro rfl
      have hlen := congrArg List.length hq
      simp [indexPage, rooted, ascii] at hlen
    have hsplit := splitOn_rooted hplain hne
    rw [← hq, hpage, List.splitOn_append_cons_self, List.splitOn_eq_singleton hslash] at hsplit
    have hend := congrArg List.getLast? hsplit
    rw [List.getLast?_concat, List.getLast?_cons_of_ne_nil hne] at hend
    exact hend.symm
  · intro hlast
    obtain ⟨q, rfl⟩ := List.getLast?_eq_some_iff.mp hlast
    have hindex := hplain _ (List.mem_append_right q (List.mem_singleton_self _))
    rw [rooted_concat (fun n hn => hplain n (List.mem_append_left _ hn)) hindex, hpage]
    exact ⟨_, rfl⟩

/-- A rooted path starts with a slash already. -/
theorem withSlash_rooted (names : Path) (t : Bytes) :
    withSlash (rooted names ++ t) = rooted names ++ t := if_pos rfl

/-- The paths that the mux does not redirect. -/
theorem cleanPath_eq_self_iff : cleanPath path = path ↔
    ∃ names : Path, (∀ name ∈ names, PlainName name) ∧
      (path = rooted names ∨ names ≠ [] ∧ path = rooted names ++ ascii "/") := by
  constructor
  · intro h
    have hplain := plainName_of_mem_rootedNames (withSlash path)
    refine ⟨_, hplain, ?_⟩
    rw [cleanPath] at h
    dsimp only at h
    split_ifs at h with hempty hlast
    · rw [hempty] at h
      cases h
    · refine Or.inr ⟨fun hroot => hlast.2 ?_, h.symm⟩
      rw [clean, hroot]
      rfl
    · exact Or.inl h.symm
  · rintro ⟨names, hplain, rfl | ⟨hne, rfl⟩⟩
    · have hne : rooted names ≠ [] := List.cons_ne_nil _ _
      have hslash : withSlash (rooted names) = rooted names := if_pos rfl
      have hclean : clean (withSlash (rooted names)) = rooted names := by
        rw [hslash, clean, rootedNames_rooted hplain]
      rw [cleanPath, if_neg hne, hclean]
      refine if_neg fun hlast => ?_
      exact rooted_getLast? hplain (fun hnil => hlast.2 ((rooted_eq_root_iff hplain).mpr hnil))
        hlast.1
    · have hclean : clean (withSlash (rooted names ++ ascii "/")) = rooted names := by
        rw [withSlash_rooted, clean]
        exact congrArg rooted ((rootedNames_append_slash _).trans (rootedNames_rooted hplain))
      rw [cleanPath, if_neg (by simp [rooted]), hclean]
      refine if_pos ⟨List.getLast?_concat .., ?_⟩
      exact fun hroot => hne ((rooted_eq_root_iff hplain).mp hroot)

/-- Exactly the files of the folder can be opened as files. -/
theorem dirOpen_eq_file_iff {name : Bytes} :
    dirOpen dirs files name = some (.file file body) ↔
      0 ∉ name ∧ file = ascii "content" :: rootedNames name ∧ dirs.isDir file = false ∧
        files file = some body := by
  rw [dirOpen, resolve_content_clean, rootedNames_slash]
  dsimp only
  split_ifs with hzero hdir
  · simp [hzero]
  · refine ⟨nofun, fun ⟨_, hfile, hnot, _⟩ => ?_⟩
    rw [hfile, hdir] at hnot
    cases hnot
  · constructor
    · intro h
      obtain ⟨b, hb, he⟩ := Option.map_eq_some_iff.mp h
      obtain ⟨rfl, rfl⟩ := Opened.file.inj he
      exact ⟨hzero, rfl, Bool.eq_false_iff.mpr hdir, hb⟩
    · rintro ⟨-, rfl, -, hb⟩
      rw [hb, Option.map_some]

/-- Exactly its directories can be opened as directories. -/
theorem dirOpen_eq_dir_iff {name : Bytes} {dir : Path} :
    dirOpen dirs files name = some (.dir dir) ↔
      0 ∉ name ∧ dir = ascii "content" :: rootedNames name ∧ dirs.isDir dir = true := by
  rw [dirOpen, resolve_content_clean, rootedNames_slash]
  dsimp only
  split_ifs with hzero hdir
  · simp [hzero]
  · constructor
    · intro h
      obtain rfl := Opened.dir.inj (Option.some.inj h)
      exact ⟨hzero, rfl, hdir⟩
    · rintro ⟨-, rfl, -⟩
      rfl
  · constructor
    · intro h
      obtain ⟨b, -, he⟩ := Option.map_eq_some_iff.mp h
      cases he
    · rintro ⟨-, rfl, hyes⟩
      exact absurd hyes hdir

/-- A byte other than a slash is in a path when it is in one of the names. -/
theorem mem_rooted_iff {c : UInt8} (hc : c ≠ byte '/') :
    c ∈ rooted names ↔ ∃ name ∈ names, c ∈ name := by
  have hjoin : ∀ names : Path, c ∈ [byte '/'].intercalate names ↔ ∃ name ∈ names, c ∈ name := by
    intro names
    induction names with
    | nil => simp
    | cons name names ih =>
      cases names with
      | nil => simp
      | cons next names => simp [List.intercalate_cons_cons, ih, hc]
  rw [rooted, List.mem_cons, hjoin, or_iff_right hc]

/-- The path of a directory, with a slash at its end. -/
def dirPath (names : Path) : Bytes := if names = [] then ascii "/" else rooted names ++ ascii "/"

/-- The path of a directory ends with a slash. -/
theorem dirPath_getLast? (names : Path) : (dirPath names).getLast? = some (byte '/') := by
  rw [dirPath]
  split_ifs
  · rfl
  · exact List.getLast?_concat ..

/-- It starts with a slash, and cleaning removes the one at its end. -/
theorem clean_dirPath (hplain : ∀ name ∈ names, PlainName name) :
    withSlash (dirPath names) = dirPath names ∧ clean (dirPath names) = rooted names := by
  rw [dirPath]
  split_ifs with hnames
  · rw [hnames]
    exact ⟨rfl, rfl⟩
  · refine ⟨withSlash_rooted names _, ?_⟩
    exact congrArg rooted ((rootedNames_append_slash _).trans (rootedNames_rooted hplain))

/-- The file server is asked for the names of a directory. -/
theorem serveMux_dirPath (hplain : ∀ name ∈ names, PlainName name) :
    serveMux dirs files (dirPath names) =
      serveFile dirs files (dirPath names) (rooted names) := by
  obtain ⟨hslash, hclean⟩ := clean_dirPath hplain
  have hself : cleanPath (dirPath names) = dirPath names := by
    refine cleanPath_eq_self_iff.mpr ⟨names, hplain, ?_⟩
    rw [dirPath]
    split_ifs with hnames
    · exact Or.inl ((rooted_eq_root_iff hplain).mpr hnames).symm
    · exact Or.inr ⟨hnames, rfl⟩
  have hhandler : dirPath names ∉ handlerPaths := by
    intro hm
    have hlast := dirPath_getLast? names
    simp only [handlerPaths, List.mem_cons, List.not_mem_nil, or_false] at hm
    rcases hm with hm | hm <;>
      · rw [hm] at hlast
        exact absurd hlast (by decide)
  rw [serveMux, if_neg (not_not.mpr hself), if_neg hhandler, fileServer, hslash, hclean]

/-- So it is for a file, unless the path belongs to a handler. -/
theorem serveMux_rooted (hplain : ∀ name ∈ names, PlainName name) :
    serveMux dirs files (rooted names) =
      if rooted names ∈ handlerPaths then .handler (rooted names)
      else serveFile dirs files (rooted names) (rooted names) := by
  have hself : cleanPath (rooted names) = rooted names :=
    cleanPath_eq_self_iff.mpr ⟨names, hplain, Or.inl rfl⟩
  have hslash : withSlash (rooted names) = rooted names := if_pos rfl
  have hclean : clean (rooted names) = rooted names := by rw [clean, rootedNames_rooted hplain]
  rw [serveMux, if_neg (not_not.mpr hself), fileServer, hslash, hclean]

/-- A file is handed out under its own path, unless it is an index page. -/
theorem serveFile_rooted_iff (hplain : ∀ name ∈ names, PlainName name) (hne : names ≠ []) :
    serveFile dirs files (rooted names) (rooted names) = .content file body ↔
      names.getLast? ≠ some (ascii "index.html") ∧
        dirOpen dirs files (rooted names) = some (.file file body) := by
  have hlast := rooted_getLast? hplain hne
  by_cases hindex : indexPage <:+ rooted names
  · rw [serveFile, if_pos hindex]
    simp [(indexPage_suffix_iff hplain).mp hindex]
  · have hname : names.getLast? ≠ some (ascii "index.html") :=
      fun h => hindex ((indexPage_suffix_iff hplain).mpr h)
    rw [serveFile, if_neg hindex]
    cases dirOpen dirs files (rooted names) with
    | none => simp
    | some opened =>
      cases opened with
      | dir dir => simp [hlast]
      | file f b => simp [hlast, hname]

/-- An index page is handed out under the path of its directory. -/
theorem serveFile_dirPath_iff :
    serveFile dirs files (dirPath names) (rooted names) = .content file body ↔
      (∃ dir, dirOpen dirs files (rooted names) = some (.dir dir)) ∧
        dirOpen dirs files (rooted names ++ indexPage) = some (.file file body) := by
  have hlast := dirPath_getLast? names
  have hindex : ¬indexPage <:+ dirPath names := by
    rintro ⟨q, hq⟩
    have hend : (q ++ indexPage).getLast? = some (byte 'l') := by
      rw [List.getLast?_append]
      rfl
    rw [hq, hlast] at hend
    exact absurd hend (by decide)
  rw [serveFile, if_neg hindex, hlast]
  cases dirOpen dirs files (rooted names) with
  | none => simp
  | some opened =>
    cases opened with
    | file f b => simp
    | dir dir =>
      cases dirOpen dirs files (rooted names ++ indexPage) with
      | none => simp
      | some index => cases index <;> simp

/-- The names of the index page of a directory. -/
theorem rootedNames_indexPage (hplain : ∀ name ∈ names, PlainName name) :
    rootedNames (rooted names ++ indexPage) = names ++ [ascii "index.html"] := by
  have hpage : indexPage = byte '/' :: ascii "index.html" := by decide
  have hslash : byte '/' ∉ ascii "index.html" := by decide
  have hpush : ∀ n : Path, pushRooted n (ascii "index.html") = n ++ [ascii "index.html"] :=
    fun n => by rw [pushRooted, if_neg (by decide), if_neg (by decide)]
  rw [hpage, rootedNames, List.splitOn_append_cons_self, List.foldl_append,
    List.splitOn_eq_singleton hslash, List.foldl_cons, List.foldl_nil, hpush]
  exact congrArg (· ++ _) (rootedNames_rooted hplain)

/-- A file below the directory that a request can be answered with. -/
structure HandedOut (dirs : Folders) (names : Path) : Prop where
  /-- Its names lead down. -/
  plain : ∀ name ∈ names, PlainName name
  /-- None of them has a zero byte. -/
  nonzero : ∀ name ∈ names, 0 ∉ name
  /-- There are names. -/
  below : names ≠ []
  /-- They are not those of a handler. -/
  free : rooted names ∉ handlerPaths
  /-- An index page stands for a directory. -/
  index : names.getLast? = some (ascii "index.html") →
    dirs.isDir (ascii "content" :: names.dropLast) = true

/-- A rooted path has a zero byte only in its names. -/
theorem nonzero_rooted_iff : 0 ∉ rooted names ↔ ∀ name ∈ names, 0 ∉ name := by
  rw [mem_rooted_iff (by decide)]
  exact ⟨fun h name hn hz => h ⟨name, hn, hz⟩, fun h ⟨name, hn, hz⟩ => h name hn hz⟩

/-- A path that is answered with a file is the file's own path, or the path
of the directory that it is the index page of. -/
theorem serveMux_content_cases (h : serveMux dirs files path = .content file body) :
    ∃ names, HandedOut dirs names ∧ file = ascii "content" :: names ∧
      dirs.isDir file = false ∧ files file = some body ∧
        (path = rooted names ∨ names.getLast? = some (ascii "index.html")) := by
  have hself : cleanPath path = path := by
    by_contra hnot
    rw [serveMux, if_pos hnot] at h
    cases h
  obtain ⟨names, hplain, hpath⟩ := cleanPath_eq_self_iff.mp hself
  by_cases hdir : path = dirPath names
  · rw [hdir, serveMux_dirPath hplain, serveFile_dirPath_iff] at h
    obtain ⟨⟨dir, hopen⟩, hfile⟩ := h
    obtain ⟨-, rfl, hisdir⟩ := dirOpen_eq_dir_iff.mp hopen
    obtain ⟨hzero, hname, hnot, hbody⟩ := dirOpen_eq_file_iff.mp hfile
    rw [rootedNames_rooted hplain] at hisdir
    rw [rootedNames_indexPage hplain] at hname
    have hindex : PlainName (ascii "index.html") := by decide
    refine ⟨names ++ [ascii "index.html"], ⟨?_, ?_, by simp, ?_, ?_⟩, hname, hnot, hbody,
      Or.inr (List.getLast?_concat ..)⟩
    · exact List.forall_mem_append.mpr ⟨hplain, by simpa using hindex⟩
    · have hroot : 0 ∉ rooted names := fun hm => hzero (List.mem_append_left _ hm)
      have hpage : (0 : UInt8) ∉ ascii "index.html" := by decide
      exact List.forall_mem_append.mpr ⟨nonzero_rooted_iff.mp hroot, by simpa using hpage⟩
    · intro hm
      have hend : (rooted (names ++ [ascii "index.html"])).getLast? = some (byte 'l') := by
        rw [rooted_concat hplain hindex, List.getLast?_append]
        rfl
      simp only [handlerPaths, List.mem_cons, List.not_mem_nil, or_false] at hm
      rcases hm with hm | hm <;>
        · rw [hm] at hend
          exact absurd hend (by decide)
    · intro _
      rw [List.dropLast_concat]
      exact hisdir
  · obtain rfl : path = rooted names := by
      rcases hpath with hpath | ⟨hne, hpath⟩
      · exact hpath
      · exact absurd (by rw [hpath, dirPath, if_neg hne]) hdir
    have hne : names ≠ [] := by
      rintro rfl
      exact hdir rfl
    rw [serveMux_rooted hplain] at h
    split_ifs at h with hhandler
    obtain ⟨hindex, hfile⟩ := (serveFile_rooted_iff hplain hne).mp h
    obtain ⟨hzero, hname, hnot, hbody⟩ := dirOpen_eq_file_iff.mp hfile
    rw [rootedNames_rooted hplain] at hname
    exact ⟨names, ⟨hplain, nonzero_rooted_iff.mp hzero, hne, hhandler,
      fun hi => absurd hi hindex⟩, hname, hnot, hbody, Or.inl rfl⟩

/-- Every such file is the answer to some path. -/
theorem exists_serveMux_content (h : HandedOut dirs names)
    (hnot : dirs.isDir (ascii "content" :: names) = false)
    (hbody : files (ascii "content" :: names) = some body) :
    ∃ rest, serveMux dirs files (byte '/' :: rest) = .content (ascii "content" :: names) body := by
  by_cases hindex : names.getLast? = some (ascii "index.html")
  · obtain ⟨init, rfl⟩ := List.getLast?_eq_some_iff.mp hindex
    have hplain : ∀ name ∈ init, PlainName name := fun n hn => h.plain n (List.mem_append_left _ hn)
    have hzero : ∀ name ∈ init, 0 ∉ name := fun n hn => h.nonzero n (List.mem_append_left _ hn)
    have hdir : dirs.isDir (ascii "content" :: init) = true := by
      have hd := h.index hindex
      rwa [List.dropLast_concat] at hd
    have hopen : dirOpen dirs files (rooted init) = some (.dir (ascii "content" :: init)) := by
      refine dirOpen_eq_dir_iff.mpr ⟨nonzero_rooted_iff.mpr hzero, ?_, hdir⟩
      rw [rootedNames_rooted hplain]
    have hpage : dirOpen dirs files (rooted init ++ indexPage) =
        some (.file (ascii "content" :: (init ++ [ascii "index.html"])) body) := by
      refine dirOpen_eq_file_iff.mpr ⟨?_, by rw [rootedNames_indexPage hplain], hnot, hbody⟩
      rw [List.mem_append, not_or]
      exact ⟨nonzero_rooted_iff.mpr hzero, by decide⟩
    have hpath : ∃ rest, dirPath init = byte '/' :: rest := by
      rw [dirPath]
      split_ifs
      · exact ⟨[], rfl⟩
      · exact ⟨_, rfl⟩
    obtain ⟨rest, hrest⟩ := hpath
    refine ⟨rest, ?_⟩
    rw [← hrest, serveMux_dirPath hplain]
    exact serveFile_dirPath_iff.mpr ⟨⟨_, hopen⟩, hpage⟩
  · have hopen : dirOpen dirs files (rooted names) =
        some (.file (ascii "content" :: names) body) := by
      refine dirOpen_eq_file_iff.mpr ⟨nonzero_rooted_iff.mpr h.nonzero, ?_, hnot, hbody⟩
      rw [rootedNames_rooted h.plain]
    refine ⟨_, (serveMux_rooted h.plain).trans ?_⟩
    rw [if_neg h.free]
    exact (serveFile_rooted_iff h.plain h.below).mpr ⟨hindex, hopen⟩

/-- A content is only served for a target that parses. -/
theorem serveGet_eq_content (target : Bytes) (h : serveGet dirs files target = .content file body) :
    ∃ url, ParseRequestURI target = some url ∧
      serveMux dirs files url.path = .content file body := by
  rw [serveGet] at h
  cases hurl : ParseRequestURI target with
  | none =>
    rw [hurl] at h
    cases h
  | some url =>
    rw [hurl] at h
    dsimp only at h
    split_ifs at h
    exact ⟨url, rfl, h⟩

/-- A request target that begins with a slash is answered for its decoded
path. -/
theorem serveGet_slash (rest : Bytes) :
    serveGet dirs files (byte '/' :: rest) =
      match unescape .encodePath (byte '/' :: upTo (byte '?') rest) with
      | none => .badRequest
      | some path => serveMux dirs files path := by
  have hstar : byte '/' :: rest ≠ ascii "*" := fun h => absurd (List.cons.inj h).1 (by decide)
  rw [serveGet, ParseRequestURI_slash]
  cases unescape .encodePath (byte '/' :: upTo (byte '?') rest) with
  | none => rfl
  | some path => exact if_neg hstar

/-- A file is the answer to some request, with some content, exactly when it
is a file with this content below the directory content, no name on the way
to it leads elsewhere or has a zero byte, no upload handler has its path, and
it is no index page of something that is not a directory. In particular no
request is answered with a file outside. -/
theorem get_content_iff (dirs : Folders) (files : Store Path UInt8) (file : Path) (body : Bytes) :
    (∃ target, serveGet dirs files target = .content file body) ↔
      ∃ names, HandedOut dirs names ∧ file = ascii "content" :: names ∧
        dirs.isDir file = false ∧ files file = some body := by
  constructor
  · rintro ⟨target, h⟩
    obtain ⟨url, -, hurl⟩ := serveGet_eq_content target h
    obtain ⟨names, hnames, hfile, hnot, hbody, -⟩ := serveMux_content_cases hurl
    exact ⟨names, hnames, hfile, hnot, hbody⟩
  · rintro ⟨names, hnames, rfl, hnot, hbody⟩
    obtain ⟨rest, hrest⟩ := exists_serveMux_content hnames hnot hbody
    have hquery : byte '?' ∉ rest.flatMap escapeByte :=
      not_mem_flatMap_escapeByte (by decide) (by decide) rest
    have hpath : unescape .encodePath (byte '/' :: rest.flatMap escapeByte) =
        some (byte '/' :: rest) := by
      rw [unescape_cons (by decide), unescape_flatMap_escapeByte, Option.map_some]
    refine ⟨byte '/' :: rest.flatMap escapeByte, ?_⟩
    rw [serveGet_slash, upTo_of_not_mem hquery, hpath]
    exact hrest

/-- A byte that the path of a request carries to the file system. -/
def PathByte (c : UInt8) : Prop := c ∉ ascii "?% \n" ∧ c ≠ 0

instance (c : UInt8) : Decidable (PathByte c) := inferInstanceAs (Decidable (_ ∧ _))

/-- The numeral in front of a stored name is carried. -/
theorem pathByte_storedName_iff {now : Int} {filename : Bytes} :
    (∀ c ∈ storedName now filename, PathByte c) ↔ ∀ c ∈ ext filename, PathByte c := by
  have hdigit : ∀ n : ℕ, n < 256 → IsDigit (UInt8.ofNat n) ∨ UInt8.ofNat n = byte '-' →
      PathByte (UInt8.ofNat n) := by
    decide +kernel
  rw [storedName, List.forall_mem_append]
  refine and_iff_right fun c hc => ?_
  have hn := hdigit c.toNat c.toNat_lt
  rw [UInt8.ofNat_toNat] at hn
  exact hn (mem_decimal hc)

/-- Stored names are no index pages. -/
theorem storedName_ne {now : Int} {filename name : Bytes} {c : UInt8} (hc : ¬IsDigit c)
    (hm : c ≠ byte '-') : storedName now filename ≠ c :: name := by
  obtain ⟨d, t, hd, hdigit⟩ := decimal_cons now
  intro h
  rw [storedName, hd] at h
  rw [(List.cons.inj h).1] at hdigit
  exact hdigit.elim hc hm

/-- An answer with a file is the answer to a decoded path. At most a proper
part of a target with a space or a newline arrives. -/
theorem exists_of_httpGet {rest : Bytes}
    (h : httpGet dirs files (byte '/' :: rest) = .content file body) :
    ∃ r path, (byte ' ' ∈ rest ∨ byte '\n' ∈ rest → r.length < rest.length) ∧
      (¬(byte ' ' ∈ rest ∨ byte '\n' ∈ rest) → r = rest) ∧
        unescape .encodePath (byte '/' :: upTo (byte '?') r) = some path ∧
          serveMux dirs files path = .content file body := by
  rw [httpGet] at h
  cases ht : readTarget (requestLine (byte '/' :: rest)) with
  | none =>
    rw [ht] at h
    cases h
  | some target =>
    rw [ht] at h
    have hcons : byte '/' :: rest = [byte '/'] ++ rest := rfl
    rw [hcons] at ht
    obtain ⟨r, rfl, hshort⟩ := readTarget_length (by decide) (by decide) (by decide) ht
    have hget : serveGet dirs files (byte '/' :: r) = .content file body := h
    rw [serveGet_slash] at hget
    cases hpath : unescape .encodePath (byte '/' :: upTo (byte '?') r) with
    | none =>
      rw [hpath] at hget
      cases hget
    | some path =>
      rw [hpath] at hget
      refine ⟨r, path, hshort, fun hclean => ?_, hpath, hget⟩
      obtain ⟨hs, hn⟩ := not_or.mp hclean
      have hs' : byte ' ' ∉ [byte '/'] ++ rest :=
        List.not_mem_cons_of_ne_of_not_mem (by decide) hs
      have hn' : byte '\n' ∉ [byte '/'] ++ rest :=
        List.not_mem_cons_of_ne_of_not_mem (by decide) hn
      rw [readTarget_requestLine hs' hn'] at ht
      exact (List.cons.inj (Option.some.inj ht)).2.symm

/-- A path that is decoded to the text that was sent was sent without any
byte that is lost or changed on the way. -/
theorem pathBytes_of_unescape {name r : Bytes}
    (hshort : byte ' ' ∈ name ∨ byte '\n' ∈ name → r.length < name.length)
    (hclean : ¬(byte ' ' ∈ name ∨ byte '\n' ∈ name) → r = name)
    (hpath : unescape .encodePath (byte '/' :: upTo (byte '?') r) = some (byte '/' :: name)) :
    ∀ c ∈ name, c ∉ ascii "?% \n" := by
  -- Nothing on the way adds bytes, so nothing has taken any away.
  have hlen := unescape_length_le hpath
  have hup := (upTo_sublist (byte '?') r).length_le
  simp only [List.length_cons] at hlen
  have hm : ¬(byte ' ' ∈ name ∨ byte '\n' ∈ name) := by
    intro hm
    have hlt := hshort hm
    omega
  obtain rfl := hclean hm
  have hq : byte '?' ∉ r := by
    intro hq
    have hlt := length_upTo_lt hq
    omega
  rw [upTo_of_not_mem hq, unescape_eq_self_iff] at hpath
  intro c hc hbad
  have hcases : c = byte '?' ∨ c = byte '%' ∨ c = byte ' ' ∨ c = byte '\n' := by
    simpa [ascii] using hbad
  rcases hcases with rfl | rfl | rfl | rfl
  · exact hq hc
  · exact (hpath _ (List.mem_cons_of_mem _ hc)).1 rfl
  · exact hm (Or.inl hc)
  · exact hm (Or.inr hc)

/-- A request for a stored name is answered with the stored file, whatever it
holds, exactly when the extension has no byte that the path of a request does
not carry. -/
theorem get_stored_iff (dirs : Folders) (files : Store Path UInt8) (now : Int)
    (filename body : Bytes) :
    httpGet dirs files (byte '/' :: storedName now filename) =
        .content (contentPath (storedName now filename)) body ↔
      files (contentPath (storedName now filename)) = some body ∧
        dirs.isDir (contentPath (storedName now filename)) = false ∧
          ∀ c ∈ ext filename, PathByte c := by
  have hplain := plainName_storedName now filename
  have hnames : ∀ name ∈ [storedName now filename], PlainName name := by simpa using hplain
  have hrooted : rooted [storedName now filename] = byte '/' :: storedName now filename := by
    rw [rooted, List.intercalate_singleton]
  rw [← pathByte_storedName_iff]
  constructor
  · intro h
    obtain ⟨r, path, hshort, hclean, hpath, hmux⟩ := exists_of_httpGet h
    obtain ⟨names, hout, hfile, hnot, hbody, hown⟩ := serveMux_content_cases hmux
    obtain rfl : [storedName now filename] = names := (List.cons.inj hfile).2
    have hsent : path = byte '/' :: storedName now filename := by
      rcases hown with hown | hindex
      · rw [hown, hrooted]
      · exact absurd (Option.some.inj hindex) (storedName_ne (by decide) (by decide))
    have hbytes := pathBytes_of_unescape hshort hclean (hsent ▸ hpath)
    have hzero : 0 ∉ storedName now filename := hout.nonzero _ (List.mem_singleton_self _)
    exact ⟨hbody, hnot, fun c hc => ⟨hbytes c hc, fun hz => hzero (hz ▸ hc)⟩⟩
  · rintro ⟨hbody, hnot, hbytes⟩
    have hfree : ∀ c, c ∈ ascii "?% \n" → c ∉ storedName now filename :=
      fun c hc hm => (hbytes c hm).1 hc
    have hs : byte ' ' ∉ byte '/' :: storedName now filename :=
      List.not_mem_cons_of_ne_of_not_mem (by decide) (hfree _ (by decide))
    have hn : byte '\n' ∉ byte '/' :: storedName now filename :=
      List.not_mem_cons_of_ne_of_not_mem (by decide) (hfree _ (by decide))
    have hpct : ∀ c ∈ byte '/' :: storedName now filename, Plain .encodePath c := by
      intro c hc
      refine ⟨?_, fun h => nomatch h.2⟩
      rintro rfl
      exact hfree _ (by decide) (List.mem_of_ne_of_mem (by decide) hc)
    have hopen : dirOpen dirs files (rooted [storedName now filename]) =
        some (.file (contentPath (storedName now filename)) body) := by
      refine dirOpen_eq_file_iff.mpr ⟨nonzero_rooted_iff.mpr ?_, ?_, hnot, hbody⟩
      · simpa using fun hz => (hbytes 0 hz).2 rfl
      · rw [rootedNames_rooted hnames]
        rfl
    have hhandler : rooted [storedName now filename] ∉ handlerPaths := by
      rw [hrooted]
      intro hm
      simp only [handlerPaths, List.mem_cons, List.not_mem_nil, or_false] at hm
      rcases hm with hm | hm
      · exact storedName_ne (by decide) (by decide) (List.cons.inj hm).2
      · exact storedName_ne (by decide) (by decide) (List.cons.inj hm).2
    have hindex : [storedName now filename].getLast? ≠ some (ascii "index.html") :=
      fun h => storedName_ne (by decide) (by decide) (Option.some.inj h)
    rw [httpGet, readTarget_requestLine hs hn]
    dsimp only
    rw [serveGet_slash, upTo_of_not_mem (hfree _ (by decide)), unescape_of_plain hpct]
    dsimp only
    rw [← hrooted, serveMux_rooted hnames, if_neg hhandler]
    exact (serveFile_rooted_iff hnames (by simp)).mpr ⟨hindex, hopen⟩

end VideooServer.FileService
