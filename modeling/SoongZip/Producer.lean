import Mathlib.Data.List.Sort
import Mathlib.Data.List.Infix
import SoongZip.Worker

/-!
# The producer goroutine

`addFile`, `addManifest`, `writeDirectory`, `writeSymlink` and `writeFileContents`
(`soong_zip.go:476–639,789–867`) and the goroutine of `write` that calls them for every path
mapping (lines 370–385). The producer reads only its own bookkeeping (`z.createdDirs`,
`z.createdFiles`) and the environment, so each call is modelled by the shared operations it
performs, in order, and the error it returns.
-/

namespace SoongZip

/-- The producer's own state: `z.createdFiles`, `z.createdDirs`, and the index the next entry
gets, by which its channels are named. -/
structure Tracker where
  createdFiles : String → Option String
  createdDirs : String → Option String
  nextEntry : Nat

/-- The maps of a fresh `zipWriter`; `soong_zip.go:257–263`. -/
def Tracker.empty : Tracker := ⟨fun _ => none, fun _ => none, 0⟩

/-- What a producer call leaves: the tracker, the shared operations it performed in order, and
the error it returned. -/
structure Emitted where
  tracker : Tracker
  actions : List Action
  error : Option GoError := none

/-- The operations `acts`, then the call `e`. -/
def Emitted.after (acts : List Action) (e : Emitted) : Emitted :=
  { e with actions := acts ++ e.actions }

/-! ### `writeDirectory` -/

/-- Where the ancestor loop of `writeDirectory` stops: the tracker, the last `dir`, the
uncreated directories parents first, and the error it returns with. -/
structure DirLoop where
  tracker : Tracker
  dir : String
  zipDirs : List String
  error : Option GoError := none

/-- The ancestor loop of `writeDirectory` (`soong_zip.go:797–811`), for at most `fuel`
rounds; `none` when they run out. -/
def dirLoop (src : String) : Nat → Tracker → String → List String → Option DirLoop
  | 0, _, _, _ => none
  | fuel + 1, t, dir, zipDirs =>
    if dir ≠ "" ∧ dir ≠ "." then
      match t.createdDirs dir with
      | some _ => some ⟨t, dir, zipDirs, none⟩
      | none =>
        match t.createdFiles dir with
        | some prev => some ⟨t, dir, zipDirs, some (.dirAndFile dir src prev)⟩
        | none =>
          dirLoop src fuel { t with createdDirs := Function.update t.createdDirs dir (some src) }
            (Filepath.dir dir) (dir :: zipDirs)
    else some ⟨t, dir, zipDirs, none⟩

/-- The entry `writeDirectory` pushes for `cleanDir`. The jar extra field is added when `dir`,
the loop variable after the ancestor loop, is `"META-INF/"`; `soong_zip.go:815–830`. -/
def dirEntry (opts : Options) (dir cleanDir : String) : ZipEntry :=
  let dirHeader : FileHeader :=
    (({ name := cleanDir ++ "/" } : FileHeader).setMode (0o700 ||| modeDir)).setModTime zipTime
  { fh := if opts.emulateJar ∧ dir = "META-INF/" then addExtraField dirHeader (0xca, 0xfe) []
      else dirHeader }

/-- Push a pre-filled, closed slot for each directory of `zipDirs`, in order. -/
def pushDirs (opts : Options) (dir : String) : Tracker → List String → Tracker × List Action
  | t, [] => (t, [])
  | t, cleanDir :: rest =>
    let k := t.nextEntry
    let (t', acts) := pushDirs opts dir { t with nextEntry := k + 1 } rest
    (t', [.sendEntry k (dirEntry opts dir cleanDir), .closeEntry k, .sendWriteOp k] ++ acts)

/-- `zipWriter.writeDirectory`; `soong_zip.go:791–837`. The ancestor loop runs with a fuel of
the cleaned path's length plus two. -/
def writeDirectory (opts : Options) (t : Tracker) (dir src : String) : Option Emitted :=
  let dir := Filepath.clean dir
  (dirLoop src (dir.length + 2) t dir []).map fun l =>
    match l.error with
    | some e => ⟨l.tracker, [], some e⟩
    | none =>
      if opts.directories then
        let pushed := pushDirs opts l.dir l.tracker l.zipDirs
        ⟨pushed.1, pushed.2, none⟩
      else ⟨l.tracker, [], none⟩

/-! ### Symlinks and file contents -/

/-- `zipWriter.writeSymlink`; `soong_zip.go:839–867`. -/
def writeSymlink (env : Env) (t : Tracker) (rel file : String) : Emitted :=
  let fileHeader : FileHeader :=
    (({ name := rel } : FileHeader).setModTime zipTime).setMode (0o700 ||| modeSymlink)
  match env.readlink file with
  | .error e => ⟨t, [], some e⟩
  | .ok dest =>
    let k := t.nextEntry
    ⟨{ t with nextEntry := k + 1 },
      [.makeReaders k 1, .sendReader k 0, .closeReaders k, .sendData k 0 (bytesOf dest),
        .closeData k 0, .sendEntry k { fh := fileHeader, futureReaders := some k },
        .closeEntry k, .sendWriteOp k], none⟩

/-- The block loop of `writeFileContents` from offset `start`, block `j`;
`soong_zip.go:604–622`. It returns the error of a failed dictionary read. -/
def blockLoop (env : Env) (k : Nat) (r : Source) (fileSize start j : Nat) :
    List Action × Option GoError :=
  if start < fileSize then
    let last := !(start + parallelBlockSize < fileSize)
    let pre := [Action.sendReader k j, .cpuRequest k]
    let dict : Except GoError (List UInt8) :=
      if start ≥ windowSize then env.read r (.dict start) else .ok []
    match dict with
    | .error e => (pre, some e)
    | .ok dict =>
      Prod.map (pre ++ .spawn (.compressPartialFile k j r start dict last) :: ·) id
        (blockLoop env k r fileSize (start + parallelBlockSize) (j + 1))
  else ([], none)
termination_by fileSize - start
decreasing_by simp only [parallelBlockSize]; omega

/-- `zipWriter.writeFileContents`; `soong_zip.go:565–639`. -/
def writeFileContents (env : Env) (t : Tracker) (header : FileHeader) (r : Source) : Emitted :=
  let header := header.setModTime zipTime
  let k := t.nextEntry
  let t := { t with nextEntry := k + 1 }
  let ze : ZipEntry := { fh := header, allocatedSize := header.uncompressedSize64 }
  let pre := [Action.sendWriteOp k, .cpuRequest k, .memRequest k ze.allocatedSize]
  let fileSize := header.fileSize
  if header.method = Zip.deflate ∧ fileSize ≥ minParallelFileSize then
    let blocks := blockLoop env k r fileSize 0 0
    ⟨t, pre ++ [.makeReaders k (fileSize / parallelBlockSize + 1),
        .spawn (.crcFile k r { ze with futureReaders := some k })] ++ blocks.1 ++
      (if blocks.2.isSome then [] else [.closeReaders k]), blocks.2⟩
  else ⟨t, pre ++ [.spawn (.compressWholeFile k ze r)], none⟩

/-! ### `addFile` and `addManifest` -/

/-- `addFile` after the parent directories: the duplicate checks, then a symlink or a regular
file; `soong_zip.go:492–526`. -/
def addNonDir (env : Env) (t : Tracker) (dest src : String) (method : UInt16) (s : FileInfo) :
    Emitted :=
  match t.createdDirs dest with
  | some prev => ⟨t, [], some (.dirAndFile dest prev src)⟩
  | none =>
    match t.createdFiles dest with
    | some prev => ⟨t, [], some (.twoFiles dest prev src)⟩
    | none =>
      let t := { t with createdFiles := Function.update t.createdFiles dest (some src) }
      if s.mode &&& modeSymlink ≠ 0 then writeSymlink env t dest src
      else if !isRegular s.mode then ⟨t, [], some (.notAFile src)⟩
      else
        match env.openFile src with
        | some e => ⟨t, [], some e⟩
        | none =>
          let header : FileHeader := { name := dest, method := method, uncompressedSize64 := s.size }
          let header := if s.mode &&& 0o100 ≠ 0 then header.setMode 0o700 else header
          writeFileContents env t header (.file src)

/-- `zipWriter.addFile`; `soong_zip.go:476–527`. -/
def addFile (env : Env) (opts : Options) (t : Tracker) (dest src : String) (method : UInt16) :
    Option Emitted :=
  match env.lstat src with
  | .error e => some ⟨t, [], some e⟩
  | .ok s =>
    if isDir s.mode then
      if opts.directories then writeDirectory opts t dest src else some ⟨t, [], none⟩
    else
      (writeDirectory opts t (Filepath.dir dest) src).map fun w =>
        match w.error with
        | some _ => w
        | none => Emitted.after w.actions (addNonDir env w.tracker dest src method s)

/-- `Manifest-Version:`, the marker `addManifest` looks for. -/
def manifestMarker : List UInt8 := bytesOf "Manifest-Version:"

/-- The bytes `addManifest` writes: the given manifest if it contains the marker, otherwise a
synthesized header, the given bytes and a newline; `soong_zip.go:542–550`. -/
def manifestBytes (givenBytes : List UInt8) : List UInt8 :=
  if manifestMarker <:+: givenBytes then givenBytes
  else manifestMarker ++ bytesOf " 1.0\nCreated-By: soong_zip\n" ++ givenBytes ++ [10]

/-- `zipWriter.addManifest`; `soong_zip.go:529–563`. The method argument is not read: the
manifest is stored. -/
def addManifest (env : Env) (t : Tracker) (dest src : String) (_method : UInt16) : Emitted :=
  match env.readFile src with
  | .error e => ⟨t, [], some e⟩
  | .ok givenBytes =>
    match t.createdDirs dest with
    | some prev => ⟨t, [], some (.dirAndFile dest prev src)⟩
    | none =>
      match t.createdFiles dest with
      | some prev => ⟨t, [], some (.twoFiles dest prev src)⟩
      | none =>
        let finalBytes := manifestBytes givenBytes
        writeFileContents env t
          { name := dest, method := Zip.store, uncompressedSize64 := finalBytes.length }
          (.bytes finalBytes)

/-! ### The goroutine and the jar order -/

/-- The producer goroutine of `write`; `soong_zip.go:370–385`. An error is sent on `z.errors`
before the deferred `close(z.writeOps)`. -/
def producer (env : Env) (opts : Options) : Tracker → List PathMapping → List Action
  | _, [] => [.closeWriteOps]
  | t, ele :: rest =>
    let call :=
      if opts.emulateJar ∧ ele.dest = manifestDest then
        some (addManifest env t ele.dest ele.src ele.zipMethod)
      else addFile env opts t ele.dest ele.src ele.zipMethod
    match call with
    | none => [.hang]
    | some e =>
      match e.error with
      | some err => e.actions ++ [.sendError err, .closeWriteOps]
      | none => e.actions ++ producer env opts e.tracker rest

/-- Modelled from the spec: the group of a name in `jar.EntryNamesLess` (package
`android/soong/jar`, not under src/): `META-INF/`, then `META-INF/MANIFEST.MF`, then the rest
of `META-INF/`, then everything else. -/
def jarIndex (name : String) : Nat :=
  if name = "META-INF/" then 0
  else if name = manifestDest then 1
  else if "META-INF/".isPrefixOf name then 2
  else 3

/-- Go's `<` on strings: the lexicographic order of their UTF-8 bytes, which is the order of
their code points. -/
def stringLess : List Char → List Char → Bool
  | [], [] => false
  | [], _ :: _ => true
  | _ :: _, [] => false
  | c :: cs, d :: ds => if c = d then stringLess cs ds else decide (c.toNat < d.toNat)

/-- Modelled from the spec: `jar.EntryNamesLess`, by group and then by name. -/
def entryNamesLess (a b : String) : Bool :=
  if jarIndex a = jarIndex b then stringLess a.toList b.toList
  else decide (jarIndex a < jarIndex b)

/-- `jarSort`: a stable sort of the mappings by `entryNamesLess` of their destinations;
`soong_zip.go:309–314`. -/
def jarSort (mappings : List PathMapping) : List PathMapping :=
  mappings.insertionSort fun a b => entryNamesLess b.dest a.dest = false

end SoongZip
