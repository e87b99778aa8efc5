import SoongZip.Basic

/-!
# The environment: filesystem, DEFLATE encoder and ZIP encoder

Everything `soong_zip.go` reaches outside itself, as operations that may fail: `os.Lstat`,
`os.Open` and reads of an open file, `ioutil.ReadFile`, `os.Readlink`, `os.Create`, the
`compress/flate` writer, and the calls of `zipWriter.write` on the ZIP encoder. Which of them
fail, and what the DEFLATE encoder outputs, are parameters: every theorem holds for every
environment.
-/

namespace SoongZip

/-- What `os.Lstat` reports: the `os.FileMode` bits and the size. -/
structure FileInfo where
  mode : Nat
  size : Nat
  deriving DecidableEq, Repr

/-- The reads `soong_zip` makes of an open source: the CRC pass, the rewind after it, the
DEFLATE pass, the rewind and re-read of `readFile`, a block section from an offset, and a
window dictionary ending at an offset. -/
inductive ReadOp where
  | crc
  | seek
  | compress
  | reseek
  | reread
  | section (start : Nat)
  | dict (start : Nat)
  deriving DecidableEq, Repr

/-- The `readerSeekerCloser` an entry is read from: an opened file, or the in-memory
`byteReaderCloser` of the manifest. -/
inductive Source where
  | file (path : String)
  | bytes (data : List UInt8)
  deriving DecidableEq, Repr

/-- The writer `write` keeps for the current entry: the encoder's own writer of a
compressed entry, or `nopCloser` around the writer of a stored one. -/
inductive EntryWriter where
  | compressed
  | stored
  deriving DecidableEq, Repr

/-- The calls `zipWriter.write` makes on the output: `CreateCompressedHeader`,
`CreateHeaderAndroid`, `io.Copy` into the current writer, `currentWriter.Close` and
`zipw.Close`. This list is the archive as the encoder receives it. -/
inductive OutCall where
  | createCompressedHeader (fh : FileHeader)
  | createHeaderAndroid (fh : FileHeader)
  | copy (data : List UInt8)
  | closeEntry (w : EntryWriter)
  | closeArchive
  deriving DecidableEq, Repr

/-- The header of an entry-creating call. -/
def OutCall.header? : OutCall → Option FileHeader
  | .createCompressedHeader fh => some fh
  | .createHeaderAndroid fh => some fh
  | _ => none

/-- The world outside the tool. `content` is what reading an open file yields; `readFault`
says which reads of it fail; `flate level dict data last` is the DEFLATE encoder's output
after `Close` (`last`) or `Flush`; `outFault before call` says whether an output call fails
after the calls `before`. -/
structure Env where
  lstat : String → Except GoError FileInfo
  openFile : String → Option GoError
  content : String → List UInt8
  readFault : String → ReadOp → Option GoError
  readFile : String → Except GoError (List UInt8)
  readlink : String → Except GoError String
  create : String → Option GoError
  flate : Int → List UInt8 → List UInt8 → Bool → List UInt8
  outFault : List OutCall → OutCall → Option GoError

/-- The bytes a read of `ReadOp` sees in a source holding `data`: all of it for the whole-file
passes, a `parallelBlockSize` section from `start`, or the `windowSize` bytes before `start`.
Rewinds see nothing. -/
def readSlice : ReadOp → List UInt8 → List UInt8
  | .section start, data => (data.drop start).take parallelBlockSize
  | .dict start, data => (data.drop (start - windowSize)).take windowSize
  | .seek, _ => []
  | .reseek, _ => []
  | _, data => data

namespace Env

/-- A read of an open source; the in-memory manifest never fails. -/
def read (env : Env) : Source → ReadOp → Except GoError (List UInt8)
  | .file path, op =>
    match env.readFault path op with
    | some e => .error e
    | none => .ok (readSlice op (env.content path))
  | .bytes data, op => .ok (readSlice op data)

/-- The whole content of a source. -/
def data (env : Env) : Source → List UInt8
  | .file path => env.content path
  | .bytes data => data

/-- What a path holds on a filesystem on which nothing fails. -/
inductive Node where
  | dir
  | file (data : List UInt8) (executable : Bool)
  | symlink (target : String)
  deriving DecidableEq, Repr

/-- A filesystem holding `nodes` on which nothing fails, an output that can always be written,
and a DEFLATE encoder that copies its input. -/
def healthy (nodes : String → Option Node) : Env where
  lstat p := match nodes p with
    | none => .error (.io ("lstat " ++ p ++ ": no such file or directory"))
    | some .dir => .ok ⟨modeDir ||| 0o755, 4096⟩
    | some (.file d x) => .ok ⟨if x then 0o755 else 0o644, d.length⟩
    | some (.symlink t) => .ok ⟨modeSymlink ||| 0o777, (bytesOf t).length⟩
  openFile _ := none
  content p := match nodes p with
    | some (.file d _) => d
    | _ => []
  readFault _ _ := none
  readFile p := match nodes p with
    | some (.file d _) => .ok d
    | _ => .error (.io ("open " ++ p ++ ": not a regular file"))
  readlink p := match nodes p with
    | some (.symlink t) => .ok t
    | _ => .error (.io ("readlink " ++ p ++ ": invalid argument"))
  create _ := none
  flate _ _ data _ := data
  outFault _ _ := none

/-- A read that succeeds sees its slice of the source's content. -/
theorem read_ok (env : Env) (r : Source) (op : ReadOp) {v : List UInt8}
    (h : env.read r op = .ok v) : v = readSlice op (env.data r) := by
  cases r with
  | file path =>
    simp only [read] at h
    split at h <;> simp_all [data]
  | bytes d => simp_all [read, data]

end Env

end SoongZip
