import SoongZip.Env

/-!
# Goroutine actions and the compression workers

The operations on shared state that the producer and the workers perform, in the order
`soong_zip.go` performs them, and the workers `crcFile`, `compressPartialFile`,
`compressBlock` and `compressWholeFile` (lines 641–774). A worker reads only the environment
and its own arguments, so its whole sequence of shared operations is fixed when it is spawned:
each worker is modelled by that sequence, its script.

Channels are named by entry index: entry `k`'s `compressChan` (or the pre-filled slot of a
directory or symlink), its `futureReaders`, and the reader slot of its block `j`.
-/

namespace SoongZip

/-- A goroutine started by the producer: `go z.crcFile(...)`, `go z.compressPartialFile(...)`
or the closure around `z.compressWholeFile(...)`. The section reader of a partial task is
`io.NewSectionReader(r, start, parallelBlockSize)`. -/
inductive Task where
  | crcFile (k : Nat) (r : Source) (ze : ZipEntry)
  | compressPartialFile (k j : Nat) (r : Source) (start : Nat) (dict : List UInt8) (last : Bool)
  | compressWholeFile (k : Nat) (ze : ZipEntry) (r : Source)
  deriving DecidableEq, Repr

/-- One operation on shared state. Sends and closes name their channel by entry index;
`cpuRequest`, `cpuFinish` and `memRequest` carry the entry they are made for. -/
inductive Action where
  /-- `z.writeOps <- slot k` -/
  | sendWriteOp (k : Nat)
  /-- `close(z.writeOps)` -/
  | closeWriteOps
  /-- `slot k <- ze` -/
  | sendEntry (k : Nat) (ze : ZipEntry)
  /-- `close(slot k)` -/
  | closeEntry (k : Nat)
  /-- `futureReaders of k := make(chan chan io.Reader, cap)` -/
  | makeReaders (k cap : Nat)
  /-- `futureReaders of k <- reader slot (k, j)` -/
  | sendReader (k j : Nat)
  /-- `close(futureReaders of k)` -/
  | closeReaders (k : Nat)
  /-- `reader slot (k, j) <- data` -/
  | sendData (k j : Nat) (data : List UInt8)
  /-- `close(reader slot (k, j))` -/
  | closeData (k j : Nat)
  /-- `z.cpuRateLimiter.Request()` -/
  | cpuRequest (k : Nat)
  /-- `z.cpuRateLimiter.Finish()` -/
  | cpuFinish (k : Nat)
  /-- `z.memoryRateLimiter.Request(n)` -/
  | memRequest (k n : Nat)
  /-- `go ...` -/
  | spawn (t : Task)
  /-- `z.errors <- e` -/
  | sendError (e : GoError)
  /-- a loop that has not finished -/
  | hang
  deriving DecidableEq, Repr

/-- `zipWriter.compressBlock`; `soong_zip.go:671–703`. Creating the `flate` writer fails
only on an invalid level, for a pooled and a dictionary writer alike. `z.compressorPool` is not
modelled. For a level in `[-2, 9]` a pooled writer after `Reset` writes what a new one writes.
For a level outside it, the deferred `Put` of a failed `flate.NewWriter` stores a nil
`*flate.Writer`, and a later call without a dictionary that gets it from the pool panics in
`fw.Reset` (lines 681–686); this model returns the level error for every such call, so under an
invalid `-L` it misses that panic. -/
def compressBlock (env : Env) (level : Int) (input : Except GoError (List UInt8))
    (dict : List UInt8) (last : Bool) : Except GoError (List UInt8) :=
  if -2 ≤ level ∧ level ≤ 9 then input.map (env.flate level dict · last)
  else .error (.flateLevel level)

/-- `zipWriter.crcFile`; `soong_zip.go:641–655`. The deferred `Finish` runs on both paths. -/
def crcFile (env : Env) (k : Nat) (r : Source) (ze : ZipEntry) : List Action :=
  match env.read r .crc with
  | .error e => [.sendError e, .cpuFinish k]
  | .ok data =>
    [.sendEntry k { ze with fh := { ze.fh with crc32 := Crc32.checksumIEEE data } },
      .closeEntry k, .cpuFinish k]

/-- `zipWriter.compressPartialFile`; `soong_zip.go:657–669`. -/
def compressPartialFile (env : Env) (level : Int) (k j : Nat) (r : Source) (start : Nat)
    (dict : List UInt8) (last : Bool) : List Action :=
  match compressBlock env level (env.read r (.section start)) dict last with
  | .error e => [.sendError e]
  | .ok result => [.cpuFinish k, .sendData k j result]

/-- `readFile` inside `compressWholeFile`: rewind, then read everything. -/
def readFile (env : Env) (r : Source) : Except GoError (List UInt8) :=
  match env.read r .reseek with
  | .error e => .error e
  | .ok _ => env.read r .reread

/-- The end of `compressWholeFile` once its one reader slot holds `payload`. -/
def wholeFileTail (k : Nat) (ze : ZipEntry) (fh : FileHeader) (payload : List UInt8) :
    List Action :=
  [.sendData k 0 payload, .cpuFinish k, .closeData k 0,
    .sendEntry k { ze with fh := fh, futureReaders := some k }, .closeEntry k]

/-- The stored branch of `compressWholeFile`: re-read the source and mark the entry `Store`. -/
def wholeFileStored (env : Env) (k : Nat) (ze : ZipEntry) (fh : FileHeader) (r : Source) :
    List Action :=
  match readFile env r with
  | .error e => [.sendError e]
  | .ok buf => wholeFileTail k ze { fh with method := Zip.store } buf

/-- `zipWriter.compressWholeFile`; `soong_zip.go:705–774`. On an error it returns without
`Finish`. -/
def compressWholeFile (env : Env) (level : Int) (k : Nat) (ze : ZipEntry) (r : Source) :
    List Action :=
  match env.read r .crc with
  | .error e => [.sendError e]
  | .ok data =>
    let fh := { ze.fh with crc32 := Crc32.checksumIEEE data }
    match env.read r .seek with
    | .error e => [.sendError e]
    | .ok _ =>
      [.makeReaders k 1, .sendReader k 0, .closeReaders k] ++
        if fh.method = Zip.deflate then
          match compressBlock env level (env.read r .compress) [] true with
          | .error e => [.sendError e]
          | .ok compressed =>
            if compressed.length < fh.uncompressedSize64 then wholeFileTail k ze fh compressed
            else wholeFileStored env k ze fh r
        else wholeFileStored env k ze fh r

/-- The script of a spawned goroutine. -/
def taskScript (env : Env) (level : Int) : Task → List Action
  | .crcFile k r ze => crcFile env k r ze
  | .compressPartialFile k j r start dict last => compressPartialFile env level k j r start dict last
  | .compressWholeFile k ze r => compressWholeFile env level k ze r

end SoongZip
