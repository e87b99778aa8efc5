import Mathlib.Logic.Function.Basic
import SoongZip.Lib

/-!
# Constants, headers, entries and errors of `soong_zip`

`cmd/soong_zip/soong_zip.go`: the block and window sizes (lines 41–50), the manifest path
(line 66), `pathMapping` (74–77), `zipEntry` (208–217), the error texts of `addFile`,
`addManifest`, `writeDirectory` and `write`, and the parts of `zip.FileHeader` the tool sets
or reads. Sizes are unbounded naturals: `int64` overflow is outside the model.
-/

namespace SoongZip

/-- Block size used during parallel compression of a single file; `soong_zip.go:42`. -/
def parallelBlockSize : Nat := 1 * 1024 * 1024

/-- Minimum file size to use parallel compression; `soong_zip.go:47`. -/
def minParallelFileSize : Nat := parallelBlockSize * 6

/-- Size of the ZIP compression window (32KB); `soong_zip.go:50`. -/
def windowSize : Nat := 32 * 1024

/-- The file path in the zip at which a Java manifest file gets written; `soong_zip.go:66`. -/
def manifestDest : String := "META-INF/MANIFEST.MF"

/-! ### `zip` methods and `os.FileMode` bits -/

namespace Zip

/-- `zip.Store`: no compression. -/
def store : UInt16 := 0

/-- `zip.Deflate`: DEFLATE compression. -/
def deflate : UInt16 := 8

end Zip

/-- `os.ModeDir`. -/
def modeDir : Nat := 1 <<< 31

/-- `os.ModeSymlink`. -/
def modeSymlink : Nat := 1 <<< 27

/-- `os.ModeType`: the directory, symlink, named pipe, socket, device and character device bits. -/
def modeType : Nat := modeDir ||| modeSymlink ||| 1 <<< 25 ||| 1 <<< 24 ||| 1 <<< 26 ||| 1 <<< 21

/-- `FileMode.IsDir`. -/
def isDir (mode : Nat) : Bool := mode &&& modeDir != 0

/-- `FileMode.IsRegular`: no type bit is set. -/
def isRegular (mode : Nat) : Bool := mode &&& modeType == 0

/-! ### Errors -/

/-- The errors `write` can return. Filesystem and encoder failures carry their own text;
the others are the tool's `fmt.Errorf` and `errors.New` values and the `compress/flate`
level check. -/
inductive GoError where
  | io (text : String)
  | dirAndFile (dest dir file : String)
  | twoFiles (dest first second : String)
  | notAFile (src : String)
  | manifestNeedsJar
  | flateLevel (level : Int)
  deriving DecidableEq, Repr

/-- `%q` of a string without characters that need escaping. -/
def quote (s : String) : String := "\"" ++ s ++ "\""

/-- The error texts; `soong_zip.go:361,493,496,504,536,539,803` and `flate.NewWriter`. -/
def GoError.message : GoError → String
  | .io text => text
  | .dirAndFile dest dir file =>
    "destination " ++ quote dest ++ " is both a directory " ++ quote dir ++ " and a file " ++
      quote file
  | .twoFiles dest first second =>
    "destination " ++ quote dest ++ " has two files " ++ quote first ++ " and " ++ quote second
  | .notAFile src => src ++ " is not a file, directory, or symlink"
  | .manifestNeedsJar => "must specify --jar when specifying a manifest via -m"
  | .flateLevel level =>
    "flate: invalid compression level " ++ toString level ++ ": want value in range [-2, 9]"

/-! ### Headers and entries -/

/-- A wall-clock time as `time.Date` takes it, in UTC. -/
structure GoTime where
  year : Nat
  month : Nat
  day : Nat
  hour : Nat
  minute : Nat
  second : Nat
  deriving DecidableEq, Repr

/-- `timeToMsDosTime` of `archive/zip`: the MS-DOS date and time words. -/
def timeToMsDosTime (t : GoTime) : UInt16 × UInt16 :=
  ((t.day + t.month <<< 5 + (t.year - 1980) <<< 9).toUInt16,
    (t.second / 2 + t.minute <<< 5 + t.hour <<< 11).toUInt16)

/-- `z.time`, the modification time of every entry: 2009-01-01T00:00:00Z; `soong_zip.go:258`. -/
def zipTime : GoTime := ⟨2009, 1, 1, 0, 0, 0⟩

/-- The fields of `zip.FileHeader` that `soong_zip` sets or reads. `mode` is the `os.FileMode`
passed to `SetMode` (its encoding into the external attributes is the encoder's);
`modified` holds the MS-DOS date and time words set by `SetModTime`. Defaults are Go's zero
values. -/
structure FileHeader where
  name : String
  method : UInt16 := Zip.store
  crc32 : UInt32 := 0
  compressedSize64 : Nat := 0
  uncompressedSize64 : Nat := 0
  uncompressedSize : Nat := 0
  extra : List UInt8 := []
  mode : Option Nat := none
  modified : Option (UInt16 × UInt16) := none
  deriving DecidableEq, Repr

namespace FileHeader

/-- `FileHeader.SetModTime`. -/
def setModTime (h : FileHeader) (t : GoTime) : FileHeader :=
  { h with modified := some (timeToMsDosTime t) }

/-- `FileHeader.SetMode`. -/
def setMode (h : FileHeader) (mode : Nat) : FileHeader := { h with mode := some mode }

/-- The size `writeFileContents` splits on: `UncompressedSize64`, or `UncompressedSize` when
that is zero; `soong_zip.go:582–585`. -/
def fileSize (h : FileHeader) : Nat :=
  if h.uncompressedSize64 = 0 then h.uncompressedSize else h.uncompressedSize64

end FileHeader

/-- `zipWriter.addExtraField`: the field header and the data length, both little-endian,
then the data; `soong_zip.go:776–787`. -/
def addExtraField (zipHeader : FileHeader) (fieldHeader : UInt8 × UInt8) (data : List UInt8) :
    FileHeader :=
  let dataLength := data.length
  { zipHeader with
    extra := zipHeader.extra ++ [fieldHeader.2, fieldHeader.1] ++
      [(dataLength % 256).toUInt8, (dataLength / 256).toUInt8] ++ data }

/-- `zipEntry`; `soong_zip.go:208–217`. Channels are named by entry index, so
`futureReaders` holds the index of the entry whose reader list it is. -/
structure ZipEntry where
  fh : FileHeader
  futureReaders : Option Nat := none
  allocatedSize : Nat := 0
  deriving DecidableEq, Repr

/-- `pathMapping`; `soong_zip.go:74–77`. -/
structure PathMapping where
  dest : String
  src : String
  zipMethod : UInt16
  deriving DecidableEq, Repr

/-- The command-line settings `write` and the producer read: `-jar`, `z.directories` (set by
`-d`, and by `-jar` in `main`), `-j` and `-L`. -/
structure Options where
  emulateJar : Bool
  directories : Bool
  parallelJobs : Nat
  compLevel : Int
  deriving DecidableEq, Repr

/-- The jar extra field is the four bytes `0xFE 0xCA 0x00 0x00`. -/
theorem addExtraField_cafe (h : FileHeader) :
    (addExtraField h (0xca, 0xfe) []).extra = h.extra ++ [0xfe, 0xca, 0, 0] := by
  simp [addExtraField]
  rfl

end SoongZip
