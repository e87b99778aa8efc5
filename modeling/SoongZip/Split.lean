import SoongZip.Producer

/-!
# The block loop of a split DEFLATE entry

`zipWriter.writeFileContents`, `soong_zip.go:587–631`: a DEFLATE entry of at least
`minParallelFileSize` bytes is cut into `parallelBlockSize` sections, each compressed by its own
worker with the `windowSize` bytes before it as dictionary. When no window read fails,
`writeFileContents` makes a reader list with room for every block, the loop enqueues one reader
slot per block, in order, and the sections tile the file.
-/

namespace SoongZip

/-- `⌈fileSize / parallelBlockSize⌉`, the number of blocks of a file. -/
def blockCount (fileSize : Nat) : Nat := (fileSize + parallelBlockSize - 1) / parallelBlockSize

/-- The dictionary of the block at `start`: none inside the first window, else the `windowSize`
bytes before `start`; `soong_zip.go:612–618`. -/
def blockDict (env : Env) (r : Source) (start : Nat) : List UInt8 :=
  if start ≥ windowSize then readSlice (.dict start) (env.data r) else []

/-- The operations of block `j` when its window read succeeds: enqueue its reader slot, take a
CPU permit, start its worker. -/
def blockActions (env : Env) (k : Nat) (r : Source) (fileSize j : Nat) : List Action :=
  [.sendReader k j, .cpuRequest k,
    .spawn (.compressPartialFile k j r (j * parallelBlockSize)
      (blockDict env r (j * parallelBlockSize))
      (!decide (j * parallelBlockSize + parallelBlockSize < fileSize)))]

/-- The bytes `[start, min(start + parallelBlockSize, fileSize))` a section reader covers. -/
def sectionRange (fileSize start : Nat) : List Nat :=
  List.range' start (min (start + parallelBlockSize) fileSize - start)

/-- A block start lies inside the file exactly for the first `blockCount` blocks. -/
theorem lt_fileSize_iff (fileSize j : Nat) :
    j * parallelBlockSize < fileSize ↔ j < blockCount fileSize := by
  simp only [blockCount, parallelBlockSize]
  omega

/-- A block that starts inside the file is one of the blocks of the rest of the file. -/
theorem blockCount_sub_of_lt {fileSize start : Nat} (h : start < fileSize) :
    blockCount (fileSize - start) = blockCount (fileSize - (start + parallelBlockSize)) + 1 := by
  simp only [blockCount, parallelBlockSize]
  omega

theorem blockCount_sub_of_le {fileSize start : Nat} (h : ¬start < fileSize) :
    blockCount (fileSize - start) = 0 := by
  simp only [blockCount, parallelBlockSize]
  omega

/-- From block `j` on, a loop whose window reads succeed runs every remaining block. -/
theorem blockLoop_eq (env : Env) (k : Nat) (r : Source) (fileSize : Nat)
    (hread : ∀ s, env.read r (.dict s) = .ok (readSlice (.dict s) (env.data r))) (j : Nat) :
    blockLoop env k r fileSize (j * parallelBlockSize) j =
      ((List.range' j (blockCount fileSize - j)).flatMap (blockActions env k r fileSize), none) := by
  obtain ⟨n, h⟩ : ∃ n, blockCount fileSize - j = n := ⟨_, rfl⟩
  induction n generalizing j with
  | zero =>
    have hj : ¬ j * parallelBlockSize < fileSize := by rw [lt_fileSize_iff]; omega
    rw [blockLoop]
    simp [hj, h]
  | succ n ih =>
    have hj : j * parallelBlockSize < fileSize := by rw [lt_fileSize_iff]; omega
    have hd : (if j * parallelBlockSize ≥ windowSize then env.read r (.dict (j * parallelBlockSize))
        else .ok []) = .ok (blockDict env r (j * parallelBlockSize)) := by
      unfold blockDict
      split <;> simp [hread]
    have hn : blockCount fileSize - (j + 1) = n := by omega
    have hnext := ih (j + 1) hn
    rw [Nat.succ_mul, hn] at hnext
    rw [blockLoop]
    simp only [hj, ↓reduceIte, hd, hnext, h, List.range'_succ, List.flatMap_cons, blockActions]
    simp

/-- The sections of the first `c` blocks tile the first `min (c * parallelBlockSize) n` bytes. -/
theorem sectionRange_tiles (n : Nat) : ∀ c : Nat,
    (List.range c).flatMap (fun j => sectionRange n (j * parallelBlockSize)) =
      List.range (min (c * parallelBlockSize) n)
  | 0 => by simp
  | c + 1 => by
    rw [List.range_succ, List.flatMap_append, sectionRange_tiles n c, List.flatMap_singleton,
      sectionRange, List.range_eq_range', List.range_eq_range']
    by_cases hc : c * parallelBlockSize ≤ n
    · have h := List.range'_append 0 (c * parallelBlockSize)
        (min (c * parallelBlockSize + parallelBlockSize) n - c * parallelBlockSize) 1
      simp only [Nat.one_mul, Nat.zero_add] at h
      rw [Nat.min_eq_left hc, h, Nat.succ_mul]
      congr 1
      omega
    · have h0 : min (c * parallelBlockSize + parallelBlockSize) n - c * parallelBlockSize = 0 := by
        omega
      have h1 : min ((c + 1) * parallelBlockSize) n = n := by rw [Nat.succ_mul]; omega
      rw [h0, List.range'_zero, List.append_nil, h1, Nat.min_eq_right (by omega)]

/-- What the block loop of a split entry does when no window read fails: one reader slot per
block of the file, enqueued in block order; sections that tile the file; the last flag on the
final block only; no dictionary for the first block and the `windowSize` bytes before the start
for every other; `writeFileContents`, for a DEFLATE header of that size and at least
`minParallelFileSize` bytes, makes `ze.futureReaders` with capacity
`fileSize / parallelBlockSize + 1`, starts the CRC worker, runs that loop and closes the reader
list; and the loop has no more blocks than that capacity. -/
structure BlockLoopSpec (env : Env) (k : Nat) (r : Source) (fileSize : Nat) : Prop where
  actions : blockLoop env k r fileSize 0 0 =
    ((List.range (blockCount fileSize)).flatMap (blockActions env k r fileSize), none)
  tiles : (List.range (blockCount fileSize)).flatMap
    (fun j => sectionRange fileSize (j * parallelBlockSize)) = List.range fileSize
  last : ∀ j < blockCount fileSize,
    (!decide (j * parallelBlockSize + parallelBlockSize < fileSize)) =
      decide (j + 1 = blockCount fileSize)
  firstDict : blockDict env r 0 = []
  dict : ∀ j, 0 < j → blockDict env r (j * parallelBlockSize) =
    ((env.data r).drop (j * parallelBlockSize - windowSize)).take windowSize
  branch : ∀ (t : Tracker) (header : FileHeader), t.nextEntry = k → header.fileSize = fileSize →
    header.method = Zip.deflate → minParallelFileSize ≤ fileSize →
    writeFileContents env t header r =
      ⟨{ t with nextEntry := k + 1 },
        [.sendWriteOp k, .cpuRequest k, .memRequest k header.uncompressedSize64,
          .makeReaders k (fileSize / parallelBlockSize + 1),
          .spawn (.crcFile k r
            { fh := header.setModTime zipTime, futureReaders := some k,
              allocatedSize := header.uncompressedSize64 })] ++
        (List.range (blockCount fileSize)).flatMap (blockActions env k r fileSize) ++
        [.closeReaders k], none⟩
  capacity : blockCount fileSize ≤ fileSize / parallelBlockSize + 1

/-- The block loop meets `BlockLoopSpec` for every file size whenever no window read fails. -/
theorem blockLoop_spec (env : Env) (k : Nat) (r : Source) (fileSize : Nat)
    (hread : ∀ s, env.read r (.dict s) = .ok (readSlice (.dict s) (env.data r))) :
    BlockLoopSpec env k r fileSize where
  actions := by simpa [List.range_eq_range'] using blockLoop_eq env k r fileSize hread 0
  branch t header hk hfs hdef hmin := by
    have hl : blockLoop env k r fileSize 0 0 =
        ((List.range (blockCount fileSize)).flatMap (blockActions env k r fileSize), none) := by
      simpa [List.range_eq_range'] using blockLoop_eq env k r fileSize hread 0
    subst hk hfs
    have hc : (header.setModTime zipTime).method = Zip.deflate ∧
        (header.setModTime zipTime).fileSize ≥ minParallelFileSize := ⟨hdef, hmin⟩
    simp only [writeFileContents, if_pos hc]
    rw [show (header.setModTime zipTime).fileSize = header.fileSize from rfl, hl]
    rfl
  tiles := by
    rw [sectionRange_tiles]
    congr 1
    simp only [blockCount, parallelBlockSize]
    omega
  last j hj := by
    simp only [blockCount, parallelBlockSize] at hj ⊢
    by_cases h : j * (1 * 1024 * 1024) + 1 * 1024 * 1024 < fileSize <;> simp [h] <;> omega
  firstDict := rfl
  dict j hj := by
    have hw : j * parallelBlockSize ≥ windowSize := by
      simp only [parallelBlockSize, windowSize]
      omega
    simp [blockDict, hw, readSlice]
  capacity := by
    simp only [blockCount, parallelBlockSize]
    omega

/-- A file of `minParallelFileSize` bytes, six blocks, read from memory, where no read fails. -/
theorem blockLoop_spec_six_blocks :
    (∀ s, Env.read (Env.healthy fun _ => none) (.bytes (List.replicate minParallelFileSize 7))
        (.dict s) = .ok (readSlice (.dict s) (Env.data (Env.healthy fun _ => none)
          (.bytes (List.replicate minParallelFileSize 7))))) ∧
      BlockLoopSpec (Env.healthy fun _ => none) 0 (.bytes (List.replicate minParallelFileSize 7))
        minParallelFileSize :=
  ⟨fun _ => rfl, blockLoop_spec (Env.healthy fun _ => none) 0
    (.bytes (List.replicate minParallelFileSize 7)) minParallelFileSize fun _ => rfl⟩

end SoongZip
