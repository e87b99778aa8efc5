import SoongZip.Write
import SoongZip.Ancestors

/-!
# The entries the producer and the workers publish

What each producer call and each worker puts in an entry's header and reader slots, over all
inputs: the CRC and sizes of regular files, the bookkeeping of `addManifest`, and the extra
field of directory entries (`soong_zip.go:476–563,641–867`). Each general statement is
followed by runs of `write` that show its consequence on a concrete input.
-/

namespace SoongZip

/-! ### Regular files: CRC, size and stored bytes -/

private theorem readFile_ok {env : Env} {r : Source} {buf : List UInt8}
    (h : readFile env r = .ok buf) : buf = env.data r := by
  unfold readFile at h
  split at h
  · cases h
  · exact Env.read_ok env r _ h

/-- The stored branch of a whole-file worker fails, or publishes the whole source. -/
theorem wholeFileStored_cases (env : Env) (k : Nat) (ze : ZipEntry) (fh : FileHeader)
    (r : Source) :
    (∃ e, wholeFileStored env k ze fh r = [.sendError e]) ∨
      wholeFileStored env k ze fh r =
        wholeFileTail k ze { fh with method := Zip.store } (env.data r) := by
  unfold wholeFileStored
  split
  · exact .inl ⟨_, rfl⟩
  · rename_i buf hbuf
    exact .inr (by rw [readFile_ok hbuf])

/-- Everything a whole-file worker can do: fail before its reader list exists, fail after, or
publish one reader slot and an entry whose header has the CRC-32 of the whole source and the
given uncompressed size, holding the whole source when it is stored. -/
theorem compressWholeFile_cases (env : Env) (level : Int) (k : Nat) (ze : ZipEntry) (r : Source) :
    (∃ e, compressWholeFile env level k ze r = [.sendError e]) ∨
      (∃ e, compressWholeFile env level k ze r =
        [.makeReaders k 1, .sendReader k 0, .closeReaders k, .sendError e]) ∨
      ∃ fh payload, compressWholeFile env level k ze r =
          [.makeReaders k 1, .sendReader k 0, .closeReaders k] ++ wholeFileTail k ze fh payload ∧
        fh.crc32 = Crc32.checksumIEEE (env.data r) ∧
        fh.uncompressedSize64 = ze.fh.uncompressedSize64 ∧
        (fh.method = Zip.store → payload = env.data r) := by
  unfold compressWholeFile
  cases hcrc : env.read r .crc with
  | error e => exact .inl ⟨e, rfl⟩
  | ok data =>
    obtain rfl : data = env.data r := Env.read_ok env r .crc hcrc
    cases hseek : env.read r .seek with
    | error e => exact .inl ⟨e, rfl⟩
    | ok _ =>
      dsimp only
      generalize hfh : { ze.fh with crc32 := Crc32.checksumIEEE (env.data r) } = fh
      have hc : fh.crc32 = Crc32.checksumIEEE (env.data r) := by rw [← hfh]
      have hu : fh.uncompressedSize64 = ze.fh.uncompressedSize64 := by rw [← hfh]
      have stored : (∃ e, [Action.makeReaders k 1, .sendReader k 0, .closeReaders k] ++
            wholeFileStored env k ze fh r =
              [.makeReaders k 1, .sendReader k 0, .closeReaders k, .sendError e]) ∨
          ∃ fh' payload, [Action.makeReaders k 1, .sendReader k 0, .closeReaders k] ++
              wholeFileStored env k ze fh r =
                [.makeReaders k 1, .sendReader k 0, .closeReaders k] ++ wholeFileTail k ze fh' payload ∧
            fh'.crc32 = Crc32.checksumIEEE (env.data r) ∧
            fh'.uncompressedSize64 = ze.fh.uncompressedSize64 ∧
            (fh'.method = Zip.store → payload = env.data r) := by
        rcases wholeFileStored_cases env k ze fh r with ⟨e, he⟩ | he <;> rw [he]
        · exact .inl ⟨e, rfl⟩
        · exact .inr ⟨_, _, rfl, hc, hu, fun _ => rfl⟩
      have hm : fh.method = ze.fh.method := by rw [← hfh]
      refine .inr ?_
      by_cases hdef : ze.fh.method = Zip.deflate
      · rw [if_pos hdef]
        cases hcb : compressBlock env level (env.read r .compress) [] true with
        | error e => exact .inl ⟨e, rfl⟩
        | ok compressed =>
          dsimp only
          by_cases hlt : compressed.length < ze.fh.uncompressedSize64
          · rw [if_pos hlt]
            refine .inr ⟨fh, compressed, rfl, hc, hu, fun hs => ?_⟩
            exact absurd ((hdef.symm.trans hm.symm).trans hs) (by decide)
          · rw [if_neg hlt]
            exact stored
      · rw [if_neg hdef]
        exact stored

/-- Everything a CRC worker can do: fail and release its permit, or publish its entry with the
CRC-32 of the whole source, close the slot and release its permit. -/
theorem crcFile_cases (env : Env) (k : Nat) (r : Source) (ze : ZipEntry) :
    (∃ e, crcFile env k r ze = [.sendError e, .cpuFinish k]) ∨
      crcFile env k r ze =
        [.sendEntry k { ze with fh := { ze.fh with crc32 := Crc32.checksumIEEE (env.data r) } },
          .closeEntry k, .cpuFinish k] := by
  unfold crcFile
  split
  · exact .inl ⟨_, rfl⟩
  · rename_i data hdata
    obtain rfl : data = env.data r := Env.read_ok env r .crc hdata
    exact .inr rfl

/-- Everything a block worker can do: fail, or release its permit and fill its reader slot. -/
theorem compressPartialFile_cases (env : Env) (level : Int) (k j : Nat) (r : Source)
    (start : Nat) (dict : List UInt8) (last : Bool) :
    (∃ e, compressPartialFile env level k j r start dict last = [.sendError e]) ∨
      ∃ result, compressPartialFile env level k j r start dict last =
        [.cpuFinish k, .sendData k j result] := by
  unfold compressPartialFile
  split
  · exact .inl ⟨_, rfl⟩
  · exact .inr ⟨_, rfl⟩

/-! ### Symlinks -/

/-- A symlink entry keeps the zero CRC and zero size of a fresh header, whatever the link's
target, while its one reader slot holds the target's bytes. -/
theorem writeSymlink_entry (env : Env) (t : Tracker) (rel file dest : String)
    (h : env.readlink file = .ok dest) :
    ∃ k ze, (writeSymlink env t rel file).actions =
        [.makeReaders k 1, .sendReader k 0, .closeReaders k, .sendData k 0 (bytesOf dest),
          .closeData k 0, .sendEntry k ze, .closeEntry k, .sendWriteOp k] ∧
      ze.fh.crc32 = 0 ∧ ze.fh.uncompressedSize64 = 0 ∧ ze.fh.method = Zip.store := by
  simp only [writeSymlink, h]
  exact ⟨_, _, rfl, rfl, rfl, rfl⟩

set_option maxRecDepth 20000 in
/-- A run of `write` that archives a symlink `l` to `t`: it returns nil, and the archive's one
entry is stored with CRC 0 and sizes 0 although one byte, whose CRC-32 is not 0, is copied into
it. -/
theorem write_symlink_header_unset :
    let env : Env := Env.healthy fun p => if p = "l" then some (.symlink "t") else none
    let opts : Options :=
      { emulateJar := false, directories := false, parallelJobs := 4, compLevel := 5 }
    let c := run env opts (write env opts "out" [⟨"l", "l", Zip.deflate⟩] "")
      (sequentialSchedule 30 0)
    c.writer.status = .returned none ∧
      (c.out.filterMap OutCall.header?).map
          (fun h => (h.name, h.method, h.crc32, h.uncompressedSize64, h.compressedSize64)) =
        [("l", Zip.store, 0, 0, 0)] ∧
      OutCall.copy (bytesOf "t") ∈ c.out ∧ (bytesOf "t").length = 1 ∧
      Crc32.checksumIEEE (bytesOf "t") ≠ 0 := by
  decide

/-! ### The manifest -/

private theorem writeFileContents_tracker (env : Env) (t : Tracker) (h : FileHeader) (r : Source) :
    (writeFileContents env t h r).tracker = { t with nextEntry := t.nextEntry + 1 } := by
  dsimp only [writeFileContents]
  split <;> rfl

/-- `addManifest` records the manifest in neither `createdFiles` nor `createdDirs`, and creates
no directory entry for `META-INF`. -/
theorem addManifest_tracker (env : Env) (t : Tracker) (dest src : String) (m : UInt16) :
    (addManifest env t dest src m).tracker.createdFiles = t.createdFiles ∧
      (addManifest env t dest src m).tracker.createdDirs = t.createdDirs := by
  unfold addManifest
  split
  · exact ⟨rfl, rfl⟩
  · split
    · exact ⟨rfl, rfl⟩
    · split
      · exact ⟨rfl, rfl⟩
      · rw [writeFileContents_tracker]
        exact ⟨rfl, rfl⟩

set_option maxRecDepth 20000 in
/-- A jar run given a manifest with `-m` and a file mapped to `META-INF/MANIFEST.MF`: it
returns nil and the archive has two entries of that name. -/
theorem write_jar_duplicate_manifest :
    let env : Env := Env.healthy fun p =>
      if p = "a" then some (.file [7] false) else if p = "m" then some (.file [] false) else none
    let opts : Options :=
      { emulateJar := true, directories := true, parallelJobs := 4, compLevel := 5 }
    let c := run env opts (write env opts "out" [⟨manifestDest, "a", Zip.deflate⟩] "m")
      (sequentialSchedule 40 2)
    c.writer.status = .returned none ∧
      (c.out.filterMap OutCall.header?).map FileHeader.name = [manifestDest, manifestDest] := by
  decide

set_option maxRecDepth 20000 in
/-- A jar run with only a manifest: it returns nil and the archive's one entry is
`META-INF/MANIFEST.MF`, with no `META-INF/` directory entry before it. -/
theorem write_jar_manifest_without_dir :
    let env : Env := Env.healthy fun p => if p = "m" then some (.file [] false) else none
    let opts : Options :=
      { emulateJar := true, directories := true, parallelJobs := 4, compLevel := 5 }
    let c := run env opts (write env opts "out" [] "m") (sequentialSchedule 30 1)
    c.writer.status = .returned none ∧
      (c.out.filterMap OutCall.header?).map FileHeader.name = [manifestDest] := by
  decide

/-! ### Directory entries and the jar extra field -/

/-- The ancestor loop of `writeDirectory` stops at the path it was given or at a `Dir` of some
path. -/
theorem dirLoop_dir (src : String) : ∀ {fuel : Nat} {t : Tracker} {d : String}
    {zs : List String} {l : DirLoop}, dirLoop src fuel t d zs = some l →
      l.dir = d ∨ ∃ p, l.dir = Filepath.dir p
  | 0, _, _, _, _, h => by simp [dirLoop] at h
  | fuel + 1, t, d, zs, l, h => by
    rcases dirLoop_round src t d zs with ⟨-, hs⟩ | ⟨_, -, hs⟩ | ⟨-, -, -, -, hs⟩ <;> rw [hs] at h
    · cases h
      exact .inl rfl
    · cases h
      exact .inl rfl
    · exact .inr ((dirLoop_dir src h).elim (fun e => ⟨d, e⟩) id)

/-- No cleaned path, and so no `Dir` of a path, is `"META-INF/"`: it ends in a separator
without being the root. -/
theorem clean_ne_metaInf (p : String) : Filepath.clean p ≠ "META-INF/" := fun h => by
  have hroot := Filepath.clean_eq_root_of_getLast p (by rw [h]; decide)
  rw [h] at hroot
  exact absurd hroot (by decide)

private theorem mem_pushDirs {opts : Options} {dir : String} :
    ∀ {t : Tracker} {zs : List String} {k : Nat} {ze : ZipEntry},
      Action.sendEntry k ze ∈ (pushDirs opts dir t zs).2 → ∃ cleanDir, ze = dirEntry opts dir cleanDir
  | _, [], _, _, h => by simp [pushDirs] at h
  | t, cleanDir :: rest, k, ze, h => by
    simp only [pushDirs, List.cons_append, List.mem_cons, Action.sendEntry.injEq,
      reduceCtorEq, false_or, List.nil_append] at h
    rcases h with ⟨-, rfl⟩ | h
    · exact ⟨cleanDir, rfl⟩
    · exact mem_pushDirs h

/-- Every directory entry `writeDirectory` pushes has an empty extra field: the jar field is
guarded by the loop variable `dir`, which is a cleaned path and so never `"META-INF/"`. -/
theorem writeDirectory_extra (opts : Options) (t : Tracker) (dir src : String) (e : Emitted)
    (h : writeDirectory opts t dir src = some e) (k : Nat) (ze : ZipEntry)
    (hk : Action.sendEntry k ze ∈ e.actions) : ze.fh.extra = [] := by
  unfold writeDirectory at h
  obtain ⟨l, hl, rfl⟩ := Option.map_eq_some'.mp h
  have hdir : l.dir ≠ "META-INF/" := by
    rcases dirLoop_dir src hl with hd | ⟨p, hd⟩ <;> rw [hd]
    · exact clean_ne_metaInf dir
    · exact clean_ne_metaInf _
  split at hk
  · simp at hk
  · split at hk
    · obtain ⟨cleanDir, rfl⟩ := mem_pushDirs hk
      simp [dirEntry, hdir, FileHeader.setMode, FileHeader.setModTime]
    · simp at hk

set_option maxRecDepth 20000 in
/-- A jar run archiving `META-INF/a`: it returns nil, and its `META-INF/` directory entry has
an empty extra field. -/
theorem write_jar_metaInf_no_extra :
    let env : Env := Env.healthy fun p => if p = "a" then some (.file [7] false) else none
    let opts : Options :=
      { emulateJar := true, directories := true, parallelJobs := 4, compLevel := 5 }
    let c := run env opts (write env opts "out" [⟨"META-INF/a", "a", Zip.deflate⟩] "")
      (sequentialSchedule 30 1)
    c.writer.status = .returned none ∧
      (c.out.filterMap OutCall.header?).map (fun h => (h.name, h.extra)) =
        [("META-INF/", []), ("META-INF/a", [])] := by
  decide

end SoongZip
