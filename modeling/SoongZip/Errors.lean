import SoongZip.Entries

/-!
# Error returns of `write`

`soong_zip.go:323–473`. A deferred call removes the output when `write`'s variable `err` is not
nil (lines 329–333). Every return inside the loop and the final select assigns `err` first, so
an error there removes the output; the manifest check of line 361 returns a fresh error and
leaves `err` nil. The errors of `currentWriter.Close()` (lines 436, 445) and `zipw.Close()`
(line 470) are never read, so a run whose close calls fail still returns nil. Once `write` has
returned, `z.errors` is closed (line 336), and a goroutine that still sends on it panics.
-/

namespace SoongZip

/-! ### Close calls -/

/-- The output calls whose error `write` does not read: `currentWriter.Close()` and
`zipw.Close()`. -/
def OutCall.isClose : OutCall → Bool
  | .closeEntry _ => true
  | .closeArchive => true
  | _ => false

set_option maxRecDepth 20000 in
/-- A run archiving one file to an output on which every close call fails, the central
directory's included: `write` returns nil. -/
theorem write_ignores_close_faults :
    let env : Env :=
      { Env.healthy (fun p => if p = "a" then some (.file [7] false) else none) with
        outFault := fun _ call => if call.isClose then some (.io "no space left on device") else none }
    let opts : Options :=
      { emulateJar := false, directories := false, parallelJobs := 4, compLevel := 5 }
    let c := run env opts (write env opts "out" [⟨"a", "a", Zip.deflate⟩] "") (sequentialSchedule 30 1)
    c.writer.status = .returned none ∧ c.out.getLast? = some .closeArchive ∧
      (env.outFault c.out.dropLast .closeArchive).isSome := by
  decide

/-! ### The manifest check -/

/-- `write` with a manifest but without `-jar`: it returns the error and keeps the output it
created. -/
theorem write_manifest_without_jar_keeps_output :
    let c : Config := write (Env.healthy fun _ => none)
      { emulateJar := false, directories := false, parallelJobs := 4, compLevel := 5 } "out" [] "m"
    c.writer.status = .returned (some .manifestNeedsJar) ∧ c.outExists = true := by
  decide

/-! ### Sends after the return -/

set_option maxRecDepth 20000 in
/-- Two whole-file entries whose CRC reads both fail: the writer returns the first worker's
error and closes `z.errors`, and the second worker's send on it panics. -/
theorem write_second_error_panics :
    let env : Env :=
      { Env.healthy (fun p => if p = "a" ∨ p = "b" then some (.file [7] false) else none) with
        readFault := fun _ op => if op = .crc then some (.io "input/output error") else none }
    let opts : Options :=
      { emulateJar := false, directories := false, parallelJobs := 4, compLevel := 5 }
    let c := run env opts (write env opts "out" [⟨"a", "a", Zip.deflate⟩, ⟨"b", "b", Zip.deflate⟩] "")
      (List.replicate 8 (.proc .producer) ++ [.writer (.error (.worker 0)), .proc (.worker 1)])
    c.writer.status = .returned (some (.io "input/output error")) ∧
      c.panics = [.sendOnClosed .errors] := by
  decide

end SoongZip
