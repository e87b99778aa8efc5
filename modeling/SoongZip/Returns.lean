import SoongZip.Layout

/-!
# What the return of `write` settles

`soong_zip.go:370–473`. Only the writer's loop and its final select call the encoder, and they
run only while `write` runs: once `write` has returned, or panicked, no goroutine still running
changes what it returned or adds a call to the archive. A goroutine that fails sends its error
on `z.errors`, and the send completes only when the writer takes it, which makes `write` return
that error: `write` returns nil only when no script of the run has an error to send. Without
`-d`, `-jar` and `-m`, the archive of a nil return therefore holds one entry for each mapping
whose source is not a directory, under its destination and in the order of the mappings.
-/

namespace SoongZip

/-! ### After the return -/

section Final

variable {env : Env} {opts : Options}

/-- Once `write` has returned or panicked, the writer takes no step. -/
theorem stepWriter_of_not_running (env : Env) {c : Config} (h : c.writer.status ≠ .running)
    (cs : Case) : stepWriter env c cs = c := by
  cases cs <;> simp [stepWriter, h]

/-- A run from a configuration whose writer has stopped keeps the writer, the calls made on the
output and whether the output exists. -/
theorem Reachable.final {c₀ c : Config} (hr : Reachable env opts c₀ c)
    (h₀ : c₀.writer.status ≠ .running) :
    c.writer = c₀.writer ∧ c.out = c₀.out ∧ c.outExists = c₀.outExists := by
  induction hr with
  | init => exact ⟨rfl, rfl, rfl⟩
  | step s _ ih =>
    obtain ⟨hw, ho, he⟩ := ih
    cases s with
    | proc p =>
      obtain ⟨hw', ho', he', -⟩ := stepProc_frame env opts _ p
      exact ⟨hw'.trans hw, ho'.trans ho, he'.trans he⟩
    | writer cs =>
      rw [SoongZip.step, stepWriter_of_not_running env (hw ▸ h₀) cs]
      exact ⟨hw, ho, he⟩

/-- Whatever the schedule, once `write` has returned or panicked, the goroutines still running
never change what it returned, never add a call to the archive and never create or remove the
output. -/
theorem run_after_return (env : Env) (opts : Options) {c : Config}
    (h : c.writer.status ≠ .running) (s : List Sched) :
    (run env opts c s).writer = c.writer ∧ (run env opts c s).out = c.out ∧
      (run env opts c s).outExists = c.outExists :=
  (reachable_run env opts c s).final h

end Final

/-! ### Errors are never lost -/

section Errors

variable {env : Env} {opts : Options} {S : ChanName → List Msg} {c : Config} (P₀ : List Action)

/-- A send on `z.errors` never completes by itself: the writer takes it, or it panics on the
closed channel. -/
theorem isSendError_of_exec {c' : Config} {a : Action} (h : exec env opts c a = .next c') :
    a.isSendError = false := by
  cases a with
  | sendError e => simp only [exec] at h; split at h <;> cases h
  | _ => rfl

/-- Once the producer has run past a send on `z.errors`, the writer has taken an error: it has
left its loop and has not returned nil. -/
def ErrorTaken (c : Config) : Prop :=
  ∀ pre, P₀ = pre ++ c.producer → (∃ a ∈ pre, a.isSendError = true) →
    c.writer.status ≠ .running ∧ c.writer.status ≠ .returned none

variable {P₀}

theorem ErrorTaken.stepProc (h : ErrorTaken P₀ c) (hcalm : Calm c) (hc : ChannelInv env opts S c)
    (hp : c.producer <:+ P₀) (p : Proc) : ErrorTaken P₀ (SoongZip.stepProc env opts c p) := by
  intro pre hpre herr
  rw [(stepProc_frame env opts c p).1]
  rcases stepProc_cases c p with heq | ⟨a, rest, c', hsc, he, heq⟩ | ⟨a, rest, x, hsc, hx, heq⟩ <;>
    rw [heq] at hpre
  · exact h pre hpre herr
  · cases p with
    | worker i =>
      rw [Config.setScript_producer_of_worker, (exec_scripts he).1] at hpre
      exact h pre hpre herr
    | producer =>
      obtain ⟨pre₀, hP⟩ := hp
      replace hsc : c.producer = a :: rest := hsc
      replace hpre : P₀ = pre ++ rest := hpre
      have hpre₀ : pre = pre₀ ++ [a] := List.append_cancel_right (by
        rw [← hpre, ← hP, hsc, List.append_assoc, List.singleton_append])
      obtain ⟨b, hb, hbe⟩ := herr
      rcases List.mem_append.mp (hpre₀ ▸ hb) with hb | hb
      · exact h pre₀ hP.symm ⟨b, hb, hbe⟩
      · rw [List.mem_singleton.mp hb, isSendError_of_exec he] at hbe
        cases hbe
  · cases p with
    | worker i => exact h pre hpre herr
    | producer =>
      have hec := (hc.exec_panic hsc hx).2
      exact ⟨fun hr => by simp [(hcalm.running hr).1] at hec,
        fun hr => by simp [Config.script, (hcalm.returned hr).2.1] at hsc⟩

theorem ErrorTaken.stepWriter (h : ErrorTaken P₀ c) (cs : Case) :
    ErrorTaken P₀ (SoongZip.stepWriter env c cs) := by
  by_cases hrun : c.writer.status = .running
  · rcases stepWriter_cases env c cs with hs | ⟨p, e, rest, -, -, -, heq⟩
    · exact fun pre hpre herr => absurd hrun (h pre (hs.producer ▸ hpre) herr).1
    · rw [heq]
      exact fun _ _ _ => ⟨by simp, by simp⟩
  · rwa [stepWriter_of_not_running env hrun]

end Errors

/-! ### Without `-d`, `-jar` and `-m` -/

section Plain

variable {env : Env} {opts : Options} {t : Tracker} {src : String}

/-- `s.IsDir()` of the `os.Lstat` that `addFile` makes of its source (`soong_zip.go:479–481`);
false when `Lstat` fails. -/
def srcIsDir (env : Env) (src : String) : Bool :=
  match env.lstat src with
  | .ok s => isDir s.mode
  | .error _ => false

/-- Without `-d`, `writeDirectory` pushes nothing. -/
theorem writeDirectory_actions (hd : opts.directories = false) {dir : String} {w : Emitted}
    (h : writeDirectory opts t dir src = some w) : w.actions = [] := by
  obtain ⟨l, -, rfl⟩ := Option.map_eq_some'.mp h
  dsimp only
  split
  · rfl
  · simp [hd]

/-- A `writeSymlink` that returns nil publishes the link's entry. -/
theorem writeSymlink_names_of_ok {rel file : String}
    (h : (writeSymlink env t rel file).error = none) :
    entryNames (writeSymlink env t rel file).actions = [rel] := by
  unfold writeSymlink at h ⊢
  split
  · simp_all
  · rfl

/-- An `addFile` past its parent directories that returns nil publishes its destination. -/
theorem addNonDir_names_of_ok {dest : String} {method : UInt16} {s : FileInfo}
    (h : (addNonDir env t dest src method s).error = none) :
    entryNames (addNonDir env t dest src method s).actions = [dest] := by
  revert h
  unfold addNonDir
  split
  · nofun
  split
  · nofun
  split
  · exact writeSymlink_names_of_ok
  split
  · nofun
  split
  · nofun
  · exact fun _ => (writeFileContents_names env _ _ _).1.trans (by split <;> rfl)

/-- Without `-d`, an `addFile` that returns nil publishes nothing for a directory and one entry
under its destination for anything else. -/
theorem addFile_names_plain (hd : opts.directories = false) {dest : String} {method : UInt16}
    {e : Emitted} (h : addFile env opts t dest src method = some e) (he : e.error = none) :
    entryNames e.actions = if srcIsDir env src then [] else [dest] := by
  unfold addFile at h
  split at h
  · cases h
    cases he
  rename_i s hs
  split at h
  · rw [hd, if_neg Bool.false_ne_true] at h
    cases h
    simp [srcIsDir, hs, entryNames, *]
  obtain ⟨w, hw, rfl⟩ := Option.map_eq_some'.mp h
  cases hwe : w.error with
  | some _ => simp [hwe] at he
  | none =>
    simp only [hwe] at he ⊢
    simp only [Emitted.after, entryNames_append, writeDirectory_actions hd hw,
      addNonDir_names_of_ok he]
    simp [srcIsDir, hs, entryNames, *]

/-- Without `-d` and `-jar`, a run of the producer that sends no error publishes one entry for
each mapping whose source is not a directory, under its destination, in the order of the
mappings. -/
theorem producer_names_plain (env : Env) (opts : Options) (hj : opts.emulateJar = false)
    (hd : opts.directories = false) : ∀ (t : Tracker) (ms : List PathMapping),
      (∀ a ∈ producer env opts t ms, a.isSendError = false) →
      entryNames (producer env opts t ms) =
        (ms.filter fun m => !srcIsDir env m.src).map PathMapping.dest
  | _, [] => fun _ => rfl
  | t, ele :: rest => fun hq => by
    obtain ⟨e, he⟩ :=
      Option.isSome_iff_exists.mp (addFile_isSome ele.src env opts t ele.dest ele.zipMethod)
    simp only [producer, hj, Bool.false_eq_true, false_and, if_false, he] at hq ⊢
    cases herr : e.error with
    | some err =>
      simp only [herr] at hq
      simpa [Action.isSendError] using hq (.sendError err) (by simp)
    | none =>
      simp only [herr, entryNames_append] at hq ⊢
      rw [addFile_names_plain hd he herr, producer_names_plain env opts hj hd e.tracker rest
        fun a ha => hq a (List.mem_append_right _ ha)]
      cases hdir : srcIsDir env ele.src <;> simp [List.filter_cons, hdir]

end Plain

section Write

variable {env : Env} {opts : Options} {out : String} {ms : List PathMapping} {manifest : String}

theorem write_errorTaken {c : Config} (hr : Reachable env opts (write env opts out ms manifest) c) :
    ErrorTaken (write env opts out ms manifest).producer c := by
  induction hr with
  | init =>
    intro pre hpre ⟨a, ha, _⟩
    rw [List.append_left_eq_self.mp hpre.symm] at ha
    cases ha
  | step s hr' ih =>
    cases s with
    | proc p =>
      exact ih.stepProc (write_limits env opts out ms manifest hr').1
        (write_channelInv env opts out ms manifest hr') (write_permits hr').2.producer p
    | writer cs => exact ih.stepWriter cs

/-- When `write` returns nil, the producer's script sends no error. -/
theorem write_nil_quiet {c : Config} (hr : Reachable env opts (write env opts out ms manifest) c)
    (hret : c.writer.status = .returned none) :
    ∀ a ∈ (write env opts out ms manifest).producer, a.isSendError = false := by
  have hprod := ((write_limits env opts out ms manifest hr).1.returned hret).2.1
  intro a ha
  cases hse : a.isSendError
  · rfl
  · exact absurd hret ((write_errorTaken hr) _ (by rw [hprod, List.append_nil]) ⟨a, ha, hse⟩).2

/-- Whatever the schedule, no error is lost: when `write` returns nil, neither the producer's
script nor the script of any worker it starts has an error to send on `z.errors`. -/
theorem write_nil_no_error {c : Config}
    (hr : Reachable env opts (write env opts out ms manifest) c)
    (hret : c.writer.status = .returned none) :
    (∀ a ∈ (write env opts out ms manifest).producer, a.isSendError = false) ∧
      ∀ u ∈ workersOf env opts.compLevel (write env opts out ms manifest).producer,
        ∀ a ∈ u, a.isSendError = false :=
  ⟨write_nil_quiet hr hret, ((write_planned env opts out ms manifest).balance
    ((write_writerInv_sendsIn hr).complete hret).2).2⟩

set_option maxRecDepth 20000 in
/-- A file and a symlink in a directory, one goroutine run after the other. -/
theorem write_nil_no_error_two_entries :
    let env : Env := Env.healthy fun p =>
      if p = "a" then some (.file [7] false) else if p = "l" then some (.symlink "a") else none
    let opts : Options :=
      { emulateJar := false, directories := true, parallelJobs := 4, compLevel := 5 }
    let c₀ := write env opts "out" [⟨"x/a", "a", Zip.deflate⟩, ⟨"x/l", "l", Zip.deflate⟩] ""
    let c := run env opts c₀ (sequentialSchedule 30 1)
    c.writer.status = .returned none ∧ (∀ a ∈ c₀.producer, a.isSendError = false) ∧
      ∀ u ∈ workersOf env opts.compLevel c₀.producer, ∀ a ∈ u, a.isSendError = false :=
  ⟨by decide, write_nil_no_error (reachable_run _ _ _ (sequentialSchedule 30 1)) (by decide)⟩

/-- Without `-jar` and `-m`, a run of `write` that returns nil has started the producer on the
mappings in the order given. -/
theorem write_producer_plain {c : Config} (hr : Reachable env opts (write env opts out ms "") c)
    (hj : opts.emulateJar = false) (hret : c.writer.status = .returned none) :
    (write env opts out ms "").producer = producer env opts Tracker.empty ms := by
  cases hc : env.create out with
  | some e =>
    have h₀ : (write env opts out ms "").writer.status = .returned (some e) := by simp [write, hc]
    rw [(hr.final (by simp [h₀])).1, h₀] at hret
    cases hret
  | none => simp [write, hc, hj]

/-- Without `-d`, `-jar` and `-m`, whatever the schedule, when `write` returns nil its archive
has one entry for each mapping whose source is not a directory, under the mapping's
destination and in the order of the mappings. -/
theorem write_names_plain {c : Config} (hr : Reachable env opts (write env opts out ms "") c)
    (hj : opts.emulateJar = false) (hd : opts.directories = false)
    (hret : c.writer.status = .returned none) :
    (c.out.filterMap OutCall.header?).map FileHeader.name =
      (ms.filter fun m => !srcIsDir env m.src).map PathMapping.dest := by
  have hq := write_nil_quiet hr hret
  rw [write_producer_plain hr hj hret] at hq
  rw [(write_writerInv_sendsIn hr).out_names (write_start env opts out ms "").2.2.2.2 hret,
    write_producer_plain hr hj hret]
  exact producer_names_plain env opts hj hd _ ms hq

set_option maxRecDepth 20000 in
/-- A file, a directory and a symlink: the directory has no entry. -/
theorem write_names_plain_three_sources :
    let env : Env := Env.healthy fun p =>
      if p = "a" then some (.file [7] false) else if p = "d" then some .dir
      else if p = "l" then some (.symlink "a") else none
    let opts : Options :=
      { emulateJar := false, directories := false, parallelJobs := 4, compLevel := 5 }
    let ms : List PathMapping := [⟨"a", "a", Zip.deflate⟩, ⟨"d", "d", Zip.deflate⟩, ⟨"y/l", "l", Zip.deflate⟩]
    let c := run env opts (write env opts "out" ms "") (sequentialSchedule 30 1)
    c.writer.status = .returned none ∧
      (c.out.filterMap OutCall.header?).map FileHeader.name =
        (ms.filter fun m => !srcIsDir env m.src).map PathMapping.dest :=
  ⟨by decide, write_names_plain (reachable_run _ _ _ _) rfl rfl (by decide)⟩

end Write

end SoongZip
