import SoongZip.Deadlock

/-!
# Every run of `write` ends

A run of `zipWriter.write` (`soong_zip.go:323–473`) does a bounded amount of work: the producer
and the workers run the operations of their scripts once each, and the writer's loop makes one
encoder call per header, buffer and close of the archive and takes each slot of `z.writeOps`
once. So under every schedule only a bounded number of steps change the configuration, and,
as no configuration of a run is stuck while the writer is in its loop (`Deadlock`), from every
configuration some schedule brings `write` to return within that bound. An error `write` returns
is one that `os.Create`, the manifest check, a goroutine's send on `z.errors` (lines 381 and
648–761) or the encoder gave it; so when none of these fails, `write` can always return nil
with the whole archive written.
-/

namespace SoongZip

/-! ### The work left in a configuration -/

/-- The operations the producer and the workers have still to run, counting those of the
workers the producer has still to start. -/
def Config.scriptsLeft (env : Env) (level : Int) (c : Config) : Nat :=
  ((c.pending env level).map List.length).sum

/-- How far the writer has got: three for each call on the encoder, one for each slot taken
from `z.writeOps`, one once it has left its loop and one while it reads a reader slot. -/
def Config.writerWork (c : Config) : Nat :=
  3 * c.out.length + c.writeOps.taken + c.writer.done.toNat + c.writer.currentReader.isSome.toNat

/-- A bound on the writer's work in a run whose channels carry `S`: the archive and its close,
and every slot. -/
def workBound (S : ChanName → List Msg) : Nat :=
  3 * ((archive S).length + 1) + (slotsOf S).length + 2

/-- The steps that can still change a configuration of a run whose channels carry `S`: the
goroutines' operations, and, while the writer runs, the work left to it. -/
def Config.workLeft (env : Env) (opts : Options) (S : ChanName → List Msg) (c : Config) : Nat :=
  c.scriptsLeft env opts.compLevel +
    if c.writer.status = .running then workBound S + 1 - c.writerWork else 0

/-- A step of a run from `c₀` that changes the configuration: from `c`, reached from `c₀`, to
`c'`. -/
def Moves (env : Env) (opts : Options) (c₀ c' c : Config) : Prop :=
  Reachable env opts c₀ c ∧ ∃ s, step env opts c s = c' ∧ c' ≠ c

/-! ### The goroutines' operations -/

section Scripts

variable {env : Env} {opts : Options} {S : ChanName → List Msg} {c : Config}

theorem scriptsLeft_of_perm {c' : Config} {Q : List (List Action)} {s : List Action}
    (h : (c'.pending env opts.compLevel).Perm (s :: Q)) :
    c'.scriptsLeft env opts.compLevel = s.length + (Q.map List.length).sum := by
  rw [Config.scriptsLeft, (h.map List.length).sum_eq, List.map_cons, List.sum_cons]

/-- A goroutine that panics runs no further and starts no worker. -/
theorem ChannelInv.panic_quiet (h : ChannelInv env opts S c) {p : Proc} {a : Action}
    {rest : List Action} {x : Panic} (hs : c.script p = a :: rest) (hx : exec env opts c a = .panic x) :
    ∀ b ∈ a :: rest, b.task? = none := by
  obtain ⟨Q, hP, -, -⟩ := pending_step env opts h.quiet hs
  have hd := h.disciplined.perm hP
  rcases SoongZip.exec_panic hx with ⟨hse, -, -⟩ | ⟨ch, op, hop, hcl⟩
  · exact fun b hb =>
      (hd.quietAfterError _ (List.mem_cons_self _ _) b (by simpa [List.dropWhile_cons, hse] using hb)).2
  · have hnil := hd.closedDone ch hcl
    simp [opsOn_cons, Action.opOn, hop] at hnil

/-- A step of a goroutine that changes the configuration runs one operation of the scripts, or
drops the script of a goroutine that panics. -/
theorem ChannelInv.stepProc_scriptsLeft (h : ChannelInv env opts S c) (p : Proc)
    (hne : SoongZip.stepProc env opts c p ≠ c) :
    (SoongZip.stepProc env opts c p).scriptsLeft env opts.compLevel <
      c.scriptsLeft env opts.compLevel := by
  rcases stepProc_cases c p with heq | ⟨a, rest, c', hs, he, heq⟩ | ⟨a, rest, x, hs, hx, heq⟩
  · exact absurd heq hne
  · obtain ⟨Q, hP, hnext, -⟩ := pending_step env opts h.quiet hs
    obtain ⟨hpc, hwc⟩ := exec_scripts he
    rw [heq, scriptsLeft_of_perm (hnext c' hpc hwc), scriptsLeft_of_perm hP, List.length_cons]
    omega
  · obtain ⟨Q, hP, -, hpanic⟩ := pending_step env opts h.quiet hs
    rw [heq, scriptsLeft_of_perm (hpanic _ (h.panic_quiet hs hx)), scriptsLeft_of_perm hP,
      List.length_cons, List.length_nil]
    omega

/-- The writer runs no operation of the scripts but the send on `z.errors` it takes. -/
theorem ChannelInv.stepWriter_scriptsLeft (h : ChannelInv env opts S c) (cs : Case) :
    (SoongZip.stepWriter env c cs).scriptsLeft env opts.compLevel ≤
      c.scriptsLeft env opts.compLevel := by
  rcases stepWriter_cases env c cs with hs | ⟨p, e, rest, hs, -, -, heq⟩
  · simp [Config.scriptsLeft, Config.pending, hs.producer, hs.workers]
  · obtain ⟨Q, hP, hnext, -⟩ := pending_step env opts h.quiet hs
    have hP' := hnext c rfl (by simp [Action.task?])
    have hfin : (SoongZip.stepWriter env c cs).pending env opts.compLevel =
        (c.setScript p rest).pending env opts.compLevel := by
      rw [heq]
      cases p <;> rfl
    rw [Config.scriptsLeft, hfin, ← Config.scriptsLeft, scriptsLeft_of_perm hP', scriptsLeft_of_perm hP,
      List.length_cons]
    omega

end Scripts

/-! ### The writer's work -/

section Work

variable {env : Env} {c : Config}

theorem Writer.selected_readers {w : Writer} {k : Nat} (h : w.selected = .readers k) :
    w.currentReader = none := by
  unfold Writer.selected at h
  split at h <;> simp_all

theorem recvWriteOp_work (hd : c.writer.done = false) : c.writerWork < (recvWriteOp c).writerWork := by
  rcases recvWriteOp_cases c with ⟨k, hk, he⟩ | he <;> rw [he]
  · simp [Config.writerWork, Chan.recv_taken_of_head? hk]
  · simp [Config.writerWork, hd]

theorem recvEntry_work (k : Nat) (hrun : (recvEntry env c k).writer.status = .running) :
    c.writerWork < (recvEntry env c k).writerWork := by
  unfold recvEntry at hrun ⊢
  dsimp only at hrun ⊢
  split
  · simp [Config.panic, *] at hrun
  · split
    · simp [*] at hrun
    · split <;> simp [Config.writerWork]

theorem recvReaders_work (k : Nat) (hcr : c.writer.currentReader = none)
    (hrun : (recvReaders c k).writer.status = .running) : c.writerWork < (recvReaders c k).writerWork := by
  unfold recvReaders at hrun ⊢
  split
  · simp [Config.writerWork, hcr]
  · split
    · simp [Config.panic, *] at hrun
    · simp [Config.writerWork, hcr]

theorem recvData_work (k j : Nat) (hrun : (recvData env c k j).writer.status = .running) :
    c.writerWork < (recvData env c k j).writerWork := by
  unfold recvData at hrun ⊢
  dsimp only at hrun ⊢
  split
  · simp [Config.panic, *] at hrun
  · split
    · simp [Config.panic, *] at hrun
    · split
      · simp [*] at hrun
      · simp only [Config.writerWork, List.length_append, List.length_singleton, Option.isSome_none,
          Bool.toNat_false]
        have := Bool.toNat_le c.writer.currentReader.isSome
        omega

/-- A receive of the writer's loop that changes the configuration and leaves the writer in its
loop adds to its work. -/
theorem stepWriter_recv_work (hne : stepWriter env c .recv ≠ c)
    (hrun : (stepWriter env c .recv).writer.status = .running) :
    c.writerWork < (stepWriter env c .recv).writerWork := by
  generalize hc' : stepWriter env c .recv = c' at hne hrun ⊢
  simp only [stepWriter] at hc'
  split at hc'
  · next hc =>
    split at hc'
    · split at hc'
      · subst hc'
        exact recvWriteOp_work hc.2
      · exact absurd hc'.symm hne
    · split at hc'
      · subst hc'
        exact recvEntry_work _ hrun
      · exact absurd hc'.symm hne
    · next k hsel =>
      split at hc'
      · subst hc'
        exact recvReaders_work _ (Writer.selected_readers hsel) hrun
      · exact absurd hc'.symm hne
    · split at hc'
      · subst hc'
        exact recvData_work _ _ hrun
      · exact absurd hc'.symm hne
  · exact absurd hc'.symm hne

theorem Progress.taken_le {S : ChanName → List Msg} (h : Progress S c) :
    c.writeOps.taken ≤ (slotsOf S).length := by
  cases h with
  | idle pre rest _ hs ht => rw [hs, ht, List.length_append]; omega
  | entry pre k rest hs ht => rw [hs, ht, List.length_append, List.length_cons]; omega
  | readers pre k rest _ _ _ hs ht => rw [hs, ht, List.length_append, List.length_cons]; omega
  | data pre k rest _ _ _ _ hs ht => rw [hs, ht, List.length_append, List.length_cons]; omega

/-- While the writer runs, its work is within the bound of the run. -/
theorem WriterInv.writerWork_le {S : ChanName → List Msg} (h : WriterInv S c)
    (hrun : c.writer.status = .running) : c.writerWork ≤ workBound S := by
  have hout := h.out_prefix.length_le
  have htaken := (h.progress hrun).taken_le
  have hd := Bool.toNat_le c.writer.done
  have hr := Bool.toNat_le c.writer.currentReader.isSome
  simp only [List.length_append, List.length_singleton] at hout
  simp only [Config.writerWork, workBound]
  omega

end Work

/-! ### Every run of `write` -/

section Write

variable {env : Env} {opts : Options} {out : String} {ms : List PathMapping} {manifest : String}

/-- Every step of a run of `write` that changes the configuration lowers the work left. -/
theorem write_workLeft_step {c : Config} (hr : Reachable env opts (write env opts out ms manifest) c)
    (s : Sched) (hne : step env opts c s ≠ c) :
    (step env opts c s).workLeft env opts (sendsIn env opts.compLevel (write env opts out ms manifest).producer) <
      c.workLeft env opts (sendsIn env opts.compLevel (write env opts out ms manifest).producer) := by
  have hc := carried_eq_sendsIn env opts (write_start env opts out ms manifest).1 ▸
    write_channelInv env opts out ms manifest hr
  cases s with
  | proc p =>
    have hlt := hc.stepProc_scriptsLeft p hne
    obtain ⟨hw, ho, -, -⟩ := stepProc_frame env opts c p
    have ht : (stepProc env opts c p).writeOps.taken = c.writeOps.taken :=
      stepProc_taken env opts c p .writeOps
    simp only [SoongZip.step, Config.workLeft, Config.writerWork, hw, ho, ht]
    omega
  | writer cs =>
    have hrun : c.writer.status = .running := by
      by_contra hn
      exact hne (stepWriter_of_not_running env hn cs)
    have hle := hc.stepWriter_scriptsLeft cs
    have hb := (write_writerInv_sendsIn hr).writerWork_le hrun
    simp only [SoongZip.step] at hne ⊢
    by_cases hrun' : (stepWriter env c cs).writer.status = .running
    · have hb' := (write_writerInv_sendsIn (hr.step (.writer cs))).writerWork_le hrun'
      have hw : c.writerWork < (stepWriter env c cs).writerWork := by
        cases cs with
        | recv => exact stepWriter_recv_work hne hrun'
        | error p =>
          rcases stepWriter_error_cases env c p with heq | ⟨e, rest, -, -, -, heq⟩
          · exact absurd heq hne
          · simp [heq] at hrun'
        | default =>
          rcases stepWriter_default_cases env c with heq | ⟨-, -, heq⟩
          · exact absurd heq hne
          · simp [heq] at hrun'
      simp only [Config.workLeft, hrun, hrun', if_true]
      simp only [SoongZip.step] at hb'
      omega
    · simp only [Config.workLeft, hrun, hrun', if_true, if_false]
      omega

/-- Every run of `write` ends: under no schedule does a run change its configuration forever. -/
theorem write_terminates : WellFounded (Moves env opts (write env opts out ms manifest)) :=
  Subrelation.wf (fun {_ _} ⟨hr, s, hs, hne⟩ => hs ▸ write_workLeft_step hr s (hs ▸ hne))
    (InvImage.wf (fun c => c.workLeft env opts
      (sendsIn env opts.compLevel (write env opts out ms manifest).producer)) Nat.lt_wfRel.wf)

theorem Reachable.run {c₀ c : Config} (h : Reachable env opts c₀ c) (s : List Sched) :
    Reachable env opts c₀ (run env opts c s) := by
  induction s generalizing c with
  | nil => exact h
  | cons a s ih => exact ih (h.step a)

theorem finish_within {c : Config} (hr : Reachable env opts (write env opts out ms manifest) c)
    (hj : 0 < opts.parallelJobs) :
    ∃ s : List Sched, s.length ≤ c.workLeft env opts
        (sendsIn env opts.compLevel (write env opts out ms manifest).producer) ∧
      (run env opts c s).writer.status ≠ .running := by
  generalize hn : c.workLeft env opts
    (sendsIn env opts.compLevel (write env opts out ms manifest).producer) = n
  induction n using Nat.strong_induction_on generalizing c with
  | _ n ih =>
    by_cases hrun : c.writer.status = .running
    · obtain ⟨a, ha⟩ := not_forall.mp ((write_kept hr hrun).not_stuck hj)
      have hlt := write_workLeft_step hr a ha
      obtain ⟨s, hs, hfin⟩ := ih _ (hn ▸ hlt) (hr.step a) rfl
      exact ⟨a :: s, by simp only [List.length_cons]; omega, hfin⟩
    · exact ⟨[], Nat.zero_le _, hrun⟩

/-- From every configuration a run of `write` reaches, with `-j` at least one, some schedule
within the work left brings `write` to return or panic. -/
theorem write_finishes {c : Config} (hr : Reachable env opts (write env opts out ms manifest) c)
    (hj : 0 < opts.parallelJobs) :
    ∃ s : List Sched, s.length ≤ c.workLeft env opts
        (sendsIn env opts.compLevel (write env opts out ms manifest).producer) ∧
      (run env opts c s).writer.status ≠ .running :=
  finish_within hr hj

/-- Two files, after the producer has run three steps. -/
theorem write_finishes_two_files :
    let env : Env := Env.healthy fun p => if p = "a" then some (.file [7] false) else none
    let opts : Options :=
      { emulateJar := false, directories := true, parallelJobs := 4, compLevel := 5 }
    let c₀ := write env opts "out" [⟨"x/a", "a", Zip.deflate⟩, ⟨"x/b", "a", Zip.store⟩] ""
    let c := run env opts c₀ (List.replicate 3 (.proc .producer))
    0 < opts.parallelJobs ∧ ∃ s : List Sched,
      s.length ≤ c.workLeft env opts (sendsIn env opts.compLevel c₀.producer) ∧
        (run env opts c s).writer.status ≠ .running :=
  ⟨by decide, write_finishes (reachable_run _ _ _ _) (by decide)⟩

end Write

/-! ### When nothing fails -/

section Success

variable {env : Env} {opts : Options} {P₀ : List Action} {c : Config}

/-- A receive of an entry returns an error only when the encoder fails the header call, which
is then the last call on record. -/
theorem recvEntry_returned {k : Nat} {e : GoError}
    (h : (recvEntry env c k).writer.status = .returned (some e)) :
    c.writer.status = .returned (some e) ∨
      ∃ o call, (recvEntry env c k).out = o ++ [call] ∧ env.outFault o call = some e := by
  cases hop : (c.entries k).head? with
  | none => simp [recvEntry, hop, Config.panic] at h
  | some op =>
    simp only [recvEntry, hop] at h ⊢
    cases hf : env.outFault c.out (headerCall op.fh).1 with
    | some e' =>
      simp only [hf, Config.finish_writer, Status.returned.injEq, Option.some.injEq] at h
      exact .inr ⟨c.out, _, rfl, h ▸ hf⟩
    | none =>
      simp only [hf] at h
      split at h <;> exact .inl h

/-- A receive of a buffer returns an error only when the encoder fails the copy, which is then
the last call on record. -/
theorem recvData_returned {k j : Nat} {e : GoError}
    (h : (recvData env c k j).writer.status = .returned (some e)) :
    c.writer.status = .returned (some e) ∨
      ∃ o call, (recvData env c k j).out = o ++ [call] ∧ env.outFault o call = some e := by
  cases hd : (c.data (k, j)).head? with
  | none => simp [recvData, hd, Config.panic] at h
  | some d =>
    cases hw : c.writer.currentWriter with
    | none => simp [recvData, hd, hw, Config.panic] at h
    | some w =>
      simp only [recvData, hd, hw] at h ⊢
      cases hf : env.outFault c.out (.copy d) with
      | some e' =>
        simp only [hf, Config.finish_writer, Status.returned.injEq, Option.some.injEq] at h
        exact .inr ⟨c.out, _, rfl, h ▸ hf⟩
      | none =>
        simp only [hf] at h
        exact .inl h

/-- The writer's step that returns an error runs from a running writer and either takes the
error from a goroutine's send on `z.errors` or has the encoder fail the last call on record. -/
theorem stepWriter_returned {cs : Case} {e : GoError}
    (h : (stepWriter env c cs).writer.status = .returned (some e)) :
    c.writer.status = .returned (some e) ∨ c.writer.status = .running ∧
      ((∃ p rest, cs = .error p ∧ c.script p = .sendError e :: rest) ∨
        ∃ o call, (stepWriter env c cs).out = o ++ [call] ∧ env.outFault o call = some e) := by
  by_cases hrun : c.writer.status = .running
  swap
  · exact .inl (by rwa [stepWriter_of_not_running env hrun] at h)
  cases cs with
  | recv =>
    rcases stepWriter_recv_cases env c with heq | ⟨-, ⟨-, -, heq⟩ | ⟨k, -, -, heq⟩ | ⟨k, heq⟩ | ⟨k, j, heq⟩⟩ <;>
      rw [heq] at h ⊢
    · exact .inl h
    · rcases recvWriteOp_cases c with ⟨k, -, he⟩ | he <;> rw [he] at h <;> exact .inl h
    · exact (recvEntry_returned h).imp_right fun hf => ⟨hrun, .inr hf⟩
    · unfold recvReaders at h
      split at h
      · exact .inl h
      · split at h
        · simp [Config.panic] at h
        · exact .inl h
    · exact (recvData_returned h).imp_right fun hf => ⟨hrun, .inr hf⟩
  | error p =>
    rcases stepWriter_error_cases env c p with heq | ⟨e', rest, hs, -, -, heq⟩ <;> rw [heq] at h
    · exact .inl h
    · simp only [Config.finish_writer, Status.returned.injEq, Option.some.injEq] at h
      exact .inr ⟨hrun, .inl ⟨p, rest, rfl, h ▸ hs⟩⟩
  | default =>
    rcases stepWriter_default_cases env c with heq | ⟨-, -, heq⟩ <;> rw [heq] at h
    · exact .inl h
    · simp at h

/-- What a goroutine runs is an operation of the producer's first script or of a worker it
starts. -/
theorem Origin.mem_units {level : Int} (h : Origin env level P₀ c) {p : Proc} {a : Action}
    {rest : List Action} (hs : c.script p = a :: rest) : ∃ u ∈ unitsOf env level P₀, a ∈ u := by
  cases p with
  | producer =>
    have hs : c.producer = a :: rest := hs
    exact ⟨P₀, List.mem_cons_self _ _, h.producer.subset (hs ▸ List.mem_cons_self _ _)⟩
  | worker i =>
    obtain ⟨X, t, Y, hP, -, ht⟩ := h.workers _ (script_worker_mem hs (List.cons_ne_nil _ _)).1
    refine ⟨taskScript env level t, List.mem_cons_of_mem _ ?_, ht.subset (List.mem_cons_self _ _)⟩
    exact List.mem_map.mpr ⟨t, List.mem_filterMap.mpr ⟨.spawn t, by simp [hP], rfl⟩, rfl⟩

variable {out : String} {ms : List PathMapping} {manifest : String}

/-- An error a run of `write` returns was returned at its start, or set by one step of the run:
from a configuration in which the writer ran, it took the error from a goroutine sending it on
`z.errors`, or the encoder failed the last call on record with it. -/
theorem write_returned_cause (hr : Reachable env opts (write env opts out ms manifest) c)
    {e : GoError} (h : c.writer.status = .returned (some e)) :
    (write env opts out ms manifest).writer.status = .returned (some e) ∨
      (∃ c₁ p rest, Reachable env opts (write env opts out ms manifest) c₁ ∧
        c₁.writer.status = .running ∧ c₁.script p = .sendError e :: rest ∧
        (step env opts c₁ (.writer (.error p))).writer.status = .returned (some e) ∧
        Reachable env opts (step env opts c₁ (.writer (.error p))) c) ∨
      ∃ o call, c.out = o ++ [call] ∧ env.outFault o call = some e := by
  induction hr with
  | init => exact .inl h
  | @step c' s hr' ih =>
    by_cases hc' : c'.writer.status = .returned (some e)
    · have hout : (step env opts c' s).out = c'.out :=
        ((Reachable.step s .init).final (by rw [hc']; simp)).2.1
      rcases ih hc' with h₀ | ⟨c₁, p, rest, h₁, hrun, hs, hret, h₂⟩ | ⟨o, call, ho, hf⟩
      · exact .inl h₀
      · exact .inr (.inl ⟨c₁, p, rest, h₁, hrun, hs, hret, h₂.step s⟩)
      · exact .inr (.inr ⟨o, call, hout.trans ho, hf⟩)
    · cases s with
      | proc p => exact absurd (by rwa [SoongZip.step, (stepProc_frame env opts _ p).1] at h) hc'
      | writer cs =>
        rcases stepWriter_returned h with h' | ⟨hrun, ⟨p, rest, rfl, hs⟩ | hf⟩
        · exact absurd h' hc'
        · exact .inr (.inl ⟨c', p, rest, hr', hrun, hs, h, .init⟩)
        · exact .inr (.inr hf)

/-- `write` returns at its start only the error of `os.Create` or the manifest check. -/
theorem write_start_returned {e : GoError}
    (h : (write env opts out ms manifest).writer.status = .returned (some e)) :
    env.create out = some e ∨ e = .manifestNeedsJar ∧ manifest ≠ "" ∧ opts.emulateJar = false := by
  unfold write at h
  split at h
  · next e' he' =>
    simp only [Status.returned.injEq, Option.some.injEq] at h
    exact .inl (h ▸ he')
  · dsimp only at h
    split at h
    · next hm =>
      simp only [Config.finish_writer, Status.returned.injEq, Option.some.injEq] at h
      exact .inr ⟨h.symm, hm⟩
    · cases h

/-- Every error a run of `write` returns, under any interleaving, was produced in the run: it
is the error of `os.Create`, or the manifest-without-`-jar` error, or the run went through a
configuration in which a goroutine (the producer or a worker it started) was sending it on
`z.errors` and the writer took it, or the encoder failed the last call on record with it, after
the calls before it. -/
theorem write_error_cause (hr : Reachable env opts (write env opts out ms manifest) c)
    {e : GoError} (h : c.writer.status = .returned (some e)) :
    env.create out = some e ∨ (e = .manifestNeedsJar ∧ manifest ≠ "" ∧ opts.emulateJar = false) ∨
      (∃ c₁ p rest, Reachable env opts (write env opts out ms manifest) c₁ ∧
        c₁.writer.status = .running ∧ c₁.script p = .sendError e :: rest ∧
        (step env opts c₁ (.writer (.error p))).writer.status = .returned (some e) ∧
        Reachable env opts (step env opts c₁ (.writer (.error p))) c) ∨
      ∃ o call, c.out = o ++ [call] ∧ env.outFault o call = some e := by
  rcases write_returned_cause hr h with h₀ | h | h
  · exact (write_start_returned h₀).imp_right .inl
  · exact .inr (.inr (.inl h))
  · exact .inr (.inr (.inr h))

/-- A missing source: the producer sends the error of `os.Lstat`, which the writer takes. -/
theorem write_error_cause_missing_source :
    let env : Env := Env.healthy fun _ => none
    let opts : Options :=
      { emulateJar := false, directories := false, parallelJobs := 1, compLevel := 5 }
    let c₀ := write env opts "out" [⟨"x", "a", Zip.deflate⟩] ""
    let c := run env opts c₀ [.writer (.error .producer)]
    let e := GoError.io "lstat a: no such file or directory"
    c.writer.status = .returned (some e) ∧
      (env.create "out" = some e ∨ (e = .manifestNeedsJar ∧ "" ≠ "" ∧ opts.emulateJar = false) ∨
        (∃ c₁ p rest, Reachable env opts c₀ c₁ ∧
          c₁.writer.status = .running ∧ c₁.script p = .sendError e :: rest ∧
          (step env opts c₁ (.writer (.error p))).writer.status = .returned (some e) ∧
          Reachable env opts (step env opts c₁ (.writer (.error p))) c) ∨
        ∃ o call, c.out = o ++ [call] ∧ env.outFault o call = some e) :=
  ⟨by decide, write_error_cause (reachable_run _ _ _ [.writer (.error .producer)]) (by decide)⟩

theorem write_start_running (hcreate : env.create out = none)
    (hm : manifest ≠ "" → opts.emulateJar = true) :
    (write env opts out ms manifest).writer.status = .running := by
  unfold write
  rw [hcreate]
  dsimp only
  rw [if_neg fun h => by simp [hm h.1] at h]

/-- When the output can be created, a manifest comes with `-jar`, neither the producer nor any
worker it starts sends an error and the encoder never fails, from every configuration a run of
`write` reaches, with `-j` at least one, some schedule brings `write` to return nil having
written the whole archive and closed it. -/
theorem write_succeeds (hcreate : env.create out = none) (hm : manifest ≠ "" → opts.emulateJar = true)
    (hok : ∀ u ∈ unitsOf env opts.compLevel (write env opts out ms manifest).producer,
      ∀ a ∈ u, a.isSendError = false)
    (hfault : ∀ o call, env.outFault o call = none)
    (hr : Reachable env opts (write env opts out ms manifest) c) (hj : 0 < opts.parallelJobs) :
    ∃ s : List Sched, (run env opts c s).writer.status = .returned none ∧
      (run env opts c s).out =
        archive (sendsIn env opts.compLevel (write env opts out ms manifest).producer) ++ [.closeArchive] := by
  obtain ⟨s, -, hend⟩ := finish_within hr hj
  have hr' := hr.run s
  have hw := write_writerInv_sendsIn hr'
  have hnil : (run env opts c s).writer.status = .returned none := by
    cases hst : (run env opts c s).writer.status with
    | running => exact absurd hst hend
    | panicked x => exact absurd hst (hw.noPanic x)
    | returned r =>
      cases r with
      | none => rfl
      | some e =>
        rcases write_returned_cause hr' hst with h₀ | ⟨c₁, p, rest, h₁, -, hs, -⟩ | ⟨o, call, -, hf⟩
        · simp [write_start_running hcreate hm] at h₀
        · obtain ⟨u, hu, he⟩ := (write_permits h₁).2.mem_units hs
          exact absurd (hok u hu _ he) (by simp [Action.isSendError])
        · simp [hfault] at hf
  exact ⟨s, hnil, (hw.complete hnil).1⟩

/-- A directory and a file under `-d`, from the start. -/
theorem write_succeeds_dir_file :
    let env : Env := Env.healthy fun p =>
      if p = "d" then some .dir else if p = "a" then some (.file [7] false) else none
    let opts : Options :=
      { emulateJar := false, directories := true, parallelJobs := 2, compLevel := 5 }
    let c₀ := write env opts "out" [⟨"d", "d", Zip.deflate⟩, ⟨"d/a", "a", Zip.store⟩] ""
    env.create "out" = none ∧ ("" ≠ "" → opts.emulateJar = true) ∧
      (∀ u ∈ unitsOf env opts.compLevel c₀.producer, ∀ a ∈ u, a.isSendError = false) ∧
      (∀ o call, env.outFault o call = none) ∧ 0 < opts.parallelJobs ∧
      ∃ s : List Sched, (run env opts c₀ s).writer.status = .returned none ∧
        (run env opts c₀ s).out = archive (sendsIn env opts.compLevel c₀.producer) ++ [.closeArchive] :=
  ⟨rfl, by decide, by decide, fun _ _ => rfl, by decide,
    write_succeeds rfl (by decide) (by decide) (fun _ _ => rfl) .init (by decide)⟩

end Success

end SoongZip
