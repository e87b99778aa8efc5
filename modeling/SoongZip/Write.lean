import SoongZip.Producer

/-!
# `zipWriter.write`: the writer loop and the interleaving of all goroutines

`soong_zip.go:323–473`. Channels are histories (`Chan`); the producer and each worker are
scripts of shared operations (`SoongZip.Producer`, `SoongZip.Worker`); the writer is the
select loop of lines 395–463 followed by the final select. One `step` moves one goroutine, as
the scheduler picks it; when the writer's select has several ready cases, the scheduler picks
one of them too. A blocked choice leaves the configuration unchanged.

The rate limiters are in `rate_limit.go`, which is not under src/; they are modelled from the
spec: `Request` blocks while `parallelJobs` permits are in use (and for ever after `Stop`),
`Finish` releases one; the memory limiter of `write` has no bound and only counts.
-/

namespace SoongZip

/-- A Go channel by its history: every value sent, how many the receiver took, and whether it
was closed. The buffer is what was sent and not yet taken. -/
structure Chan (α : Type) where
  sent : List α := []
  taken : Nat := 0
  closed : Bool := false

namespace Chan

variable {α : Type}

/-- The number of buffered values. -/
def buffered (c : Chan α) : Nat := c.sent.length - c.taken

/-- Append a value to the buffer. -/
def send (c : Chan α) (v : α) : Chan α := { c with sent := c.sent ++ [v] }

/-- `close`. -/
def close (c : Chan α) : Chan α := { c with closed := true }

/-- The value a receive gets; `none` (Go's zero value) on a closed, drained channel. -/
def head? (c : Chan α) : Option α := c.sent[c.taken]?

/-- A receive can complete: a value is buffered or the channel is closed. -/
def ready (c : Chan α) : Bool := decide (c.taken < c.sent.length) || c.closed

/-- A receive: take the buffered head, if there is one. -/
def recv (c : Chan α) : Chan α :=
  if c.taken < c.sent.length then { c with taken := c.taken + 1 } else c

end Chan

/-- The channels of a run, for naming a panic. -/
inductive ChanName where
  | errors
  | writeOps
  | entry (k : Nat)
  | readers (k : Nat)
  | data (k j : Nat)
  deriving DecidableEq, Repr

/-- A run-time panic: a send on or a close of a closed channel, or a use of a nil entry,
writer or reader. -/
inductive Panic where
  | sendOnClosed (ch : ChanName)
  | closeOfClosed (ch : ChanName)
  | nilEntry
  | nilWriter
  | nilReader
  deriving DecidableEq, Repr

/-- Where `write` is: in its loops, returned with a value, or panicked. -/
inductive Status where
  | running
  | returned (err : Option GoError)
  | panicked (p : Panic)
  deriving DecidableEq, Repr

/-- The local variables of `write`'s loop (`soong_zip.go:389–393`), its `err` variable
(line 324) and where it is. -/
structure Writer where
  currentWriteOpChan : Option Nat := none
  currentWriter : Option EntryWriter := none
  currentReaders : Option Nat := none
  currentReader : Option (Nat × Nat) := none
  done : Bool := false
  err : Option GoError := none
  status : Status := .running
  deriving DecidableEq, Repr

/-- The channel the loop reads besides `z.errors`. -/
inductive Selected where
  | data (k j : Nat)
  | readers (k : Nat)
  | entry (k : Nat)
  | writeOps
  deriving DecidableEq, Repr

/-- The if-chain of `soong_zip.go:400–408`: while a reader slot is current only it is read
(through `case reader := <-currentReader`), else the reader list, else the entry slot, else
`z.writeOps`. -/
def Writer.selected (w : Writer) : Selected :=
  match w.currentReader, w.currentReaders, w.currentWriteOpChan with
  | some (k, j), _, _ => .data k j
  | none, some k, _ => .readers k
  | none, none, some k => .entry k
  | none, none, none => .writeOps

/-- A run: the channels, the limiters, the scripts still to run, the writer, the calls made on
the output, whether the output file exists, and the panics of producer and workers. -/
structure Config where
  writeOps : Chan Nat := {}
  entries : Nat → Chan ZipEntry := fun _ => {}
  readers : Nat → Chan Nat := fun _ => {}
  readersCap : Nat → Nat := fun _ => 0
  data : Nat × Nat → Chan (List UInt8) := fun _ => {}
  errorsClosed : Bool := false
  cpuInUse : Nat := 0
  memInUse : Int := 0
  stopped : Bool := false
  producer : List Action := []
  workers : List (List Action) := []
  writer : Writer := {}
  out : List OutCall := []
  outExists : Bool := false
  panics : List Panic := []

/-- A goroutine other than the writer. -/
inductive Proc where
  | producer
  | worker (i : Nat)
  deriving DecidableEq, Repr

namespace Config

/-- The script a goroutine has still to run. -/
def script (c : Config) : Proc → List Action
  | .producer => c.producer
  | .worker i => c.workers.getD i []

/-- Replace what a goroutine has still to run. -/
def setScript (c : Config) : Proc → List Action → Config
  | .producer, s => { c with producer := s }
  | .worker i, s => { c with workers := c.workers.set i s }

/-- `write` returns `r`, and its deferred calls run: the limiters stop, `z.errors` is closed,
and the output is removed if `err` is not nil; `soong_zip.go:329–357`. -/
def finish (c : Config) (r : Option GoError) : Config :=
  { c with
    writer := { c.writer with status := .returned r }
    stopped := true
    errorsClosed := true
    outExists := c.outExists && c.writer.err.isNone }

/-- The writer panics. -/
def panic (c : Config) (p : Panic) : Config := { c with writer := { c.writer with status := .panicked p } }

@[simp] theorem setScript_writer (c : Config) (p : Proc) (s : List Action) :
    (c.setScript p s).writer = c.writer := by cases p <;> rfl

@[simp] theorem setScript_out (c : Config) (p : Proc) (s : List Action) :
    (c.setScript p s).out = c.out := by cases p <;> rfl

@[simp] theorem setScript_outExists (c : Config) (p : Proc) (s : List Action) :
    (c.setScript p s).outExists = c.outExists := by cases p <;> rfl

@[simp] theorem setScript_errorsClosed (c : Config) (p : Proc) (s : List Action) :
    (c.setScript p s).errorsClosed = c.errorsClosed := by cases p <;> rfl

@[simp] theorem setScript_panics (c : Config) (p : Proc) (s : List Action) :
    (c.setScript p s).panics = c.panics := by cases p <;> rfl

@[simp] theorem finish_writer (c : Config) (r : Option GoError) :
    (c.finish r).writer = { c.writer with status := .returned r } := rfl

@[simp] theorem finish_out (c : Config) (r : Option GoError) : (c.finish r).out = c.out := rfl

@[simp] theorem finish_outExists (c : Config) (r : Option GoError) :
    (c.finish r).outExists = (c.outExists && c.writer.err.isNone) := rfl

@[simp] theorem panic_writer (c : Config) (p : Panic) :
    (c.panic p).writer = { c.writer with status := .panicked p } := rfl

@[simp] theorem panic_out (c : Config) (p : Panic) : (c.panic p).out = c.out := rfl

@[simp] theorem panic_outExists (c : Config) (p : Panic) : (c.panic p).outExists = c.outExists :=
  rfl

end Config

/-! ### Producer and workers -/

/-- What one shared operation does: it blocks, completes, or panics. -/
inductive Outcome where
  | blocked
  | next (c : Config)
  | panic (p : Panic)

/-- A send on a channel of capacity `cap`. -/
def sendOn {α : Type} (ch : Chan α) (cap : Nat) (v : α) (name : ChanName) (set : Chan α → Config) :
    Outcome :=
  if ch.closed then .panic (.sendOnClosed name)
  else if ch.buffered < cap then .next (set (ch.send v)) else .blocked

/-- A close of a channel. -/
def closeOn {α : Type} (ch : Chan α) (name : ChanName) (set : Chan α → Config) : Outcome :=
  if ch.closed then .panic (.closeOfClosed name) else .next (set ch.close)

/-- One shared operation of the producer or a worker. `z.writeOps` has capacity 1000
(`soong_zip.go:351`); entry slots and reader slots have capacity 1; `z.errors` is unbuffered,
so a send on it completes only with the writer's receive (`stepWriter`). Every entry's reader
list is made once, as an empty channel named by its entry: `make` sets its capacity.
Modelled from the spec: the cases of the rate limiters, as the module docstring says;
`z.memoryRateLimiter` is made with a limit of 0 (`soong_zip.go:353`), so it never blocks. -/
def exec (env : Env) (opts : Options) (c : Config) : Action → Outcome
  | .sendWriteOp k => sendOn c.writeOps 1000 k .writeOps fun ch => { c with writeOps := ch }
  | .closeWriteOps => closeOn c.writeOps .writeOps fun ch => { c with writeOps := ch }
  | .sendEntry k ze =>
    sendOn (c.entries k) 1 ze (.entry k) fun ch => { c with entries := Function.update c.entries k ch }
  | .closeEntry k =>
    closeOn (c.entries k) (.entry k) fun ch => { c with entries := Function.update c.entries k ch }
  | .makeReaders k cap => .next { c with readersCap := Function.update c.readersCap k cap }
  | .sendReader k j =>
    sendOn (c.readers k) (c.readersCap k) j (.readers k) fun ch =>
      { c with readers := Function.update c.readers k ch }
  | .closeReaders k =>
    closeOn (c.readers k) (.readers k) fun ch => { c with readers := Function.update c.readers k ch }
  | .sendData k j d =>
    sendOn (c.data (k, j)) 1 d (.data k j) fun ch => { c with data := Function.update c.data (k, j) ch }
  | .closeData k j =>
    closeOn (c.data (k, j)) (.data k j) fun ch => { c with data := Function.update c.data (k, j) ch }
  | .cpuRequest _ =>
    if !c.stopped && decide (c.cpuInUse < opts.parallelJobs) then .next { c with cpuInUse := c.cpuInUse + 1 }
    else .blocked
  | .cpuFinish _ => .next { c with cpuInUse := c.cpuInUse - 1 }
  | .memRequest _ n => .next { c with memInUse := c.memInUse + n }
  | .spawn t => .next { c with workers := c.workers ++ [taskScript env opts.compLevel t] }
  | .sendError _ => if c.errorsClosed then .panic (.sendOnClosed .errors) else .blocked
  | .hang => .blocked

/-- A shared operation of the producer or a worker leaves the writer, the output and the
panics alone. -/
theorem exec_frame {env : Env} {opts : Options} {c c' : Config} {a : Action}
    (h : exec env opts c a = .next c') :
    c'.writer = c.writer ∧ c'.out = c.out ∧ c'.outExists = c.outExists ∧
      c'.errorsClosed = c.errorsClosed ∧ c'.panics = c.panics := by
  cases a <;> simp only [exec, sendOn, closeOn] at h <;> repeat' split at h
  all_goals cases h; try exact ⟨rfl, rfl, rfl, rfl, rfl⟩

/-- One step of a goroutine other than the writer. A goroutine that panics runs no further. -/
def stepProc (env : Env) (opts : Options) (c : Config) (p : Proc) : Config :=
  match c.script p with
  | [] => c
  | a :: rest =>
    match exec env opts c a with
    | .blocked => c
    | .next c' => c'.setScript p rest
    | .panic x => { c.setScript p [] with panics := c.panics ++ [x] }

/-- A step of the producer or a worker leaves the writer and the output alone. -/
theorem stepProc_frame (env : Env) (opts : Options) (c : Config) (p : Proc) :
    (stepProc env opts c p).writer = c.writer ∧ (stepProc env opts c p).out = c.out ∧
      (stepProc env opts c p).outExists = c.outExists ∧
      (stepProc env opts c p).errorsClosed = c.errorsClosed := by
  unfold stepProc
  split
  · exact ⟨rfl, rfl, rfl, rfl⟩
  · split
    · exact ⟨rfl, rfl, rfl, rfl⟩
    · obtain ⟨hw, ho, he, hc, -⟩ := exec_frame ‹_›
      simp only [Config.setScript_writer, Config.setScript_out, Config.setScript_outExists,
        Config.setScript_errorsClosed, hw, ho, he, hc, and_self]
    · simp

/-! ### The writer -/

/-- `case writeOp, ok := <-writeOpsChan`; `soong_zip.go:411–416`. -/
def recvWriteOp (c : Config) : Config :=
  match c.writeOps.head? with
  | some k => { c with writeOps := c.writeOps.recv,
                       writer := { c.writer with currentWriteOpChan := some k } }
  | none => { c with writer := { c.writer with done := true, currentWriteOpChan := none } }

/-- The header call for an entry: `CreateCompressedHeader` for `Deflate`, otherwise
`CreateHeaderAndroid` after setting the compressed size to the uncompressed size. -/
def headerCall (fh : FileHeader) : OutCall × EntryWriter :=
  if fh.method = Zip.deflate then (.createCompressedHeader fh, .compressed)
  else (.createHeaderAndroid { fh with compressedSize64 := fh.uncompressedSize64 }, .stored)

/-- `case op := <-writeOpChan`; `soong_zip.go:418–440`. -/
def recvEntry (env : Env) (c : Config) (k : Nat) : Config :=
  match (c.entries k).head? with
  | none => c.panic .nilEntry
  | some op =>
    let c := { c with entries := Function.update c.entries k (c.entries k).recv,
                      writer := { c.writer with currentWriteOpChan := none } }
    let call := headerCall op.fh
    match env.outFault c.out call.1 with
    | some e => Config.finish { c with out := c.out ++ [call.1],
                                       writer := { c.writer with err := some e } } (some e)
    | none =>
      let c := { c with out := c.out ++ [call.1], memInUse := c.memInUse - op.allocatedSize }
      match op.futureReaders with
      | none => { c with out := c.out ++ [OutCall.closeEntry call.2],
                         writer := { c.writer with currentWriter := none, currentReaders := none } }
      | some r => { c with writer := { c.writer with currentWriter := some call.2,
                                                     currentReaders := some r } }

/-- `case futureReader, ok := <-readersChan`; `soong_zip.go:442–450`. -/
def recvReaders (c : Config) (k : Nat) : Config :=
  match (c.readers k).head? with
  | some j => { c with readers := Function.update c.readers k (c.readers k).recv,
                       writer := { c.writer with currentReader := some (k, j) } }
  | none =>
    match c.writer.currentWriter with
    | none => c.panic .nilWriter
    | some w => { c with out := c.out ++ [OutCall.closeEntry w],
                         writer := { c.writer with currentWriter := none, currentReaders := none,
                                                   currentReader := none } }

/-- `case reader := <-currentReader`; `soong_zip.go:452–458`. -/
def recvData (env : Env) (c : Config) (k j : Nat) : Config :=
  match (c.data (k, j)).head? with
  | none => c.panic .nilReader
  | some d =>
    match c.writer.currentWriter with
    | none => c.panic .nilWriter
    | some _ =>
      let fault := env.outFault c.out (.copy d)
      let c := { c with data := Function.update c.data (k, j) (c.data (k, j)).recv,
                        out := c.out ++ [OutCall.copy d] }
      match fault with
      | some e => Config.finish { c with writer := { c.writer with err := some e } } (some e)
      | none => { c with writer := { c.writer with currentReader := none } }

/-- What the scheduler lets the writer do: receive on the channel its loop selects, take an
error from a goroutine sending on `z.errors`, or take the final select's `default`. -/
inductive Case where
  | recv
  | error (p : Proc)
  | default
  deriving DecidableEq, Repr

/-- One step of the writer. In the loop (`done` false) it receives on the selected channel or
on `z.errors`; after it, the final select (`soong_zip.go:466–472`) takes an error or, by
`default`, closes the archive and returns nil. -/
def stepWriter (env : Env) (c : Config) : Case → Config
  | .recv =>
    if c.writer.status = .running ∧ c.writer.done = false then
      match c.writer.selected with
      | .writeOps => if c.writeOps.ready then recvWriteOp c else c
      | .entry k => if (c.entries k).ready then recvEntry env c k else c
      | .readers k => if (c.readers k).ready then recvReaders c k else c
      | .data k j => if (c.data (k, j)).ready then recvData env c k j else c
    else c
  | .error p =>
    if c.writer.status = .running ∧ c.errorsClosed = false then
      match c.script p with
      | .sendError e :: rest =>
        Config.finish { c.setScript p rest with writer := { c.writer with err := some e } } (some e)
      | _ => c
    else c
  | .default =>
    if c.writer.status = .running ∧ c.writer.done = true then
      Config.finish { c with out := c.out ++ [OutCall.closeArchive] } none
    else c

/-- One receive of the writer's loop (`soong_zip.go:395–463`): while it runs and has not left the
loop, it receives from the channel its select reads once that channel is ready; otherwise it
does nothing. -/
theorem stepWriter_recv_cases (env : Env) (c : Config) :
    stepWriter env c .recv = c ∨ c.writer.status = .running ∧
      ((c.writer.selected = .writeOps ∧ c.writeOps.ready = true ∧
          stepWriter env c .recv = recvWriteOp c) ∨
        (∃ k, c.writer.selected = .entry k ∧ (c.entries k).ready = true ∧
          stepWriter env c .recv = recvEntry env c k) ∨
        (∃ k, stepWriter env c .recv = recvReaders c k) ∨
        ∃ k j, stepWriter env c .recv = recvData env c k j) := by
  generalize hs : stepWriter env c .recv = s
  simp only [stepWriter] at hs
  split at hs
  · rename_i hrun
    split at hs <;> split at hs <;> subst hs
    all_goals first
      | exact .inl rfl
      | exact .inr ⟨hrun.1, .inl ⟨‹_›, ‹_›, rfl⟩⟩
      | exact .inr ⟨hrun.1, .inr (.inl ⟨_, ‹_›, ‹_›, rfl⟩)⟩
      | exact .inr ⟨hrun.1, .inr (.inr (.inl ⟨_, rfl⟩))⟩
      | exact .inr ⟨hrun.1, .inr (.inr (.inr ⟨_, _, rfl⟩))⟩
  · exact .inl hs.symm

/-- The writer takes an error from a goroutine, whose script moves past its send, and returns
it; or it does nothing. -/
theorem stepWriter_error_cases (env : Env) (c : Config) (p : Proc) :
    stepWriter env c (.error p) = c ∨
      ∃ e rest, c.script p = .sendError e :: rest ∧ c.writer.status = .running ∧
        c.errorsClosed = false ∧ stepWriter env c (.error p) =
          Config.finish { c.setScript p rest with writer := { c.writer with err := some e } } (some e) := by
  simp only [stepWriter]
  split
  · rename_i hrun
    split
    · exact .inr ⟨_, _, ‹_›, hrun.1, hrun.2, rfl⟩
    · exact .inl rfl
  · exact .inl rfl

/-- The final select: once the loop is left, the writer closes the archive and returns nil; or
it does nothing. -/
theorem stepWriter_default_cases (env : Env) (c : Config) :
    stepWriter env c .default = c ∨ c.writer.status = .running ∧ c.writer.done = true ∧
      stepWriter env c .default = Config.finish { c with out := c.out ++ [.closeArchive] } none := by
  simp only [stepWriter]
  split
  · rename_i hrun
    exact .inr ⟨hrun.1, hrun.2, rfl⟩
  · exact .inl rfl

/-- A scheduling choice. -/
inductive Sched where
  | writer (cs : Case)
  | proc (p : Proc)
  deriving DecidableEq, Repr

/-- One step of the run. -/
def step (env : Env) (opts : Options) (c : Config) : Sched → Config
  | .writer cs => stepWriter env c cs
  | .proc p => stepProc env opts c p

/-- A run under a schedule. -/
def run (env : Env) (opts : Options) (c : Config) (s : List Sched) : Config :=
  s.foldl (step env opts) c

/-- The schedule that runs the producer for `n` steps, then each of the first `w` workers for
`n` steps, then the writer's loop for `n` steps and its final select. -/
def sequentialSchedule (n w : Nat) : List Sched :=
  List.replicate n (.proc .producer) ++
    (List.range w).flatMap (fun i => List.replicate n (.proc (.worker i))) ++
    List.replicate n (.writer .recv) ++ [.writer .default]

/-- `zipWriter.write` up to its loop (`soong_zip.go:323–387`): create the output, refuse a
manifest without `-jar` (a returned error that does not assign `err`), add the manifest
mapping, sort in jar mode, and start the producer. -/
def write (env : Env) (opts : Options) (out : String) (pathMappings : List PathMapping)
    (manifest : String) : Config :=
  match env.create out with
  | some e => { writer := { status := .returned (some e) } }
  | none =>
    let c : Config := { outExists := true }
    if manifest ≠ "" ∧ opts.emulateJar = false then c.finish (some .manifestNeedsJar)
    else
      let ms := if manifest ≠ "" then pathMappings ++ [⟨manifestDest, manifest, Zip.deflate⟩]
        else pathMappings
      let ms := if opts.emulateJar then jarSort ms else ms
      { c with producer := producer env opts Tracker.empty ms }

/-- The configurations a run of `write` can reach, under any schedule. -/
inductive Reachable (env : Env) (opts : Options) (c₀ : Config) : Config → Prop where
  | init : Reachable env opts c₀ c₀
  | step {c : Config} (s : Sched) : Reachable env opts c₀ c → Reachable env opts c₀ (step env opts c s)

/-- Every schedule's run is reachable. -/
theorem reachable_run (env : Env) (opts : Options) (c₀ : Config) (s : List Sched) :
    Reachable env opts c₀ (run env opts c₀ s) := by
  suffices ∀ c, Reachable env opts c₀ c → Reachable env opts c₀ (s.foldl (step env opts) c) from
    this c₀ .init
  induction s with
  | nil => exact fun _ h => h
  | cons a s ih => exact fun c h => ih _ (.step a h)

end SoongZip
