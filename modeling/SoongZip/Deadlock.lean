import SoongZip.Live

/-!
# No deadlock

`zipWriter.write` (`soong_zip.go:323–473`) runs the producer, the workers it starts
(`soong_zip.go:565–774`, `839–867`) and its own select loop over channels of capacity 1000
(`z.writeOps`), 1 (entry and reader slots) and the number of blocks (a split entry's reader
list). Go stops a program whose goroutines all wait. This module shows that a run of `write`
never gets there while the writer is in its loop: with `-j` at least one, in every configuration
a run reaches, under any schedule, some step of the scheduler changes the configuration.

The argument: a send on an entry or reader slot or on a reader list never waits, as the run
sends no more on it than it holds; a worker's other operations never wait; so in a configuration
where nothing moves every worker is done, the producer has requested a permit for each worker
it started and got each back, so its `Request` does not wait either, and it is done or pushing on
a full `z.writeOps`. Every slot it pushed is then complete, so the channel the writer's loop
selects is ready.
-/

namespace SoongZip

/-! ### Steps that change the configuration -/

section Moves

variable {env : Env} {opts : Options} {c : Config}

theorem Config.script_setScript_self {p : Proc} (s : List Action) (hne : c.script p ≠ []) :
    (c.setScript p s).script p = s := by
  cases p with
  | producer => rfl
  | worker i =>
    have hi : i < c.workers.length := by
      by_contra h
      exact hne (List.getD_eq_default _ _ (by omega))
    simp [Config.script, Config.setScript, List.getD_eq_getElem?_getD, hi]

theorem Config.script_mem_pending {p : Proc} {a : Action} {rest : List Action}
    (hs : c.script p = a :: rest) (env : Env) (level : Int) : a :: rest ∈ c.pending env level := by
  cases p with
  | producer => exact hs ▸ List.mem_cons_self _ _
  | worker i =>
    exact List.mem_cons_of_mem _ (List.mem_append_right _ (script_worker_mem hs (List.cons_ne_nil _ _)).1)

/-- A goroutine whose next operation does not wait runs it. -/
theorem stepProc_ne {p : Proc} {a : Action} {rest : List Action} (hs : c.script p = a :: rest)
    (hb : exec env opts c a ≠ .blocked) : stepProc env opts c p ≠ c := by
  intro h
  simp only [stepProc, hs] at h
  split at h
  · exact hb ‹_›
  · next c' hc' =>
    have hsc := congrArg (Config.script · p) h
    have hne : c'.script p ≠ [] := by rw [exec_script hc' hs (List.cons_ne_nil _ _)]; simp
    simp only [Config.script_setScript_self rest hne, hs] at hsc
    exact List.cons_ne_self a rest hsc.symm
  · have := congrArg Config.panics h
    simp at this

/-- The final select returns once the loop is left. -/
theorem stepWriter_default_ne (hrun : c.writer.status = .running) (hd : c.writer.done = true) :
    stepWriter env c .default ≠ c := fun h => by
  have := congrArg (·.writer.status) h
  simp [stepWriter, hrun, hd] at this

/-- The writer takes an error a goroutine sends on the open `z.errors`. -/
theorem stepWriter_error_ne {p : Proc} {e : GoError} {rest : List Action}
    (hrun : c.writer.status = .running) (hcl : c.errorsClosed = false)
    (hs : c.script p = .sendError e :: rest) : stepWriter env c (.error p) ≠ c := fun h => by
  have := congrArg (·.writer.status) h
  simp [stepWriter, hrun, hcl, hs] at this

theorem recvWriteOp_ne (hd : c.writer.done = false) : recvWriteOp c ≠ c := fun h => by
  rcases recvWriteOp_cases c with ⟨k, hk, he⟩ | he <;> rw [he] at h
  · have := congrArg (·.writeOps.taken) h
    simp [Chan.recv_taken_of_head? hk] at this
  · have := congrArg (·.writer.done) h
    simp [hd] at this

theorem recvEntry_ne (hrun : c.writer.status = .running) (k : Nat) : recvEntry env c k ≠ c :=
  fun h => by
  unfold recvEntry at h
  dsimp only at h
  split at h
  · have := congrArg (·.writer.status) h
    simp [Config.panic, hrun] at this
  · split at h
    · have := congrArg (·.writer.status) h
      simp [hrun] at this
    · split at h <;>
      · have := congrArg (·.out.length) h
        simp at this

theorem recvReaders_ne (hrun : c.writer.status = .running) (k : Nat) : recvReaders c k ≠ c :=
  fun h => by
  unfold recvReaders at h
  split at h
  · next j hj =>
    have := congrArg (·.readers k |>.taken) h
    simp [Chan.recv_taken_of_head? hj] at this
  · split at h
    · have := congrArg (·.writer.status) h
      simp [Config.panic, hrun] at this
    · have := congrArg (·.out.length) h
      simp at this

theorem recvData_ne (hrun : c.writer.status = .running) (k j : Nat) : recvData env c k j ≠ c :=
  fun h => by
  unfold recvData at h
  dsimp only at h
  split at h
  · have := congrArg (·.writer.status) h
    simp [Config.panic, hrun] at this
  · split at h
    · have := congrArg (·.writer.status) h
      simp [Config.panic, hrun] at this
    · split at h
      · have := congrArg (·.writer.status) h
        simp [hrun] at this
      · have := congrArg (·.out.length) h
        simp at this

/-- The writer's loop receives from the channel it selects once that channel is ready. -/
theorem stepWriter_recv_ne (hrun : c.writer.status = .running) (hd : c.writer.done = false)
    (hready : c.writer.selected = .writeOps ∧ c.writeOps.ready = true ∨
      (∃ k, c.writer.selected = .entry k ∧ (c.entries k).ready = true) ∨
      (∃ k, c.writer.selected = .readers k ∧ (c.readers k).ready = true) ∨
      ∃ k j, c.writer.selected = .data k j ∧ (c.data (k, j)).ready = true) :
    stepWriter env c .recv ≠ c := by
  rcases hready with ⟨hs, hr⟩ | ⟨k, hs, hr⟩ | ⟨k, hs, hr⟩ | ⟨k, j, hs, hr⟩ <;>
    simp only [stepWriter, hrun, hd, hs, hr, and_self, if_true]
  · exact recvWriteOp_ne hd
  · exact recvEntry_ne hrun k
  · exact recvReaders_ne hrun k
  · exact recvData_ne hrun k j

end Moves

/-! ### What an operation waits for -/

section Waits

variable {env : Env} {opts : Options} {c : Config}

theorem sendOn_blocked {α : Type} {ch : Chan α} {cap : Nat} {v : α} {name : ChanName}
    {set : Chan α → Config} (h : sendOn ch cap v name set = .blocked) : cap ≤ ch.buffered := by
  unfold sendOn at h
  split at h
  · cases h
  · split at h
    · cases h
    · omega

theorem closeOn_ne_blocked {α : Type} (ch : Chan α) (name : ChanName) (set : Chan α → Config) :
    closeOn ch name set ≠ .blocked := by
  unfold closeOn
  split <;> exact fun h => nomatch h

@[simp] theorem Chan.map_buffered {α β : Type} (f : α → β) (ch : Chan α) :
    (ch.map f).buffered = ch.buffered := by
  simp [Chan.map, Chan.buffered]

/-- What an operation of the producer or a worker waits for: room on `z.writeOps`, on an entry or
reader slot or on a reader list; a permit of `z.cpuRateLimiter`; the writer's receive on
`z.errors`; or nothing, for the loop that never ends. -/
theorem exec_blocked {a : Action} (h : exec env opts c a = .blocked) :
    (∃ k, a = .sendWriteOp k ∧ 1000 ≤ c.writeOps.buffered) ∨
    (∃ ch m, a.chanOp? = some (ch, .send m) ∧ ch.carriesValue ∧ 1 ≤ (c.view ch).buffered) ∨
    (∃ k j, a = .sendReader k j ∧ c.readersCap k ≤ (c.view (.readers k)).buffered) ∨
    (∃ k, a = .cpuRequest k ∧ (c.stopped = true ∨ opts.parallelJobs ≤ c.cpuInUse)) ∨
    (a.isSendError ∧ c.errorsClosed = false) ∨ a = .hang := by
  cases a with
  | sendWriteOp k => exact .inl ⟨k, rfl, sendOn_blocked (by simpa only [exec] using h)⟩
  | sendEntry k ze =>
    exact .inr (.inl ⟨_, _, rfl, rfl, by simpa [Config.view] using sendOn_blocked (by simpa only [exec] using h)⟩)
  | sendReader k j =>
    exact .inr (.inr (.inl ⟨k, j, rfl, by simpa [Config.view] using sendOn_blocked (by simpa only [exec] using h)⟩))
  | sendData k j d =>
    exact .inr (.inl ⟨_, _, rfl, rfl, by simpa [Config.view] using sendOn_blocked (by simpa only [exec] using h)⟩)
  | cpuRequest k =>
    refine .inr (.inr (.inr (.inl ⟨k, rfl, ?_⟩)))
    simp only [exec] at h
    split at h
    · cases h
    · next hn =>
      cases hs : c.stopped
      · simpa [hs] using hn
      · exact .inl rfl
  | sendError e =>
    refine .inr (.inr (.inr (.inr (.inl ⟨rfl, ?_⟩))))
    simp only [exec] at h
    split at h
    · cases h
    · next hn => simpa using hn
  | hang => exact .inr (.inr (.inr (.inr (.inr rfl))))
  | closeWriteOps | closeEntry | closeReaders | closeData =>
    exact absurd (by simpa only [exec] using h) (closeOn_ne_blocked _ _ _)
  | makeReaders | cpuFinish | memRequest | spawn => cases h

end Waits

/-! ### Sends that never wait -/

section Room

variable {env : Env} {opts : Options} {P₀ : List Action} {S : ChanName → List Msg} {c : Config}

/-- A script still to run that sends on `ch` leaves `ch` short of all it carries in the run. -/
theorem ChannelInv.sent_lt (h : ChannelInv env opts S c) {a : Action} {rest : List Action}
    (hu : a :: rest ∈ c.pending env opts.compLevel) {ch : ChanName} {m : Msg}
    (ha : a.chanOp? = some (ch, .send m)) : (c.view ch).sent.length < (S ch).length := by
  have hm : m ∈ sendsOf ((c.pending env opts.compLevel).flatMap (opsOn ch)) :=
    List.mem_filterMap.mpr ⟨.send m, List.mem_flatMap.mpr ⟨_, hu, by
      rw [opsOn_cons_self ha]; exact List.mem_cons_self _ _⟩, rfl⟩
  rw [← h.disciplined.history ch, List.length_append]
  have := List.length_pos_of_mem hm
  omega

/-- A reader list that a script still to run enqueues on has room for every reader slot of the
run. -/
theorem Live.readers_room (h : Live env opts P₀ c) {k j : Nat} {rest : List Action}
    (hu : .sendReader k j :: rest ∈ c.pending env opts.compLevel) :
    (sendsIn env opts.compLevel P₀ (.readers k)).length ≤ c.readersCap k :=
  (h.room k).2.resolve_right fun hm => by
    obtain ⟨cap, hcap⟩ := hm _ hu [] j rest rfl
    cases hcap

/-- The only operations of a script still to run that wait are a push on a full `z.writeOps`, a
`Request` with no permit free, a send on the open `z.errors`, and the loop that never ends. -/
theorem Live.blocked (h : Live env opts P₀ c)
    (hc : ChannelInv env opts (sendsIn env opts.compLevel P₀) c) (hroomy : Roomy env opts.compLevel P₀)
    {a : Action} {rest : List Action} (hu : a :: rest ∈ c.pending env opts.compLevel)
    (hb : exec env opts c a = .blocked) :
    (∃ k, a = .sendWriteOp k ∧ 1000 ≤ c.writeOps.buffered) ∨
    (∃ k, a = .cpuRequest k ∧ (c.stopped = true ∨ opts.parallelJobs ≤ c.cpuInUse)) ∨
    (a.isSendError ∧ c.errorsClosed = false) ∨ a = .hang := by
  rcases exec_blocked hb with hw | ⟨ch, m, ha, hv, hbuf⟩ | ⟨k, j, rfl, hbuf⟩ | hr | he | hh
  · exact .inl hw
  · have := hc.sent_lt hu ha
    have := hroomy.single ch hv
    simp only [Chan.buffered] at hbuf
    omega
  · have := hc.sent_lt hu (m := .reader j) rfl
    have := h.readers_room hu
    simp only [Chan.buffered] at hbuf
    omega
  · exact .inr (.inl hr)
  · exact .inr (.inr (.inl he))
  · exact .inr (.inr (.inr hh))

end Room

/-! ### The channels of a pushed slot -/

section Slots

variable {env : Env} {level : Int}

/-- A worker never pushes on `z.writeOps` and never hangs. -/
theorem taskScript_push_hang (env : Env) (level : Int) (t : Task) :
    ∀ a ∈ taskScript env level t, (∀ k, a ≠ .sendWriteOp k) ∧ a ≠ .hang := by
  cases t with
  | crcFile k r ze => rcases crcFile_cases env k r ze with ⟨e, h⟩ | h <;> simp [taskScript, h]
  | compressPartialFile k j r start dict last =>
    rcases compressPartialFile_cases env level k j r start dict last with ⟨e, h⟩ | ⟨d, h⟩ <;>
      simp [taskScript, h]
  | compressWholeFile k ze r =>
    rcases compressWholeFile_cases env level k ze r with ⟨e, h⟩ | ⟨e, h⟩ | ⟨fh, d, h, -⟩ <;>
      simp [taskScript, h, wholeFileTail]

/-- Complete blocks for the entries before `k₁` send nothing on the channels of entries from `k₁`
on. -/
theorem Blocks.sendsIn_append {k₀ k₁ : Nat} {bs : List Action} (h : Blocks k₀ k₁ bs)
    (R : List Action) {ch : ChanName} (hw : ch ≠ .writeOps)
    (hk : ∀ k', ch.index? = some k' → k₁ ≤ k') :
    sendsIn env level (bs ++ R) ch = sendsIn env level R ch := by
  induction h with
  | nil => rfl
  | @cons k k' b bs hb hbs ih =>
    have := hbs.le
    rw [List.append_assoc, sendsIn_append_of_silent' ((hb.piece env level).silent hw fun h' => by
      have := hk _ h'; omega), ih hk]

theorem Silent.of_append {A B : List Action} {ch : ChanName} (h : Silent env level (A ++ B) ch) :
    Silent env level B ch := by
  obtain ⟨h₁, h₂⟩ := h
  simp only [opsOn_append, List.append_eq_nil, workersOf_append, List.mem_append] at h₁ h₂
  exact ⟨h₁.2, fun u hu => h₂ u (.inr hu)⟩

theorem units_flatMap_subset (A b B : List Action) (ch : ChanName) :
    (unitsOf env level b).flatMap (opsOn ch) ⊆ (unitsOf env level (A ++ b ++ B)).flatMap (opsOn ch) := by
  intro o ho
  simp only [unitsOf, List.flatMap_cons, List.mem_append, List.mem_flatMap, workersOf_append,
    opsOn_append] at ho ⊢
  rcases ho with ho | ⟨u, hu, ho⟩
  · exact .inl (.inl (.inr ho))
  · exact .inr ⟨u, .inl (.inr hu), ho⟩

end Slots

/-! ### A configuration where nothing moves -/

section Stuck

variable {env : Env} {opts : Options} {c : Config}

/-- No step of the scheduler changes configuration `c`: the writer and every goroutine wait. -/
def Stuck (env : Env) (opts : Options) (c : Config) : Prop := ∀ s, step env opts c s = c

theorem Stuck.blocked (h : Stuck env opts c) {p : Proc} {a : Action} {rest : List Action}
    (hs : c.script p = a :: rest) : exec env opts c a = .blocked := by
  by_contra hb
  exact stepProc_ne hs hb (h (.proc p))

theorem Stuck.noError (h : Stuck env opts c) (hrun : c.writer.status = .running)
    (hcl : c.errorsClosed = false) {p : Proc} {a : Action} {rest : List Action}
    (hs : c.script p = a :: rest) : a.isSendError = false := by
  cases a with
  | sendError e =>
    have hstep : stepWriter env c (.error p) = c := h (.writer (.error p))
    exact (stepWriter_error_ne hrun hcl hs hstep).elim
  | _ => rfl

theorem Stuck.notDone (h : Stuck env opts c) (hrun : c.writer.status = .running) :
    c.writer.done = false := by
  by_contra hd
  have hstep : stepWriter env c .default = c := h (.writer .default)
  exact stepWriter_default_ne hrun (by simpa using hd) hstep

end Stuck

/-! ### Why no configuration of a run is stuck -/

/-- What a run of `write` keeps while the writer runs its loop, gathered for the argument below:
the producer's script and the values it and its workers send, and the invariants of the earlier
modules. -/
structure Kept (env : Env) (opts : Options) (P₀ : List Action) (c : Config) : Prop where
  script : Script 0 P₀
  hangFree : Action.hang ∉ P₀
  carried : Carried (sendsIn env opts.compLevel P₀)
  roomy : Roomy env opts.compLevel P₀
  channels : ChannelInv env opts (sendsIn env opts.compLevel P₀) c
  writer : WriterInv (sendsIn env opts.compLevel P₀) c
  calm : Calm c
  permits : Permits env opts P₀ c
  origin : Origin env opts.compLevel P₀ c
  live : Live env opts P₀ c
  errorTaken : ErrorTaken P₀ c
  running : c.writer.status = .running

section Kept

variable {env : Env} {opts : Options} {P₀ : List Action} {c : Config}

theorem Config.pending_of_done (hw : ∀ w ∈ c.workers, w = []) (env : Env) (level : Int)
    (ch : ChanName) :
    (c.pending env level).flatMap (opsOn ch) = (unitsOf env level c.producer).flatMap (opsOn ch) := by
  have : c.workers.flatMap (opsOn ch) = [] :=
    List.flatMap_eq_nil_iff.mpr fun w hw' => by rw [hw w hw']; rfl
  simp [Config.pending, unitsOf, workersOf, this]

theorem Kept.open (h : Kept env opts P₀ c) : c.errorsClosed = false := (h.calm.running h.running).1

/-- While the writer runs, a goroutine waits only at a push on a full `z.writeOps`, at a
`Request` with every permit in use, or at a send on `z.errors`: a send on an entry slot, a
reader slot or a reader list never waits. -/
theorem Kept.blocked (h : Kept env opts P₀ c) {p : Proc} {a : Action} {rest : List Action}
    (hs : c.script p = a :: rest) (hb : exec env opts c a = .blocked) :
    (∃ k, a = .sendWriteOp k ∧ 1000 ≤ c.writeOps.buffered) ∨
      (∃ k, a = .cpuRequest k ∧ opts.parallelJobs ≤ c.cpuInUse) ∨ a.isSendError := by
  rcases h.live.blocked h.channels h.roomy (c.script_mem_pending hs env opts.compLevel) hb with
    hw | ⟨k, rfl, hcpu⟩ | ⟨he, -⟩ | rfl
  · exact .inl hw
  · exact .inr (.inl ⟨k, rfl, hcpu.resolve_left (by simp [h.live.stopped, h.open])⟩)
  · exact .inr (.inr he)
  · exfalso
    cases p with
    | producer =>
      have hs : c.producer = .hang :: rest := hs
      exact h.hangFree (h.origin.producer.subset (hs ▸ List.mem_cons_self _ _))
    | worker i =>
      obtain ⟨t, ht⟩ := h.origin.worker (script_worker_mem hs (List.cons_ne_nil _ _)).1
      exact (taskScript_push_hang env opts.compLevel t _ (ht.subset (List.mem_cons_self _ _))).2 rfl

/-- In a stuck configuration a goroutine waits at a push on a full `z.writeOps` or at a `Request`
with no permit free. -/
theorem Kept.waits (h : Kept env opts P₀ c) (hst : Stuck env opts c) {p : Proc} {a : Action}
    {rest : List Action} (hs : c.script p = a :: rest) :
    (∃ k, a = .sendWriteOp k ∧ 1000 ≤ c.writeOps.buffered) ∨
      ∃ k, a = .cpuRequest k ∧ opts.parallelJobs ≤ c.cpuInUse := by
  rcases h.blocked hs (hst.blocked hs) with hw | hcpu | he
  · exact .inl hw
  · exact .inr hcpu
  · simp [hst.noError h.running h.open hs] at he

/-- In a stuck configuration every worker has finished. -/
theorem Kept.workers_done (h : Kept env opts P₀ c) (hst : Stuck env opts c) :
    ∀ w ∈ c.workers, w = [] := by
  intro w hw
  cases w with
  | nil => rfl
  | cons a rest =>
    obtain ⟨i, hi, hwi⟩ := List.getElem_of_mem hw
    have hs : c.script (.worker i) = a :: rest := by
      simp [Config.script, List.getD_eq_getElem?_getD, hi, hwi]
    obtain ⟨t, ht⟩ := h.origin.worker hw
    have ha := ht.subset (List.mem_cons_self a rest)
    rcases h.waits hst hs with ⟨k, rfl, -⟩ | ⟨k, rfl, -⟩
    · exact absurd rfl ((taskScript_push_hang env opts.compLevel t _ ha).1 k)
    · have := ((taskScript_permits env opts.compLevel t).1 _ ha).1
      simp [Action.isRequest] at this

/-- With every worker finished, no worker the producer started sent an error. -/
theorem Kept.spawned_ok (h : Kept env opts P₀ c) (hw : ∀ w ∈ c.workers, w = [])
    {X : List Action} (hX : P₀ = X ++ c.producer) :
    ∀ u ∈ workersOf env opts.compLevel X, ∀ a ∈ u, a.isSendError = false := by
  intro u hu a ha
  obtain ⟨t, ht, rfl⟩ := List.mem_map.mp hu
  obtain ⟨b, hb, hbt⟩ := List.mem_filterMap.mp ht
  have hsp : .spawn t ∈ X := by
    cases b <;> simp only [Action.task?, reduceCtorEq, Option.some.injEq] at hbt
    exact hbt ▸ hb
  by_contra hne
  obtain ⟨w, hw', b', hb', -⟩ := h.live.errors h.running X t hX hsp ⟨a, ha, by simpa using hne⟩
  rw [hw w hw'] at hb'
  cases hb'

/-- With every worker finished, each has given its permit back, so none is in use while the
producer is at a `Request`. -/
theorem Kept.cpu_free (h : Kept env opts P₀ c) (hw : ∀ w ∈ c.workers, w = []) {k : Nat}
    {rest : List Action} (hs : c.producer = .cpuRequest k :: rest) : c.cpuInUse = 0 := by
  obtain ⟨X, hX⟩ := h.origin.producer
  have hreq := h.script.requests_eq_tasks (show P₀ = X ++ .cpuRequest k :: rest by rw [← hX, hs])
  have hff := futureFinishes_of_ok env opts.compLevel (h.spawned_ok hw hX.symm)
  have hleft : c.finishesLeft = 0 := List.sum_eq_zero fun x hx => by
    obtain ⟨w, hw', rfl⟩ := List.mem_map.mp hx
    rw [hw w hw']
    rfl
  have hacc := h.permits.accounts (h.calm.running h.running).2.1
  rw [← hX, requests_append, futureFinishes_append, hleft] at hacc
  omega

/-- With every worker finished and `-j` at least one, the producer's `Request` does not wait. -/
theorem Kept.request_ready (h : Kept env opts P₀ c) (hj : 0 < opts.parallelJobs)
    (hw : ∀ w ∈ c.workers, w = []) {k : Nat} {rest : List Action}
    (hs : c.producer = .cpuRequest k :: rest) : exec env opts c (.cpuRequest k) ≠ .blocked := by
  intro hb
  rcases h.blocked (p := .producer) hs hb with ⟨_, hk, -⟩ | ⟨_, -, hcpu⟩ | he
  · cases hk
  · have := h.cpu_free hw hs
    omega
  · simp [Action.isSendError] at he

/-- With every worker finished, `z.writeOps` has carried the pushes the producer made. -/
theorem Kept.writeOps_sent (h : Kept env opts P₀ c) (hw : ∀ w ∈ c.workers, w = [])
    {X : List Action} (hX : X ++ c.producer = P₀) :
    (c.view .writeOps).sent = sendsOf (opsOn .writeOps X) := by
  have hsil : ∀ u ∈ workersOf env opts.compLevel P₀, opsOn .writeOps u = [] := fun u hu =>
    ((h.script.rest env opts.compLevel).workers u hu).silent (by simp [ChanName.index?])
  have hY : (workersOf env opts.compLevel c.producer).flatMap (opsOn .writeOps) = [] :=
    List.flatMap_eq_nil_iff.mpr fun u hu =>
      hsil u (by rw [← hX, workersOf_append]; exact List.mem_append_right _ hu)
  have hS : sendsIn env opts.compLevel P₀ .writeOps =
      sendsOf (opsOn .writeOps X) ++ sendsOf (opsOn .writeOps c.producer) := by
    rw [sendsIn, unitsOf, List.flatMap_cons, List.flatMap_eq_nil_iff.mpr hsil, List.append_nil, ← hX,
      opsOn_append, sendsOf_append]
  have hh := h.channels.disciplined.history .writeOps
  rw [Config.pending_of_done hw, unitsOf, List.flatMap_cons, hY, List.append_nil, hS] at hh
  exact List.append_cancel_right hh

/-- With every worker finished and the producer done, `z.writeOps` is closed. -/
theorem Kept.writeOps_closed (h : Kept env opts P₀ c) (hw : ∀ w ∈ c.workers, w = [])
    (hp : c.producer = []) : c.writeOps.closed = true := by
  have hm : ChanOp.close ∈ (unitsOf env opts.compLevel P₀).flatMap (opsOn .writeOps) :=
    List.mem_flatMap.mpr ⟨P₀, List.mem_cons_self _ _,
      List.mem_filterMap.mpr ⟨_, h.script.closeWriteOps_mem h.hangFree, rfl⟩⟩
  rcases h.live.closes h.open .writeOps hm with hc | hc
  · exact hc
  · simp [Config.pending_of_done hw, hp, unitsOf, workersOf] at hc

/-- With every worker finished and the producer done or at a push, every slot the producer has
pushed is complete: it delivers its entry and buffers, its channels carry all they carry in the
run, and its reader list, if it has one, is closed. -/
theorem Kept.pushed (h : Kept env opts P₀ c) (hw : ∀ w ∈ c.workers, w = [])
    (hY : ∀ a ∈ c.producer.head?, ∃ k, a = .sendWriteOp k) {k₁ : Nat}
    (hk : k₁ ∈ c.writeOps.sent) :
    Delivered (sendsIn env opts.compLevel P₀) k₁ ∧
      (∀ ch, ch.index? = some k₁ → (c.view ch).sent = sendsIn env opts.compLevel P₀ ch) ∧
      ∀ ze, entryOf (sendsIn env opts.compLevel P₀) k₁ = some ze → ze.futureReaders = some k₁ →
        (c.readers k₁).closed = true := by
  obtain ⟨X, hX⟩ := h.origin.producer
  have hXe : ∀ a ∈ X, a.isSendError = false := fun a ha => by
    by_contra hne
    exact (h.errorTaken X hX.symm ⟨a, ha, by simpa using hne⟩).1 h.running
  have hk' : Msg.op k₁ ∈ sendsOf (opsOn .writeOps X) := by
    rw [← h.writeOps_sent hw hX]
    exact List.mem_map_of_mem _ hk
  obtain ⟨X₁, b, X₂, rfl, hbs, hb, hrest⟩ := h.script.locate hX.symm hXe hY hk'
  have hsil : ∀ ch, ch.index? = some k₁ → Silent env opts.compLevel (X₂ ++ c.producer) ch :=
    fun ch hch => (hrest.rest env opts.compLevel).silent (by rintro rfl; cases hch)
      fun k' h' => by rw [hch] at h'; cases h'; omega
  have hS : ∀ ch, ch.index? = some k₁ →
      sendsIn env opts.compLevel P₀ ch = sendsIn env opts.compLevel b ch := fun ch hch => by
    rw [← hX, List.append_assoc, List.append_assoc, hbs.sendsIn_append _ (by rintro rfl; cases hch)
      (fun k' h' => by rw [hch] at h'; cases h'; omega), sendsIn_append_of_silent (hsil ch hch)]
  have hok : ∀ u ∈ workersOf env opts.compLevel b, ∀ a ∈ u, a.isSendError = false :=
    fun u hu => h.spawned_ok hw hX.symm u (by simp [hu])
  obtain ⟨hdel, hcl⟩ := hb.complete hok
  have hent : entryOf (sendsIn env opts.compLevel P₀) k₁ =
      entryOf (sendsIn env opts.compLevel b) k₁ := by
    simp only [entryOf, hS (.entry k₁) rfl]
  have hpend : ∀ ch, ch.index? = some k₁ →
      (c.pending env opts.compLevel).flatMap (opsOn ch) = [] := fun ch hch => by
    obtain ⟨h₁, h₂⟩ := (hsil ch hch).of_append
    rw [Config.pending_of_done hw, unitsOf, List.flatMap_cons, h₁, List.flatMap_eq_nil_iff.mpr h₂]
    rfl
  refine ⟨hdel.congr hS fun ze hze => h.carried.ownReaders k₁ ze (hent ▸ hze), fun ch hch => ?_,
    fun ze hze hr => ?_⟩
  · have hh := h.channels.disciplined.history ch
    rwa [hpend ch hch, sendsOf_nil, List.append_nil] at hh
  · have hm := units_flatMap_subset X₁ b (X₂ ++ c.producer) _ (hcl ze (hent ▸ hze) hr)
    rw [← List.append_assoc, hX] at hm
    rcases h.live.closes h.open _ hm with hc | hc
    · exact hc
    · rw [hpend (.readers k₁) rfl] at hc
      cases hc

theorem Chan.ready_of_sent {α : Type} {ch : Chan α} (ht : ch.taken = 0) (hs : ch.sent ≠ []) :
    ch.ready = true := by
  simp [Chan.ready, ht, List.length_pos.mpr hs]

/-- With every worker finished and the producer done or waiting at a push on a full
`z.writeOps`, the channel the writer's loop selects is ready. -/
theorem Kept.selected_ready (h : Kept env opts P₀ c) (hw : ∀ w ∈ c.workers, w = [])
    (hY : c.producer = [] ∨
      ∃ k rest, c.producer = .sendWriteOp k :: rest ∧ 1000 ≤ c.writeOps.buffered) :
    c.writer.selected = .writeOps ∧ c.writeOps.ready = true ∨
      (∃ k, c.writer.selected = .entry k ∧ (c.entries k).ready = true) ∨
      (∃ k, c.writer.selected = .readers k ∧ (c.readers k).ready = true) ∨
      ∃ k j, c.writer.selected = .data k j ∧ (c.data (k, j)).ready = true := by
  have hY' : ∀ a ∈ c.producer.head?, ∃ k, a = .sendWriteOp k := by
    rcases hY with hY | ⟨k, rest, hY, -⟩ <;> simp [hY]
  have hsent : ∀ pre k rest, slotsOf (sendsIn env opts.compLevel P₀) = pre ++ k :: rest →
      c.writeOps.taken = pre.length + 1 → k ∈ c.writeOps.sent := fun pre k rest hs ht => by
    rcases hY with hY | ⟨k', rest', -, hb⟩
    · rw [h.channels.writeOps_closed (h.writeOps_closed hw hY), hs]
      simp
    · have hlt : pre.length < c.writeOps.sent.length := by
        simp only [Chan.buffered] at hb
        omega
      obtain ⟨t, ht'⟩ := h.channels.writeOps_prefix
      exact List.mem_iff_getElem?.mpr ⟨_, show c.writeOps.sent[pre.length]? = some k by
        rw [← List.getElem?_append_left hlt, ht', hs, List.getElem?_append_right le_rfl]
        simp⟩
  cases h.writer.progress h.running with
  | idle pre rest done _ _ hwr _ _ _ _ =>
    refine .inl ⟨by rw [hwr]; rfl, ?_⟩
    rcases hY with hY | ⟨k, rest, -, hb⟩
    · simp [Chan.ready, h.writeOps_closed hw hY]
    · simp only [Chan.buffered] at hb
      simp only [Chan.ready, Bool.or_eq_true, decide_eq_true_eq]
      omega
  | entry pre k rest hs ht hwr _ _ hfresh =>
    obtain ⟨⟨ze, hze, -⟩, hsent', -⟩ := h.pushed hw hY' (hsent pre k rest hs ht)
    refine .inr (.inl ⟨k, by rw [hwr]; rfl, Chan.ready_of_sent (hfresh k (List.mem_cons_self _ _)).1 ?_⟩)
    intro hnil
    have hv := hsent' (.entry k) rfl
    simp only [Config.view, Chan.map, hnil, List.map_nil] at hv
    simp [entryOf, ← hv] at hze
  | readers pre k rest ze done todo hs ht hze hfr hwr _ _ _ _ _ _ _ =>
    obtain ⟨-, -, hclosed⟩ := h.pushed hw hY' (hsent pre k rest hs ht)
    exact .inr (.inr (.inl ⟨k, by rw [hwr]; rfl, by simp [Chan.ready, hclosed ze hze hfr]⟩))
  | data pre k rest ze done j todo hs ht hze hfr hwr hrd _ _ _ _ htaken _ =>
    obtain ⟨⟨ze', hze', hdel⟩, hsent', -⟩ := h.pushed hw hY' (hsent pre k rest hs ht)
    rw [hze] at hze'
    cases hze'
    have hd := hdel k hfr j (by rw [hrd]; simp)
    refine .inr (.inr (.inr ⟨k, j, by rw [hwr]; rfl,
      Chan.ready_of_sent (htaken j (List.mem_cons_self _ _)) ?_⟩))
    intro hnil
    have hv := hsent' (.data k j) rfl
    simp only [Config.view, Chan.map, hnil, List.map_nil] at hv
    simp [dataOf, ← hv] at hd

/-- No configuration that keeps these invariants is stuck, when `-j` is at least one. -/
theorem Kept.not_stuck (h : Kept env opts P₀ c) (hj : 0 < opts.parallelJobs) :
    ¬Stuck env opts c := by
  intro hst
  have hw := h.workers_done hst
  have hY : c.producer = [] ∨
      ∃ k rest, c.producer = .sendWriteOp k :: rest ∧ 1000 ≤ c.writeOps.buffered := by
    cases hp : c.producer with
    | nil => exact .inl rfl
    | cons a rest =>
      rcases h.waits hst (p := .producer) hp with ⟨k, rfl, hb⟩ | ⟨k, rfl, hcpu⟩
      · exact .inr ⟨k, rest, rfl, hb⟩
      · have := h.cpu_free hw hp
        omega
  have hstep : stepWriter env c .recv = c := hst (.writer .recv)
  exact stepWriter_recv_ne h.running (hst.notDone h.running) (h.selected_ready hw hY) hstep

end Kept

/-! ### Every run of `write` -/

section Write

variable {env : Env} {opts : Options} {out : String} {ms : List PathMapping} {manifest : String}

/-- While the writer runs its loop, `write` has started the producer over its mappings. -/
theorem write_running {c : Config} (hr : Reachable env opts (write env opts out ms manifest) c)
    (hrun : c.writer.status = .running) :
    Script 0 (write env opts out ms manifest).producer ∧
      .hang ∉ (write env opts out ms manifest).producer := by
  have key : (write env opts out ms manifest).writer.status = .running →
      Script 0 (write env opts out ms manifest).producer ∧
        .hang ∉ (write env opts out ms manifest).producer := by
    unfold write
    split
    · simp
    · dsimp only
      split
      · simp [Config.finish]
      · exact fun _ => ⟨producer_script env opts Tracker.empty _, producer_hang_free env opts _ _⟩
  by_contra hne
  have h₀ : (write env opts out ms manifest).writer.status ≠ .running := fun h => hne (key h)
  exact h₀ ((hr.final h₀).1 ▸ hrun)

theorem write_kept {c : Config} (hr : Reachable env opts (write env opts out ms manifest) c)
    (hrun : c.writer.status = .running) : Kept env opts (write env opts out ms manifest).producer c where
  script := (write_running hr hrun).1
  hangFree := (write_running hr hrun).2
  carried := (write_planned env opts out ms manifest).carried
  roomy := write_roomy env opts out ms manifest
  channels := carried_eq_sendsIn env opts (write_start env opts out ms manifest).1 ▸
    write_channelInv env opts out ms manifest hr
  writer := write_writerInv_sendsIn hr
  calm := (write_limits env opts out ms manifest hr).1
  permits := (write_permits hr).1
  origin := (write_permits hr).2
  live := write_live hr
  errorTaken := write_errorTaken hr
  running := hrun

/-- `write` never deadlocks: with `-j` at least one, in every configuration a run of `write`
reaches under any schedule, while the writer is in its loop, some step of the scheduler changes
the configuration. A goroutine waits only at a push on a full `z.writeOps` (1000 buffered), at a
`Request` with all `-j` permits in use, or at a send on `z.errors`; sends on entry slots, reader
slots and reader lists never wait, and once every worker has finished the producer's `Request`
does not wait either. -/
theorem write_no_deadlock {c : Config} (hr : Reachable env opts (write env opts out ms manifest) c)
    (hj : 0 < opts.parallelJobs) (hrun : c.writer.status = .running) :
    (∃ s, step env opts c s ≠ c) ∧
      (∀ p a rest, c.script p = a :: rest → exec env opts c a = .blocked →
        (∃ k, a = .sendWriteOp k ∧ 1000 ≤ c.writeOps.buffered) ∨
          (∃ k, a = .cpuRequest k ∧ opts.parallelJobs ≤ c.cpuInUse) ∨ a.isSendError) ∧
      ((∀ w ∈ c.workers, w = []) → ∀ k rest, c.producer = .cpuRequest k :: rest →
        exec env opts c (.cpuRequest k) ≠ .blocked) := by
  have h := write_kept hr hrun
  refine ⟨?_, fun _ _ _ hs hb => h.blocked hs hb, fun hw _ _ hs => h.request_ready hj hw hs⟩
  by_contra hst
  push_neg at hst
  exact h.not_stuck hj hst

/-- Two files, after the producer has run three steps. -/
theorem write_no_deadlock_two_files :
    let env : Env := Env.healthy fun p => if p = "a" then some (.file [7] false) else none
    let opts : Options :=
      { emulateJar := false, directories := true, parallelJobs := 4, compLevel := 5 }
    let c := run env opts (write env opts "out" [⟨"x/a", "a", Zip.deflate⟩, ⟨"x/b", "a", Zip.store⟩] "")
      (List.replicate 3 (.proc .producer))
    0 < opts.parallelJobs ∧ c.writer.status = .running ∧
      (∃ s, step env opts c s ≠ c) ∧
      (∀ p a rest, c.script p = a :: rest → exec env opts c a = .blocked →
        (∃ k, a = .sendWriteOp k ∧ 1000 ≤ c.writeOps.buffered) ∨
          (∃ k, a = .cpuRequest k ∧ opts.parallelJobs ≤ c.cpuInUse) ∨ a.isSendError) ∧
      ((∀ w ∈ c.workers, w = []) → ∀ k rest, c.producer = .cpuRequest k :: rest →
        exec env opts c (.cpuRequest k) ≠ .blocked) :=
  ⟨by decide, by decide, write_no_deadlock (reachable_run _ _ _ _) (by decide) (by decide)⟩

end Write

end SoongZip
