import SoongZip.Balance

/-!
# The rate limiters over every run

`z.cpuRateLimiter` and `z.memoryRateLimiter` (`soong_zip.go:352–353`) count the permits and the
bytes in use. Over every interleaving of a run of `write`: at most `-j` permits are in use; the
permit the producer holds for its next worker and one for each `Finish` a running worker has
still to call are in use; the bytes in use never go negative, and are those asked for the
entries the writer has not taken. When `write` returns nil, no worker failed, the permits in use
are exactly the `Finish` calls the running workers have still to make, and the bytes in use are
zero: every entry's `Request(allocatedSize)` was matched by the writer's `Finish(allocatedSize)`
(`soong_zip.go:440`). Entry by entry, the producer makes one `Request` for each worker it starts
for the entry, one for a whole-file entry and one plus one per block for a split entry, and each
of those workers calls `Finish` once.

The proof joins the invariants of the earlier modules with three of its own: how a run ends
(`Calm`), which entries the writer has taken (`Drain`), and the ledger of the memory limiter
(`Memory`).
-/

namespace SoongZip

/-! ### What one action does -/

/-- The bytes an action asks of `z.memoryRateLimiter`. -/
def Action.memAsk : Action → Nat
  | .memRequest _ n => n
  | _ => 0

section Exec

variable {env : Env} {opts : Options} {c c' : Config} {a : Action}

theorem exec_memInUse (h : exec env opts c a = .next c') : c'.memInUse = c.memInUse + a.memAsk := by
  cases a <;> simp only [exec, sendOn, closeOn] at h <;> repeat' split at h
  all_goals cases h
  all_goals simp [Action.memAsk]

/-- Only `close(z.writeOps)` closes `z.writeOps`. -/
theorem exec_writeOps_closed (h : exec env opts c a = .next c') (ha : a ≠ .closeWriteOps) :
    c'.writeOps.closed = c.writeOps.closed := by
  cases a <;> simp only [exec, sendOn, closeOn] at h <;> repeat' split at h
  all_goals cases h
  all_goals first | rfl | exact absurd rfl ha

theorem exec_writeOps_closed_mono (h : exec env opts c a = .next c')
    (hc : c.writeOps.closed = true) : c'.writeOps.closed = true := by
  cases a <;> simp only [exec, sendOn, closeOn] at h <;> repeat' split at h
  all_goals cases h
  all_goals exact hc

theorem Action.opOn_entry_send {a : Action} {k : Nat} {m : Msg}
    (h : a.opOn (.entry k) = some (.send m)) : ∃ ze, a = .sendEntry k ze := by
  cases a <;> simp [Action.opOn, Action.chanOp?] at h
  exact ⟨_, by rw [h.1]⟩

/-- An entry slot gets its first value only from a send of an entry on it. -/
theorem exec_entry_sent (h : exec env opts c a = .next c') {k : Nat}
    (hs : (c'.entries k).sent ≠ []) : (c.entries k).sent ≠ [] ∨ ∃ ze, a = .sendEntry k ze := by
  have hv : (c'.entries k).sent.map Msg.entry = (a.applyTo c.view (.entry k)).sent := by
    rw [← exec_view h]
    rfl
  unfold Action.applyTo at hv
  split at hv
  · rename_i op hop
    cases op with
    | close =>
      exact .inl fun he => hs (by simpa [ChanOp.apply, Chan.close, Config.view, Chan.map, he] using hv)
    | send m => exact .inr (Action.opOn_entry_send hop)
  · exact .inl fun he => hs (by simpa [Config.view, Chan.map, he] using hv)

end Exec

@[simp] theorem Config.setScript_writeOps (c : Config) (p : Proc) (s : List Action) :
    (c.setScript p s).writeOps = c.writeOps := by cases p <;> rfl

@[simp] theorem Config.setScript_entries (c : Config) (p : Proc) (s : List Action) :
    (c.setScript p s).entries = c.entries := by cases p <;> rfl

@[simp] theorem Config.setScript_memInUse (c : Config) (p : Proc) (s : List Action) :
    (c.setScript p s).memInUse = c.memInUse := by cases p <;> rfl

theorem Config.setScript_producer_of_worker (c : Config) (i : Nat) (s : List Action) :
    (c.setScript (.worker i) s).producer = c.producer := rfl

/-- Cutting a goroutine's script to a suffix of it leaves the producer a suffix of its script. -/
theorem Config.setScript_suffix {c : Config} {p : Proc} {s : List Action} (hs : s <:+ c.script p) :
    (c.setScript p s).producer <:+ c.producer := by
  cases p with
  | producer => exact hs
  | worker i => exact List.suffix_refl _

/-- Under the channel discipline a goroutine panics only on a send on the closed `z.errors`. -/
theorem ChannelInv.exec_panic {env : Env} {opts : Options} {S : ChanName → List Msg} {c : Config}
    (h : ChannelInv env opts S c) {p : Proc} {a : Action} {rest : List Action} {x : Panic}
    (hs : c.script p = a :: rest) (he : exec env opts c a = .panic x) :
    a.isSendError = true ∧ c.errorsClosed = true := by
  rcases SoongZip.exec_panic he with ⟨hse, hec, -⟩ | ⟨ch, op, hop, hcl⟩
  · exact ⟨hse, hec⟩
  exfalso
  have hmem : a :: rest ∈ c.pending env opts.compLevel := by
    cases p with
    | producer => exact hs ▸ List.mem_cons_self _ _
    | worker i =>
      exact List.mem_cons_of_mem _ (List.mem_append_right _ (script_worker_mem hs (List.cons_ne_nil _ _)).1)
  have hops : opsOn ch (a :: rest) ≠ [] := by
    simp [opsOn, List.filterMap_cons, Action.opOn, hop]
  exact hops (List.flatMap_eq_nil_iff.mp (h.disciplined.closedDone ch hcl) _ hmem)

theorem Writer.selected_writeOps {w : Writer} (h : w.selected = .writeOps) :
    w.currentWriteOpChan = none := by
  unfold Writer.selected at h
  split at h <;> simp_all

theorem Writer.selected_entry {w : Writer} {k : Nat} (h : w.selected = .entry k) :
    w.currentWriteOpChan = some k := by
  unfold Writer.selected at h
  split at h <;> simp_all

theorem suffix_dropLast {a : Action} {rest P : List Action} (h : a :: rest <:+ P) (hr : rest ≠ []) :
    a ∈ P.dropLast := by
  obtain ⟨X, rfl⟩ := h
  rw [List.dropLast_append_of_ne_nil _ (List.cons_ne_nil _ _), List.dropLast_cons_of_ne_nil hr]
  exact List.mem_append_right _ (List.mem_cons_self _ _)

/-! ### How a run ends -/

/-- While the writer runs, `z.errors` is open, nothing has panicked and `err` is nil; once it
has returned nil, nothing has panicked, the producer is done and `err` is nil; the producer is
done once `z.writeOps` is closed, and the writer leaves its loop only once it is closed. -/
structure Calm (c : Config) : Prop where
  running : c.writer.status = .running → c.errorsClosed = false ∧ c.panics = [] ∧ c.writer.err = none
  returned : c.writer.status = .returned none → c.panics = [] ∧ c.producer = [] ∧ c.writer.err = none
  closed : c.writeOps.closed = true → c.producer = []
  done : c.writer.done = true → c.writeOps.closed = true

/-- A receive of the writer loop: it goes on with `z.errors`, `err` and the panics as they were,
or ends the loop with an error or a panic; it leaves the producer and `z.writeOps` open or
closed as it was, and leaves the loop only on a closed `z.writeOps`. -/
structure LoopStep (c c' : Config) : Prop where
  running : c'.writer.status = .running →
    c'.errorsClosed = c.errorsClosed ∧ c'.panics = c.panics ∧ c'.writer.err = c.writer.err
  notNil : c'.writer.status ≠ .returned none
  producer : c'.producer <:+ c.producer
  closed : c'.writeOps.closed = c.writeOps.closed
  done : c'.writer.done = true → c.writer.done = true ∨ c'.writeOps.closed = true

section Loop

variable {env : Env} {c : Config}

theorem loopStep_finish {c c' : Config} {e : GoError} (hp : c'.producer <:+ c.producer)
    (hc : c'.writeOps.closed = c.writeOps.closed) (hd : c'.writer.done = c.writer.done) :
    LoopStep c (c'.finish (some e)) :=
  ⟨fun h => by simp at h, by simp, hp, hc, fun h => .inl (by simpa [hd] using h)⟩

theorem loopStep_panic {c c' : Config} {x : Panic} (hp : c'.producer <:+ c.producer)
    (hc : c'.writeOps.closed = c.writeOps.closed) (hd : c'.writer.done = c.writer.done) :
    LoopStep c (c'.panic x) :=
  ⟨fun h => by simp at h, by simp, hp, hc, fun h => .inl (by simpa [hd] using h)⟩

theorem loopStep_recvWriteOp (hr : c.writeOps.ready = true) (hrun : c.writer.status = .running) :
    LoopStep c (recvWriteOp c) := by
  unfold recvWriteOp
  split
  · exact ⟨fun _ => ⟨rfl, rfl, rfl⟩, by simp [hrun], List.suffix_refl _, by simp, fun h => .inl h⟩
  · rename_i hn
    refine ⟨fun _ => ⟨rfl, rfl, rfl⟩, by simp [hrun], List.suffix_refl _, rfl, fun _ => .inr ?_⟩
    have : ¬c.writeOps.taken < c.writeOps.sent.length := fun hlt => by
      simp [Chan.head?, List.getElem?_eq_getElem hlt] at hn
    simpa [Chan.ready, this] using hr

theorem loopStep_recvEntry (env : Env) (hrun : c.writer.status = .running) (k : Nat) :
    LoopStep c (recvEntry env c k) := by
  unfold recvEntry
  dsimp only
  repeat' split
  all_goals first
    | exact loopStep_panic (List.suffix_refl _) rfl rfl
    | exact loopStep_finish (List.suffix_refl _) rfl rfl
    | exact ⟨fun _ => ⟨rfl, rfl, rfl⟩, by simp [hrun], List.suffix_refl _, rfl, fun h => .inl h⟩

theorem loopStep_recvReaders (hrun : c.writer.status = .running) (k : Nat) :
    LoopStep c (recvReaders c k) := by
  unfold recvReaders
  repeat' split
  all_goals first
    | exact loopStep_panic (List.suffix_refl _) rfl rfl
    | exact ⟨fun _ => ⟨rfl, rfl, rfl⟩, by simp [hrun], List.suffix_refl _, rfl, fun h => .inl h⟩

theorem loopStep_recvData (env : Env) (hrun : c.writer.status = .running) (k j : Nat) :
    LoopStep c (recvData env c k j) := by
  unfold recvData
  dsimp only
  repeat' split
  all_goals first
    | exact loopStep_panic (List.suffix_refl _) rfl rfl
    | exact loopStep_finish (List.suffix_refl _) rfl rfl
    | exact ⟨fun _ => ⟨rfl, rfl, rfl⟩, by simp [hrun], List.suffix_refl _, rfl, fun h => .inl h⟩

theorem Calm.of_loop {c' : Config} (h : Calm c) (hrun : c.writer.status = .running)
    (hl : LoopStep c c') : Calm c' where
  running hr := by
    obtain ⟨he, hp, herr⟩ := hl.running hr
    obtain ⟨he', hp', herr'⟩ := h.running hrun
    exact ⟨he.trans he', hp.trans hp', herr.trans herr'⟩
  returned hr := absurd hr hl.notNil
  closed hc := List.suffix_nil.mp (h.closed (hl.closed ▸ hc) ▸ hl.producer)
  done hd := (hl.done hd).elim (fun hd => hl.closed ▸ h.done hd) id

theorem Calm.stepWriter (h : Calm c) (cs : Case) : Calm (SoongZip.stepWriter env c cs) := by
  cases cs with
  | recv =>
    rcases stepWriter_recv_cases env c with
      heq | ⟨hrun, ⟨-, hr, heq⟩ | ⟨k, -, -, heq⟩ | ⟨k, heq⟩ | ⟨k, j, heq⟩⟩ <;> rw [heq]
    · exact h
    · exact h.of_loop hrun (loopStep_recvWriteOp hr hrun)
    · exact h.of_loop hrun (loopStep_recvEntry env hrun k)
    · exact h.of_loop hrun (loopStep_recvReaders hrun k)
    · exact h.of_loop hrun (loopStep_recvData env hrun k j)
  | error p =>
    rcases stepWriter_error_cases env c p with heq | ⟨e, rest, hs, hrun, -, heq⟩ <;> rw [heq]
    · exact h
    · exact h.of_loop hrun (loopStep_finish
        (Config.setScript_suffix (by rw [hs]; exact List.suffix_cons _ _)) (by simp) rfl)
  | default =>
    rcases stepWriter_default_cases env c with heq | ⟨hrun, hdone, heq⟩ <;> rw [heq]
    · exact h
    · obtain ⟨-, hp, herr⟩ := h.running hrun
      have hpr := h.closed (h.done hdone)
      exact ⟨fun hr => by simp at hr, fun _ => ⟨hp, hpr, herr⟩, fun _ => hpr,
        fun hd => h.done (by simpa using hd)⟩

end Loop

section Proc

variable {env : Env} {opts : Options} {S : ChanName → List Msg} {P₀ : List Action} {c : Config}

theorem Origin.noCloseWriteOps (h : Origin env opts.compLevel P₀ c) {w : List Action}
    (hw : w ∈ c.workers) : ∀ a ∈ w, a ≠ .closeWriteOps :=
  let ⟨t, hs⟩ := h.worker hw
  fun a ha => ((taskScript_permits env opts.compLevel t).1 a (hs.subset ha)).2

theorem Calm.stepProc (h : Calm c) (hc : ChannelInv env opts S c)
    (ho : Origin env opts.compLevel P₀ c) (hs : Shape P₀)
    (hq : c.writer.status = .returned none → ∀ w ∈ c.workers, ∀ a ∈ w, a.isSendError = false)
    (p : Proc) : Calm (SoongZip.stepProc env opts c p) := by
  rcases stepProc_cases c p with heq | ⟨a, rest, c', hsc, he, heq⟩ | ⟨a, rest, x, hsc, hx, heq⟩ <;>
    rw [heq]
  · exact h
  · obtain ⟨hw, -, -, hec, hpan⟩ := exec_frame he
    have hp := (exec_scripts he).1
    have hprod : (p = .producer ∧ c.producer = a :: rest) ∨
        (c'.setScript p rest).producer = c.producer := by
      cases p with
      | producer => exact .inl ⟨rfl, hsc⟩
      | worker i => exact .inr hp
    refine ⟨fun hr => ?_, fun hr => ?_, fun hcl => ?_, fun hd => ?_⟩
    · rw [Config.setScript_writer, hw] at hr
      obtain ⟨h1, h2, h3⟩ := h.running hr
      exact ⟨by simpa [hec] using h1, by simpa [hpan] using h2, by simpa [hw] using h3⟩
    · rw [Config.setScript_writer, hw] at hr
      obtain ⟨h1, h2, h3⟩ := h.returned hr
      rcases hprod with ⟨-, hcp⟩ | hcp
      · simp [h2] at hcp
      · exact ⟨by simpa [hpan] using h1, hcp.trans h2, by simpa [hw] using h3⟩
    · rw [Config.setScript_writeOps] at hcl
      by_cases ha : a = .closeWriteOps
      · subst ha
        cases p with
        | producer =>
          show rest = []
          by_contra hr
          exact hs.closeLast (suffix_dropLast ((show c.producer = _ from hsc) ▸ ho.producer) hr)
        | worker i =>
          exact absurd rfl (ho.noCloseWriteOps (script_worker_mem hsc (List.cons_ne_nil _ _)).1 _
            (List.mem_cons_self _ _))
      · have hpr := h.closed (by rwa [exec_writeOps_closed he ha] at hcl)
        rcases hprod with ⟨-, hcp⟩ | hcp
        · simp [hpr] at hcp
        · exact hcp.trans hpr
    · rw [Config.setScript_writer, hw] at hd
      rw [Config.setScript_writeOps]
      exact exec_writeOps_closed_mono he (h.done hd)
  · obtain ⟨hse, hec⟩ := hc.exec_panic hsc hx
    refine ⟨fun hr => ?_, fun hr => ?_, fun hcl => ?_, fun hd => ?_⟩
    · simp only [Config.setScript_writer] at hr
      simp [(h.running hr).1] at hec
    · simp only [Config.setScript_writer] at hr
      cases p with
      | producer => simp [Config.script, (h.returned hr).2.1] at hsc
      | worker i =>
        have := hq hr _ (script_worker_mem hsc (List.cons_ne_nil _ _)).1 a (List.mem_cons_self _ _)
        simp [hse] at this
    · simp only [Config.setScript_writeOps] at hcl
      cases p with
      | producer => rfl
      | worker i => exact h.closed hcl
    · simp only [Config.setScript_writer, Config.setScript_writeOps] at hd ⊢
      exact h.done hd

end Proc

/-! ### The entries the writer has taken -/

section Recv

variable (env : Env) (c : Config)

theorem Chan.taken_lt_of_head? {α : Type} {ch : Chan α} {v : α} (h : ch.head? = some v) :
    ch.taken < ch.sent.length := by
  by_contra hn
  simp [Chan.head?, List.getElem?_eq_none (Nat.le_of_not_lt hn)] at h

theorem Chan.recv_taken_of_head? {α : Type} {ch : Chan α} {v : α} (h : ch.head? = some v) :
    ch.recv.taken = ch.taken + 1 := by
  simp [Chan.recv, Chan.taken_lt_of_head? h]

theorem recvWriteOp_cases :
    (∃ k, c.writeOps.head? = some k ∧ recvWriteOp c =
      { c with writeOps := c.writeOps.recv, writer := { c.writer with currentWriteOpChan := some k } }) ∨
      recvWriteOp c = { c with writer := { c.writer with done := true, currentWriteOpChan := none } } := by
  unfold recvWriteOp
  split
  · exact .inl ⟨_, ‹_›, rfl⟩
  · exact .inr rfl

/-- The writer's receive on entry slot `k` panics on a drained slot, or takes the slot's head
and stops waiting for the slot; it touches no other slot, not `z.writeOps` and not the producer,
and it either ends with an error or gives the entry's allocated size back to
`z.memoryRateLimiter`. -/
theorem recvEntry_cases (k : Nat) :
    recvEntry env c k = c.panic .nilEntry ∨
      ∃ op, (c.entries k).head? = some op ∧
        (recvEntry env c k).entries = Function.update c.entries k (c.entries k).recv ∧
        (recvEntry env c k).writeOps = c.writeOps ∧
        (recvEntry env c k).writer.currentWriteOpChan = none ∧
        (recvEntry env c k).producer = c.producer ∧
        ((recvEntry env c k).writer.status ≠ .running ∧ (recvEntry env c k).memInUse = c.memInUse ∨
          (recvEntry env c k).writer.status = c.writer.status ∧
            (recvEntry env c k).memInUse = c.memInUse - op.allocatedSize) := by
  unfold recvEntry
  dsimp only
  split
  · exact .inl rfl
  · refine .inr ⟨_, ‹_›, ?_⟩
    split
    · exact ⟨rfl, rfl, rfl, rfl, .inl ⟨by simp, rfl⟩⟩
    · split <;> exact ⟨rfl, rfl, rfl, rfl, .inr ⟨rfl, rfl⟩⟩

/-- The writer's other receives leave the entry slots, `z.writeOps`, the slot it waits for, the
memory limiter and the producer alone. -/
theorem recvReaders_frame (k : Nat) :
    (recvReaders c k).entries = c.entries ∧ (recvReaders c k).writeOps = c.writeOps ∧
      (recvReaders c k).writer.currentWriteOpChan = c.writer.currentWriteOpChan ∧
      (recvReaders c k).memInUse = c.memInUse ∧ (recvReaders c k).producer = c.producer := by
  unfold recvReaders
  repeat' split
  all_goals exact ⟨rfl, rfl, rfl, rfl, rfl⟩

theorem recvData_frame (k j : Nat) :
    (recvData env c k j).entries = c.entries ∧ (recvData env c k j).writeOps = c.writeOps ∧
      (recvData env c k j).writer.currentWriteOpChan = c.writer.currentWriteOpChan ∧
      (recvData env c k j).memInUse = c.memInUse ∧ (recvData env c k j).producer = c.producer := by
  unfold recvData
  dsimp only
  repeat' split
  all_goals exact ⟨rfl, rfl, rfl, rfl, rfl⟩

end Recv

/-- The writer has taken the entry of every slot it has taken from `z.writeOps`, but the one it
waits for; once it has returned nil it has taken every slot and waits for none. -/
structure Drain (S : ChanName → List Msg) (c : Config) : Prop where
  taken : ∀ k ∈ (slotsOf S).take c.writeOps.taken,
    (c.entries k).taken ≠ 0 ∨ c.writer.currentWriteOpChan = some k
  returned : c.writer.status = .returned none →
    c.writeOps.taken = (slotsOf S).length ∧ c.writer.currentWriteOpChan = none

section Drain

variable {env : Env} {opts : Options} {S : ChanName → List Msg} {c : Config}

/-- A step that leaves `z.writeOps`, the entry slots, the slot the writer waits for and whether
it has returned nil as they were. -/
theorem Drain.of_frame {c' : Config} (h : Drain S c) (hw : c'.writeOps.taken = c.writeOps.taken)
    (he : ∀ k, (c'.entries k).taken = (c.entries k).taken)
    (hcur : c'.writer.currentWriteOpChan = c.writer.currentWriteOpChan)
    (hret : c'.writer.status = .returned none → c.writer.status = .returned none) : Drain S c' where
  taken k hk := by rw [he, hcur]; exact h.taken k (hw ▸ hk)
  returned hr := by rw [hw, hcur]; exact h.returned (hret hr)

/-- Once the writer has returned nil, it has taken the entry of every slot. -/
theorem Drain.all_taken (h : Drain S c) (hr : c.writer.status = .returned none) :
    ∀ k ∈ slotsOf S, (c.entries k).taken ≠ 0 := fun k hk => by
  obtain ⟨ht, hcur⟩ := h.returned hr
  simpa [hcur] using h.taken k (by rw [ht, List.take_length]; exact hk)

theorem Drain.stepProc (h : Drain S c) (p : Proc) : Drain S (SoongZip.stepProc env opts c p) :=
  h.of_frame (stepProc_taken env opts c p .writeOps) (fun k => stepProc_taken env opts c p (.entry k))
    (by rw [(stepProc_frame env opts c p).1]) (by rw [(stepProc_frame env opts c p).1]; exact id)

theorem Drain.stepWriter (h : Drain S c) (hc : ChannelInv env opts S c) (hw : WriterInv S c)
    (cs : Case) : Drain S (SoongZip.stepWriter env c cs) := by
  cases cs with
  | recv =>
    rcases stepWriter_recv_cases env c with
      heq | ⟨hrun, ⟨hsel, -, heq⟩ | ⟨k, hsel, -, heq⟩ | ⟨k, heq⟩ | ⟨k, j, heq⟩⟩ <;> rw [heq]
    · exact h
    · have hnone := Writer.selected_writeOps hsel
      rcases recvWriteOp_cases c with ⟨k, hk, heq⟩ | heq <;> rw [heq]
      · have hlt := Chan.taken_lt_of_head? hk
        have hslot : (slotsOf S)[c.writeOps.taken]? = some k := by
          obtain ⟨t, ht⟩ := hc.writeOps_prefix
          rw [← ht, List.getElem?_append_left hlt]
          exact hk
        refine ⟨fun k' hk' => ?_, fun hr => by simp [hrun] at hr⟩
        simp only [Chan.recv, hlt, if_true, List.take_succ, hslot, Option.toList_some,
          List.mem_append, List.mem_singleton] at hk'
        rcases hk' with hk' | rfl
        · exact .inl ((h.taken k' hk').resolve_right (by rw [hnone]; simp))
        · exact .inr rfl
      · exact ⟨fun k' hk' => .inl ((h.taken k' hk').resolve_right (by rw [hnone]; simp)),
          fun hr => by simp [hrun] at hr⟩
    · have hcur := Writer.selected_entry hsel
      rcases recvEntry_cases env c k with heq | ⟨op, hop, hent, hwo, -, -, -⟩
      · rw [heq]
        exact h.of_frame rfl (fun _ => rfl) rfl (fun hr => by simp at hr)
      · refine ⟨fun k' hk' => .inl ?_, fun hr => absurd hr (loopStep_recvEntry env hrun k).notNil⟩
        rw [hwo] at hk'
        rw [hent]
        by_cases hkk : k' = k
        · subst hkk
          simp [Chan.recv_taken_of_head? hop]
        · rw [Function.update_noteq hkk]
          exact (h.taken k' hk').resolve_right (by rw [hcur]; simpa using Ne.symm hkk)
    · obtain ⟨he, hwo, hcw, -, -⟩ := recvReaders_frame c k
      exact h.of_frame (by rw [hwo]) (fun _ => by rw [he]) hcw
        (fun hr => absurd hr (loopStep_recvReaders hrun k).notNil)
    · obtain ⟨he, hwo, hcw, -, -⟩ := recvData_frame env c k j
      exact h.of_frame (by rw [hwo]) (fun _ => by rw [he]) hcw
        (fun hr => absurd hr (loopStep_recvData env hrun k j).notNil)
  | error p =>
    rcases stepWriter_error_cases env c p with heq | ⟨e, rest, -, -, -, heq⟩ <;> rw [heq]
    · exact h
    · exact h.of_frame (by simp [Config.finish]) (fun _ => by simp [Config.finish]) rfl
        (fun hr => by simp at hr)
  | default =>
    rcases stepWriter_default_cases env c with heq | ⟨hrun, hdone, heq⟩ <;> rw [heq]
    · exact h
    · refine ⟨h.taken, fun _ => ?_⟩
      cases hw.progress hrun with
      | idle pre rest done hs ht hwr hd =>
        have hrest : rest = [] := hd (by simpa [hwr] using hdone)
        subst hrest
        simp only [List.append_nil] at hs
        exact ⟨by rw [hs]; exact ht, by simp [hwr]⟩
      | entry _ _ _ _ _ hwr => simp [hwr] at hdone
      | readers _ _ _ _ _ _ _ _ _ _ hwr => simp [hwr] at hdone
      | data _ _ _ _ _ _ _ _ _ _ _ hwr => simp [hwr] at hdone

end Drain

/-! ### The ledger of the memory limiter -/

section Ledger

variable {env : Env} {level : Int} {P₀ : List Action} {k : Nat}

theorem AsksFirst.suffix {s P : List Action} (h : AsksFirst env level P) (hs : s <:+ P) :
    AsksFirst env level s := by
  obtain ⟨X, rfl⟩ := hs
  induction X with
  | nil => exact h
  | cons a X ih => exact ih h.2

theorem memAsked_suffix {s P : List Action} (hs : s <:+ P) : memAsked k s ≤ memAsked k P := by
  obtain ⟨X, rfl⟩ := hs
  rw [memAsked_append]
  omega

/-- Over distinct slots, a quantity only one slot has is counted once. -/
theorem sum_map_single {L : List Nat} (hL : L.Nodup) (hk : k ∈ L) (f : Nat → Nat)
    (hf : ∀ k' ≠ k, f k' = 0) : (L.map f).sum = f k := by
  rw [List.sum_map_eq_nsmul_single k f fun k' hk' _ => hf k' hk', List.count_eq_one_of_mem hL hk,
    one_nsmul]

/-- Over distinct slots that hold every entry it asks memory for, an action asks its bytes once. -/
theorem sum_map_memFor {a : Action} {L : List Nat} (hL : L.Nodup)
    (h : ∀ k, a.memFor k ≠ 0 → k ∈ L) : (L.map a.memFor).sum = a.memAsk := by
  cases a with
  | memRequest k n =>
    by_cases hk : k ∈ L
    · rw [sum_map_single hL hk _ fun k' hk' => by simp [Action.memFor, Ne.symm hk']]
      simp [Action.memFor, Action.memAsk]
    · have hn : n = 0 := by
        by_contra hn
        exact hk (h k (by simpa [Action.memFor] using hn))
      subst hn
      simp [Action.memFor, Action.memAsk]
  | _ => simp [Action.memFor, Action.memAsk]

theorem mem_slotsOf_sendsIn (h : Msg.op k ∈ sendsOf (opsOn .writeOps P₀)) :
    k ∈ slotsOf (sendsIn env level P₀) := by
  refine List.mem_filterMap.mpr ⟨.op k, ?_, rfl⟩
  simp only [sendsIn, unitsOf, List.flatMap_cons, sendsOf_append]
  exact List.mem_append_left _ h

/-- The slots of a run are those the producer's script pushes: its workers never touch
`z.writeOps`. -/
theorem Script.op_mem_of_slots {k₀ : Nat} (h : Script k₀ P₀) (hk : k ∈ slotsOf (sendsIn env level P₀)) :
    Msg.op k ∈ sendsOf (opsOn .writeOps P₀) := by
  obtain ⟨m, hm, hop⟩ := List.mem_filterMap.mp hk
  cases m <;> simp only [Msg.op?, Option.some.injEq, reduceCtorEq] at hop
  subst hop
  rwa [sendsIn, unitsOf, List.flatMap_cons, List.flatMap_eq_nil_iff.mpr fun u hu =>
    ((h.rest env level).workers u hu).silent (by simp [ChanName.index?]), List.append_nil] at hm

/-- An entry the producer asks memory for has a slot. -/
theorem ScriptMemory.mem_slots (hm : ScriptMemory env level 0 P₀) (hk : memAsked k P₀ ≠ 0) :
    k ∈ slotsOf (sendsIn env level P₀) :=
  mem_slotsOf_sendsIn (hm.slots k hk)

/-- The entry a slot carries was published by the producer or one of its workers, and carries
the bytes the producer asked for it. -/
theorem ScriptMemory.entryOf_alloc (hm : ScriptMemory env level 0 P₀) {ze : ZipEntry}
    (he : entryOf (sendsIn env level P₀) k = some ze) : ze.allocatedSize = memAsked k P₀ := by
  have hmem : Msg.entry ze ∈ sendsIn env level P₀ (.entry k) := by
    obtain ⟨m, hm, hme⟩ := List.mem_filterMap.mp (List.mem_of_mem_head? he)
    cases m <;> simp [Msg.entry?] at hme
    exact hme ▸ hm
  obtain ⟨u, hu, a, ha, hop⟩ := exists_send_of_mem_sendsOf hmem
  obtain ⟨b, hb, hp⟩ : ∃ b ∈ P₀, b.Publishes env level k ze := by
    rcases List.mem_cons.mp hu with rfl | hu
    · exact ⟨a, ha, .inl (Action.eq_sendEntry hop)⟩
    · obtain ⟨t, ht, rfl⟩ := List.mem_map.mp hu
      obtain ⟨b, hb, hbt⟩ := List.mem_filterMap.mp ht
      cases b <;> simp [Action.task?] at hbt
      subst hbt
      exact ⟨_, hb, .inr ⟨_, rfl, Action.eq_sendEntry hop ▸ ha⟩⟩
  exact (hm.publishes b hb k ze hp).2

end Ledger

/-- The bytes of entry `k` that `z.memoryRateLimiter` counts: those the producer has asked for
it, until the writer takes the entry. -/
def Config.memOwed (P₀ : List Action) (c : Config) (k : Nat) : Nat :=
  if (c.entries k).taken = 0 then memAsked k P₀ - memAsked k c.producer else 0

/-- The ledger of `z.memoryRateLimiter` in a run whose producer started with the script `P₀`: the
bytes in use never go negative; an entry sent on its slot, or taken by the writer, has had all
its memory asked for; while the writer runs, the bytes in use are those asked for the entries it
has not taken; once it has returned nil, none are in use. -/
structure Memory (env : Env) (level : Int) (P₀ : List Action) (c : Config) : Prop where
  nonneg : 0 ≤ c.memInUse
  sent : ∀ k, (c.entries k).sent ≠ [] → memAsked k c.producer = 0
  taken : ∀ k, (c.entries k).taken ≠ 0 → memAsked k c.producer = 0
  running : c.writer.status = .running →
    c.memInUse = ((slotsOf (sendsIn env level P₀)).map (c.memOwed P₀)).sum
  returned : c.writer.status = .returned none → c.memInUse = 0

section MemoryStep

variable {env : Env} {level : Int} {opts : Options} {P₀ : List Action} {c : Config}

theorem Memory.init (hm : c.memInUse = 0) (he : ∀ k, c.entries k = {}) :
    Memory env level c.producer c where
  nonneg := hm ▸ le_rfl
  sent k hs := by simp [he k] at hs
  taken k ht := by simp [he k] at ht
  running _ := by
    have hz : c.memOwed c.producer = fun _ => 0 := funext fun k => by simp [Config.memOwed]
    simp [hm, hz]
  returned _ := hm

/-- A step that leaves the bytes in use and the entry slots alone, and the producer too unless
the writer stops running. -/
theorem Memory.of_frame {c' : Config} (h : Memory env level P₀ c) (hmem : c'.memInUse = c.memInUse)
    (hent : c'.entries = c.entries) (hp : c'.producer <:+ c.producer)
    (hrun : c'.writer.status = .running → c.writer.status = .running ∧ c'.producer = c.producer)
    (hret : c'.writer.status = .returned none → c.writer.status = .returned none) :
    Memory env level P₀ c' where
  nonneg := hmem ▸ h.nonneg
  sent k hs := Nat.eq_zero_of_le_zero ((memAsked_suffix hp).trans (h.sent k (hent ▸ hs)).le)
  taken k ht := Nat.eq_zero_of_le_zero ((memAsked_suffix hp).trans (h.taken k (hent ▸ ht)).le)
  running hr := by
    obtain ⟨hr, hpr⟩ := hrun hr
    have hz : c'.memOwed P₀ = c.memOwed P₀ := funext fun k => by simp only [Config.memOwed, hent, hpr]
    rw [hmem, h.running hr, hz]
  returned hr := hmem ▸ h.returned (hret hr)

/-- A step of the producer moves the bytes its action asks for from what it has still to ask to
the entries not yet taken. -/
theorem memOwed_sum_producer {c' : Config} {a : Action} {rest : List Action} {L : List Nat}
    (hL : L.Nodup) (hp₀ : c.producer <:+ P₀) (hc : c.producer = a :: rest) (hp : c'.producer = rest)
    (ht : ∀ k, (c'.entries k).taken = (c.entries k).taken)
    (htk : ∀ k, (c.entries k).taken ≠ 0 → memAsked k c.producer = 0)
    (hslot : ∀ k, memAsked k P₀ ≠ 0 → k ∈ L) :
    (L.map (c'.memOwed P₀)).sum = (L.map (c.memOwed P₀)).sum + a.memAsk := by
  have hle (k : Nat) : a.memFor k + memAsked k rest ≤ memAsked k P₀ := by
    simpa [hc] using memAsked_suffix (k := k) hp₀
  have hpt (k : Nat) : c'.memOwed P₀ k = c.memOwed P₀ k + a.memFor k := by
    have := hle k
    have htk := htk k
    rw [hc, memAsked_cons] at htk
    by_cases h0 : (c.entries k).taken = 0 <;> simp only [Config.memOwed, ht, hp, hc, memAsked_cons, h0,
      if_true, if_false] at htk ⊢ <;> omega
  rw [List.map_congr_left fun k _ => hpt k, List.sum_map_add,
    sum_map_memFor hL fun k hk => hslot k (by have := hle k; omega)]

/-- The writer's receive of entry `k` takes its bytes off the entries not yet taken. -/
theorem memOwed_sum_take {c' : Config} {L : List Nat} (hL : L.Nodup) {k : Nat} (hk : k ∈ L)
    (hp : c'.producer = c.producer) (hent : c'.entries = Function.update c.entries k (c.entries k).recv)
    (ht0 : (c.entries k).taken = 0) {v : ZipEntry} (hv : (c.entries k).head? = some v)
    (hsent : memAsked k c.producer = 0) :
    (L.map (c.memOwed P₀)).sum = (L.map (c'.memOwed P₀)).sum + memAsked k P₀ := by
  have hpt : ∀ k', c.memOwed P₀ k' = c'.memOwed P₀ k' + if k' = k then memAsked k P₀ else 0 :=
    fun k' => by
      by_cases hkk : k' = k
      · subst hkk
        simp [Config.memOwed, hent, hp, ht0, hsent, Chan.recv_taken_of_head? hv]
      · simp [Config.memOwed, hent, hp, Function.update_noteq hkk, hkk]
  rw [List.map_congr_left fun k' _ => hpt k', List.sum_map_add,
    sum_map_single hL hk _ fun k' hk' => if_neg hk', if_pos rfl]

/-- An entry a running worker can still send has had all its memory asked for: the worker was
started after the producer asked it. -/
theorem Origin.spawned_asked (ho : Origin env level P₀ c) (hm : AsksFirst env level P₀)
    {w : List Action} (hw : w ∈ c.workers) {k : Nat} {ze : ZipEntry} (hs : .sendEntry k ze ∈ w) :
    memAsked k c.producer = 0 := by
  obtain ⟨X, t, Y, hP, hY, hwt⟩ := ho.workers w hw
  have hA : AsksFirst env level (.spawn t :: Y) := hm.suffix ⟨X, hP.symm⟩
  exact Nat.eq_zero_of_le_zero (hA.1 k ze (.inr ⟨t, rfl, hwt.subset hs⟩) ▸ memAsked_suffix hY)

/-- A worker asks no memory. -/
theorem taskScript_memAsk (env : Env) (level : Int) (t : Task) :
    ∀ a ∈ taskScript env level t, a.memAsk = 0 := by
  cases t with
  | crcFile k r ze =>
    rcases crcFile_cases env k r ze with ⟨e, h⟩ | h <;> simp [taskScript, h, Action.memAsk]
  | compressPartialFile k j r start dict last =>
    rcases compressPartialFile_cases env level k j r start dict last with ⟨e, h⟩ | ⟨d, h⟩ <;>
      simp [taskScript, h, Action.memAsk]
  | compressWholeFile k ze r =>
    rcases compressWholeFile_cases env level k ze r with ⟨e, h⟩ | ⟨e, h⟩ | ⟨fh, d, h, -⟩ <;>
      simp [taskScript, h, wholeFileTail, Action.memAsk]

theorem Memory.stepProc (h : Memory env opts.compLevel P₀ c)
    (hm : ScriptMemory env opts.compLevel 0 P₀) (hnd : (slotsOf (sendsIn env opts.compLevel P₀)).Nodup)
    {S : ChanName → List Msg} (hc : ChannelInv env opts S c) (ho : Origin env opts.compLevel P₀ c)
    (hcalm : Calm c) (p : Proc) : Memory env opts.compLevel P₀ (SoongZip.stepProc env opts c p) := by
  have htk (k : Nat) : ((SoongZip.stepProc env opts c p).entries k).taken = (c.entries k).taken :=
    stepProc_taken env opts c p (.entry k)
  have hw := (stepProc_frame env opts c p).1
  rcases stepProc_cases c p with heq | ⟨a, rest, c', hsc, he, heq⟩ | ⟨a, rest, x, hsc, hx, heq⟩ <;>
    rw [heq] at htk hw ⊢
  · exact h
  · have hmem := exec_memInUse he
    have hpc := (exec_scripts he).1
    have hsuf : (c'.setScript p rest).producer <:+ c.producer := hpc ▸ Config.setScript_suffix
      (by rw [exec_script he hsc (List.cons_ne_nil _ _)]; exact List.suffix_cons _ _)
    have hzero (k : Nat) (h0 : memAsked k c.producer = 0) : memAsked k (c'.setScript p rest).producer = 0 :=
      Nat.eq_zero_of_le_zero (h0 ▸ memAsked_suffix hsuf)
    have hask (i : Nat) (hi : p = .worker i) : a.memAsk = 0 := by
      subst hi
      obtain ⟨t, ht⟩ := ho.worker (script_worker_mem hsc (List.cons_ne_nil _ _)).1
      exact taskScript_memAsk env opts.compLevel t a (ht.subset (List.mem_cons_self _ _))
    refine ⟨?_, fun k hs => ?_, fun k ht => hzero k (h.taken k (htk k ▸ ht)), fun hr => ?_, fun hr => ?_⟩
    · rw [Config.setScript_memInUse, hmem]
      have := h.nonneg
      omega
    · rw [Config.setScript_entries] at hs
      rcases exec_entry_sent he hs with hs | ⟨ze, rfl⟩
      · exact hzero k (h.sent k hs)
      · cases p with
        | producer =>
          have hA : AsksFirst env opts.compLevel (.sendEntry k ze :: rest) :=
            hm.asksFirst.suffix ((show c.producer = _ from hsc) ▸ ho.producer)
          exact hA.1 k ze (.inl rfl)
        | worker i =>
          exact hzero k (ho.spawned_asked hm.asksFirst (script_worker_mem hsc (List.cons_ne_nil _ _)).1
            (List.mem_cons_self _ _))
    · rw [hw] at hr
      rw [Config.setScript_memInUse, hmem, h.running hr]
      cases p with
      | producer =>
        rw [memOwed_sum_producer hnd ho.producer hsc rfl htk h.taken fun k hk => hm.mem_slots hk]
        push_cast
        rfl
      | worker i =>
        have hz : (c'.setScript (.worker i) rest).memOwed P₀ = c.memOwed P₀ := funext fun k => by
          simp only [Config.memOwed, htk, Config.setScript_producer_of_worker, hpc]
        rw [hz, hask i rfl]
        simp
    · rw [hw] at hr
      rw [Config.setScript_memInUse, hmem, h.returned hr]
      cases p with
      | producer => simp [Config.script, (hcalm.returned hr).2.1] at hsc
      | worker i => simp [hask i rfl]
  · obtain ⟨-, hec⟩ := hc.exec_panic hsc hx
    exact h.of_frame (by simp) (by simp) (Config.setScript_suffix List.nil_suffix)
      (fun hr => by rw [hw] at hr; simp [(hcalm.running hr).1] at hec) (fun hr => by rwa [hw] at hr)

/-- The writer's receive of the entry it waits for gives back the bytes asked for it. -/
theorem Memory.recvEntry (h : Memory env opts.compLevel P₀ c)
    (hm : ScriptMemory env opts.compLevel 0 P₀) (hnd : (slotsOf (sendsIn env opts.compLevel P₀)).Nodup)
    (hc : ChannelInv env opts (sendsIn env opts.compLevel P₀) c)
    (hw : WriterInv (sendsIn env opts.compLevel P₀) c) (hrun : c.writer.status = .running)
    {k : Nat} (hcur : c.writer.currentWriteOpChan = some k) (hr : (c.entries k).ready = true) :
    Memory env opts.compLevel P₀ (SoongZip.recvEntry env c k) := by
  obtain ⟨hk, ht0⟩ : k ∈ slotsOf (sendsIn env opts.compLevel P₀) ∧ (c.entries k).taken = 0 := by
    cases hw.progress hrun with
    | idle _ _ _ _ _ hwr => simp [hwr] at hcur
    | entry pre k' rest hs _ hwr _ _ hf =>
      obtain rfl : k' = k := by simpa [hwr] using hcur
      exact ⟨by simp [hs], (hf _ (List.mem_cons_self _ _)).1⟩
    | readers _ _ _ _ _ _ _ _ _ _ hwr => simp [hwr] at hcur
    | data _ _ _ _ _ _ _ _ _ _ _ hwr => simp [hwr] at hcur
  obtain ⟨ze, hze, hentry⟩ := hc.entry_found ht0 hr
  rcases recvEntry_cases env c k with heq | ⟨op, hop, hent, -, -, hp, hres⟩
  · rw [heq]
    exact h.of_frame rfl rfl (List.suffix_refl _) (fun hr => by simp at hr) (fun hr => by simp at hr)
  obtain rfl : op = ze := Option.some.inj (hop.symm.trans hze)
  have hsent : memAsked k c.producer = 0 :=
    h.sent k fun he => by simp [Chan.head?, he] at hop
  have hbal (hr' : (SoongZip.recvEntry env c k).writer.status = .running) :
      (SoongZip.recvEntry env c k).memInUse =
        ((slotsOf (sendsIn env opts.compLevel P₀)).map ((SoongZip.recvEntry env c k).memOwed P₀)).sum := by
    rcases hres with ⟨hns, -⟩ | ⟨-, hmem⟩
    · exact absurd hr' hns
    · rw [hmem, h.running hrun, memOwed_sum_take hnd hk hp hent ht0 hze hsent, hm.entryOf_alloc hentry]
      omega
  refine ⟨?_, fun k' hs => ?_, fun k' ht => ?_, hbal,
    fun hr' => absurd hr' (loopStep_recvEntry env hrun k).notNil⟩
  · rcases hres with ⟨-, hmem⟩ | ⟨hst, -⟩
    · exact hmem ▸ h.nonneg
    · rw [hbal (hst.trans hrun)]
      exact Int.natCast_nonneg _
  · rw [hp]
    refine h.sent k' fun he => hs ?_
    rw [hent]
    by_cases hkk : k' = k
    · subst hkk
      simpa using he
    · simpa [Function.update_noteq hkk] using he
  · rw [hp]
    by_cases hkk : k' = k
    · exact hkk ▸ hsent
    · exact h.taken k' (by simpa [hent, Function.update_noteq hkk] using ht)

theorem Memory.stepWriter (h : Memory env opts.compLevel P₀ c)
    (hm : ScriptMemory env opts.compLevel 0 P₀) (hnd : (slotsOf (sendsIn env opts.compLevel P₀)).Nodup)
    (hc : ChannelInv env opts (sendsIn env opts.compLevel P₀) c)
    (hw : WriterInv (sendsIn env opts.compLevel P₀) c) (cs : Case)
    (hd : Drain (sendsIn env opts.compLevel P₀) (SoongZip.stepWriter env c cs)) :
    Memory env opts.compLevel P₀ (SoongZip.stepWriter env c cs) := by
  cases cs with
  | recv =>
    rcases stepWriter_recv_cases env c with
      heq | ⟨hrun, ⟨-, -, heq⟩ | ⟨k, hsel, hr, heq⟩ | ⟨k, heq⟩ | ⟨k, j, heq⟩⟩ <;> rw [heq]
    · exact h
    · rcases recvWriteOp_cases c with ⟨k, -, heq⟩ | heq <;> rw [heq] <;>
        exact h.of_frame rfl rfl (List.suffix_refl _) (fun hr => ⟨hr, rfl⟩) id
    · exact h.recvEntry hm hnd hc hw hrun (Writer.selected_entry hsel) hr
    · obtain ⟨he, -, -, hmem, hp⟩ := recvReaders_frame c k
      exact h.of_frame hmem he (hp ▸ List.suffix_refl _) (fun _ => ⟨hrun, hp⟩)
        (fun hr => absurd hr (loopStep_recvReaders hrun k).notNil)
    · obtain ⟨he, -, -, hmem, hp⟩ := recvData_frame env c k j
      exact h.of_frame hmem he (hp ▸ List.suffix_refl _) (fun _ => ⟨hrun, hp⟩)
        (fun hr => absurd hr (loopStep_recvData env hrun k j).notNil)
  | error p =>
    rcases stepWriter_error_cases env c p with heq | ⟨e, rest, hs, -, -, heq⟩ <;> rw [heq]
    · exact h
    · exact h.of_frame (by simp [Config.finish]) (by simp [Config.finish])
        (Config.setScript_suffix (by rw [hs]; exact List.suffix_cons _ _))
        (fun hr => by simp at hr) (fun hr => by simp at hr)
  | default =>
    rcases stepWriter_default_cases env c with heq | ⟨hrun, -, heq⟩ <;> rw [heq] at hd ⊢
    · exact h
    · have hall := hd.all_taken (by simp)
      have hz : c.memInUse = 0 := by
        rw [h.running hrun, List.sum_eq_zero fun x hx => ?_]
        · rfl
        obtain ⟨k, hk, rfl⟩ := List.mem_map.mp hx
        have hk' : (c.entries k).taken ≠ 0 := hall k hk
        simp [Config.memOwed, hk']
      exact ⟨h.nonneg, h.sent, h.taken, fun hr => by simp at hr, fun _ => hz⟩

end MemoryStep

/-! ### Every run of `write` -/

/-- What the producer's script `P₀` guarantees before the run starts: its shape, the memory it
asks for, the values it and its workers send, and that when all its slots deliver, its workers
succeed and give back every permit it requests. -/
structure Planned (env : Env) (level : Int) (P₀ : List Action) : Prop where
  shape : Shape P₀
  memory : ScriptMemory env level 0 P₀
  carried : Carried (sendsIn env level P₀)
  balance : (∀ k ∈ slotsOf (sendsIn env level P₀), Delivered (sendsIn env level P₀) k) →
    requests P₀ = futureFinishes env level P₀ ∧
      ∀ u ∈ workersOf env level P₀, ∀ a ∈ u, a.isSendError = false
  plan : (∀ k ∈ slotsOf (sendsIn env level P₀), Delivered (sendsIn env level P₀) k) →
    ∀ k ∈ slotsOf (sendsIn env level P₀), EntryPlan k P₀

section Run

variable {env : Env} {level : Int} {P₀ : List Action} {c : Config}

theorem Planned.of_script (h : Script 0 P₀) (hcar : Carried (sendsIn env level P₀)) :
    Planned env level P₀ where
  shape := h.shape
  memory := h.memory
  carried := hcar
  balance hd := h.balance (fun _ _ _ _ => rfl) hcar.ownReaders fun _ hk => hd _ (mem_slotsOf_sendsIn hk)
  plan hd k hk := h.plan (fun _ _ _ _ => rfl) hcar.ownReaders (fun _ hk => hd _ (mem_slotsOf_sendsIn hk))
    k (h.op_mem_of_slots hk)

/-- Once the writer has returned nil, no running worker fails. -/
theorem Planned.quiet (hP : Planned env level P₀) (hw : WriterInv (sendsIn env level P₀) c)
    (ho : Origin env level P₀ c) (hr : c.writer.status = .returned none) :
    ∀ w ∈ c.workers, ∀ a ∈ w, a.isSendError = false := fun w hw' a ha => by
  obtain ⟨X, t, Y, hP₀, -, hwt⟩ := ho.workers w hw'
  have ht : taskScript env level t ∈ workersOf env level P₀ :=
    List.mem_map.mpr ⟨t, List.mem_filterMap.mpr ⟨.spawn t, by simp [hP₀], rfl⟩, rfl⟩
  exact (hP.balance (hw.complete hr).2).2 _ ht a (hwt.subset ha)

end Run

section Write

variable (env : Env) (opts : Options) (out : String) (ms : List PathMapping) (manifest : String)

theorem carried_eq_sendsIn {c₀ : Config} (hw : c₀.workers = []) :
    carried env opts c₀ = sendsIn env opts.compLevel c₀.producer := by
  funext ch
  simp [carried, sendsIn, unitsOf, Config.pending, workersOf, hw]

/-- `write` starts on empty channels, with a writer that has not returned nil. -/
theorem write_fresh :
    let c₀ := write env opts out ms manifest
    c₀.writeOps = {} ∧ (∀ k, c₀.entries k = {}) ∧ Calm c₀ ∧ c₀.writer.status ≠ .returned none := by
  unfold write
  split
  · exact ⟨rfl, fun _ => rfl, ⟨by simp, by simp, by simp, by simp⟩, by simp⟩
  · dsimp only
    split
    · exact ⟨rfl, fun _ => rfl, ⟨by simp, by simp, fun _ => rfl, by simp⟩, by simp⟩
    · exact ⟨rfl, fun _ => rfl, ⟨fun _ => ⟨rfl, rfl, rfl⟩, by simp, by simp, by simp⟩, by simp⟩

theorem write_planned : Planned env opts.compLevel (write env opts out ms manifest).producer := by
  have hcar := carried_eq_sendsIn env opts (write_start env opts out ms manifest).1 ▸
    carried_write env opts out ms manifest
  rcases (write_start env opts out ms manifest).2.2.2.2 with h | h
  · rw [h] at hcar ⊢
    exact ⟨⟨.nil, by simp, by simp⟩, .ending (by simp) (by simp), hcar,
      fun _ => by simp [requests, futureFinishes, workersOf],
      fun _ k hk => by simp [slotsOf, sendsIn, unitsOf, workersOf, sendsOf] at hk⟩
  · exact .of_script h hcar

/-- The invariants of this module hold in every configuration a run of `write` reaches. -/
theorem write_limits {c : Config} (hr : Reachable env opts (write env opts out ms manifest) c) :
    Calm c ∧ Drain (sendsIn env opts.compLevel (write env opts out ms manifest).producer) c ∧
      Memory env opts.compLevel (write env opts out ms manifest).producer c := by
  have hS := carried_eq_sendsIn env opts (write_start env opts out ms manifest).1
  have hP := write_planned env opts out ms manifest
  induction hr with
  | init =>
    obtain ⟨hwo, hent, hcalm, hret⟩ := write_fresh env opts out ms manifest
    exact ⟨hcalm, ⟨by simp [hwo], fun h => absurd h hret⟩,
      .init (write_start env opts out ms manifest).2.2.1 hent⟩
  | step s hr' ih =>
    obtain ⟨hcalm, hd, hm⟩ := ih
    have hc := hS ▸ write_channelInv env opts out ms manifest hr'
    have hw := hS ▸ write_writerInv env opts out ms manifest hr'
    have ho := (write_permits hr').2
    cases s with
    | proc p =>
      exact ⟨hcalm.stepProc hc ho hP.shape (hP.quiet hw ho) p, hd.stepProc p,
        hm.stepProc hP.memory hP.carried.slots hc ho hcalm p⟩
    | writer cs =>
      have hd' := hd.stepWriter hc hw cs
      exact ⟨hcalm.stepWriter cs, hd', hm.stepWriter hP.memory hP.carried.slots hc hw cs hd'⟩

end Write

end SoongZip
