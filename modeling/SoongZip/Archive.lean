import SoongZip.Carried

/-!
# The archive is the same for every interleaving

The writer loop of `write` (`soong_zip.go:387–473`) takes the slots of `z.writeOps` in push
order; for each it takes the entry, creates its header, copies the buffer of each reader slot of
its reader list in enqueue order and closes it, before it takes the next slot. Whatever the
schedule, it never panics, the calls it makes on the encoder are a prefix of `archive`
(`SoongZip.Carried`) followed by the close of the archive, and all of them when it returns nil.

The proof is an invariant of the writer (`Progress`): where it is in the archive, which slot,
entry, reader list and reader slot it holds, and that nothing of the entries ahead has been
received. It rests on the channel discipline (`SoongZip.Channels`) for what each channel has
carried so far, and on `Carried` for the values a run sends.
-/

namespace SoongZip

/-! ### Receiving from a channel whose values are known -/

theorem prefix_decode {α : Type} {f : α → Msg} {g : Msg → Option α} (hg : ∀ x, g (f x) = some x)
    {sent : List α} {L : List Msg} (h : sent.map f <+: L) : sent <+: L.filterMap g := by
  have := h.filterMap g
  rwa [List.filterMap_map, show g ∘ f = some from funext hg, List.filterMap_some] at this

theorem eq_decode {α : Type} {f : α → Msg} {g : Msg → Option α} (hg : ∀ x, g (f x) = some x)
    {sent : List α} {L : List Msg} (h : sent.map f = L) : sent = L.filterMap g := by
  rw [← h, List.filterMap_map, show g ∘ f = some from funext hg, List.filterMap_some]

/-- A ready receive on a channel that carries `pre ++ rest` and has given `pre` gets the head of
`rest`, or finds `rest` empty and the channel drained. -/
theorem Chan.recv_cases {α : Type} {ch : Chan α} {pre rest : List α} (hp : ch.sent <+: pre ++ rest)
    (hc : ch.closed = true → ch.sent = pre ++ rest) (ht : ch.taken = pre.length)
    (hr : ch.ready = true) :
    (∃ x rest', rest = x :: rest' ∧ ch.head? = some x ∧ ch.recv.taken = ch.taken + 1) ∨
      (rest = [] ∧ ch.head? = none) := by
  by_cases hlt : ch.taken < ch.sent.length
  · left
    have hx : ch.head? = (pre ++ rest)[pre.length]? := by
      obtain ⟨t, ht'⟩ := hp
      rw [Chan.head?, ← ht, ← ht', List.getElem?_append_left hlt]
    cases rest with
    | nil =>
      have := hp.length_le
      simp only [List.append_nil] at this
      omega
    | cons x rest' =>
      refine ⟨x, rest', rfl, by simpa [List.getElem?_append_right (le_refl _)] using hx, ?_⟩
      simp [Chan.recv, hlt]
  · right
    have hcl : ch.closed = true := by simpa [Chan.ready, hlt] using hr
    have hs := hc hcl
    have hlen := congrArg List.length hs
    simp only [List.length_append] at hlen
    refine ⟨List.eq_nil_of_length_eq_zero (by omega), ?_⟩
    simp only [Chan.head?]
    exact List.getElem?_eq_none (by omega)

/-- A ready receive on a channel that carries one value and has given none gets that value. -/
theorem Chan.recv_single {α : Type} {ch : Chan α} {L : List α} (hp : ch.sent <+: L)
    (hc : ch.closed = true → ch.sent = L) (hne : ch.closed = true → L ≠ []) (ht : ch.taken = 0)
    (hr : ch.ready = true) : ∃ x rest, L = x :: rest ∧ ch.head? = some x := by
  rcases Chan.recv_cases (show ch.sent <+: [] ++ L from hp) hc ht hr with ⟨x, rest, hL, hx, -⟩ | ⟨hL, hx⟩
  · exact ⟨x, rest, hL, hx⟩
  · have hlt : ¬ch.taken < ch.sent.length := by
      intro hlt
      simp [Chan.head?, List.getElem?_eq_getElem hlt] at hx
    exact absurd hL (hne (by simpa [Chan.ready, hlt] using hr))

/-! ### What the writer finds on each channel -/

section Found

variable {env : Env} {opts : Options} {S : ChanName → List Msg} {c : Config}

theorem ChannelInv.writeOps_prefix (h : ChannelInv env opts S c) :
    c.writeOps.sent <+: slotsOf S :=
  prefix_decode (f := Msg.op) (g := Msg.op?) (fun _ => rfl) (h.sent_prefix .writeOps)

theorem ChannelInv.writeOps_closed (h : ChannelInv env opts S c) (hc : c.writeOps.closed = true) :
    c.writeOps.sent = slotsOf S :=
  eq_decode (f := Msg.op) (g := Msg.op?) (fun _ => rfl) (h.sent_of_closed (show (c.view .writeOps).closed = true from hc))

theorem ChannelInv.readers_prefix (h : ChannelInv env opts S c) (k : Nat) :
    (c.readers k).sent <+: readersOf S k :=
  prefix_decode (f := Msg.reader) (g := Msg.reader?) (fun _ => rfl) (h.sent_prefix (.readers k))

theorem ChannelInv.readers_closed (h : ChannelInv env opts S c) {k : Nat}
    (hc : (c.readers k).closed = true) : (c.readers k).sent = readersOf S k :=
  eq_decode (f := Msg.reader) (g := Msg.reader?) (fun _ => rfl)
    (h.sent_of_closed (show (c.view (.readers k)).closed = true from hc))

/-- The writer's first receive on an entry slot gets the entry the run sends on it. -/
theorem ChannelInv.entry_found (h : ChannelInv env opts S c) {k : Nat}
    (ht : (c.entries k).taken = 0) (hr : (c.entries k).ready = true) :
    ∃ ze, (c.entries k).head? = some ze ∧ entryOf S k = some ze := by
  have hc : (c.entries k).closed = true →
      (c.entries k).sent = (S (.entry k)).filterMap Msg.entry? := fun hc =>
    eq_decode (f := Msg.entry) (g := Msg.entry?) (fun _ => rfl) (h.sent_of_closed (show (c.view (.entry k)).closed = true from hc))
  obtain ⟨ze, rest, hL, hx⟩ := Chan.recv_single
    (prefix_decode (f := Msg.entry) (g := Msg.entry?) (fun _ => rfl) (h.sent_prefix (.entry k)))
    hc (fun hcl hnil => h.carries_of_closed (show (ChanName.entry k).carriesValue = true from rfl) hcl (by
      rw [← h.sent_of_closed (show (c.view (.entry k)).closed = true from hcl)]
      simp [Config.view, Chan.map, hc hcl, hnil])) ht hr
  exact ⟨ze, hx, by simp [entryOf, hL]⟩

/-- The writer's first receive on a reader slot gets the buffer the run sends on it. -/
theorem ChannelInv.data_found (h : ChannelInv env opts S c) {k j : Nat}
    (ht : (c.data (k, j)).taken = 0) (hr : (c.data (k, j)).ready = true) :
    ∃ d, (c.data (k, j)).head? = some d ∧ dataOf S k j = some d := by
  have hc : (c.data (k, j)).closed = true →
      (c.data (k, j)).sent = (S (.data k j)).filterMap Msg.data? := fun hc =>
    eq_decode (f := Msg.data) (g := Msg.data?) (fun _ => rfl) (h.sent_of_closed (show (c.view (.data k j)).closed = true from hc))
  obtain ⟨d, rest, hL, hx⟩ := Chan.recv_single
    (prefix_decode (f := Msg.data) (g := Msg.data?) (fun _ => rfl) (h.sent_prefix (.data k j)))
    hc (fun hcl hnil => h.carries_of_closed (show (ChanName.data k j).carriesValue = true from rfl) hcl (by
      rw [← h.sent_of_closed (show (c.view (.data k j)).closed = true from hcl)]
      simp [Config.view, Chan.map, hc hcl, hnil])) ht hr
  exact ⟨d, hx, by simp [dataOf, hL]⟩

end Found

/-! ### Where the writer is in the archive -/

/-- Nothing of entry `k` has been received. -/
def Config.Fresh (c : Config) (k : Nat) : Prop :=
  (c.entries k).taken = 0 ∧ (c.readers k).taken = 0 ∧ ∀ j, (c.data (k, j)).taken = 0

/-- Slot `k` carries an entry, and each reader slot of its reader list a buffer. -/
def Delivered (S : ChanName → List Msg) (k : Nat) : Prop :=
  ∃ ze, entryOf S k = some ze ∧
    ∀ r, ze.futureReaders = some r → ∀ j ∈ readersOf S r, (dataOf S r j).isSome

/-- Where the running writer loop is in the archive of a run with values `S`: between entries
with the slots `pre` written, waiting for the entry of slot `k`, reading entry `k`'s reader list
with the reader slots `done` copied, or reading reader slot `j`. The slots written and the
reader slots copied delivered their values; nothing of the slots `rest` ahead has been
received. -/
inductive Progress (S : ChanName → List Msg) (c : Config) : Prop
  | idle (pre rest : List Nat) (done : Bool) :
      slotsOf S = pre ++ rest → c.writeOps.taken = pre.length → c.writer = { done := done } →
      (done = true → rest = []) → c.out = pre.flatMap (entryLog S) →
      (∀ k ∈ pre, Delivered S k) → (∀ k ∈ rest, c.Fresh k) → Progress S c
  | entry (pre : List Nat) (k : Nat) (rest : List Nat) :
      slotsOf S = pre ++ k :: rest → c.writeOps.taken = pre.length + 1 →
      c.writer = { currentWriteOpChan := some k } → c.out = pre.flatMap (entryLog S) →
      (∀ k ∈ pre, Delivered S k) → (∀ k' ∈ k :: rest, c.Fresh k') → Progress S c
  | readers (pre : List Nat) (k : Nat) (rest : List Nat) (ze : ZipEntry) (done todo : List Nat) :
      slotsOf S = pre ++ k :: rest → c.writeOps.taken = pre.length + 1 →
      entryOf S k = some ze → ze.futureReaders = some k →
      c.writer = { currentWriter := some (headerCall ze.fh).2, currentReaders := some k } →
      readersOf S k = done ++ todo → (c.readers k).taken = done.length →
      c.out = pre.flatMap (entryLog S) ++ (headerCall ze.fh).1 :: copies S k done →
      (∀ k ∈ pre, Delivered S k) → (∀ j ∈ done, (dataOf S k j).isSome) →
      (∀ j ∈ todo, (c.data (k, j)).taken = 0) → (∀ k' ∈ rest, c.Fresh k') → Progress S c
  | data (pre : List Nat) (k : Nat) (rest : List Nat) (ze : ZipEntry) (done : List Nat) (j : Nat)
      (todo : List Nat) :
      slotsOf S = pre ++ k :: rest → c.writeOps.taken = pre.length + 1 →
      entryOf S k = some ze → ze.futureReaders = some k →
      c.writer = { currentWriter := some (headerCall ze.fh).2, currentReaders := some k,
                   currentReader := some (k, j) } →
      readersOf S k = done ++ j :: todo → (c.readers k).taken = done.length + 1 →
      c.out = pre.flatMap (entryLog S) ++ (headerCall ze.fh).1 :: copies S k done →
      (∀ k ∈ pre, Delivered S k) → (∀ j ∈ done, (dataOf S k j).isSome) →
      (∀ j' ∈ j :: todo, (c.data (k, j')).taken = 0) → (∀ k' ∈ rest, c.Fresh k') → Progress S c

section Archive

variable {S : ChanName → List Msg}

theorem entryLog_of_readers {k : Nat} {ze : ZipEntry} (hze : entryOf S k = some ze)
    (hr : ze.futureReaders = some k) :
    entryLog S k = (headerCall ze.fh).1 ::
      (copies S k (readersOf S k) ++ [.closeEntry (headerCall ze.fh).2]) := by
  simp [entryLog, hze, hr]

theorem entryLog_of_noReaders {k : Nat} {ze : ZipEntry} (hze : entryOf S k = some ze)
    (hr : ze.futureReaders = none) :
    entryLog S k = [(headerCall ze.fh).1, .closeEntry (headerCall ze.fh).2] := by
  simp [entryLog, hze, hr]

theorem archive_of_slots {pre rest : List Nat} {k : Nat} (h : slotsOf S = pre ++ k :: rest) :
    archive S = pre.flatMap (entryLog S) ++ (entryLog S k ++ rest.flatMap (entryLog S)) := by
  simp [archive, h]

@[simp] theorem copies_append (k : Nat) (js js' : List Nat) :
    copies S k (js ++ js') = copies S k js ++ copies S k js' := List.filterMap_append _ _ _

/-- What the writer has written while it reads entry `k`'s reader list is a start of the
archive, which goes on with the copies of the reader slots still to read. -/
theorem out_prefix_of_readers {pre rest done todo : List Nat} {k : Nat} {ze : ZipEntry}
    (hs : slotsOf S = pre ++ k :: rest) (hze : entryOf S k = some ze)
    (hr : ze.futureReaders = some k) (hd : readersOf S k = done ++ todo) :
    pre.flatMap (entryLog S) ++ (headerCall ze.fh).1 :: copies S k done ++
      copies S k todo <+: archive S := by
  rw [archive_of_slots hs, entryLog_of_readers hze hr, hd, copies_append]
  exact ⟨[.closeEntry (headerCall ze.fh).2] ++ rest.flatMap (entryLog S), by simp⟩

/-- The running writer has written a start of the archive. -/
theorem Progress.out_prefix {c : Config} (h : Progress S c) : c.out <+: archive S := by
  cases h with
  | idle pre rest _ hs _ _ _ ho _ _ =>
    rw [ho, archive, hs, List.flatMap_append]
    exact List.prefix_append _ _
  | entry pre k rest hs _ _ ho _ _ =>
    rw [ho, archive_of_slots hs]
    exact List.prefix_append _ _
  | readers pre k rest ze done todo hs _ hze hr _ hd _ ho _ _ _ _ =>
    rw [ho]
    exact (List.prefix_append _ _).trans (out_prefix_of_readers hs hze hr hd)
  | data pre k rest ze done j todo hs _ hze hr _ hd _ ho _ _ _ _ =>
    rw [ho]
    exact (List.prefix_append _ _).trans (out_prefix_of_readers hs hze hr hd)

theorem Progress.running {c : Config} (h : Progress S c) : c.writer.status = .running := by
  cases h <;> simp_all

end Archive

/-- What holds of the writer in every configuration: while it runs it is somewhere in the
archive; it never panics; what it has written is a start of the archive and its close; and,
when it has returned nil, all of it, every slot having delivered its entry and buffers. -/
structure WriterInv (S : ChanName → List Msg) (c : Config) : Prop where
  progress : c.writer.status = .running → Progress S c
  noPanic : ∀ p, c.writer.status ≠ .panicked p
  out_prefix : c.out <+: archive S ++ [.closeArchive]
  complete : c.writer.status = .returned none →
    c.out = archive S ++ [.closeArchive] ∧ ∀ k ∈ slotsOf S, Delivered S k

theorem Progress.writerInv {S : ChanName → List Msg} {c : Config} (h : Progress S c) :
    WriterInv S c where
  progress _ := h
  noPanic p := by rw [h.running]; exact fun h => nomatch h
  out_prefix := h.out_prefix.trans (List.prefix_append _ _)
  complete hr := by rw [h.running] at hr; cases hr

/-- The writer returns an error it met after writing a start of the archive. -/
theorem WriterInv.finish_err {S : ChanName → List Msg} {c : Config} {e : GoError}
    (ho : c.out <+: archive S ++ [.closeArchive]) : WriterInv S (c.finish (some e)) where
  progress h := by simp at h
  noPanic p := by simp
  out_prefix := ho
  complete h := by simp at h

/-! ### The steps of a run -/

theorem exec_taken {env : Env} {opts : Options} {c c' : Config} {a : Action}
    (h : exec env opts c a = .next c') (ch : ChanName) : (c'.view ch).taken = (c.view ch).taken := by
  rw [exec_view h, Action.applyTo]
  split
  · rename_i op _
    cases op <;> rfl
  · rfl

/-- The producer and the workers receive nothing. -/
theorem stepProc_taken (env : Env) (opts : Options) (c : Config) (p : Proc) (ch : ChanName) :
    ((stepProc env opts c p).view ch).taken = (c.view ch).taken := by
  unfold stepProc
  split
  · rfl
  · split
    · rfl
    · rw [Config.setScript_view]
      exact exec_taken ‹_› ch
    · cases p <;> rfl

section Steps

variable {S : ChanName → List Msg} {c : Config}

theorem Config.Fresh.of_taken {c' : Config} {k : Nat} (h : c.Fresh k)
    (ht : ∀ ch, (c'.view ch).taken = (c.view ch).taken) : c'.Fresh k :=
  ⟨(ht (.entry k)).trans h.1, (ht (.readers k)).trans h.2.1, fun j => (ht (.data k j)).trans (h.2.2 j)⟩

/-- The writer's progress depends only on its own variables, its output and what it has
received. -/
theorem Progress.of_frame {c' : Config} (h : Progress S c) (hw : c'.writer = c.writer)
    (ho : c'.out = c.out) (ht : ∀ ch, (c'.view ch).taken = (c.view ch).taken) : Progress S c' := by
  have hwo : c'.writeOps.taken = c.writeOps.taken := ht .writeOps
  have hr : ∀ k, (c'.readers k).taken = (c.readers k).taken := fun k => ht (.readers k)
  have hd : ∀ k j, (c'.data (k, j)).taken = (c.data (k, j)).taken := fun k j => ht (.data k j)
  have hf : ∀ L : List Nat, (∀ k ∈ L, c.Fresh k) → ∀ k ∈ L, c'.Fresh k :=
    fun _ hL k hk => (hL k hk).of_taken ht
  cases h with
  | idle pre rest done hs h1 h2 h3 h4 hdel h5 =>
    exact .idle pre rest done hs (hwo.trans h1) (hw.trans h2) h3 (ho.trans h4) hdel (hf _ h5)
  | entry pre k rest hs h1 h2 h3 hdel h4 =>
    exact .entry pre k rest hs (hwo.trans h1) (hw.trans h2) (ho.trans h3) hdel (hf _ h4)
  | readers pre k rest ze done todo hs h1 h2 h3 h4 h5 h6 h7 hdel hgot h8 h9 =>
    exact .readers pre k rest ze done todo hs (hwo.trans h1) h2 h3 (hw.trans h4) h5
      ((hr k).trans h6) (ho.trans h7) hdel hgot (fun j hj => (hd k j).trans (h8 j hj)) (hf _ h9)
  | data pre k rest ze done j todo hs h1 h2 h3 h4 h5 h6 h7 hdel hgot h8 h9 =>
    exact .data pre k rest ze done j todo hs (hwo.trans h1) h2 h3 (hw.trans h4) h5
      ((hr k).trans h6) (ho.trans h7) hdel hgot (fun j hj => (hd k j).trans (h8 j hj)) (hf _ h9)

theorem WriterInv.stepProc {env : Env} {opts : Options} (h : WriterInv S c) (p : Proc) :
    WriterInv S (SoongZip.stepProc env opts c p) := by
  obtain ⟨hw, ho, -, -⟩ := stepProc_frame env opts c p
  refine ⟨fun hr => ?_, ?_, ?_, fun hr => ?_⟩
  · rw [hw] at hr
    exact (h.progress hr).of_frame hw ho (stepProc_taken env opts c p)
  · rw [hw]
    exact h.noPanic
  · rw [ho]
    exact h.out_prefix
  · rw [hw] at hr
    rw [ho]
    exact h.complete hr

/-- An error taken from `z.errors` ends the loop with what was written. -/
theorem WriterInv.error (env : Env) (h : WriterInv S c) (p : Proc) :
    WriterInv S (stepWriter env c (.error p)) := by
  rcases stepWriter_error_cases env c p with heq | ⟨e, rest, -, -, -, heq⟩ <;> rw [heq]
  · exact h
  · exact WriterInv.finish_err (by simpa using h.out_prefix)

/-- The final select's `default` closes the archive after the loop has written all of it. -/
theorem WriterInv.default (env : Env) (h : WriterInv S c) :
    WriterInv S (stepWriter env c .default) := by
  rcases stepWriter_default_cases env c with heq | ⟨hrun, hdone, heq⟩ <;> rw [heq]
  · exact h
  · have hout : c.out = archive S ∧ ∀ k ∈ slotsOf S, Delivered S k := by
      cases h.progress hrun with
      | idle pre rest done hs _ hw hd ho hdel _ =>
        rw [hw] at hdone
        rw [hd hdone, List.append_nil] at hs
        rw [ho, archive, hs]
        exact ⟨rfl, hdel⟩
      | entry _ _ _ _ _ hw => rw [hw] at hdone; cases hdone
      | readers _ _ _ _ _ _ _ _ _ _ hw => rw [hw] at hdone; cases hdone
      | data _ _ _ _ _ _ _ _ _ _ _ hw => rw [hw] at hdone; cases hdone
    exact ⟨by simp, by simp, by simp [hout.1], fun _ => ⟨by simp [hout.1], hout.2⟩⟩


theorem not_mem_of_nodup_slots {pre rest : List Nat} {k : Nat} (hn : (pre ++ k :: rest).Nodup) :
    k ∉ rest :=
  (List.nodup_cons.mp (List.nodup_append.mp hn).2.1).1

theorem Config.Fresh.of_eq {c' : Config} {k : Nat} (h : c.Fresh k)
    (he : c'.entries k = c.entries k) (hr : c'.readers k = c.readers k)
    (hd : ∀ j, c'.data (k, j) = c.data (k, j)) : c'.Fresh k :=
  ⟨he ▸ h.1, hr ▸ h.2.1, fun j => (hd j) ▸ h.2.2 j⟩

theorem entryLog_header {k : Nat} {ze : ZipEntry} (hze : entryOf S k = some ze) :
    ∃ tail, entryLog S k = (headerCall ze.fh).1 :: tail := by
  simp [entryLog, hze]

/-! #### The loop's receives -/

section Recv

variable {env : Env} {opts : Options} (hc : ChannelInv env opts S c)
include hc

/-- Between entries the loop takes the next slot, or finds `z.writeOps` closed and drained. -/
theorem Progress.recv_idle {pre rest : List Nat} {done : Bool} (hs : slotsOf S = pre ++ rest)
    (ht : c.writeOps.taken = pre.length) (hw : c.writer = { done := done })
    (hd : done = true → rest = []) (ho : c.out = pre.flatMap (entryLog S))
    (hdel : ∀ k ∈ pre, Delivered S k) (hf : ∀ k ∈ rest, c.Fresh k) :
    WriterInv S (stepWriter env c .recv) := by
  have hp : Progress S c := .idle pre rest done hs ht hw hd ho hdel hf
  cases done with
  | true => simpa [stepWriter, hw] using hp.writerInv
  | false =>
    simp only [stepWriter, hw, Writer.selected, and_self, if_true]
    split
    · rename_i hr
      rcases Chan.recv_cases (hs ▸ hc.writeOps_prefix) (fun hcl => hs ▸ hc.writeOps_closed hcl) ht hr
        with ⟨k, rest', rfl, hx, hrecv⟩ | ⟨rfl, hx⟩
      · simp only [recvWriteOp, hx]
        exact Progress.writerInv (.entry pre k rest' hs (by rw [hrecv, ht]) (by rw [hw]) ho hdel hf)
      · simp only [recvWriteOp, hx]
        exact Progress.writerInv
          (.idle pre [] true hs ht (by rw [hw]) (fun _ => rfl) ho hdel (by simp))
    · exact hp.writerInv

/-- The loop takes the entry of its slot and creates its header; an entry without a reader list
is closed at once. -/
theorem Progress.recv_entry (hS : Carried S) {pre rest : List Nat} {k : Nat}
    (hs : slotsOf S = pre ++ k :: rest) (ht : c.writeOps.taken = pre.length + 1)
    (hw : c.writer = { currentWriteOpChan := some k }) (ho : c.out = pre.flatMap (entryLog S))
    (hdel : ∀ k ∈ pre, Delivered S k) (hf : ∀ k' ∈ k :: rest, c.Fresh k') :
    WriterInv S (stepWriter env c .recv) := by
  have hp : Progress S c := .entry pre k rest hs ht hw ho hdel hf
  simp only [stepWriter, hw, Writer.selected, and_self, if_true]
  split
  · rename_i hr
    obtain ⟨he0, hr0, hd0⟩ := hf k (.head _)
    obtain ⟨ze, hx, hze⟩ := hc.entry_found he0 hr
    have hk : k ∉ rest := not_mem_of_nodup_slots (hs ▸ hS.slots)
    have hfr : ∀ k' ∈ rest, ({ c with
        entries := Function.update c.entries k (c.entries k).recv } : Config).Fresh k' :=
      fun k' hk' => (hf k' (.tail _ hk')).of_eq
        (Function.update_noteq (ne_of_mem_of_not_mem hk' hk) _ _) rfl fun _ => rfl
    simp only [recvEntry, hx]
    split
    · refine WriterInv.finish_err ?_
      obtain ⟨tail, htail⟩ := entryLog_header hze
      rw [ho, archive_of_slots hs, htail]
      exact ⟨tail ++ rest.flatMap (entryLog S) ++ [.closeArchive], by simp⟩
    · rcases hS.ownReaders k ze hze with hr' | hr'
      · simp only [hr']
        refine Progress.writerInv (.idle (pre ++ [k]) rest false (by simp [hs]) (by simp [ht])
          (by rw [hw]) (fun h => nomatch h) (by simp [ho, entryLog_of_noReaders hze hr']) ?_ hfr)
        refine fun k' hk' => (List.mem_append.mp hk').elim (hdel k') fun hk' => ?_
        rw [List.mem_singleton.mp hk']
        exact ⟨ze, hze, by simp [hr']⟩
      · simp only [hr']
        exact Progress.writerInv (.readers pre k rest ze [] (readersOf S k) hs ht hze hr'
          (by rw [hw]) rfl hr0 (by simp [ho, copies]) hdel (by simp) (fun j _ => hd0 j) hfr)
  · exact hp.writerInv

/-- On the reader list the loop takes the next reader slot, or finds the list closed after the
last one and closes the entry. -/
theorem Progress.recv_readers {pre rest : List Nat} {k : Nat} {ze : ZipEntry}
    {done todo : List Nat} (hs : slotsOf S = pre ++ k :: rest)
    (ht : c.writeOps.taken = pre.length + 1) (hze : entryOf S k = some ze)
    (hr : ze.futureReaders = some k)
    (hw : c.writer = { currentWriter := some (headerCall ze.fh).2, currentReaders := some k })
    (hd : readersOf S k = done ++ todo) (htk : (c.readers k).taken = done.length)
    (ho : c.out = pre.flatMap (entryLog S) ++ (headerCall ze.fh).1 :: copies S k done)
    (hdel : ∀ k ∈ pre, Delivered S k) (hgot : ∀ j ∈ done, (dataOf S k j).isSome)
    (hdata : ∀ j ∈ todo, (c.data (k, j)).taken = 0) (hf : ∀ k' ∈ rest, c.Fresh k')
    (hS : Carried S) : WriterInv S (stepWriter env c .recv) := by
  have hp : Progress S c :=
    .readers pre k rest ze done todo hs ht hze hr hw hd htk ho hdel hgot hdata hf
  have hk : k ∉ rest := not_mem_of_nodup_slots (hs ▸ hS.slots)
  simp only [stepWriter, hw, Writer.selected, and_self, if_true]
  split
  · rename_i hready
    rcases Chan.recv_cases (hd ▸ hc.readers_prefix k) (fun hcl => hd ▸ hc.readers_closed hcl) htk
        hready with ⟨j, todo', rfl, hx, hrecv⟩ | ⟨rfl, hx⟩
    · simp only [recvReaders, hx]
      exact Progress.writerInv (.data pre k rest ze done j todo' hs ht hze hr (by rw [hw]) hd
        (by simp [hrecv, htk]) ho hdel hgot hdata fun k' hk' => (hf k' hk').of_eq rfl
          (Function.update_noteq (ne_of_mem_of_not_mem hk' hk) _ _) fun _ => rfl)
    · simp only [recvReaders, hx, hw]
      rw [List.append_nil] at hd
      refine Progress.writerInv (.idle (pre ++ [k]) rest false (by simp [hs]) (by simp [ht])
        rfl (fun h => nomatch h) (by simp [ho, entryLog_of_readers hze hr, hd]) ?_ hf)
      refine fun k' hk' => (List.mem_append.mp hk').elim (hdel k') fun hk' => ?_
      rw [List.mem_singleton.mp hk']
      refine ⟨ze, hze, fun r hr' => ?_⟩
      rw [hr] at hr'
      cases hr'
      rwa [hd]
  · exact hp.writerInv

/-- The loop copies the buffer of its reader slot into the entry. -/
theorem Progress.recv_data {pre rest : List Nat} {k : Nat} {ze : ZipEntry} {done : List Nat}
    {j : Nat} {todo : List Nat} (hs : slotsOf S = pre ++ k :: rest)
    (ht : c.writeOps.taken = pre.length + 1) (hze : entryOf S k = some ze)
    (hr : ze.futureReaders = some k)
    (hw : c.writer = { currentWriter := some (headerCall ze.fh).2, currentReaders := some k,
                       currentReader := some (k, j) })
    (hd : readersOf S k = done ++ j :: todo) (htk : (c.readers k).taken = done.length + 1)
    (ho : c.out = pre.flatMap (entryLog S) ++ (headerCall ze.fh).1 :: copies S k done)
    (hdel : ∀ k ∈ pre, Delivered S k) (hgot : ∀ j ∈ done, (dataOf S k j).isSome)
    (hdata : ∀ j' ∈ j :: todo, (c.data (k, j')).taken = 0) (hf : ∀ k' ∈ rest, c.Fresh k')
    (hS : Carried S) : WriterInv S (stepWriter env c .recv) := by
  have hp : Progress S c :=
    .data pre k rest ze done j todo hs ht hze hr hw hd htk ho hdel hgot hdata hf
  have hk : k ∉ rest := not_mem_of_nodup_slots (hs ▸ hS.slots)
  have hj : j ∉ todo := not_mem_of_nodup_slots (hd ▸ hS.readers k)
  simp only [stepWriter, hw, Writer.selected, and_self, if_true]
  split
  · rename_i hready
    obtain ⟨d, hx, hdo⟩ := hc.data_found (hdata j (.head _)) hready
    have hout : c.out ++ [OutCall.copy d] =
        pre.flatMap (entryLog S) ++ (headerCall ze.fh).1 :: copies S k (done ++ [j]) := by
      simp [ho, copies, hdo]
    simp only [recvData, hx, hw]
    split
    · refine WriterInv.finish_err ?_
      rw [hout]
      exact (List.prefix_append _ _).trans
        ((out_prefix_of_readers hs hze hr (by simpa using hd)).trans (List.prefix_append _ _))
    · exact Progress.writerInv (.readers pre k rest ze (done ++ [j]) todo hs ht hze hr rfl
        (by simpa using hd) (by simpa using htk) hout hdel
        (fun j' hj' => (List.mem_append.mp hj').elim (hgot j') fun hj' => by
          rw [List.mem_singleton.mp hj', hdo]
          rfl)
        (fun j' hj' => by
          have hne : ((k, j') : Nat × Nat) ≠ (k, j) := by
            intro h
            cases h
            exact hj hj'
          simp only [Function.update_noteq hne]
          exact hdata j' (.tail _ hj'))
        fun k' hk' => (hf k' hk').of_eq rfl rfl fun j'' => by
          have hne : ((k', j'') : Nat × Nat) ≠ (k, j) := by
            intro h
            cases h
            exact hk hk'
          exact Function.update_noteq hne _ _)
  · exact hp.writerInv

/-- One receive of the running loop keeps the invariant. -/
theorem Progress.recv (hS : Carried S) (hp : Progress S c) : WriterInv S (stepWriter env c .recv) := by
  cases hp with
  | idle pre rest done hs ht hw hd ho hdel hf => exact Progress.recv_idle hc hs ht hw hd ho hdel hf
  | entry pre k rest hs ht hw ho hdel hf => exact Progress.recv_entry hc hS hs ht hw ho hdel hf
  | readers pre k rest ze done todo hs ht hze hr hw hd htk ho hdel hgot hdata hf =>
    exact Progress.recv_readers hc hs ht hze hr hw hd htk ho hdel hgot hdata hf hS
  | data pre k rest ze done j todo hs ht hze hr hw hd htk ho hdel hgot hdata hf =>
    exact Progress.recv_data hc hs ht hze hr hw hd htk ho hdel hgot hdata hf hS

/-- Every step of the run keeps the invariant. -/
theorem WriterInv.step (hS : Carried S) (h : WriterInv S c) (s : Sched) :
    WriterInv S (SoongZip.step env opts c s) := by
  cases s with
  | proc p => exact h.stepProc p
  | writer cs =>
    cases cs with
    | recv =>
      by_cases hr : c.writer.status = .running
      · exact (h.progress hr).recv hc hS
      · simpa [SoongZip.step, stepWriter, hr] using h
    | error p => exact h.error env p
    | default => exact h.default env

end Recv

end Steps

/-! ### Every run of `write` -/

theorem WriterInv.init (env : Env) (opts : Options) (out : String) (ms : List PathMapping)
    (manifest : String) (S : ChanName → List Msg) :
    WriterInv S (write env opts out ms manifest) := by
  unfold write
  split
  · exact ⟨by simp, by simp, by simp, by simp⟩
  · dsimp only
    split
    · exact WriterInv.finish_err (by simp)
    · exact Progress.writerInv (.idle [] (slotsOf S) false rfl rfl rfl (fun h => nomatch h) rfl
        (by simp) fun _ _ => ⟨rfl, rfl, fun _ => rfl⟩)

/-- The writer invariant holds in every configuration a run of `write` reaches. -/
theorem write_writerInv (env : Env) (opts : Options) (out : String) (ms : List PathMapping)
    (manifest : String) {c : Config} (hr : Reachable env opts (write env opts out ms manifest) c) :
    WriterInv (carried env opts (write env opts out ms manifest)) c := by
  induction hr with
  | init => exact WriterInv.init env opts out ms manifest _
  | step s hr' ih =>
    exact ih.step (write_channelInv env opts out ms manifest hr')
      (carried_write env opts out ms manifest) s

/-- Whatever the schedule, the writer of `write` never panics; the calls it makes on the encoder
are the headers, copies and closes of the entries in the order of their slots, each entry's
buffers in the order of its reader slots, as far as it has got, followed by the close of the
archive; and when it returns nil it has made all of them, every slot having delivered its entry
and every reader slot its buffer. The archive depends only on what the scripts `write` starts
from send, not on the interleaving. -/
theorem write_archive (env : Env) (opts : Options) (out : String) (ms : List PathMapping)
    (manifest : String) {c : Config} (hr : Reachable env opts (write env opts out ms manifest) c) :
    let S : ChanName → List Msg := carried env opts (write env opts out ms manifest)
    (∀ p, c.writer.status ≠ .panicked p) ∧ c.out <+: archive S ++ [.closeArchive] ∧
      (c.writer.status = .returned none →
        c.out = archive S ++ [.closeArchive] ∧ ∀ k ∈ slotsOf S, Delivered S k) :=
  let h := write_writerInv env opts out ms manifest hr
  ⟨h.noPanic, h.out_prefix, h.complete⟩

/-- Two files, with the second file's worker run to the end before the first's. -/
theorem write_archive_two_files :
    let env : Env := Env.healthy fun p =>
      if p = "a" then some (.file [7] false) else if p = "b" then some (.file [8, 9] false) else none
    let opts : Options := { emulateJar := false, directories := false, parallelJobs := 4, compLevel := 5 }
    let c₀ : Config := write env opts "out" [⟨"a", "a", Zip.deflate⟩, ⟨"b", "b", Zip.deflate⟩] ""
    let c : Config := run env opts c₀ (List.replicate 20 (.proc .producer) ++
      List.replicate 20 (.proc (.worker 1)) ++ List.replicate 20 (.proc (.worker 0)) ++
      List.replicate 20 (.writer .recv) ++ [.writer .default])
    (∀ p, c.writer.status ≠ .panicked p) ∧ c.out <+: archive (carried env opts c₀) ++ [.closeArchive] ∧
      (c.writer.status = .returned none → c.out = archive (carried env opts c₀) ++ [.closeArchive] ∧
        ∀ k ∈ slotsOf (carried env opts c₀), Delivered (carried env opts c₀) k) :=
  write_archive _ _ _ _ _ (reachable_run _ _ _ _)

end SoongZip
