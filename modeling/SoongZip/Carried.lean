import SoongZip.Ownership

/-!
# What the data channels carry

The values a run of `write` sends are fixed by the scripts it starts from
(`SoongZip.carried`). This module reads them back as the writer sees them — the slots of
`z.writeOps` in push order, the entry each slot carries, the reader slots of each entry's
reader list in enqueue order and the buffer of each reader slot — defines the archive they
make, and proves what the writer loop relies on: the slots are distinct, an entry's reader
list is its own or absent, and the reader slots of a list are distinct.
-/

namespace SoongZip

/-! ### Reading the values back -/

/-- A slot pushed on `z.writeOps`. -/
def Msg.op? : Msg → Option Nat
  | .op k => some k
  | _ => none

/-- An entry sent on a slot. -/
def Msg.entry? : Msg → Option ZipEntry
  | .entry ze => some ze
  | _ => none

/-- A reader slot sent on a reader list. -/
def Msg.reader? : Msg → Option Nat
  | .reader j => some j
  | _ => none

/-- A buffer sent on a reader slot. -/
def Msg.data? : Msg → Option (List UInt8)
  | .data d => some d
  | _ => none

section Read

variable (S : ChanName → List Msg)

/-- The slots `z.writeOps` carries, in push order. -/
def slotsOf : List Nat := (S .writeOps).filterMap Msg.op?

/-- The entry the slot of entry `k` carries. -/
def entryOf (k : Nat) : Option ZipEntry := ((S (.entry k)).filterMap Msg.entry?).head?

/-- The reader slots entry `k`'s reader list carries, in enqueue order. -/
def readersOf (k : Nat) : List Nat := (S (.readers k)).filterMap Msg.reader?

/-- The buffer reader slot `j` of entry `k` carries. -/
def dataOf (k j : Nat) : Option (List UInt8) := ((S (.data k j)).filterMap Msg.data?).head?

/-- The copies of the buffers of entry `k`'s reader slots `js`, in order. -/
def copies (k : Nat) (js : List Nat) : List OutCall :=
  js.filterMap fun j => (dataOf S k j).map OutCall.copy

/-- The encoder calls for the entry of slot `k`: its header, a copy of the buffer of each of
its reader slots in enqueue order, and the close of the entry; `soong_zip.go:418–458`. -/
def entryLog (k : Nat) : List OutCall :=
  match entryOf S k with
  | none => []
  | some ze =>
    (headerCall ze.fh).1 ::
      ((match ze.futureReaders with
        | none => []
        | some r => copies S r (readersOf S r)) ++
        [OutCall.closeEntry (headerCall ze.fh).2])

/-- The archive: the encoder calls for every slot, in push order. -/
def archive : List OutCall := (slotsOf S).flatMap (entryLog S)

end Read

/-- What the writer loop relies on in the values of a run: the slots are distinct, an entry's
reader list is its own or absent, and the reader slots of each list are distinct. -/
structure Carried (S : ChanName → List Msg) : Prop where
  slots : (slotsOf S).Nodup
  ownReaders : ∀ k ze, entryOf S k = some ze → ze.futureReaders = none ∨ ze.futureReaders = some k
  readers : ∀ k, (readersOf S k).Nodup

/-! ### Operations that send well-formed entries -/

/-- An entry sent on slot `k` has no reader list or reader list `k`, and a CRC worker is
started for an entry whose reader list is its own. -/
def Action.Sound : Action → Prop
  | .sendEntry k ze => ze.futureReaders = none ∨ ze.futureReaders = some k
  | .spawn (.crcFile k _ ze) => ze.futureReaders = some k
  | _ => True

theorem taskScript_sound (env : Env) (level : Int) (t : Task) (ht : (Action.spawn t).Sound) :
    ∀ a ∈ taskScript env level t, a.Sound := by
  cases t with
  | crcFile k r ze =>
    rcases crcFile_cases env k r ze with ⟨e, h⟩ | h <;> simp only [taskScript, h] <;>
      simp_all [Action.Sound]
  | compressPartialFile k j r start dict last =>
    rcases compressPartialFile_cases env level k j r start dict last with ⟨e, h⟩ | ⟨d, h⟩ <;>
      simp [taskScript, h, Action.Sound]
  | compressWholeFile k ze r =>
    rcases compressWholeFile_cases env level k ze r with ⟨e, h⟩ | ⟨e, h⟩ | ⟨fh, d, h, -⟩ <;>
      simp [taskScript, h, wholeFileTail, Action.Sound]

theorem Loop.sound {k j : Nat} {acts : List Action} {err : Option GoError}
    (h : Loop k j acts err) : ∀ a ∈ acts, a.Sound := by
  induction h with
  | done => simp
  | fail => simp [Action.Sound]
  | next _ _ _ _ _ _ ih => simpa [Action.Sound] using ih

theorem splitHead_sound {k : Nat} {ze : ZipEntry} (hze : ze.futureReaders = some k) (r : Source)
    (cap : Nat) : ∀ a ∈ splitHead k ze r cap, a.Sound := by
  simp [splitHead, Action.Sound, hze]

theorem Block.sound {k : Nat} {b : List Action} (h : Block k b) : ∀ a ∈ b, a.Sound := by
  cases h with
  | dir ze hze _ | symlink ze d hze _ => simp [Action.Sound, hze]
  | whole => simp [Action.Sound]
  | split ze r cap hze hl =>
    simp only [List.mem_append, List.mem_singleton]
    rintro a ((ha | ha) | rfl)
    · exact splitHead_sound hze r cap a ha
    · exact hl.sound a ha
    · trivial

theorem Script.sound {k : Nat} {P : List Action} (h : Script k P) : ∀ a ∈ P, a.Sound := by
  induction h with
  | done => simp [Action.Sound]
  | fail => simp [Action.Sound]
  | hang => simp [Action.Sound]
  | failSplit k e hf =>
    cases hf with
    | mk ze r cap e hze hl =>
      simp only [List.mem_append, List.mem_cons, List.mem_singleton, List.not_mem_nil, or_false]
      rintro a ((ha | ha) | rfl | rfl)
      · exact splitHead_sound hze r cap a ha
      · exact hl.sound a ha
      all_goals trivial
  | block hb _ ih =>
    intro a ha
    rcases List.mem_append.mp ha with ha | ha
    · exact hb.sound a ha
    · exact ih a ha

/-! ### The slots -/

theorem Loop.silent_writeOps {k j : Nat} {acts : List Action} {err : Option GoError}
    (h : Loop k j acts err) : opsOn .writeOps acts = [] :=
  (touches_of_chan fun a ha => (h.actions a ha).2.2).silent (p := (· = ChanName.readers k))
    (by simp)

theorem Block.slots {k : Nat} {b : List Action} (h : Block k b) :
    sendsOf (opsOn .writeOps b) = [.op k] := by
  cases h with
  | split ze r cap _ hl =>
    rw [opsOn_append, opsOn_append, hl.silent_writeOps]
    simp [splitHead, opsOn, Action.opOn, Action.chanOp?, sendsOf, ChanOp.msg?]
  | _ => simp [opsOn, Action.opOn, Action.chanOp?, sendsOf, ChanOp.msg?]

/-- The producer pushes the slots of its entries in order. -/
theorem Script.slots {k : Nat} {P : List Action} (h : Script k P) :
    ∃ n, sendsOf (opsOn .writeOps P) = (List.range' k n).map Msg.op := by
  induction h with
  | done | fail | hang =>
    exact ⟨0, by simp [opsOn, Action.opOn, Action.chanOp?, sendsOf, ChanOp.msg?]⟩
  | failSplit k e hf =>
    cases hf with
    | mk ze r cap e _ hl =>
      refine ⟨1, ?_⟩
      rw [opsOn_append, opsOn_append, hl.silent_writeOps]
      simp [splitHead, opsOn, Action.opOn, Action.chanOp?, sendsOf, ChanOp.msg?]
  | block hb _ ih =>
    obtain ⟨n, hn⟩ := ih
    refine ⟨n + 1, ?_⟩
    rw [opsOn_append, sendsOf_append, hb.slots, hn]
    rfl

/-! ### The reader slots -/

/-- The block loop from block `j` enqueues the reader slots `j, j + 1, …` on its entry's list. -/
theorem Loop.readers {k j : Nat} {acts : List Action} {err : Option GoError}
    (h : Loop k j acts err) : ∃ n, sendsOf (opsOn (.readers k) acts) = (List.range' j n).map Msg.reader := by
  induction h with
  | done => exact ⟨0, rfl⟩
  | fail j e => exact ⟨1, by simp [opsOn, Action.opOn, Action.chanOp?, sendsOf, ChanOp.msg?]⟩
  | next j r start dict last _ ih =>
    obtain ⟨n, hn⟩ := ih
    refine ⟨n + 1, ?_⟩
    rw [opsOn_cons_self (a := .sendReader k j) rfl, opsOn_cons_of_none (a := .cpuRequest k) rfl,
      opsOn_cons_of_none (a := .spawn _) rfl, sendsOf_send, hn]
    rfl

theorem nodup_range'_map_reader (j n : Nat) : ((List.range' j n).map Msg.reader).Nodup :=
  (List.nodup_range' j n).map fun _ _ h => Msg.reader.inj h

theorem splitPiece_readers {k : Nat} (ze : ZipEntry) (r : Source) (cap : Nat)
    {loop : List Action} {err : Option GoError} (hl : Loop k 0 loop err) (tail : List Action)
    (ht : tail = [] ∨ tail = [.closeReaders k]) (k' : Nat) :
    (sendsOf (opsOn (.readers k') (splitHead k ze r cap ++ loop ++ tail))).Nodup := by
  have htail : sendsOf (opsOn (.readers k') tail) = [] := by
    rcases ht with rfl | rfl <;> simp [opsOn, Action.opOn, Action.chanOp?, sendsOf, ChanOp.msg?]
  have hhead : sendsOf (opsOn (.readers k') (splitHead k ze r cap)) = [] := by
    simp [splitHead, opsOn, Action.opOn, Action.chanOp?, sendsOf]
  simp only [opsOn_append, sendsOf_append, htail, hhead, List.nil_append, List.append_nil]
  by_cases hk : k' = k
  · subst hk
    obtain ⟨m, hm⟩ := hl.readers
    rw [hm]
    exact nodup_range'_map_reader 0 m
  · rw [(touches_of_chan fun a ha => (hl.actions a ha).2.2).silent (p := (· = ChanName.readers k))
      (by simpa using hk)]
    exact List.nodup_nil

theorem Block.readers {k : Nat} {b : List Action} (h : Block k b) (k' : Nat) :
    (sendsOf (opsOn (.readers k') b)).Nodup := by
  cases h with
  | split ze r cap _ hl => exact splitPiece_readers ze r cap hl _ (.inr rfl) k'
  | _ =>
    by_cases hk : k = k' <;>
      simp [opsOn, Action.opOn, Action.chanOp?, sendsOf, ChanOp.msg?, hk]

/-- On each reader list the producer enqueues distinct reader slots. -/
theorem Script.readers (env : Env) (level : Int) {k : Nat} {P : List Action} (h : Script k P)
    (k' : Nat) : (sendsOf (opsOn (.readers k') P)).Nodup := by
  induction h with
  | done | fail | hang => simp [opsOn, Action.opOn, Action.chanOp?, sendsOf, ChanOp.msg?]
  | failSplit k e hf =>
    cases hf with
    | mk ze r cap e _ hl =>
      have := splitPiece_readers ze r cap hl [] (.inl rfl) k'
      simp only [List.append_nil] at this
      simpa [opsOn, Action.opOn, Action.chanOp?, sendsOf, ChanOp.msg?] using this
  | @block k b rest hb hr ih =>
    rw [opsOn_append, sendsOf_append]
    by_cases hk : k' = k
    · subst hk
      rw [((hr.rest env level).touches.silent (by simp [ChanName.index?]) :
        opsOn (.readers k') rest = [])]
      simpa using hb.readers k'
    · rw [((hb.piece env level).touches.silent (by simpa [ChanName.index?] using hk) :
        opsOn (.readers k') b = [])]
      simpa using ih

theorem taskScript_readers (env : Env) (level : Int) (t : Task) (k' : Nat) :
    (sendsOf (opsOn (.readers k') (taskScript env level t))).Nodup := by
  cases t with
  | crcFile k r ze =>
    rcases crcFile_cases env k r ze with ⟨e, h⟩ | h <;>
      simp [taskScript, h, opsOn, Action.opOn, Action.chanOp?, sendsOf]
  | compressPartialFile k j r start dict last =>
    rcases compressPartialFile_cases env level k j r start dict last with ⟨e, h⟩ | ⟨d, h⟩ <;>
      simp [taskScript, h, opsOn, Action.opOn, Action.chanOp?, sendsOf]
  | compressWholeFile k ze r =>
    rcases compressWholeFile_cases env level k ze r with ⟨e, h⟩ | ⟨e, h⟩ | ⟨fh, d, h, -⟩ <;>
      simp only [taskScript, h] <;> by_cases hk : k = k' <;>
      simp [wholeFileTail, opsOn, Action.opOn, Action.chanOp?, sendsOf, ChanOp.msg?, hk]

/-! ### The values of a run of `write` -/

theorem nodup_sendsOf_flatMap {ch : ChanName} :
    ∀ {L : List (List Action)}, (∀ u ∈ L, (sendsOf (opsOn ch u)).Nodup) →
      L.Pairwise (Apart ch) → (sendsOf (L.flatMap (opsOn ch))).Nodup
  | [], _, _ => List.nodup_nil
  | u :: L, hn, hp => by
    rw [List.flatMap_cons, sendsOf_append]
    rcases List.pairwise_cons.mp hp with ⟨hu, hL⟩
    by_cases hs : opsOn ch u = []
    · rw [hs, sendsOf_nil, List.nil_append]
      exact nodup_sendsOf_flatMap (fun v hv => hn v (.tail _ hv)) hL
    · rw [flatMap_opsOn_of_owner hp hs, sendsOf_nil, List.append_nil]
      exact hn u (.head _)

theorem exists_send_of_mem_sendsOf {ch : ChanName} {m : Msg} {L : List (List Action)}
    (h : m ∈ sendsOf (L.flatMap (opsOn ch))) : ∃ u ∈ L, ∃ a ∈ u, a.opOn ch = some (.send m) := by
  obtain ⟨o, ho, hm⟩ := List.mem_filterMap.mp h
  obtain ⟨u, hu, ho⟩ := List.mem_flatMap.mp ho
  obtain ⟨a, ha, hao⟩ := List.mem_filterMap.mp ho
  cases o with
  | close => cases hm
  | send m' =>
    cases hm
    exact ⟨u, hu, a, ha, hao⟩

theorem Action.eq_sendEntry {a : Action} {k : Nat} {ze : ZipEntry}
    (h : a.opOn (.entry k) = some (.send (.entry ze))) : a = .sendEntry k ze := by
  cases a <;> simp [Action.opOn, Action.chanOp?] at h
  obtain ⟨rfl, rfl⟩ := h
  rfl

theorem slotsOf_map_op (W : List Nat) {S : ChanName → List Msg} (h : S .writeOps = W.map .op) :
    slotsOf S = W := by
  simp [slotsOf, h, List.filterMap_map, Function.comp_def, Msg.op?]

/-- A configuration with no worker running whose producer has a script of the producer's shape
sends the values the writer loop relies on. -/
theorem Carried.of_script {c : Config} {k : Nat} (hw : c.workers = []) (h : Script k c.producer)
    (env : Env) (opts : Options) : Carried (carried env opts c) := by
  have hpend : c.pending env opts.compLevel =
      c.producer :: workersOf env opts.compLevel c.producer := by
    simp [Config.pending, workersOf, hw]
  have hrest := h.rest env opts.compLevel
  have hworkers : ∀ u ∈ workersOf env opts.compLevel c.producer, ∃ t, .spawn t ∈ c.producer ∧
      u = taskScript env opts.compLevel t := by
    intro u hu
    obtain ⟨t, ht, rfl⟩ := List.mem_map.mp hu
    obtain ⟨a, ha, hat⟩ := List.mem_filterMap.mp ht
    cases a <;> simp [Action.task?] at hat
    subst hat
    exact ⟨_, ha, rfl⟩
  refine ⟨?_, fun k' ze hze => ?_, fun k' => ?_⟩
  · obtain ⟨n, hn⟩ := h.slots
    have hS : carried env opts c .writeOps = (List.range' k n).map Msg.op := by
      rw [carried, hpend, List.flatMap_cons,
        List.flatMap_eq_nil_iff.mpr fun u hu => (hrest.workers u hu).silent (by simp [ChanName.index?]),
        List.append_nil, hn]
    rw [slotsOf_map_op _ hS]
    exact List.nodup_range' k n
  · obtain ⟨m, hm, hme⟩ := List.mem_filterMap.mp (List.mem_of_mem_head? hze)
    cases m <;> simp [Msg.entry?] at hme
    subst hme
    rw [carried, hpend] at hm
    obtain ⟨u, hu, a, ha, hao⟩ := exists_send_of_mem_sendsOf hm
    have hsound : a.Sound := by
      rcases List.mem_cons.mp hu with rfl | hu
      · exact h.sound a ha
      · obtain ⟨t, ht, rfl⟩ := hworkers u hu
        exact taskScript_sound env _ t (h.sound _ ht) a ha
    rw [Action.eq_sendEntry hao] at hsound
    exact hsound
  · refine (nodup_sendsOf_flatMap (fun u hu => ?_) ?_).filterMap fun _ _ _ h₁ h₂ => ?_
    · rw [hpend] at hu
      rcases List.mem_cons.mp hu with rfl | hu
      · exact h.readers env opts.compLevel k'
      · obtain ⟨t, -, rfl⟩ := hworkers u hu
        exact taskScript_readers env _ t k'
    · exact (Config.wellFormed_of_script hw h env opts.compLevel).owned _
    · rename_i m m' j
      cases m <;> cases m' <;> simp_all [Msg.reader?]

theorem carried_write (env : Env) (opts : Options) (out : String) (ms : List PathMapping)
    (manifest : String) : Carried (carried env opts (write env opts out ms manifest)) := by
  have hnil : Carried (fun _ => []) := ⟨List.nodup_nil, by simp [entryOf], fun _ => List.nodup_nil⟩
  unfold write
  split
  · exact hnil
  · dsimp only
    split
    · exact hnil
    · exact Carried.of_script rfl (producer_script env opts _ _) env opts

end SoongZip
