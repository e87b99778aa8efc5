import SoongZip.Permits

/-!
# What each entry requests and gives back

The producer's script is one block per entry (`SoongZip.Scripts`). This module reads off, block
by block, what the limiters see. A worker that fails returns without the entry or the buffer it
was started for, so a run whose writer finds every slot's entry and buffers (`Delivered`) has no
failed worker, and there every permit the producer requests is given back by the worker it
starts (`Script.balance`). The memory of an entry is asked once, by its block, before the entry
is published, and the entry carries that amount as its allocated size (`Script.memory`). Entry
by entry, a run whose slots deliver starts no worker for a directory or a symlink, one for an
entry compressed in one piece and a CRC worker and one block worker per block for a split entry,
with one `Request` for each worker and one memory `Request` for each file entry
(`Script.plan`).
-/

namespace SoongZip

/-! ### What a script and its workers send -/

section Sends

variable (env : Env) (level : Int)

/-- A producer script and the workers it starts. -/
def unitsOf (P : List Action) : List (List Action) := P :: workersOf env level P

/-- The values a producer script and its workers send on a channel. -/
def sendsIn (P : List Action) (ch : ChanName) : List Msg :=
  sendsOf ((unitsOf env level P).flatMap (opsOn ch))

/-- Neither the script nor its workers operate on `ch`. -/
def Silent (P : List Action) (ch : ChanName) : Prop :=
  opsOn ch P = [] ∧ ∀ u ∈ workersOf env level P, opsOn ch u = []

variable {env level}

theorem sendsIn_append_of_silent {b rest : List Action} {ch : ChanName}
    (h : Silent env level rest ch) : sendsIn env level (b ++ rest) ch = sendsIn env level b ch := by
  simp [sendsIn, unitsOf, h.1, List.flatMap_eq_nil_iff.mpr h.2]

theorem sendsIn_append_of_silent' {b rest : List Action} {ch : ChanName}
    (h : Silent env level b ch) : sendsIn env level (b ++ rest) ch = sendsIn env level rest ch := by
  simp [sendsIn, unitsOf, h.1, List.flatMap_eq_nil_iff.mpr h.2]

theorem Piece.silent {k : Nat} {b : List Action} (h : Piece env level k b) {ch : ChanName}
    (hw : ch ≠ .writeOps) (hk : ch.index? ≠ some k) : Silent env level b ch :=
  ⟨h.touches.silent (by simp [hw, hk]), fun u hu => (h.workers u hu).silent hk⟩

theorem Rest.silent {k : Nat} {P : List Action} (h : Rest env level k P) {ch : ChanName}
    (hw : ch ≠ .writeOps) (hk : ∀ k', ch.index? = some k' → k' < k) : Silent env level P ch :=
  ⟨h.touches.silent (by rintro (h | ⟨k', h', hle⟩) <;> [exact hw h; exact absurd (hk k' h') (by omega)]),
    fun u hu => (h.workers u hu).silent (by rintro ⟨k', h', hle⟩; exact absurd (hk k' h') (by omega))⟩

end Sends

/-- Whether slot `k` is delivered depends only on the channels of entry `k`, when its entry's
reader list is its own or absent. -/
theorem Delivered.congr {S S' : ChanName → List Msg} {k : Nat} (h : Delivered S k)
    (hS : ∀ ch, ch.index? = some k → S' ch = S ch)
    (hown : ∀ ze, entryOf S k = some ze → ze.futureReaders = none ∨ ze.futureReaders = some k) :
    Delivered S' k := by
  obtain ⟨ze, hze, hd⟩ := h
  have he : entryOf S' k = entryOf S k := by simp only [entryOf, hS (.entry k) rfl]
  refine ⟨ze, he ▸ hze, fun r hr j hj => ?_⟩
  rcases hown ze hze with h | h <;> rw [h] at hr <;> cases hr
  have hrd : readersOf S' k = readersOf S k := by simp only [readersOf, hS (.readers k) rfl]
  have hdd : dataOf S' k j = dataOf S k j := by simp only [dataOf, hS (.data k j) rfl]
  exact hdd ▸ hd k h j (hrd ▸ hj)

/-! ### Permits -/

section Permits

variable {env : Env} {level : Int}

theorem requests_append (s s' : List Action) : requests (s ++ s') = requests s + requests s' :=
  List.countP_append _ _ _

theorem futureFinishes_append (s s' : List Action) :
    futureFinishes env level (s ++ s') = futureFinishes env level s + futureFinishes env level s' := by
  simp [futureFinishes, List.sum_append]

/-- A worker that sends no error gives its permit back, once. -/
theorem taskScript_finishes (env : Env) (level : Int) (t : Task)
    (hok : ∀ a ∈ taskScript env level t, a.isSendError = false) :
    finishes (taskScript env level t) = 1 := by
  cases t with
  | crcFile k r ze =>
    rcases crcFile_cases env k r ze with ⟨e, h⟩ | h <;> rw [taskScript, h] at hok ⊢ <;>
      simp_all [Action.isSendError, Action.isFinish]
  | compressPartialFile k j r start dict last =>
    rcases compressPartialFile_cases env level k j r start dict last with ⟨e, h⟩ | ⟨d, h⟩ <;>
      rw [taskScript, h] at hok ⊢ <;> simp_all [Action.isSendError, Action.isFinish]
  | compressWholeFile k ze r =>
    rcases compressWholeFile_cases env level k ze r with ⟨e, h⟩ | ⟨e, h⟩ | ⟨fh, d, h, -⟩ <;>
      rw [taskScript, h] at hok ⊢ <;>
      simp_all [wholeFileTail, Action.isSendError, Action.isFinish]

/-- The block loop in a run that finds a buffer in each reader slot it enqueues: no window read
failed, and each block worker gives back the permit requested for it. -/
theorem Loop.balance (env : Env) (level : Int) {k j : Nat} {acts : List Action}
    {err : Option GoError} (h : Loop k j acts err)
    (hd : ∀ j', Msg.reader j' ∈ sendsOf (opsOn (.readers k) acts) →
      sendsOf ((workersOf env level acts).flatMap (opsOn (.data k j'))) ≠ []) :
    err = none ∧ requests acts = futureFinishes env level acts ∧
      ∀ u ∈ workersOf env level acts, ∀ a ∈ u, a.isSendError = false := by
  induction h with
  | done => simp [futureFinishes, workersOf]
  | fail j e =>
    exact absurd (by simp [workersOf, Action.task?])
      (hd j (by simp [opsOn, Action.opOn, Action.chanOp?, sendsOf, ChanOp.msg?]))
  | @next j r start dict last acts err hl ih =>
    have hw : workersOf env level (.sendReader k j :: .cpuRequest k ::
        .spawn (.compressPartialFile k j r start dict last) :: acts) =
        compressPartialFile env level k j r start dict last :: workersOf env level acts := by
      simp [workersOf, Action.task?, taskScript]
    have hrd : sendsOf (opsOn (.readers k) (.sendReader k j :: .cpuRequest k ::
        .spawn (.compressPartialFile k j r start dict last) :: acts)) =
        .reader j :: sendsOf (opsOn (.readers k) acts) := by
      simp [opsOn, Action.opOn, Action.chanOp?, sendsOf, ChanOp.msg?]
    have hlw := (hl.workers env level).1
    have htp := (compressPartialFile_local env level k j r start dict last).2
    -- the block's own reader slot has a buffer, so its worker succeeded
    have hj := hd j (by rw [hrd]; exact List.mem_cons_self _ _)
    rw [hw, List.flatMap_cons, List.flatMap_eq_nil_iff.mpr fun u hu => (hlw u hu).2.silent
      (by rintro ⟨j', hj', h⟩; cases h; omega), List.append_nil] at hj
    rcases compressPartialFile_cases env level k j r start dict last with ⟨e, hp⟩ | ⟨d, hp⟩
    · rw [hp] at hj
      exact absurd (by simp [opsOn, Action.opOn, Action.chanOp?]) hj
    obtain ⟨he, hreq, hno⟩ := ih fun j' hj' => by
      obtain ⟨n, hn⟩ := hl.readers
      have hlt : j + 1 ≤ j' := by
        rw [hn] at hj'
        obtain ⟨i, hi, hij⟩ := List.mem_map.mp hj'
        cases hij
        exact (List.mem_range'_1.mp hi).1
      have := hd j' (by rw [hrd]; exact List.mem_cons_of_mem _ hj')
      rwa [hw, List.flatMap_cons, htp.silent (by rintro ⟨⟩; omega), List.nil_append] at this
    refine ⟨he, ?_, ?_⟩
    · rw [futureFinishes, hw, List.map_cons, List.sum_cons, ← futureFinishes, ← hreq, hp]
      simp [Action.isRequest, Action.isFinish, finishes]
      omega
    · rw [hw]
      intro u hu
      rcases List.mem_cons.mp hu with rfl | hu
      · rw [hp]
        simp [Action.isSendError]
      · exact hno u hu

theorem Loop.silent {k j : Nat} {acts : List Action} {err : Option GoError} (h : Loop k j acts err)
    {ch : ChanName} (hch : ch ≠ .readers k) : opsOn ch acts = [] :=
  (touches_of_chan fun a ha => (h.actions a ha).2.2).silent hch

/-- A split entry's slot carries what its CRC worker sends, its reader list what its block loop
enqueues, and its reader slots what the block workers send. -/
theorem split_sends (env : Env) (level : Int) {k : Nat} (ze : ZipEntry) (r : Source) (cap : Nat)
    {loop : List Action} {err : Option GoError} (hl : Loop k 0 loop err) (tail : List Action)
    (ht : tail = [] ∨ tail = [.closeReaders k]) :
    sendsIn env level (splitHead k ze r cap ++ loop ++ tail) (.entry k) =
        sendsOf (opsOn (.entry k) (crcFile env k r ze)) ∧
      sendsIn env level (splitHead k ze r cap ++ loop ++ tail) (.readers k) =
        sendsOf (opsOn (.readers k) loop) ∧
      ∀ j, sendsIn env level (splitHead k ze r cap ++ loop ++ tail) (.data k j) =
        sendsOf ((workersOf env level loop).flatMap (opsOn (.data k j))) := by
  have hw : workersOf env level (splitHead k ze r cap ++ loop ++ tail) =
      crcFile env k r ze :: workersOf env level loop := by
    have : workersOf env level tail = [] := by rcases ht with rfl | rfl <;> rfl
    simp only [workersOf_append, this, List.append_nil]
    simp [splitHead, workersOf, Action.task?, taskScript]
  have hlw := (hl.workers env level).1
  have hct := (crcFile_local env k r ze).2
  have htail : ∀ ch, sendsOf (opsOn ch tail) = [] := by
    intro ch
    rcases ht with rfl | rfl
    · rfl
    · by_cases hc : ChanName.readers k = ch <;>
        simp [opsOn, Action.opOn, Action.chanOp?, hc, sendsOf, ChanOp.msg?]
  have hhead : ∀ ch, ch ≠ .writeOps → opsOn ch (splitHead k ze r cap) = [] := by
    intro ch hch
    simp [splitHead, opsOn, Action.opOn, Action.chanOp?, Ne.symm hch]
  refine ⟨?_, ?_, fun j => ?_⟩
  · rw [sendsIn, unitsOf, hw, List.flatMap_cons, List.flatMap_cons,
      List.flatMap_eq_nil_iff.mpr fun u hu => (hlw u hu).2.silent (by rintro ⟨j', -, h⟩; cases h)]
    simp [hhead (.entry k) (by simp), hl.silent (show ChanName.entry k ≠ .readers k by simp), htail]
  · rw [sendsIn, unitsOf, hw, List.flatMap_cons, List.flatMap_cons, hct.silent (by simp),
      List.flatMap_eq_nil_iff.mpr fun u hu => (hlw u hu).2.silent (by rintro ⟨j', -, h⟩; cases h)]
    simp [hhead (.readers k) (by simp), htail]
  · rw [sendsIn, unitsOf, hw, List.flatMap_cons, List.flatMap_cons, hct.silent (by simp)]
    simp [hhead (.data k j) (by simp), hl.silent (show ChanName.data k j ≠ .readers k by simp), htail]

/-- A split entry whose slot and reader slots all deliver: its CRC worker and its block loop
succeeded, and the block loop ended without a failed window read. -/
theorem split_balance (env : Env) (level : Int) {k : Nat} {ze : ZipEntry} {r : Source} {cap : Nat}
    {loop : List Action} {err : Option GoError} (hze : ze.futureReaders = some k) (hl : Loop k 0 loop err)
    (tail : List Action) (ht : tail = [] ∨ tail = [.closeReaders k])
    (hd : Delivered (sendsIn env level (splitHead k ze r cap ++ loop ++ tail)) k) :
    err = none ∧ requests loop = futureFinishes env level loop ∧
      (∀ u ∈ workersOf env level loop, ∀ a ∈ u, a.isSendError = false) ∧
      ∃ ze', crcFile env k r ze = [.sendEntry k ze', .closeEntry k, .cpuFinish k] := by
  obtain ⟨he, hr, hdata⟩ := split_sends env level ze r cap hl tail ht
  obtain ⟨ze', hze', hrd⟩ := hd
  rw [entryOf, he] at hze'
  rcases crcFile_cases env k r ze with ⟨e, hc⟩ | hc <;> rw [hc] at hze'
  · simp [opsOn, Action.opOn, Action.chanOp?] at hze'
  simp [opsOn, Action.opOn, Action.chanOp?, sendsOf, ChanOp.msg?, Msg.entry?] at hze'
  have hfr : ze'.futureReaders = some k := by rw [← hze']; exact hze
  obtain ⟨he, hreq, hno⟩ := hl.balance env level fun j hj => by
    have := hrd k hfr j (by rw [readersOf, hr]; exact List.mem_filterMap.mpr ⟨_, hj, rfl⟩)
    rw [dataOf, hdata] at this
    intro hnil
    simp [hnil] at this
  exact ⟨he, hreq, hno, _, hc⟩

/-- A block whose slot delivers: every worker it starts succeeded and gives back the permit
requested for it. -/
theorem Block.balance {k : Nat} {b : List Action} (h : Block k b)
    (hd : Delivered (sendsIn env level b) k) :
    requests b = futureFinishes env level b ∧
      ∀ u ∈ workersOf env level b, ∀ a ∈ u, a.isSendError = false := by
  cases h with
  | dir | symlink => simp [futureFinishes, workersOf, Action.task?, requests, Action.isRequest]
  | whole ze r =>
    have hw : workersOf env level [.sendWriteOp k, .cpuRequest k, .memRequest k ze.allocatedSize,
        .spawn (.compressWholeFile k ze r)] = [compressWholeFile env level k ze r] := by
      simp [workersOf, Action.task?, taskScript]
    obtain ⟨ze', hze', -⟩ := hd
    simp only [entryOf, sendsIn, unitsOf, hw] at hze'
    rcases compressWholeFile_cases env level k ze r with ⟨e, hc⟩ | ⟨e, hc⟩ | ⟨fh, d, hc, -⟩ <;>
      rw [hc] at hze'
    · simp [opsOn, Action.opOn, Action.chanOp?] at hze'
    · simp [opsOn, Action.opOn, Action.chanOp?] at hze'
    · simp [hw, hc, futureFinishes, requests, finishes, wholeFileTail, Action.isRequest,
        Action.isFinish, Action.isSendError]
  | @split ze r cap loop hze hl =>
    obtain ⟨-, hreq, hno, ze', hc⟩ := split_balance env level hze hl _ (.inr rfl) hd
    have hw : workersOf env level (splitHead k ze r cap ++ loop ++ [.closeReaders k]) =
        crcFile env k r ze :: workersOf env level loop := by
      simp [splitHead, workersOf, Action.task?, taskScript]
    refine ⟨?_, ?_⟩
    · rw [futureFinishes, hw, List.map_cons, List.sum_cons, ← futureFinishes, ← hreq, hc,
        requests_append, requests_append]
      simp [splitHead, requests, finishes, Action.isRequest, Action.isFinish]
    · rw [hw]
      intro u hu
      rcases List.mem_cons.mp hu with rfl | hu
      · rw [hc]
        simp [Action.isSendError]
      · exact hno u hu

/-- The slot of a split entry cut short by a failed window read never delivers: the reader slot
of the failed block never gets a buffer. -/
theorem FailedSplit.undelivered (env : Env) (level : Int) {k : Nat} {f : List Action}
    (h : FailedSplit k f) :
    ¬Delivered (sendsIn env level f) k := by
  cases h with
  | mk ze r cap e hze hl =>
    intro hd
    have := (split_balance env level hze hl [] (.inl rfl)
      (by simpa using hd)).1
    cases this

/-- In a run whose channels of entries from `k` on carry what the script sends and whose slots
all deliver, the script is not a split entry cut short by a failed window read. -/
theorem FailedSplit.not_all_delivered {k : Nat} {f : List Action} (hf : FailedSplit k f) (e : GoError)
    {S : ChanName → List Msg}
    (hS : ∀ ch k', ch.index? = some k' → k ≤ k' →
      S ch = sendsIn env level (f ++ [.sendError e, .closeWriteOps]) ch)
    (hown : ∀ k' ze, entryOf S k' = some ze → ze.futureReaders = none ∨ ze.futureReaders = some k')
    (hd : ∀ k', Msg.op k' ∈ sendsOf (opsOn .writeOps (f ++ [.sendError e, .closeWriteOps])) →
      Delivered S k') : False := by
  have hslot : Msg.op k ∈ sendsOf (opsOn .writeOps (f ++ [.sendError e, .closeWriteOps])) := by
    cases hf
    simp [splitHead, opsOn, Action.opOn, Action.chanOp?, sendsOf, ChanOp.msg?]
  have hend : ∀ ch, ch ≠ .writeOps → Silent env level [.sendError e, .closeWriteOps] ch := by
    intro ch hch
    exact ⟨by simp [opsOn, Action.opOn, Action.chanOp?, Ne.symm hch],
      by simp [workersOf, Action.task?]⟩
  refine hf.undelivered env level ((hd k hslot).congr (fun ch hch => ?_) (hown k))
  have hw : ch ≠ .writeOps := by rintro rfl; cases hch
  rw [hS ch k hch le_rfl, sendsIn_append_of_silent (hend ch hw)]

/-- The hypotheses of a run on a script that starts with the block of entry `k`, split at the
block: the block's slot delivers on what the block sends, and the rest of the script meets them
from entry `k + 1` on. -/
theorem Block.deliveries {k : Nat} {b rest : List Action} (hb : Block k b) (hr : Script (k + 1) rest)
    {S : ChanName → List Msg}
    (hS : ∀ ch k', ch.index? = some k' → k ≤ k' → S ch = sendsIn env level (b ++ rest) ch)
    (hown : ∀ k' ze, entryOf S k' = some ze → ze.futureReaders = none ∨ ze.futureReaders = some k')
    (hd : ∀ k', Msg.op k' ∈ sendsOf (opsOn .writeOps (b ++ rest)) → Delivered S k') :
    Delivered (sendsIn env level b) k ∧
      (∀ ch k', ch.index? = some k' → k + 1 ≤ k' → S ch = sendsIn env level rest ch) ∧
      ∀ k', Msg.op k' ∈ sendsOf (opsOn .writeOps rest) → Delivered S k' := by
  have hpiece := hb.piece env level
  have hrest := hr.rest env level
  have hslot : Msg.op k ∈ sendsOf (opsOn .writeOps (b ++ rest)) := by
    rw [opsOn_append, sendsOf_append, hb.slots]
    exact List.mem_cons_self _ _
  refine ⟨(hd k hslot).congr (fun ch hch => ?_) (hown k), fun ch k' hch hle => ?_,
    fun k' hk' => hd k' (by rw [opsOn_append, sendsOf_append]; exact List.mem_append_right _ hk')⟩
  · have hw : ch ≠ .writeOps := by rintro rfl; cases hch
    rw [hS ch k hch le_rfl, sendsIn_append_of_silent (hrest.silent hw (by
      intro k' hk'; rw [hch] at hk'; cases hk'; omega))]
  · have hw : ch ≠ .writeOps := by rintro rfl; cases hch
    rw [hS ch k' hch (by omega), sendsIn_append_of_silent' (hpiece.silent hw (by rw [hch]; simp; omega))]

/-- A script whose slots all deliver, in a run whose channels of entries from `k` on carry what
the script and its workers send: every worker it starts succeeds, and every permit it requests
is given back by the worker it is requested for. -/
theorem Script.balance {k : Nat} {P : List Action} (h : Script k P) {S : ChanName → List Msg}
    (hS : ∀ ch k', ch.index? = some k' → k ≤ k' → S ch = sendsIn env level P ch)
    (hown : ∀ k' ze, entryOf S k' = some ze → ze.futureReaders = none ∨ ze.futureReaders = some k')
    (hd : ∀ k', Msg.op k' ∈ sendsOf (opsOn .writeOps P) → Delivered S k') :
    requests P = futureFinishes env level P ∧
      ∀ u ∈ workersOf env level P, ∀ a ∈ u, a.isSendError = false := by
  induction h with
  | done | fail | hang => simp [futureFinishes, workersOf, Action.task?, requests, Action.isRequest]
  | @failSplit k f e hf => exact (hf.not_all_delivered e hS hown hd).elim
  | @block k b rest hb hr ih =>
    obtain ⟨hbk, hS', hd'⟩ := hb.deliveries hr hS hown hd
    obtain ⟨hreq, hno⟩ := hb.balance hbk
    obtain ⟨hreq', hno'⟩ := ih hS' hd'
    refine ⟨by rw [requests_append, futureFinishes_append, hreq, hreq'], fun u hu => ?_⟩
    rw [workersOf_append, List.mem_append] at hu
    exact hu.elim (hno u) (hno' u)

end Permits

/-! ### Memory -/

/-- The bytes an action asks of `z.memoryRateLimiter` for entry `k`. -/
def Action.memFor (k : Nat) : Action → Nat
  | .memRequest k' n => if k' = k then n else 0
  | _ => 0

/-- The bytes a script asks for entry `k`. -/
def memAsked (k : Nat) (s : List Action) : Nat := (s.map (Action.memFor k)).sum

@[simp] theorem memAsked_nil (k : Nat) : memAsked k [] = 0 := rfl

@[simp] theorem memAsked_cons (k : Nat) (a : Action) (s : List Action) :
    memAsked k (a :: s) = a.memFor k + memAsked k s := by
  simp [memAsked]

@[simp] theorem memAsked_append (k : Nat) (s s' : List Action) :
    memAsked k (s ++ s') = memAsked k s + memAsked k s' := by
  simp [memAsked, List.sum_append]

/-- An action publishes entry `ze` on slot `k`: it sends it, or starts a worker that sends it. -/
def Action.Publishes (env : Env) (level : Int) (a : Action) (k : Nat) (ze : ZipEntry) : Prop :=
  a = .sendEntry k ze ∨ ∃ t, a = .spawn t ∧ .sendEntry k ze ∈ taskScript env level t

/-- Every action of the script that publishes an entry comes after the memory asked for it. -/
def AsksFirst (env : Env) (level : Int) : List Action → Prop
  | [] => True
  | a :: rest => (∀ k ze, a.Publishes env level k ze → memAsked k rest = 0) ∧ AsksFirst env level rest

section Memory

variable {env : Env} {level : Int}

theorem AsksFirst.append {b rest : List Action} (hb : AsksFirst env level b)
    (hr : AsksFirst env level rest)
    (hsep : ∀ a ∈ b, ∀ k ze, a.Publishes env level k ze → memAsked k rest = 0) :
    AsksFirst env level (b ++ rest) := by
  induction b with
  | nil => exact hr
  | cons a b ih =>
    rw [List.cons_append]
    refine ⟨fun k ze hp => ?_, ih hb.2 fun a' ha' => hsep a' (List.mem_cons_of_mem _ ha')⟩
    rw [memAsked_append, hb.1 k ze hp, hsep a (List.mem_cons_self _ _) k ze hp]

theorem AsksFirst.of_silent {s : List Action} (h : ∀ a ∈ s, ∀ k ze, ¬a.Publishes env level k ze) :
    AsksFirst env level s := by
  induction s with
  | nil => trivial
  | cons a s ih => exact ⟨fun k ze hp => absurd hp (h a (List.mem_cons_self _ _) k ze),
      ih fun a ha => h a (List.mem_cons_of_mem _ ha)⟩

theorem memAsked_eq_zero {k : Nat} {s : List Action} (h : ∀ a ∈ s, a.memFor k = 0) :
    memAsked k s = 0 := by
  induction s with
  | nil => rfl
  | cons a s ih =>
    rw [memAsked_cons, h a (List.mem_cons_self _ _), ih fun a ha => h a (List.mem_cons_of_mem _ ha)]

/-- A CRC or whole-file worker publishes only its own entry, with the allocated size it was
started with; a block worker publishes nothing. -/
theorem taskScript_publishes {t : Task} {k : Nat} {ze : ZipEntry}
    (h : .sendEntry k ze ∈ taskScript env level t) :
    ∃ r ze₀, (t = .crcFile k r ze₀ ∨ t = .compressWholeFile k ze₀ r) ∧
      ze.allocatedSize = ze₀.allocatedSize := by
  cases t with
  | crcFile k' r ze₀ =>
    rcases crcFile_cases env k' r ze₀ with ⟨e, hc⟩ | hc <;> simp [taskScript, hc] at h
    obtain ⟨rfl, rfl⟩ := h
    exact ⟨r, ze₀, .inl rfl, rfl⟩
  | compressPartialFile k' j r start dict last =>
    rcases compressPartialFile_cases env level k' j r start dict last with ⟨e, hc⟩ | ⟨d, hc⟩ <;>
      simp [taskScript, hc] at h
  | compressWholeFile k' ze₀ r =>
    rcases compressWholeFile_cases env level k' ze₀ r with ⟨e, hc⟩ | ⟨e, hc⟩ | ⟨fh, d, hc, -⟩ <;>
      simp [taskScript, hc, wholeFileTail] at h
    obtain ⟨rfl, rfl⟩ := h
    exact ⟨r, ze₀, .inr rfl, rfl⟩

theorem Loop.memory (env : Env) (level : Int) {k j : Nat} {acts : List Action} {err : Option GoError}
    (h : Loop k j acts err) :
    (∀ k', memAsked k' acts = 0) ∧ ∀ a ∈ acts, ∀ k' ze, ¬a.Publishes env level k' ze := by
  induction h with
  | done => simp
  | fail => simp [Action.memFor, Action.Publishes]
  | next _ _ _ _ _ _ ih =>
    refine ⟨fun k' => by simp [Action.memFor, ih.1 k'], fun a ha k' ze hp => ?_⟩
    rcases List.mem_cons.mp ha with rfl | ha
    · simp [Action.Publishes] at hp
    rcases List.mem_cons.mp ha with rfl | ha
    · simp [Action.Publishes] at hp
    rcases List.mem_cons.mp ha with rfl | ha
    · obtain ⟨r, ze₀, ht, -⟩ := taskScript_publishes (by simpa [Action.Publishes] using hp)
      rcases ht with ht | ht <;> cases ht
    · exact ih.2 a ha k' ze hp

/-- The memory facts of a block for entry `k`: it publishes only entry `k`, after asking its
memory, and the entry carries that amount. -/
structure BlockMemory (env : Env) (level : Int) (k : Nat) (b : List Action) : Prop where
  asksFirst : AsksFirst env level b
  others : ∀ k', k' ≠ k → memAsked k' b = 0
  publishes : ∀ a ∈ b, ∀ k' ze, a.Publishes env level k' ze → k' = k ∧ ze.allocatedSize = memAsked k b

theorem split_memory (env : Env) (level : Int) {k : Nat} (ze : ZipEntry) (r : Source) (cap : Nat)
    {loop : List Action} {err : Option GoError} (hl : Loop k 0 loop err) (tail : List Action)
    (ht : tail = [] ∨ tail = [.closeReaders k]) :
    BlockMemory env level k (splitHead k ze r cap ++ loop ++ tail) := by
  obtain ⟨hm, hp⟩ := hl.memory env level
  have htail : (∀ k', memAsked k' tail = 0) ∧ ∀ a ∈ tail, ∀ k' ze, ¬a.Publishes env level k' ze := by
    rcases ht with rfl | rfl <;> simp [Action.memFor, Action.Publishes]
  have hcrc : ∀ k' ze', .sendEntry k' ze' ∈ taskScript env level (.crcFile k r ze) →
      k' = k ∧ ze'.allocatedSize = ze.allocatedSize := by
    intro k' ze' h
    obtain ⟨r', ze₀, ht, hs⟩ := taskScript_publishes h
    rcases ht with ht | ht <;> cases ht
    exact ⟨rfl, hs⟩
  have hafter : AsksFirst env level (loop ++ tail) := AsksFirst.of_silent fun a ha k' ze h =>
    (List.mem_append.mp ha).elim (fun ha => hp a ha k' ze h) (fun ha => htail.2 a ha k' ze h)
  refine ⟨?_, fun k' hk => ?_, fun a ha k' ze' h => ?_⟩
  · rw [List.append_assoc]
    refine ⟨by simp [Action.Publishes], by simp [Action.Publishes], by simp [Action.Publishes],
      by simp [Action.Publishes], fun k' ze' h => ?_, hafter⟩
    rw [(hcrc k' ze' (by simpa [Action.Publishes] using h)).1]
    show memAsked k (loop ++ tail) = 0
    rw [memAsked_append, hm, htail.1]
  · simp [splitHead, Action.memFor, hm, htail.1, Ne.symm hk]
  · simp only [List.mem_append] at ha
    rcases ha with (ha | ha) | ha
    · simp only [splitHead, List.mem_cons, List.mem_singleton, List.not_mem_nil, or_false] at ha
      rcases ha with rfl | rfl | rfl | rfl | rfl <;> simp [Action.Publishes] at h
      obtain ⟨rfl, hs⟩ := hcrc k' ze' h
      simp [splitHead, Action.memFor, hm, htail.1, hs]
    · exact absurd h (hp a ha k' ze')
    · exact absurd h (htail.2 a ha k' ze')

theorem Block.memory {k : Nat} {b : List Action} (h : Block k b) : BlockMemory env level k b := by
  cases h with
  | dir ze _ hz =>
    refine ⟨?_, fun k' _ => by simp [Action.memFor], fun a ha k' ze' hp => ?_⟩
    · simp [AsksFirst, Action.Publishes, Action.memFor]
    · simp only [List.mem_cons, List.mem_singleton, List.not_mem_nil, or_false] at ha
      rcases ha with rfl | rfl | rfl <;> simp [Action.Publishes] at hp
      obtain ⟨rfl, rfl⟩ := hp
      simp [Action.memFor, hz]
  | symlink ze d _ hz =>
    refine ⟨?_, fun k' _ => by simp [Action.memFor], fun a ha k' ze' hp => ?_⟩
    · simp [AsksFirst, Action.Publishes, Action.memFor]
    · simp only [List.mem_cons, List.mem_singleton, List.not_mem_nil, or_false] at ha
      rcases ha with rfl | rfl | rfl | rfl | rfl | rfl | rfl | rfl <;> simp [Action.Publishes] at hp
      obtain ⟨rfl, rfl⟩ := hp
      simp [Action.memFor, hz]
  | whole ze r =>
    have hw : ∀ k' ze', .sendEntry k' ze' ∈ taskScript env level (.compressWholeFile k ze r) →
        k' = k ∧ ze'.allocatedSize = ze.allocatedSize := by
      intro k' ze' h
      obtain ⟨r', ze₀, ht, hs⟩ := taskScript_publishes h
      rcases ht with ht | ht <;> cases ht
      exact ⟨rfl, hs⟩
    refine ⟨⟨by simp [Action.Publishes], by simp [Action.Publishes], by simp [Action.Publishes],
      fun _ _ _ => rfl, trivial⟩, fun k' hk => by simp [Action.memFor, Ne.symm hk],
      fun a ha k' ze' hp => ?_⟩
    simp only [List.mem_cons, List.mem_singleton, List.not_mem_nil, or_false] at ha
    rcases ha with rfl | rfl | rfl | rfl <;> simp [Action.Publishes] at hp
    obtain ⟨rfl, hs⟩ := hw k' ze' hp
    simp [Action.memFor, hs]
  | split ze r cap _ hl => exact split_memory env level ze r cap hl _ (.inr rfl)

theorem FailedSplit.memory {k : Nat} {f : List Action} (h : FailedSplit k f) :
    BlockMemory env level k f := by
  cases h with
  | mk ze r cap e _ hl => simpa using split_memory env level ze r cap hl [] (.inl rfl)

/-- The memory facts of the producer's script from entry `k` on: it asks memory before it
publishes, only for its own entries, each of which it pushes on `z.writeOps`, and each entry
carries the memory asked for it. -/
structure ScriptMemory (env : Env) (level : Int) (k : Nat) (P : List Action) : Prop where
  asksFirst : AsksFirst env level P
  before : ∀ k' < k, memAsked k' P = 0
  publishes : ∀ a ∈ P, ∀ k' ze, a.Publishes env level k' ze →
    k ≤ k' ∧ ze.allocatedSize = memAsked k' P
  slots : ∀ k', memAsked k' P ≠ 0 → Msg.op k' ∈ sendsOf (opsOn .writeOps P)

theorem ScriptMemory.ending {k : Nat} {s : List Action} (hm : ∀ a ∈ s, ∀ k', a.memFor k' = 0)
    (hp : ∀ a ∈ s, ∀ k' ze, ¬a.Publishes env level k' ze) : ScriptMemory env level k s where
  asksFirst := by
    induction s with
    | nil => trivial
    | cons a s ih => exact ⟨fun k' ze h => absurd h (hp a (List.mem_cons_self _ _) k' ze),
        ih (fun a ha => hm a (List.mem_cons_of_mem _ ha)) fun a ha => hp a (List.mem_cons_of_mem _ ha)⟩
  before k' _ := memAsked_eq_zero fun a ha => hm a ha k'
  publishes a ha k' ze h := absurd h (hp a ha k' ze)
  slots k' h := absurd (memAsked_eq_zero fun a ha => hm a ha k') h

theorem ScriptMemory.block {k : Nat} {b rest : List Action} (hb : BlockMemory env level k b)
    (hslot : sendsOf (opsOn .writeOps b) = [.op k]) (hr : ScriptMemory env level (k + 1) rest) :
    ScriptMemory env level k (b ++ rest) where
  asksFirst := hb.asksFirst.append hr.asksFirst fun a ha k' ze h => by
    rw [(hb.publishes a ha k' ze h).1]
    exact hr.before k (by omega)
  before k' hk := by rw [memAsked_append, hb.others k' (by omega), hr.before k' (by omega)]
  publishes a ha k' ze h := by
    rcases List.mem_append.mp ha with ha | ha
    · obtain ⟨rfl, hs⟩ := hb.publishes a ha k' ze h
      rw [memAsked_append, hr.before k' (by omega), ← hs]
      exact ⟨le_rfl, rfl⟩
    · obtain ⟨hle, hs⟩ := hr.publishes a ha k' ze h
      rw [memAsked_append, hb.others k' (by omega), hs]
      exact ⟨by omega, by omega⟩
  slots k' h := by
    rw [opsOn_append, sendsOf_append, hslot]
    rw [memAsked_append] at h
    by_cases hk : k' = k
    · exact hk ▸ List.mem_cons_self _ _
    · exact List.mem_cons_of_mem _ (hr.slots k' (by rwa [hb.others k' hk, Nat.zero_add] at h))

theorem Script.memory {k : Nat} {P : List Action} (h : Script k P) : ScriptMemory env level k P := by
  induction h with
  | done | fail | hang => exact .ending (by simp [Action.memFor]) (by simp [Action.Publishes])
  | @failSplit k f e hf =>
    have hslot : sendsOf (opsOn .writeOps f) = [.op k] := by
      cases hf with
      | mk ze r cap e _ hl =>
        rw [opsOn_append, hl.silent (by simp)]
        simp [splitHead, opsOn, Action.opOn, Action.chanOp?, sendsOf, ChanOp.msg?]
    exact .block hf.memory hslot (.ending (by simp [Action.memFor]) (by simp [Action.Publishes]))
  | block hb _ ih => exact .block hb.memory hb.slots ih

end Memory

/-! ### The permits and memory of each entry -/

/-- The entry a worker works for. -/
def Task.entry : Task → Nat
  | .crcFile k _ _ => k
  | .compressPartialFile k _ _ _ _ _ => k
  | .compressWholeFile k _ _ => k

/-- The workers a script starts for entry `k`, in order. -/
def tasksFor (k : Nat) (s : List Action) : List Task :=
  (s.filterMap Action.task?).filter (·.entry = k)

/-- The size an action asks of `z.memoryRateLimiter` for entry `k`, if it asks. -/
def Action.memRequest? (k : Nat) : Action → Option Nat
  | .memRequest k' n => if k' = k then some n else none
  | _ => none

/-- The sizes a script asks of `z.memoryRateLimiter` for entry `k`, in order. -/
def memRequests (k : Nat) (s : List Action) : List Nat := s.filterMap (Action.memRequest? k)

/-- The workers started for one entry: none for a directory or a symlink, one
`compressWholeFile` for an entry compressed in one piece, or a `crcFile` and one
`compressPartialFile` per block of the file for a split entry. -/
inductive EntryTasks (k : Nat) : List Task → Prop
  | none : EntryTasks k []
  | whole (ze : ZipEntry) (r : Source) : EntryTasks k [.compressWholeFile k ze r]
  | split (r : Source) (ze : ZipEntry) {parts : List Task} :
      parts.length = blockCount ze.fh.fileSize →
      (∀ t ∈ parts, ∃ j r' start dict last, t = .compressPartialFile k j r' start dict last) →
      EntryTasks k (.crcFile k r ze :: parts)

/-- What the producer's script does with the rate limiters for entry `k`: it starts the workers
of `EntryTasks` for it, makes one `Request` for each, and asks memory for it once, when it starts
workers for it. -/
structure EntryPlan (k : Nat) (P : List Action) : Prop where
  tasks : EntryTasks k (tasksFor k P)
  requests : P.count (.cpuRequest k) = (tasksFor k P).length
  memory : memRequests k P = if tasksFor k P = [] then [] else [memAsked k P]

/-- A script that starts no worker, makes no `Request` and asks no memory for entry `k`. -/
structure Idle (k : Nat) (s : List Action) : Prop where
  tasks : tasksFor k s = []
  requests : s.count (.cpuRequest k) = 0
  memory : memRequests k s = []

section Entries

variable {env : Env} {level : Int} {k : Nat}

@[simp] theorem tasksFor_append (s s' : List Action) :
    tasksFor k (s ++ s') = tasksFor k s ++ tasksFor k s' := by
  simp [tasksFor, List.filter_append]

@[simp] theorem memRequests_append (s s' : List Action) :
    memRequests k (s ++ s') = memRequests k s ++ memRequests k s' := by
  simp [memRequests]

@[simp] theorem tasksFor_nil : tasksFor k [] = [] := rfl

@[simp] theorem memRequests_nil : memRequests k [] = [] := rfl

@[simp] theorem tasksFor_cons (a : Action) (s : List Action) :
    tasksFor k (a :: s) = (a.task?.toList.filter (·.entry = k)) ++ tasksFor k s := by
  cases h : a.task? with
  | none => simp [tasksFor, h]
  | some t => by_cases ht : t.entry = k <;> simp [tasksFor, h, List.filter_cons, ht]

@[simp] theorem memRequests_cons (a : Action) (s : List Action) :
    memRequests k (a :: s) = (a.memRequest? k).toList ++ memRequests k s := by
  cases h : a.memRequest? k <;> simp [memRequests, h]

theorem memAsked_eq_sum (s : List Action) : memAsked k s = (memRequests k s).sum := by
  induction s with
  | nil => rfl
  | cons a s ih =>
    rw [memAsked_cons, ih]
    cases a with
    | memRequest k' n => by_cases h : k' = k <;> simp [memRequests, Action.memRequest?, Action.memFor, h]
    | _ => simp [memRequests, Action.memRequest?, Action.memFor]

theorem Idle.append {s s' : List Action} (h : Idle k s) (h' : Idle k s') : Idle k (s ++ s') :=
  ⟨by simp [h.tasks, h'.tasks], by simp [h.requests, h'.requests], by simp [h.memory, h'.memory]⟩

theorem Idle.memAsked {s : List Action} (h : Idle k s) : memAsked k s = 0 := by
  rw [memAsked_eq_sum, h.memory, List.sum_nil]

theorem EntryPlan.append_idle {b s : List Action} (h : EntryPlan k b) (h' : Idle k s) :
    EntryPlan k (b ++ s) where
  tasks := by simpa [h'.tasks] using h.tasks
  requests := by simp [h'.tasks, h'.requests, h.requests]
  memory := by simp [h'.tasks, h'.memory, h'.memAsked, h.memory]

theorem Idle.append_plan {b s : List Action} (h : Idle k b) (h' : EntryPlan k s) :
    EntryPlan k (b ++ s) where
  tasks := by simpa [h.tasks] using h'.tasks
  requests := by simp [h.tasks, h.requests, h'.requests]
  memory := by simp [h.tasks, h.memory, h.memAsked, h'.memory]

/-- The start of a split entry does nothing with the rate limiters for another entry. -/
theorem splitHead_idle (ze : ZipEntry) (r : Source) (cap : Nat) {k' : Nat} (hk : k' ≠ k) :
    Idle k' (splitHead k ze r cap) :=
  ⟨by simp [splitHead, Action.task?, Task.entry, Ne.symm hk],
    by simp [splitHead, List.count_cons, Ne.symm hk], by simp [splitHead, Action.memRequest?, Ne.symm hk]⟩

/-- The block loop of entry `k` does nothing with the rate limiters for another entry and asks
no memory; its workers are block workers, and when no window read fails it makes one `Request`
per worker. -/
theorem Loop.plan {j : Nat} {acts : List Action} {err : Option GoError} (h : Loop k j acts err) :
    (∀ k', k' ≠ k → Idle k' acts) ∧ memRequests k acts = [] ∧
      (err = none → acts.count (.cpuRequest k) = (tasksFor k acts).length) ∧
      ∀ t ∈ tasksFor k acts, ∃ j r start dict last, t = .compressPartialFile k j r start dict last := by
  induction h with
  | done => exact ⟨fun _ _ => ⟨rfl, rfl, rfl⟩, rfl, fun _ => rfl, by simp [tasksFor]⟩
  | fail =>
    exact ⟨fun k' hk => ⟨by simp [Action.task?], by simp [List.count_cons, Ne.symm hk],
      by simp [Action.memRequest?]⟩, by simp [Action.memRequest?], nofun, by simp [Action.task?]⟩
  | @next j r start dict last acts err _ ih =>
    obtain ⟨hidle, hmem, hcount, hparts⟩ := ih
    have ht : tasksFor k (.sendReader k j :: .cpuRequest k ::
        .spawn (.compressPartialFile k j r start dict last) :: acts) =
        .compressPartialFile k j r start dict last :: tasksFor k acts := by
      simp [Action.task?, Task.entry]
    refine ⟨fun k' hk => ?_, by simpa [Action.memRequest?] using hmem,
      fun he => by simpa [ht, List.count_cons] using hcount he,
      ht ▸ List.forall_mem_cons.mpr ⟨⟨j, r, start, dict, last, rfl⟩, hparts⟩⟩
    have := hidle k' hk
    exact ⟨by simpa [Action.task?, Task.entry, Ne.symm hk] using this.tasks,
      by simpa [List.count_cons, Ne.symm hk] using this.requests,
      by simpa [Action.memRequest?] using this.memory⟩

/-- A block starts the workers of `EntryTasks` for its own entry, one `Request` each, asks the
memory of a file entry once, and does nothing with the rate limiters for another entry. -/
theorem Block.plan {b : List Action} (h : Block k b) : EntryPlan k b ∧ ∀ k', k' ≠ k → Idle k' b := by
  cases h with
  | dir | symlink =>
    exact ⟨⟨by simpa [Action.task?] using EntryTasks.none, by simp [Action.task?, List.count_cons],
      by simp [Action.task?, Action.memRequest?]⟩,
      fun _ _ => ⟨by simp [Action.task?], by simp [List.count_cons], by simp [Action.memRequest?]⟩⟩
  | whole ze r =>
    exact ⟨⟨by simpa [Action.task?, Task.entry] using EntryTasks.whole ze r,
      by simp [Action.task?, Task.entry, List.count_cons],
      by simp [Action.task?, Action.memRequest?, Task.entry, Action.memFor]⟩,
      fun k' hk => ⟨by simp [Action.task?, Task.entry, Ne.symm hk],
        by simp [List.count_cons, Ne.symm hk], by simp [Action.memRequest?, Ne.symm hk]⟩⟩
  | @split ze r cap loop _ hl hn =>
    obtain ⟨hidle, hmem, hcount, hparts⟩ := hl.plan
    have ht : tasksFor k (splitHead k ze r cap ++ loop ++ [.closeReaders k]) =
        .crcFile k r ze :: tasksFor k loop := by
      simp [splitHead, Action.task?, Task.entry]
    have hm : memAsked k loop = 0 := by rw [memAsked_eq_sum, hmem, List.sum_nil]
    refine ⟨⟨ht ▸ .split r ze (by rw [← hcount rfl, hn]) hparts, ?_, ?_⟩, fun k' hk => ?_⟩
    · rw [ht]
      simp [splitHead, List.count_cons, hcount rfl]
    · rw [ht]
      simp [splitHead, hmem, hm, Action.memRequest?, Action.memFor]
    · exact ((splitHead_idle ze r cap hk).append (hidle k' hk)).append
        ⟨rfl, by simp [List.count_cons], rfl⟩

/-- A split entry cut short does nothing with the rate limiters for another entry. -/
theorem FailedSplit.idle {f : List Action} (h : FailedSplit k f) {k' : Nat} (hk : k' ≠ k) :
    Idle k' f := by
  cases h with
  | mk ze r cap e _ hl => exact (splitHead_idle ze r cap hk).append (hl.plan.1 k' hk)

/-- The script from entry `k` on does nothing with the rate limiters for an earlier entry. -/
theorem Script.idle_before {P : List Action} (h : Script k P) {k' : Nat} (hk : k' < k) :
    Idle k' P := by
  have hend : ∀ e, Idle k' [.sendError e, .closeWriteOps] := fun _ => ⟨rfl, by simp [List.count_cons], rfl⟩
  induction h with
  | done | hang => exact ⟨rfl, by simp [List.count_cons], rfl⟩
  | fail _ e => exact hend e
  | failSplit _ e hf => exact (hf.idle (by omega)).append (hend e)
  | block hb _ ih => exact (hb.plan.2 k' (by omega)).append (ih (by omega))

/-- In a run whose channels of entries from `k` on carry what the script and its workers send
and whose slots all deliver, the script does for each entry it pushes what `EntryPlan` says. -/
theorem Script.plan {P : List Action} (h : Script k P) {S : ChanName → List Msg}
    (hS : ∀ ch k', ch.index? = some k' → k ≤ k' → S ch = sendsIn env level P ch)
    (hown : ∀ k' ze, entryOf S k' = some ze → ze.futureReaders = none ∨ ze.futureReaders = some k')
    (hd : ∀ k', Msg.op k' ∈ sendsOf (opsOn .writeOps P) → Delivered S k') :
    ∀ k', Msg.op k' ∈ sendsOf (opsOn .writeOps P) → EntryPlan k' P := by
  induction h with
  | done | fail | hang => simp [opsOn, Action.opOn, Action.chanOp?, sendsOf, ChanOp.msg?]
  | @failSplit k f e hf => exact (hf.not_all_delivered e hS hown hd).elim
  | @block k b rest hb hr ih =>
    obtain ⟨-, hS', hd'⟩ := hb.deliveries hr hS hown hd
    intro k' hk'
    by_cases hkk : k' = k
    · subst hkk
      exact hb.plan.1.append_idle (hr.idle_before (Nat.lt_succ_self _))
    · rw [opsOn_append, sendsOf_append, hb.slots, List.singleton_append, List.mem_cons,
        Msg.op.injEq] at hk'
      exact (hb.plan.2 k' hkk).append_plan (ih hS' hd' k' (hk'.resolve_left hkk))

end Entries

end SoongZip
