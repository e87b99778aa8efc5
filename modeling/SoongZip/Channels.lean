import SoongZip.Entries

/-!
# The channel discipline of a run

Every data channel of `write` — `z.writeOps`, each entry's slot, its `futureReaders` and each
reader slot — is sent on and closed by one goroutine only, which closes it at most once and
after its last send. A run therefore never sends on or closes a closed data channel, and the
values each channel carries are fixed by the scripts the run starts from: what a channel has
carried so far, followed by what its owner has still to send, is always the same list.

The scripts still to run are those of the producer, of the workers it has still to start and of
the workers running (`Config.pending`); a step advances one of them by its first operation.
-/

namespace SoongZip

/-- A value on one of the data channels. -/
inductive Msg where
  | op (k : Nat)
  | entry (ze : ZipEntry)
  | reader (j : Nat)
  | data (d : List UInt8)
  deriving DecidableEq, Repr

/-- What an operation does to a data channel. -/
inductive ChanOp where
  | send (m : Msg)
  | close
  deriving DecidableEq, Repr

/-- The value a channel operation sends. -/
def ChanOp.msg? : ChanOp → Option Msg
  | .send m => some m
  | .close => none

namespace Action

/-- The data channel an operation sends on or closes, and how. -/
def chanOp? : Action → Option (ChanName × ChanOp)
  | .sendWriteOp k => some (.writeOps, .send (.op k))
  | .closeWriteOps => some (.writeOps, .close)
  | .sendEntry k ze => some (.entry k, .send (.entry ze))
  | .closeEntry k => some (.entry k, .close)
  | .sendReader k j => some (.readers k, .send (.reader j))
  | .closeReaders k => some (.readers k, .close)
  | .sendData k j d => some (.data k j, .send (.data d))
  | .closeData k j => some (.data k j, .close)
  | _ => none

/-- What an operation does to channel `ch`. -/
def opOn (ch : ChanName) (a : Action) : Option ChanOp :=
  match a.chanOp? with
  | some (ch', op) => if ch' = ch then some op else none
  | none => none

/-- The task an operation starts. -/
def task? : Action → Option Task
  | .spawn t => some t
  | _ => none

/-- `z.errors <- err`. -/
def isSendError : Action → Bool
  | .sendError _ => true
  | _ => false

end Action

/-- The operations of a script on channel `ch`, in order. -/
def opsOn (ch : ChanName) (s : List Action) : List ChanOp := s.filterMap (Action.opOn ch)

/-- The values a list of channel operations sends. -/
def sendsOf (ops : List ChanOp) : List Msg := ops.filterMap ChanOp.msg?

@[simp] theorem opsOn_nil (ch : ChanName) : opsOn ch [] = [] := rfl

@[simp] theorem opsOn_append (ch : ChanName) (s s' : List Action) :
    opsOn ch (s ++ s') = opsOn ch s ++ opsOn ch s' := List.filterMap_append _ _ _

@[simp] theorem sendsOf_nil : sendsOf [] = [] := rfl

@[simp] theorem sendsOf_append (o o' : List ChanOp) : sendsOf (o ++ o') = sendsOf o ++ sendsOf o' :=
  List.filterMap_append _ _ _

@[simp] theorem sendsOf_send (m : Msg) (o : List ChanOp) : sendsOf (.send m :: o) = m :: sendsOf o :=
  rfl

@[simp] theorem sendsOf_close (o : List ChanOp) : sendsOf (.close :: o) = sendsOf o := rfl

theorem opsOn_cons (ch : ChanName) (a : Action) (s : List Action) :
    opsOn ch (a :: s) = (a.opOn ch).toList ++ opsOn ch s := by
  cases h : a.opOn ch <;> simp [opsOn, List.filterMap_cons, h]

theorem opsOn_cons_of_ne {ch ch' : ChanName} {a : Action} {op : ChanOp}
    (ha : a.chanOp? = some (ch', op)) (hne : ch' ≠ ch) (s : List Action) :
    opsOn ch (a :: s) = opsOn ch s := by
  simp [opsOn_cons, Action.opOn, ha, hne]

theorem opsOn_cons_self {ch : ChanName} {a : Action} {op : ChanOp}
    (ha : a.chanOp? = some (ch, op)) (s : List Action) : opsOn ch (a :: s) = op :: opsOn ch s := by
  simp [opsOn_cons, Action.opOn, ha]

theorem opsOn_cons_of_none {a : Action} (ha : a.chanOp? = none) (ch : ChanName) (s : List Action) :
    opsOn ch (a :: s) = opsOn ch s := by
  simp [opsOn_cons, Action.opOn, ha]

/-! ### Scripts that share no channel -/

/-- At most one of two scripts operates on `ch`. -/
def Apart (ch : ChanName) (s s' : List Action) : Prop := opsOn ch s = [] ∨ opsOn ch s' = []

theorem Apart.symm {ch : ChanName} {s s' : List Action} (h : Apart ch s s') : Apart ch s' s :=
  Or.symm h

/-- Scripts of which at most one operates on `ch` may be run in any order: the operations on
`ch` are the same. -/
theorem flatMap_opsOn_perm {ch : ChanName} {P P' : List (List Action)} (hp : P.Perm P')
    (h : P.Pairwise (Apart ch)) : P.flatMap (opsOn ch) = P'.flatMap (opsOn ch) := by
  induction hp with
  | nil => rfl
  | cons s _ ih => simp only [List.flatMap_cons, ih (List.pairwise_cons.mp h).2]
  | swap s s' Q =>
    have hss : Apart ch s' s := (List.pairwise_cons.mp h).1 s (List.mem_cons_self _ _)
    rcases hss with hs | hs <;> simp [hs]
  | trans h₁ _ ih₁ ih₂ =>
    exact (ih₁ h).trans (ih₂ (h₁.pairwise h fun hab => hab.symm))

/-- The operations on `ch` of all scripts are those of one script that has some. -/
theorem flatMap_opsOn_of_owner {ch : ChanName} {s : List Action} {Q : List (List Action)}
    (h : (s :: Q).Pairwise (Apart ch)) (hs : opsOn ch s ≠ []) : Q.flatMap (opsOn ch) = [] := by
  refine List.flatMap_eq_nil_iff.mpr fun s' hs' => ?_
  exact ((List.pairwise_cons.mp h).1 s' hs').resolve_left hs

theorem opsOn_eq_nil_of_cons {ch : ChanName} {a : Action} {s : List Action}
    (h : opsOn ch (a :: s) = []) : opsOn ch s = [] := by
  rw [opsOn_cons] at h
  exact (List.append_eq_nil.mp h).2

/-! ### The discipline -/

/-- An entry slot or a reader slot: its owner closes it only after sending its value. -/
def ChanName.carriesValue : ChanName → Bool
  | .entry _ => true
  | .data _ _ => true
  | _ => false

/-- Whether an operation sends on a data channel. -/
def Action.isSend (a : Action) : Bool :=
  match a.chanOp? with
  | some (_, .send _) => true
  | _ => false

/-- What a channel operation does to the channel. -/
def ChanOp.apply : ChanOp → Chan Msg → Chan Msg
  | .send m, c => c.send m
  | .close, c => c.close

/-- The channels after operation `a`. -/
def Action.applyTo (a : Action) (V : ChanName → Chan Msg) (ch : ChanName) : Chan Msg :=
  match a.opOn ch with
  | some op => op.apply (V ch)
  | none => V ch

/-- The discipline of the scripts `P` still to run over channels `V`, for the values `S` each
channel carries in the whole run: the values sent so far and those still to send make up
`S`; at most one script operates on a channel; it closes the channel last; a closed channel
has no operation left; a script sends and starts nothing after `z.errors <- err`; and an
entry or reader slot that is or will be closed carries a value. -/
structure Disciplined (S : ChanName → List Msg) (V : ChanName → Chan Msg)
    (P : List (List Action)) : Prop where
  history : ∀ ch, (V ch).sent ++ sendsOf (P.flatMap (opsOn ch)) = S ch
  owned : ∀ ch, P.Pairwise (Apart ch)
  closeLast : ∀ ch, ∀ s ∈ P, ChanOp.close ∉ (opsOn ch s).dropLast
  closedDone : ∀ ch, (V ch).closed → P.flatMap (opsOn ch) = []
  quietAfterError : ∀ s ∈ P, ∀ a ∈ s.dropWhile (fun a => !a.isSendError),
    a.isSend = false ∧ a.task? = none
  closeHasValue : ∀ ch, ch.carriesValue →
    (V ch).closed ∨ ChanOp.close ∈ P.flatMap (opsOn ch) → S ch ≠ []

namespace Disciplined

variable {S : ChanName → List Msg} {V : ChanName → Chan Msg} {P : List (List Action)}

/-- The scripts may be taken in any order. -/
theorem perm (h : Disciplined S V P) {P' : List (List Action)} (hp : P.Perm P') :
    Disciplined S V P' where
  history ch := by rw [← flatMap_opsOn_perm hp (h.owned ch)]; exact h.history ch
  owned ch := hp.pairwise (h.owned ch) Apart.symm
  closeLast ch s hs := h.closeLast ch s (hp.mem_iff.mpr hs)
  closedDone ch hc := by rw [← flatMap_opsOn_perm hp (h.owned ch)]; exact h.closedDone ch hc
  quietAfterError s hs := h.quietAfterError s (hp.mem_iff.mpr hs)
  closeHasValue ch hv := by rw [← flatMap_opsOn_perm hp (h.owned ch)]; exact h.closeHasValue ch hv

/-- Steps that only receive keep the discipline. -/
theorem of_sent_closed (h : Disciplined S V P) {V' : ChanName → Chan Msg}
    (hV : ∀ ch, (V' ch).sent = (V ch).sent ∧ (V' ch).closed = (V ch).closed) :
    Disciplined S V' P where
  history ch := by rw [(hV ch).1]; exact h.history ch
  owned := h.owned
  closeLast := h.closeLast
  closedDone ch hc := h.closedDone ch (by rwa [← (hV ch).2])
  quietAfterError := h.quietAfterError
  closeHasValue ch hv := by rw [(hV ch).2]; exact h.closeHasValue ch hv

theorem flatMap_opsOn_advance (ch : ChanName) (a : Action) (rest : List Action)
    (Q : List (List Action)) :
    ((a :: rest) :: Q).flatMap (opsOn ch) = (a.opOn ch).toList ++ (rest :: Q).flatMap (opsOn ch) := by
  simp [opsOn_cons]

theorem closed_applyTo {a : Action} {ch : ChanName} (h : (a.applyTo V ch).closed = true) :
    (V ch).closed = true ∨ a.opOn ch = some .close := by
  unfold Action.applyTo at h
  split at h
  · rename_i op hop
    cases op
    · exact .inl h
    · exact .inr hop
  · exact .inl h

theorem not_mem_dropLast_tail {o : ChanOp} {l : List ChanOp} (x : ChanOp)
    (h : o ∉ (x :: l).dropLast) : o ∉ l.dropLast := by
  cases l with
  | nil => simp
  | cons y l => exact fun hm => h (List.mem_cons_of_mem _ hm)

theorem sendsOf_opOn_of_not_send {a : Action} (ha : a.isSend = false) (ch : ChanName) :
    sendsOf (a.opOn ch).toList = [] := by
  unfold Action.isSend at ha
  unfold Action.opOn
  rcases hc : a.chanOp? with _ | ⟨ch', _ | _⟩
  · rfl
  · simp [hc] at ha
  · by_cases e : ch' = ch <;> simp [e, sendsOf, ChanOp.msg?]

theorem not_send_of_quiet {s : List Action} (h : ∀ a ∈ s, a.isSend = false) (ch : ChanName) :
    sendsOf (opsOn ch s) = [] := by
  induction s with
  | nil => rfl
  | cons a s ih =>
    rw [opsOn_cons, sendsOf_append, ih fun b hb => h b (List.mem_cons_of_mem _ hb),
      sendsOf_opOn_of_not_send (h a (List.mem_cons_self _ _))]
    rfl

variable {a : Action} {rest : List Action} {Q : List (List Action)}

/-- One script runs its first operation. -/
theorem advance (h : Disciplined S V ((a :: rest) :: Q)) : Disciplined S (a.applyTo V) (rest :: Q) where
  history ch := by
    have hh := h.history ch
    rw [flatMap_opsOn_advance] at hh
    unfold Action.applyTo
    cases hop : a.opOn ch with
    | none => simpa [hop] using hh
    | some op => cases op <;> simpa [hop, ChanOp.apply, Chan.send, Chan.close] using hh
  owned ch := by
    have ho := h.owned ch
    rw [List.pairwise_cons] at ho ⊢
    exact ⟨fun s hs => (ho.1 s hs).imp_left opsOn_eq_nil_of_cons, ho.2⟩
  closeLast ch s hs := by
    rcases List.mem_cons.mp hs with rfl | hs
    · have hl := h.closeLast ch _ (List.mem_cons_self _ _)
      rw [opsOn_cons] at hl
      cases hop : a.opOn ch with
      | none => simpa [hop] using hl
      | some op => exact not_mem_dropLast_tail op (by simpa [hop] using hl)
    · exact h.closeLast ch s (List.mem_cons_of_mem _ hs)
  closedDone ch hc := by
    have hold := flatMap_opsOn_advance ch a rest Q
    rcases closed_applyTo hc with hc | hop
    · have hnil := h.closedDone ch hc
      rw [hold] at hnil
      exact (List.append_eq_nil.mp hnil).2
    · have hQ := flatMap_opsOn_of_owner (h.owned ch) (by simp [opsOn_cons, hop])
      have hl := h.closeLast ch _ (List.mem_cons_self _ _)
      simp only [opsOn_cons, hop, Option.toList_some, List.singleton_append] at hl
      have hrest : opsOn ch rest = [] := by
        by_contra hne
        exact hl (by simp [List.dropLast_cons_of_ne_nil hne])
      simp [hQ, hrest]
  quietAfterError s hs := by
    rcases List.mem_cons.mp hs with rfl | hs
    · have hq := h.quietAfterError _ (List.mem_cons_self _ _)
      cases he : a.isSendError
      · simpa [List.dropWhile_cons, he] using hq
      · intro b hb
        exact hq b (by simpa [List.dropWhile_cons, he] using
          List.mem_cons_of_mem a ((List.dropWhile_suffix _).subset hb))
    · exact h.quietAfterError s (List.mem_cons_of_mem _ hs)
  closeHasValue ch hv hcl := by
    refine h.closeHasValue ch hv ?_
    rw [flatMap_opsOn_advance]
    rcases hcl with hc | hc
    · rcases closed_applyTo hc with hc | hop
      · exact .inl hc
      · exact .inr (by simp [hop])
    · exact .inr (List.mem_append_right _ hc)

/-- A script that panics on `z.errors <- err` drops the rest of its operations, and none of
them is a send. -/
theorem drop (h : Disciplined S V ((a :: rest) :: Q)) (ha : a.isSendError = true) :
    Disciplined S V ([] :: Q) where
  history ch := by
    have hq : ∀ b ∈ a :: rest, b.isSend = false := fun b hb =>
      (h.quietAfterError _ (List.mem_cons_self _ _) b (by simpa [List.dropWhile_cons, ha] using hb)).1
    have hh := h.history ch
    rw [List.flatMap_cons, sendsOf_append, not_send_of_quiet hq, List.nil_append] at hh
    simpa using hh
  owned ch := List.pairwise_cons.mpr ⟨fun _ _ => .inl rfl, (List.pairwise_cons.mp (h.owned ch)).2⟩
  closeLast ch s hs := by
    rcases List.mem_cons.mp hs with rfl | hs
    · simp
    · exact h.closeLast ch s (List.mem_cons_of_mem _ hs)
  closedDone ch hc := by
    have hnil := h.closedDone ch hc
    rw [List.flatMap_cons] at hnil
    simpa using (List.append_eq_nil.mp hnil).2
  quietAfterError s hs := by
    rcases List.mem_cons.mp hs with rfl | hs
    · simp
    · exact h.quietAfterError s (List.mem_cons_of_mem _ hs)
  closeHasValue ch hv hcl := by
    refine h.closeHasValue ch hv (hcl.imp_right fun hc => ?_)
    rw [List.flatMap_cons] at hc ⊢
    exact List.mem_append_right _ (by simpa using hc)

end Disciplined

/-! ### The channels and scripts of a configuration -/

/-- A channel of values `α` as a channel of messages. -/
def Chan.map {α β : Type} (f : α → β) (c : Chan α) : Chan β := ⟨c.sent.map f, c.taken, c.closed⟩

@[simp] theorem Chan.map_send {α β : Type} (f : α → β) (c : Chan α) (v : α) :
    (c.send v).map f = (c.map f).send (f v) := by
  simp [Chan.map, Chan.send]

@[simp] theorem Chan.map_close {α β : Type} (f : α → β) (c : Chan α) :
    c.close.map f = (c.map f).close := rfl

/-- The data channels of a configuration (`z.errors`, kept apart, as an unused channel). -/
def Config.view (c : Config) : ChanName → Chan Msg
  | .errors => {}
  | .writeOps => c.writeOps.map .op
  | .entry k => (c.entries k).map .entry
  | .readers k => (c.readers k).map .reader
  | .data k j => (c.data (k, j)).map .data

/-- The scripts still to run: the producer's, those of the workers it has still to start, and
the running workers'. -/
def Config.pending (env : Env) (level : Int) (c : Config) : List (List Action) :=
  c.producer :: (c.producer.filterMap Action.task?).map (taskScript env level) ++ c.workers

@[simp] theorem Config.setScript_view (c : Config) (p : Proc) (s : List Action) :
    (c.setScript p s).view = c.view := by
  cases p <;> rfl

theorem Action.applyTo_of_chanOp_none {a : Action} (ha : a.chanOp? = none)
    (V : ChanName → Chan Msg) : a.applyTo V = V := by
  funext ch
  simp [Action.applyTo, Action.opOn, ha]

theorem Action.applyTo_of_chanOp {a : Action} {ch : ChanName} {op : ChanOp}
    (ha : a.chanOp? = some (ch, op)) (V : ChanName → Chan Msg) :
    a.applyTo V = Function.update V ch (op.apply (V ch)) := by
  funext ch'
  by_cases e : ch = ch' <;> simp [Action.applyTo, Action.opOn, ha, e, Function.update_noteq, Ne.symm]
  subst e
  simp

theorem Action.applyTo_eq (a : Action) (V : ChanName → Chan Msg) :
    a.applyTo V = match a.chanOp? with
      | some (ch, op) => Function.update V ch (op.apply (V ch))
      | none => V := by
  split
  · exact Action.applyTo_of_chanOp ‹_› V
  · exact Action.applyTo_of_chanOp_none ‹_› V

section ExecView

variable (c : Config)

theorem view_writeOps (w : Chan Nat) :
    { c with writeOps := w }.view = Function.update c.view .writeOps (w.map .op) := by
  funext ch
  cases ch <;> simp [Config.view]

theorem view_entries (k : Nat) (e : Chan ZipEntry) :
    { c with entries := Function.update c.entries k e }.view =
      Function.update c.view (.entry k) (e.map .entry) := by
  funext ch
  cases ch <;> simp [Config.view, Function.update_apply]
  split_ifs <;> simp_all

theorem view_readers (k : Nat) (e : Chan Nat) :
    { c with readers := Function.update c.readers k e }.view =
      Function.update c.view (.readers k) (e.map .reader) := by
  funext ch
  cases ch <;> simp [Config.view, Function.update_apply]
  split_ifs <;> simp_all

theorem view_data (k j : Nat) (e : Chan (List UInt8)) :
    { c with data := Function.update c.data (k, j) e }.view =
      Function.update c.view (.data k j) (e.map .data) := by
  funext ch
  cases ch <;> simp [Config.view, Function.update_apply]
  split_ifs <;> simp_all

end ExecView

/-- What a completed operation does to the channels. -/
theorem exec_view {env : Env} {opts : Options} {c c' : Config} {a : Action}
    (h : exec env opts c a = .next c') : c'.view = a.applyTo c.view := by
  cases a <;> simp only [exec, sendOn, closeOn] at h <;> repeat' split at h
  all_goals cases h
  all_goals
    rw [Action.applyTo_eq]
    first
      | (funext ch; cases ch <;> rfl)
      | simp [Action.chanOp?, view_writeOps, view_entries, view_readers, view_data, ChanOp.apply,
          Config.view]

/-- An operation panics only on a closed channel. -/
theorem exec_panic {env : Env} {opts : Options} {c : Config} {a : Action} {x : Panic}
    (h : exec env opts c a = .panic x) :
    (a.isSendError = true ∧ c.errorsClosed = true ∧ x = .sendOnClosed .errors) ∨
      ∃ ch op, a.chanOp? = some (ch, op) ∧ (c.view ch).closed = true := by
  cases a <;> simp only [exec, sendOn, closeOn] at h <;> repeat' split at h
  all_goals cases h
  all_goals first
    | exact .inl ⟨rfl, ‹_›, rfl⟩
    | exact .inr ⟨_, _, rfl, by simpa [Config.view, Chan.map]⟩

/-- A completed operation leaves the producer's script alone and starts at most one worker. -/
theorem exec_scripts {env : Env} {opts : Options} {c c' : Config} {a : Action}
    (h : exec env opts c a = .next c') :
    c'.producer = c.producer ∧
      c'.workers = c.workers ++ (a.task?.map (taskScript env opts.compLevel)).toList := by
  cases a <;> simp only [exec, sendOn, closeOn] at h <;> repeat' split at h
  all_goals cases h
  all_goals exact ⟨rfl, by simp [Action.task?]⟩

/-! ### Steps of the producer and the workers -/

/-- A worker starts no goroutine. -/
theorem taskScript_task (env : Env) (level : Int) (t : Task) :
    ∀ a ∈ taskScript env level t, a.task? = none := by
  cases t with
  | crcFile k r ze =>
    rcases crcFile_cases env k r ze with ⟨e, h⟩ | h <;> simp [taskScript, h, Action.task?]
  | compressPartialFile k j r start dict last =>
    rcases compressPartialFile_cases env level k j r start dict last with ⟨e, h⟩ | ⟨d, h⟩ <;>
      simp [taskScript, h, Action.task?]
  | compressWholeFile k ze r =>
    rcases compressWholeFile_cases env level k ze r with ⟨e, h⟩ | ⟨e, h⟩ | ⟨fh, d, h, -⟩ <;>
      simp [taskScript, h, wholeFileTail, Action.task?]

/-- The running workers start no goroutine. -/
def Config.QuietWorkers (c : Config) : Prop := ∀ w ∈ c.workers, ∀ a ∈ w, a.task? = none

theorem perm_set_eraseIdx {α : Type} {W : List α} {i : Nat} (hi : i < W.length) (x : α) :
    (W.set i x).Perm (x :: W.eraseIdx i) := by
  rw [List.set_eq_take_append_cons_drop, if_pos hi, List.eraseIdx_eq_take_drop_succ]
  exact List.perm_middle

theorem perm_getElem_eraseIdx {α : Type} {W : List α} {i : Nat} (hi : i < W.length) :
    W.Perm (W[i] :: W.eraseIdx i) := by
  rw [List.eraseIdx_eq_take_drop_succ]
  conv_lhs => rw [← List.take_append_drop i W, ← List.getElem_cons_drop W i hi]
  exact List.perm_middle

section StepProc

variable (env : Env) (opts : Options) (c : Config)

/-- The scripts of the producer's next step. -/
theorem pending_producer {a : Action} {rest : List Action} (hs : c.producer = a :: rest) :
    let Q := ((a :: rest).filterMap Action.task?).map (taskScript env opts.compLevel) ++ c.workers
    (c.pending env opts.compLevel).Perm ((a :: rest) :: Q) ∧
      (∀ c' : Config, c'.workers = c.workers ++ (a.task?.map (taskScript env opts.compLevel)).toList →
        ((c'.setScript .producer rest).pending env opts.compLevel).Perm (rest :: Q)) ∧
      ∀ ps, (∀ b ∈ a :: rest, b.task? = none) →
        (({ c.setScript .producer [] with panics := ps } : Config).pending env
          opts.compLevel).Perm ([] :: Q) := by
  refine ⟨by simp [Config.pending, hs], fun c' hw => ?_, fun ps hq => ?_⟩
  · simp only [Config.pending, Config.setScript, hw, List.filterMap_cons]
    cases a.task? with
    | none => simp
    | some t =>
      simp only [Option.map_some', Option.toList_some, List.map_cons, List.cons_append,
        List.perm_cons, ← List.append_assoc]
      exact List.perm_append_singleton _ _
  · have hnil : (a :: rest).filterMap Action.task? = [] := List.filterMap_eq_nil_iff.mpr hq
    simp [Config.pending, Config.setScript, hnil]

/-- The scripts of worker `i`'s next step. -/
theorem pending_worker {i : Nat} {a : Action} {rest : List Action}
    (hs : c.workers.getD i [] = a :: rest) :
    let Q := c.producer :: (c.producer.filterMap Action.task?).map (taskScript env opts.compLevel) ++
      c.workers.eraseIdx i
    (c.pending env opts.compLevel).Perm ((a :: rest) :: Q) ∧
      (∀ c' : Config, c'.producer = c.producer → c'.workers = c.workers →
        ((c'.setScript (.worker i) rest).pending env opts.compLevel).Perm (rest :: Q)) ∧
      ∀ ps, (({ c.setScript (.worker i) [] with panics := ps } : Config).pending env
          opts.compLevel).Perm ([] :: Q) := by
  have hi : i < c.workers.length := by
    by_contra hi
    simp [List.getD_eq_getElem?_getD, List.getElem?_eq_none (Nat.le_of_not_lt hi)] at hs
  have hget : c.workers[i] = a :: rest := by
    simpa [List.getD_eq_getElem?_getD, List.getElem?_eq_getElem hi] using hs
  have hmid : ∀ x (W : List (List Action)),
      (c.producer :: (c.producer.filterMap Action.task?).map (taskScript env opts.compLevel) ++
        x :: W).Perm (x :: (c.producer :: (c.producer.filterMap Action.task?).map
          (taskScript env opts.compLevel) ++ W)) := fun _ _ => List.perm_middle
  have hset : ∀ x, (c.producer :: (c.producer.filterMap Action.task?).map
      (taskScript env opts.compLevel) ++ c.workers.set i x).Perm
        (x :: (c.producer :: (c.producer.filterMap Action.task?).map
          (taskScript env opts.compLevel) ++ c.workers.eraseIdx i)) := fun x =>
    (((List.Perm.append_left _ (perm_set_eraseIdx hi x))).cons _).trans (hmid x _)
  refine ⟨?_, fun c' hp hw => ?_, fun ps => ?_⟩
  · refine (((List.Perm.append_left _ (perm_getElem_eraseIdx hi))).cons _).trans ?_
    rw [hget]
    exact hmid _ _
  · simpa [Config.pending, Config.setScript, hp, hw] using hset rest
  · simpa [Config.pending, Config.setScript] using hset []

end StepProc

/-! ### Steps of the writer -/

/-- `c'` has the scripts, the panics and the channel contents of `c`: only what was received
may differ. -/
structure SameScripts (c c' : Config) : Prop where
  producer : c'.producer = c.producer
  workers : c'.workers = c.workers
  panics : c'.panics = c.panics
  view : ∀ ch, (c'.view ch).sent = (c.view ch).sent ∧ (c'.view ch).closed = (c.view ch).closed

namespace SameScripts

theorem refl (c : Config) : SameScripts c c := ⟨rfl, rfl, rfl, fun _ => ⟨rfl, rfl⟩⟩

/-- A change of what was received, of the writer, the output or the limiters. -/
theorem of_chans {c c' : Config}
    (hw : c'.writeOps.sent = c.writeOps.sent ∧ c'.writeOps.closed = c.writeOps.closed)
    (he : ∀ k, (c'.entries k).sent = (c.entries k).sent ∧ (c'.entries k).closed = (c.entries k).closed)
    (hr : ∀ k, (c'.readers k).sent = (c.readers k).sent ∧ (c'.readers k).closed = (c.readers k).closed)
    (hd : ∀ kj, (c'.data kj).sent = (c.data kj).sent ∧ (c'.data kj).closed = (c.data kj).closed)
    (hp : c'.producer = c.producer) (hk : c'.workers = c.workers) (hx : c'.panics = c.panics) :
    SameScripts c c' := by
  refine ⟨hp, hk, hx, fun ch => ?_⟩
  cases ch <;> simp [Config.view, Chan.map, hw, he, hr, hd]

end SameScripts

@[simp] theorem Chan.recv_sent {α : Type} (c : Chan α) : c.recv.sent = c.sent := by
  unfold Chan.recv; split <;> rfl

@[simp] theorem Chan.recv_closed {α : Type} (c : Chan α) : c.recv.closed = c.closed := by
  unfold Chan.recv; split <;> rfl

theorem sameScripts_recvWriteOp (c : Config) : SameScripts c (recvWriteOp c) := by
  unfold recvWriteOp
  split <;> refine SameScripts.of_chans ?_ ?_ ?_ ?_ rfl rfl rfl <;> simp

theorem sameScripts_recvEntry (env : Env) (c : Config) (k : Nat) :
    SameScripts c (recvEntry env c k) := by
  unfold recvEntry
  dsimp only
  repeat' split
  all_goals
    refine SameScripts.of_chans ?_ ?_ ?_ ?_ rfl rfl rfl <;> intros <;>
      simp [Config.finish, Config.panic, Function.update_apply] <;> split_ifs <;> simp_all

theorem sameScripts_recvReaders (c : Config) (k : Nat) : SameScripts c (recvReaders c k) := by
  unfold recvReaders
  repeat' split
  all_goals
    refine SameScripts.of_chans ?_ ?_ ?_ ?_ rfl rfl rfl <;> intros <;>
      simp [Config.panic, Function.update_apply] <;> split_ifs <;> simp_all

theorem sameScripts_recvData (env : Env) (c : Config) (k j : Nat) :
    SameScripts c (recvData env c k j) := by
  unfold recvData
  dsimp only
  repeat' split
  all_goals
    refine SameScripts.of_chans ?_ ?_ ?_ ?_ rfl rfl rfl <;> intros <;>
      simp [Config.finish, Config.panic, Function.update_apply] <;> split_ifs <;> simp_all

/-! ### The discipline over a run -/

theorem script_worker_mem {c : Config} {i : Nat} {s : List Action} (hs : c.script (.worker i) = s)
    (hne : s ≠ []) : s ∈ c.workers ∧ ∀ X, (c.workers ++ X).getD i [] = s := by
  simp only [Config.script, List.getD_eq_getElem?_getD] at hs ⊢
  rcases hget : c.workers[i]? with _ | w
  · simp [hget] at hs; exact absurd hs hne
  · simp only [hget, Option.getD_some] at hs
    subst hs
    have hi : i < c.workers.length := (List.getElem?_eq_some_iff.mp hget).1
    exact ⟨List.mem_iff_getElem?.mpr ⟨i, hget⟩, fun X => by
      simp [List.getElem?_append_left hi, hget]⟩

theorem Config.QuietWorkers.setScript {c : Config} (h : c.QuietWorkers) {p : Proc}
    {a : Action} {rest : List Action} (hs : c.script p = a :: rest) :
    (c.setScript p rest).QuietWorkers := by
  cases p with
  | producer => exact h
  | worker i =>
    intro w hw
    rcases List.mem_or_eq_of_mem_set hw with hw | rfl
    · exact h w hw
    · exact fun b hb => h _ (script_worker_mem hs (List.cons_ne_nil _ _)).1 b (List.mem_cons_of_mem _ hb)

theorem Config.QuietWorkers.setScript_nil {c : Config} (h : c.QuietWorkers) (p : Proc) :
    (c.setScript p []).QuietWorkers := by
  cases p with
  | producer => exact h
  | worker i =>
    intro w hw
    rcases List.mem_or_eq_of_mem_set hw with hw | rfl
    · exact h w hw
    · exact fun _ hb => nomatch hb

theorem Config.QuietWorkers.exec {env : Env} {opts : Options} {c c' : Config} {a : Action}
    (h : c.QuietWorkers) (hc : exec env opts c a = .next c') : c'.QuietWorkers := by
  intro w hw
  rw [(exec_scripts hc).2, List.mem_append] at hw
  rcases hw with hw | hw
  · exact h w hw
  · cases ht : a.task? <;> simp [ht] at hw
    subst hw
    exact taskScript_task env opts.compLevel _

/-- A completed operation leaves every goroutine's script as it was. -/
theorem exec_script {env : Env} {opts : Options} {c c' : Config} {a : Action}
    (hc : exec env opts c a = .next c') {p : Proc} {s : List Action} (hs : c.script p = s)
    (hne : s ≠ []) : c'.script p = s := by
  obtain ⟨hp, hw⟩ := exec_scripts hc
  cases p with
  | producer => simpa [Config.script, hp] using hs
  | worker i => simpa [Config.script, hw] using (script_worker_mem hs hne).2 _

/-- The scripts of one step of a goroutine. -/
theorem pending_step (env : Env) (opts : Options) {c : Config} (hq : c.QuietWorkers) {p : Proc}
    {a : Action} {rest : List Action} (hs : c.script p = a :: rest) :
    ∃ Q, (c.pending env opts.compLevel).Perm ((a :: rest) :: Q) ∧
      (∀ c' : Config, c'.producer = c.producer →
        c'.workers = c.workers ++ (a.task?.map (taskScript env opts.compLevel)).toList →
        ((c'.setScript p rest).pending env opts.compLevel).Perm (rest :: Q)) ∧
      ∀ ps, (∀ b ∈ a :: rest, b.task? = none) →
        (({ c.setScript p [] with panics := ps } : Config).pending env
          opts.compLevel).Perm ([] :: Q) := by
  cases p with
  | producer =>
    obtain ⟨hP, hn, hpan⟩ := pending_producer env opts c hs
    exact ⟨_, hP, fun c' _ hw => hn c' hw, hpan⟩
  | worker i =>
    have ha : a.task? = none :=
      hq _ (script_worker_mem hs (List.cons_ne_nil _ _)).1 a (List.mem_cons_self _ _)
    obtain ⟨hP, hn, hpan⟩ := pending_worker env opts c hs
    exact ⟨_, hP, fun c' hp hw => hn c' hp (by simpa [ha] using hw), fun ps _ => hpan ps⟩

/-- The discipline of configuration `c` for the values `S` channels carry in the run; the
workers start nothing; and every goroutine that panicked sent on the closed `z.errors`. -/
structure ChannelInv (env : Env) (opts : Options) (S : ChanName → List Msg) (c : Config) :
    Prop where
  disciplined : Disciplined S c.view (c.pending env opts.compLevel)
  quiet : c.QuietWorkers
  panics : ∀ x ∈ c.panics, x = .sendOnClosed .errors

namespace ChannelInv

variable {env : Env} {opts : Options} {S : ChanName → List Msg} {c : Config}

theorem stepProc (h : ChannelInv env opts S c) (p : Proc) :
    ChannelInv env opts S (SoongZip.stepProc env opts c p) := by
  unfold SoongZip.stepProc
  split
  · exact h
  · rename_i a rest hs
    obtain ⟨Q, hP, hnext, hpanic⟩ := pending_step env opts h.quiet hs
    have hd := h.disciplined.perm hP
    split
    · exact h
    · rename_i c' hc'
      refine ⟨?_, ?_, ?_⟩
      · rw [Config.setScript_view, exec_view hc']
        exact hd.advance.perm (hnext c' (exec_scripts hc').1 (exec_scripts hc').2).symm
      · exact (h.quiet.exec hc').setScript (exec_script hc' hs (List.cons_ne_nil _ _))
      · rw [Config.setScript_panics, (exec_frame hc').2.2.2.2]
        exact h.panics
    · rename_i x hx
      rcases exec_panic hx with ⟨hse, -, rfl⟩ | ⟨ch, op, hop, hcl⟩
      · have hquiet : ∀ b ∈ a :: rest, b.isSend = false ∧ b.task? = none := fun b hb =>
          hd.quietAfterError _ (List.mem_cons_self _ _) b (by simpa [List.dropWhile_cons, hse] using hb)
        refine ⟨?_, ?_, ?_⟩
        · have hv : ({ c.setScript p [] with panics := c.panics ++ [.sendOnClosed .errors] } : Config).view =
              c.view := by
            funext ch; cases ch <;> cases p <;> rfl
          rw [hv]
          exact (hd.drop hse).perm (hpanic _ fun b hb => (hquiet b hb).2).symm
        · exact h.quiet.setScript_nil p
        · intro y hy
          rcases List.mem_append.mp hy with hy | hy
          · exact h.panics y (by simpa using hy)
          · simpa using hy
      · exfalso
        have hnil := hd.closedDone ch hcl
        simp [opsOn_cons, Action.opOn, hop] at hnil

/-- Receives keep the invariant. -/
theorem of_sameScripts (h : ChannelInv env opts S c) {c' : Config} (hs : SameScripts c c') :
    ChannelInv env opts S c' := by
  have hP : c'.pending env opts.compLevel = c.pending env opts.compLevel := by
    simp [Config.pending, hs.producer, hs.workers]
  refine ⟨?_, ?_, ?_⟩
  · rw [hP]
    exact h.disciplined.of_sent_closed hs.view
  · intro w hw
    exact h.quiet w (hs.workers ▸ hw)
  · rw [hs.panics]
    exact h.panics

theorem stepWriter (h : ChannelInv env opts S c) (cs : Case) :
    ChannelInv env opts S (SoongZip.stepWriter env c cs) := by
  cases cs with
  | recv =>
    rcases stepWriter_recv_cases env c with
      heq | ⟨-, ⟨-, -, heq⟩ | ⟨k, -, -, heq⟩ | ⟨k, heq⟩ | ⟨k, j, heq⟩⟩ <;> rw [heq]
    exacts [h, h.of_sameScripts (sameScripts_recvWriteOp c),
      h.of_sameScripts (sameScripts_recvEntry env c k), h.of_sameScripts (sameScripts_recvReaders c k),
      h.of_sameScripts (sameScripts_recvData env c k j)]
  | error p =>
    rcases stepWriter_error_cases env c p with heq | ⟨e, rest, hs, -, -, heq⟩ <;> rw [heq]
    · exact h
    · obtain ⟨Q, hP, hnext, -⟩ := pending_step env opts h.quiet hs
      have hd := (h.disciplined.perm hP).advance
      rw [Action.applyTo_of_chanOp_none (a := .sendError e) rfl] at hd
      have hc : ChannelInv env opts S (c.setScript p rest) :=
        ⟨by rw [Config.setScript_view]; exact hd.perm (hnext c rfl (by simp [Action.task?])).symm,
          h.quiet.setScript hs, by simpa using h.panics⟩
      exact hc.of_sameScripts (SameScripts.of_chans ⟨rfl, rfl⟩ (fun _ => ⟨rfl, rfl⟩)
        (fun _ => ⟨rfl, rfl⟩) (fun _ => ⟨rfl, rfl⟩) rfl rfl rfl)
  | default =>
    rcases stepWriter_default_cases env c with heq | ⟨-, -, heq⟩ <;> rw [heq]
    · exact h
    · exact h.of_sameScripts (SameScripts.of_chans ⟨rfl, rfl⟩ (fun _ => ⟨rfl, rfl⟩)
        (fun _ => ⟨rfl, rfl⟩) (fun _ => ⟨rfl, rfl⟩) rfl rfl rfl)

theorem step (h : ChannelInv env opts S c) (s : Sched) : ChannelInv env opts S (SoongZip.step env opts c s) := by
  cases s with
  | writer cs => exact h.stepWriter cs
  | proc p => exact h.stepProc p

/-- The invariant holds all along every run. -/
theorem reachable {c₀ : Config} (h₀ : ChannelInv env opts S c₀) (hr : Reachable env opts c₀ c) :
    ChannelInv env opts S c := by
  induction hr with
  | init => exact h₀
  | step s _ ih => exact ih.step s

/-- What a channel has carried so far is the start of what it carries in the whole run. -/
theorem sent_prefix (h : ChannelInv env opts S c) (ch : ChanName) : (c.view ch).sent <+: S ch :=
  ⟨_, h.disciplined.history ch⟩

/-- A closed channel has carried all it carries in the run. -/
theorem sent_of_closed (h : ChannelInv env opts S c) {ch : ChanName} (hc : (c.view ch).closed) :
    (c.view ch).sent = S ch := by
  have hh := h.disciplined.history ch
  rwa [h.disciplined.closedDone ch hc, sendsOf_nil, List.append_nil] at hh

/-- A closed entry or reader slot carries a value. -/
theorem carries_of_closed (h : ChannelInv env opts S c) {ch : ChanName} (hv : ch.carriesValue)
    (hc : (c.view ch).closed) : S ch ≠ [] :=
  h.disciplined.closeHasValue ch hv (.inl hc)

end ChannelInv

/-- The values channel `ch` carries in a run from `c₀`: all its owner sends. -/
def carried (env : Env) (opts : Options) (c₀ : Config) (ch : ChanName) : List Msg :=
  sendsOf ((c₀.pending env opts.compLevel).flatMap (opsOn ch))

/-- Scripts that keep the discipline when they start on empty channels. -/
structure WellFormed (P : List (List Action)) : Prop where
  owned : ∀ ch, P.Pairwise (Apart ch)
  closeLast : ∀ ch, ∀ s ∈ P, ChanOp.close ∉ (opsOn ch s).dropLast
  quietAfterError : ∀ s ∈ P, ∀ a ∈ s.dropWhile (fun a => !a.isSendError),
    a.isSend = false ∧ a.task? = none
  closeHasValue : ∀ ch, ch.carriesValue → ChanOp.close ∈ P.flatMap (opsOn ch) →
    sendsOf (P.flatMap (opsOn ch)) ≠ []

/-- A run that starts with empty channels, no worker and well-formed scripts keeps the
discipline. -/
theorem ChannelInv.init (env : Env) (opts : Options) {c₀ : Config}
    (hV : ∀ ch, c₀.view ch = {}) (hw : c₀.workers = []) (hp : c₀.panics = [])
    (hwf : WellFormed (c₀.pending env opts.compLevel)) :
    ChannelInv env opts (carried env opts c₀) c₀ := by
  refine ⟨⟨fun ch => by simp [hV, carried], hwf.owned, hwf.closeLast, fun ch hc => ?_,
    hwf.quietAfterError, fun ch hv hc => ?_⟩, ?_, ?_⟩
  · simp [hV] at hc
  · rcases hc with hc | hc
    · simp [hV] at hc
    · exact hwf.closeHasValue ch hv hc
  · intro w hw'
    simp [hw] at hw'
  · simp [hp]

end SoongZip
