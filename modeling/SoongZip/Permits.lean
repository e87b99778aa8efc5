import Mathlib
import SoongZip.Archive

/-!
# The CPU rate limiter

`write` starts each CRC and compression goroutine after a `z.cpuRateLimiter.Request()`
(`soong_zip.go:579,609`), and the goroutine calls `Finish` when its work is done
(`soong_zip.go:643,666,768`). Over every run the permits in use never exceed `-j`; the permit
the producer holds between a `Request` and its `go` statement is in use, and so is one permit
for each `Finish` a running worker has still to call; and, as long as nothing has panicked,
every permit of the run is in use, still to be requested, or given back. A worker calls
`Finish` before its last sends, so more workers than permits can be running.
-/

namespace SoongZip

/-! ### Requests and finishes in a script -/

/-- `z.cpuRateLimiter.Request()`. -/
def Action.isRequest : Action → Bool
  | .cpuRequest _ => true
  | _ => false

/-- `z.cpuRateLimiter.Finish()`. -/
def Action.isFinish : Action → Bool
  | .cpuFinish _ => true
  | _ => false

/-- The permits a script requests. -/
def requests (s : List Action) : Nat := s.countP Action.isRequest

/-- The permits a script gives back. -/
def finishes (s : List Action) : Nat := s.countP Action.isFinish

/-- The permits that the workers a script starts give back. -/
def futureFinishes (env : Env) (level : Int) (s : List Action) : Nat :=
  ((workersOf env level s).map finishes).sum

/-- The permits the running workers have still to give back. -/
def Config.finishesLeft (c : Config) : Nat := (c.workers.map finishes).sum

/-- A `Request` (`false`) or a `go` statement (`true`) of the producer. -/
def Action.permitOp? : Action → Option Bool
  | .cpuRequest _ => some false
  | .spawn _ => some true
  | _ => none

/-- The producer's `Request`s and `go` statements, in order. -/
def permitOps (s : List Action) : List Bool := s.filterMap Action.permitOp?

/-- The permit the producer holds for the worker its next `go` statement starts: of its next
`Request` and its next `go`, the `go` comes first. -/
def heldBy (s : List Action) : Nat := if (permitOps s).head? = some true then 1 else 0

/-- A `Request` comes first, and there is one between any two `go` statements. -/
def Alternates (l : List Bool) : Prop :=
  l.Chain' (fun x y => x = false ∨ y = false) ∧ l.head? ≠ some true

theorem Alternates.nil : Alternates [] := ⟨List.chain'_nil, by simp⟩

theorem Alternates.request : Alternates [false] := ⟨List.chain'_singleton _, by simp⟩

theorem Alternates.request_go {l : List Bool} (h : Alternates l) :
    Alternates (false :: true :: l) := by
  refine ⟨List.Chain'.cons (.inl rfl) (List.chain'_cons'.mpr ⟨fun y hy => .inr ?_, h.1⟩), by simp⟩
  cases y
  · rfl
  · exact absurd hy h.2

theorem Alternates.append {l l' : List Bool} (h : Alternates l) (h' : Alternates l') :
    Alternates (l ++ l') := by
  refine ⟨List.chain'_append.mpr ⟨h.1, h'.1, fun x _ y hy => .inr ?_⟩, ?_⟩
  · cases y
    · rfl
    · exact absurd hy h'.2
  · cases l with
    | nil => simpa using h'.2
    | cons x l => simpa using h.2

@[simp] theorem permitOps_append (s s' : List Action) :
    permitOps (s ++ s') = permitOps s ++ permitOps s' := List.filterMap_append _ _ _

/-! ### What workers and the producer do with permits -/

/-- A worker requests no permit and does not close `z.writeOps`; it gives back at most one
permit. -/
theorem taskScript_permits (env : Env) (level : Int) (t : Task) :
    (∀ a ∈ taskScript env level t, a.isRequest = false ∧ a ≠ .closeWriteOps) ∧
      finishes (taskScript env level t) ≤ 1 := by
  cases t with
  | crcFile k r ze =>
    rcases crcFile_cases env k r ze with ⟨e, h⟩ | h <;>
      simp [taskScript, h, finishes, Action.isRequest, Action.isFinish]
  | compressPartialFile k j r start dict last =>
    rcases compressPartialFile_cases env level k j r start dict last with ⟨e, h⟩ | ⟨d, h⟩ <;>
      simp [taskScript, h, finishes, Action.isRequest, Action.isFinish]
  | compressWholeFile k ze r =>
    rcases compressWholeFile_cases env level k ze r with ⟨e, h⟩ | ⟨e, h⟩ | ⟨fh, d, h, -⟩ <;>
      simp [taskScript, h, wholeFileTail, finishes, Action.isRequest, Action.isFinish]

theorem Loop.permits {k j : Nat} {acts : List Action} {err : Option GoError}
    (h : Loop k j acts err) :
    Alternates (permitOps acts) ∧ ∀ a ∈ acts, a.isFinish = false ∧ a ≠ .closeWriteOps := by
  induction h with
  | done => exact ⟨.nil, by simp⟩
  | fail => exact ⟨.request, by simp [Action.isFinish]⟩
  | next _ _ _ _ _ _ ih =>
    refine ⟨by simpa [permitOps, Action.permitOp?] using ih.1.request_go, ?_⟩
    simpa [Action.isFinish] using ih.2

theorem Block.permits {k : Nat} {b : List Action} (h : Block k b) :
    Alternates (permitOps b) ∧ ∀ a ∈ b, a.isFinish = false ∧ a ≠ .closeWriteOps := by
  cases h with
  | split ze r cap _ hl =>
    obtain ⟨ha, hf⟩ := hl.permits
    refine ⟨by simpa [splitHead, permitOps, Action.permitOp?] using ha.request_go, ?_⟩
    simp only [List.mem_append, List.mem_singleton]
    rintro a ((ha | ha) | rfl)
    · simp only [splitHead, List.mem_cons, List.mem_singleton, List.not_mem_nil, or_false] at ha
      rcases ha with rfl | rfl | rfl | rfl | rfl <;> simp [Action.isFinish]
    · exact hf a ha
    · simp [Action.isFinish]
  | whole => exact ⟨by simpa [permitOps, Action.permitOp?] using Alternates.nil.request_go,
      by simp [Action.isFinish]⟩
  | _ => exact ⟨by simpa [permitOps, Action.permitOp?] using Alternates.nil, by simp [Action.isFinish]⟩

theorem FailedSplit.permits {k : Nat} {f : List Action} (h : FailedSplit k f) :
    Alternates (permitOps f) ∧ ∀ a ∈ f, a.isFinish = false ∧ a ≠ .closeWriteOps := by
  cases h with
  | mk ze r cap e _ hl =>
    obtain ⟨ha, hf⟩ := hl.permits
    refine ⟨by simpa [splitHead, permitOps, Action.permitOp?] using ha.request_go, ?_⟩
    simp only [List.mem_append]
    rintro a (ha | ha)
    · simp only [splitHead, List.mem_cons, List.mem_singleton, List.not_mem_nil, or_false] at ha
      rcases ha with rfl | rfl | rfl | rfl | rfl <;> simp [Action.isFinish]
    · exact hf a ha

/-- What the rate-limiter invariants use of the producer's script: it requests a permit before
each `go` statement, gives none back, and closes `z.writeOps` last. -/
structure Shape (P : List Action) : Prop where
  alternates : Alternates (permitOps P)
  noFinish : ∀ a ∈ P, a.isFinish = false
  closeLast : .closeWriteOps ∉ P.dropLast

theorem Shape.block {b rest : List Action}
    (hb : Alternates (permitOps b) ∧ ∀ a ∈ b, a.isFinish = false ∧ a ≠ .closeWriteOps)
    (h : Shape rest) (hne : rest ≠ []) : Shape (b ++ rest) where
  alternates := by simpa using hb.1.append h.alternates
  noFinish a ha := (List.mem_append.mp ha).elim (fun ha => (hb.2 a ha).1) (h.noFinish a)
  closeLast := by
    rw [List.dropLast_append_of_ne_nil _ hne, List.mem_append, not_or]
    exact ⟨fun hc => (hb.2 _ hc).2 rfl, h.closeLast⟩

theorem Script.ne_nil {k : Nat} {P : List Action} (h : Script k P) : P ≠ [] := by
  induction h with
  | block _ _ ih => exact fun he => ih (List.append_eq_nil.mp he).2
  | _ => simp

theorem Script.shape {k : Nat} {P : List Action} (h : Script k P) : Shape P := by
  induction h with
  | done => exact ⟨.nil, by simp [Action.isFinish], by simp⟩
  | fail => exact ⟨.nil, by simp [Action.isFinish], by simp⟩
  | hang => exact ⟨.nil, by simp [Action.isFinish], by simp⟩
  | failSplit k e hf =>
    exact .block hf.permits ⟨.nil, by simp [Action.isFinish], by simp⟩ (by simp)
  | block hb hr ih => exact .block hb.permits ih hr.ne_nil

/-! ### Where the scripts of a run come from -/

section Origin

variable (env : Env) (level : Int) (P₀ : List Action)

/-- The producer's script is what remains of its first script, and each worker's what
remains of the script of a worker the producer has started. -/
structure Origin (c : Config) : Prop where
  producer : c.producer <:+ P₀
  workers : ∀ w ∈ c.workers, ∃ X t Y, P₀ = X ++ .spawn t :: Y ∧ c.producer <:+ Y ∧
    w <:+ taskScript env level t

variable {env level P₀}

/-- A worker does what a worker's script does. -/
theorem Origin.worker {c : Config} (h : Origin env level P₀ c) {w : List Action}
    (hw : w ∈ c.workers) : ∃ t, w <:+ taskScript env level t :=
  let ⟨_, t, _, _, _, hs⟩ := h.workers w hw
  ⟨t, hs⟩

/-- A worker starts no goroutine. -/
theorem Origin.quiet {c : Config} (h : Origin env level P₀ c) : c.QuietWorkers := fun _ hw a ha =>
  let ⟨t, hs⟩ := h.worker hw
  taskScript_task env level t a (hs.subset ha)

end Origin

/-! ### One step of a run -/

section Step

variable {env : Env} {opts : Options}

/-- A step of the producer or a worker: it blocks, completes its next action, or panics on it
and runs no further. -/
theorem stepProc_cases (c : Config) (p : Proc) :
    stepProc env opts c p = c ∨
      (∃ a rest c', c.script p = a :: rest ∧ exec env opts c a = .next c' ∧
        stepProc env opts c p = c'.setScript p rest) ∨
      ∃ a rest x, c.script p = a :: rest ∧ exec env opts c a = .panic x ∧
        stepProc env opts c p = { c.setScript p [] with panics := c.panics ++ [x] } := by
  unfold stepProc
  split
  · exact .inl rfl
  · rename_i a rest hs
    split
    · exact .inl rfl
    · exact .inr (.inl ⟨a, rest, _, hs, ‹_›, rfl⟩)
    · exact .inr (.inr ⟨a, rest, _, hs, ‹_›, rfl⟩)

/-- The writer takes an error from a goroutine, whose script moves past its send, or it leaves
every script alone. -/
theorem stepWriter_cases (env : Env) (c : Config) (cs : Case) :
    SameScripts c (stepWriter env c cs) ∨
      ∃ p e rest, c.script p = .sendError e :: rest ∧ c.writer.status = .running ∧
        c.errorsClosed = false ∧ stepWriter env c cs =
          Config.finish { c.setScript p rest with writer := { c.writer with err := some e } } (some e) := by
  cases cs with
  | recv =>
    left
    rcases stepWriter_recv_cases env c with
      heq | ⟨-, ⟨-, -, heq⟩ | ⟨k, -, -, heq⟩ | ⟨k, heq⟩ | ⟨k, j, heq⟩⟩ <;> rw [heq]
    exacts [.refl c, sameScripts_recvWriteOp c, sameScripts_recvEntry env c k,
      sameScripts_recvReaders c k, sameScripts_recvData env c k j]
  | error p =>
    rcases stepWriter_error_cases env c p with heq | ⟨e, rest, h⟩
    · rw [heq]
      exact .inl (.refl c)
    · exact .inr ⟨p, e, rest, h⟩
  | default =>
    left
    rcases stepWriter_default_cases env c with heq | ⟨-, -, heq⟩ <;> rw [heq]
    exacts [.refl c, ⟨rfl, rfl, rfl, fun _ => ⟨rfl, rfl⟩⟩]

/-- What a completed action does to the permits in use. -/
theorem exec_cpuInUse {c c' : Config} {a : Action} (h : exec env opts c a = .next c') :
    c'.cpuInUse = (if a.isFinish then c.cpuInUse - 1 else c.cpuInUse) + (if a.isRequest then 1 else 0) ∧
      (a.isRequest = true → c.cpuInUse < opts.parallelJobs) := by
  cases a <;> simp only [exec, sendOn, closeOn] at h <;> repeat' split at h
  all_goals cases h
  all_goals simp_all [Action.isFinish, Action.isRequest]

/-- The writer leaves the permits alone. -/
theorem stepWriter_cpuInUse (env : Env) (c : Config) (cs : Case) :
    (stepWriter env c cs).cpuInUse = c.cpuInUse := by
  cases cs <;> simp only [stepWriter] <;> repeat' split
  all_goals first
    | rfl
    | (cases ‹Proc› <;> rfl)
    | ((simp only [recvWriteOp, recvEntry, recvReaders, recvData]; repeat' split) <;> rfl)

/-- After a step, the producer's script is what remains of its script before, and each worker's
what remains of a worker's script before or the script of the worker the producer started. -/
theorem step_suffix (env : Env) (opts : Options) (c : Config) (s : Sched) (hq : c.QuietWorkers) :
    (step env opts c s).producer <:+ c.producer ∧
      ∀ w ∈ (step env opts c s).workers, (∃ w₀ ∈ c.workers, w <:+ w₀) ∨
        ∃ t, c.producer = .spawn t :: (step env opts c s).producer ∧
          w = taskScript env opts.compLevel t := by
  have hstay : ∀ w ∈ c.workers, (∃ w₀ ∈ c.workers, w <:+ w₀) := fun w hw =>
    ⟨w, hw, List.suffix_refl w⟩
  have hset : ∀ {i a rest} (x : List Action), c.workers.getD i [] = a :: rest → x <:+ a :: rest →
      ∀ w ∈ c.workers.set i x, ∃ w₀ ∈ c.workers, w <:+ w₀ := by
    intro i a rest x hs hx w hw
    rcases List.mem_or_eq_of_mem_set hw with hw | rfl
    · exact hstay w hw
    · exact ⟨_, (script_worker_mem (i := i) hs (List.cons_ne_nil _ _)).1, hx⟩
  cases s with
  | proc p =>
    simp only [step]
    rcases stepProc_cases c p with h | ⟨a, rest, c', hs, he, h⟩ | ⟨a, rest, x, hs, -, h⟩ <;>
      rw [h]
    · exact ⟨List.suffix_refl _, fun w hw => .inl (hstay w hw)⟩
    · obtain ⟨hp, hw⟩ := exec_scripts he
      cases p with
      | producer =>
        have hs : c.producer = a :: rest := hs
        refine ⟨by simp only [Config.setScript]; exact hs ▸ List.suffix_cons a rest, fun w hw' => ?_⟩
        simp only [Config.setScript, hw, List.mem_append] at hw'
        rcases hw' with hw' | hw'
        · exact .inl (hstay w hw')
        · right
          cases a <;> simp [Action.task?] at hw'
          exact ⟨_, hs, hw'⟩
      | worker i =>
        have ha : a.task? = none :=
          hq _ (script_worker_mem hs (List.cons_ne_nil _ _)).1 a (List.mem_cons_self _ _)
        refine ⟨by simp only [Config.setScript, hp]; exact List.suffix_refl _, fun w hw' => ?_⟩
        simp only [Config.setScript, hw, ha, Option.map_none', Option.toList_none,
          List.append_nil] at hw'
        exact .inl (hset rest hs (List.suffix_cons a rest) w hw')
    · cases p with
      | producer =>
        exact ⟨List.nil_suffix, fun w hw => .inl (hstay w hw)⟩
      | worker i =>
        exact ⟨List.suffix_refl _, fun w hw => .inl (hset [] hs List.nil_suffix w hw)⟩
  | writer cs =>
    simp only [step]
    rcases stepWriter_cases env c cs with h | ⟨p, e, rest, hs, -, -, h⟩
    · rw [h.producer, h.workers]
      exact ⟨List.suffix_refl _, fun w hw => .inl (hstay w hw)⟩
    · rw [h]
      cases p with
      | producer =>
        have hs : c.producer = .sendError e :: rest := hs
        exact ⟨show rest <:+ c.producer from hs ▸ List.suffix_cons _ rest,
          fun w hw => .inl (hstay w hw)⟩
      | worker i =>
        exact ⟨List.suffix_refl _, fun w hw => .inl (hset rest hs (List.suffix_cons _ rest) w hw)⟩

theorem Origin.step {P₀ : List Action} {c : Config} (h : Origin env opts.compLevel P₀ c)
    (s : Sched) : Origin env opts.compLevel P₀ (SoongZip.step env opts c s) := by
  obtain ⟨hp, hw⟩ := step_suffix env opts c s h.quiet
  refine ⟨hp.trans h.producer, fun w hw' => ?_⟩
  rcases hw w hw' with ⟨w₀, hw₀, hs⟩ | ⟨t, ht, rfl⟩
  · obtain ⟨X, t, Y, hP, hY, ht⟩ := h.workers w₀ hw₀
    exact ⟨X, t, Y, hP, hp.trans hY, hs.trans ht⟩
  · obtain ⟨X, hX⟩ := h.producer
    exact ⟨X, t, _, by rw [← hX, ht], List.suffix_refl _, List.suffix_refl _⟩

end Step

/-! ### The permits in use -/

section Permits

variable {env : Env} {level : Int}

@[simp] theorem requests_nil : requests [] = 0 := rfl

@[simp] theorem finishes_nil : finishes [] = 0 := rfl

@[simp] theorem heldBy_nil : heldBy [] = 0 := rfl

@[simp] theorem requests_cons (a : Action) (s : List Action) :
    requests (a :: s) = requests s + if a.isRequest then 1 else 0 := List.countP_cons _ _ _

@[simp] theorem finishes_cons (a : Action) (s : List Action) :
    finishes (a :: s) = finishes s + if a.isFinish then 1 else 0 := List.countP_cons _ _ _

theorem futureFinishes_cons (env : Env) (level : Int) (a : Action) (s : List Action) :
    futureFinishes env level (a :: s) = futureFinishes env level [a] + futureFinishes env level s := by
  rw [futureFinishes, futureFinishes, futureFinishes, ← List.sum_append, ← List.map_append,
    ← workersOf_append, List.singleton_append]

theorem task_toList_eq_workersOf (a : Action) :
    (a.task?.map (taskScript env level)).toList = workersOf env level [a] := by
  cases h : a.task? <;> simp [workersOf, h]

theorem heldBy_le_one (s : List Action) : heldBy s ≤ 1 := by
  unfold heldBy
  split <;> omega

/-- The producer's next action: a `Request` takes the permit it will hold, a `go` statement
hands the permit it holds to the worker it starts, and nothing else touches either. -/
theorem heldBy_step (env : Env) (level : Int) {a : Action} {rest : List Action}
    (h : (permitOps (a :: rest)).Chain' fun x y => x = false ∨ y = false) :
    heldBy rest + futureFinishes env level [a] ≤ heldBy (a :: rest) + requests [a] := by
  cases a with
  | cpuRequest k =>
    have := heldBy_le_one rest
    simp [futureFinishes, workersOf, Action.task?, Action.isRequest, heldBy, permitOps,
      Action.permitOp?] at this ⊢
    omega
  | spawn t =>
    have h1 : ∀ y ∈ (permitOps rest).head?, true = false ∨ y = false := (List.chain'_cons'.mp h).1
    have hr : heldBy rest = 0 := by
      unfold heldBy
      split
      · simpa using h1 true ‹_›
      · rfl
    have hs : heldBy (.spawn t :: rest) = 1 := by simp [heldBy, permitOps, Action.permitOp?]
    have hf : futureFinishes env level [.spawn t] = finishes (taskScript env level t) := by
      simp [futureFinishes, workersOf, Action.task?]
    have := (taskScript_permits env level t).2
    rw [hr, hs, hf]
    omega
  | _ => simp [futureFinishes, workersOf, Action.task?, Action.isRequest, heldBy, permitOps,
      Action.permitOp?]

theorem sum_map_set {W : List (List Action)} {i : Nat} {w : List Action} (hs : W.getD i [] = w)
    (hne : w ≠ []) (f : List Action → Nat) (x : List Action) :
    ((W.set i x).map f).sum + f w = (W.map f).sum + f x := by
  have hi : i < W.length := by
    by_contra hi
    simp [List.getD_eq_getElem?_getD, List.getElem?_eq_none (Nat.le_of_not_lt hi)] at hs
    exact hne hs
  have hw : W[i] = w := by
    simpa [List.getD_eq_getElem?_getD, List.getElem?_eq_getElem hi] using hs
  rw [((perm_set_eraseIdx hi x).map f).sum_eq, ((perm_getElem_eraseIdx hi).map f).sum_eq, hw]
  simp only [List.map_cons, List.sum_cons]
  omega

/-- The permits of a run: at most `-j` in use; the one the producer holds for its next worker
and one for each `Finish` a running worker has still to call are in use; and, while nothing has
panicked, the permits in use and still to be requested match those given back and still to be
given back. -/
structure Permits (env : Env) (opts : Options) (P₀ : List Action) (c : Config) : Prop where
  bound : c.cpuInUse ≤ opts.parallelJobs
  held : heldBy c.producer + c.finishesLeft ≤ c.cpuInUse
  accounts : c.panics = [] → c.cpuInUse + requests c.producer + futureFinishes env opts.compLevel P₀ =
    futureFinishes env opts.compLevel c.producer + c.finishesLeft + requests P₀

variable {opts : Options} {P₀ : List Action} {c : Config}

theorem Origin.chain (h : Origin env level P₀ c) (hs : Shape P₀) :
    (permitOps c.producer).Chain' fun x y => x = false ∨ y = false :=
  hs.alternates.1.suffix (h.producer.filterMap _)

theorem Origin.noRequest (h : Origin env level P₀ c) {w : List Action} (hw : w ∈ c.workers) :
    ∀ a ∈ w, a.isRequest = false :=
  let ⟨t, hs⟩ := h.worker hw
  fun a ha => ((taskScript_permits env level t).1 a (hs.subset ha)).1

/-- The producer's completed action: a `Request` takes a permit below the limit, a `go`
statement hands the producer's permit to the worker it starts. -/
theorem Permits.producer (h : Permits env opts P₀ c) (ho : Origin env opts.compLevel P₀ c)
    (hs : Shape P₀) {a : Action} {rest : List Action} {c' : Config} (hsc : c.producer = a :: rest)
    (he : exec env opts c a = .next c') : Permits env opts P₀ (c'.setScript .producer rest) := by
  obtain ⟨hb, hh, ha⟩ := h
  obtain ⟨hcpu, hreq⟩ := exec_cpuInUse he
  have hx : c'.panics = c.panics := (exec_frame he).2.2.2.2
  have hf : a.isFinish = false := hs.noFinish a (ho.producer.subset (by simp [hsc]))
  have hst := heldBy_step env opts.compLevel (hsc ▸ ho.chain hs)
  have hfl : c'.finishesLeft = c.finishesLeft + futureFinishes env opts.compLevel [a] := by
    simp [Config.finishesLeft, (exec_scripts he).2, task_toList_eq_workersOf, futureFinishes]
  have hff := futureFinishes_cons env opts.compLevel a rest
  have hr : requests (a :: rest) = requests rest + requests [a] := by simp
  rw [hsc] at hh ha
  have hq1 : requests [a] = if a.isRequest then 1 else 0 := by simp
  simp only [hf, Bool.false_eq_true, if_false] at hcpu
  refine ⟨?_, ?_, fun hn => ?_⟩
  · show c'.cpuInUse ≤ _
    cases hq : a.isRequest
    · simp only [hq, Bool.false_eq_true, if_false, add_zero] at hcpu
      omega
    · have := hreq hq
      simp only [hq, if_true] at hcpu
      omega
  · show heldBy rest + c'.finishesLeft ≤ c'.cpuInUse
    cases hq : a.isRequest <;> simp only [hq, Bool.false_eq_true, if_false, if_true] at hcpu hq1 <;>
      omega
  · show c'.cpuInUse + requests rest + _ = futureFinishes env opts.compLevel rest + c'.finishesLeft + _
    have := ha (by rw [← hx]; exact hn)
    cases hq : a.isRequest <;> simp only [hq, Bool.false_eq_true, if_false, if_true] at hcpu hq1 <;>
      omega

/-- A worker's completed action: a `Finish` gives back one of the permits its script still had
to give back. -/
theorem Permits.worker (h : Permits env opts P₀ c) (ho : Origin env opts.compLevel P₀ c)
    {i : Nat} {a : Action} {rest : List Action} {c' : Config} (hsc : c.workers.getD i [] = a :: rest)
    (he : exec env opts c a = .next c') : Permits env opts P₀ (c'.setScript (.worker i) rest) := by
  obtain ⟨hb, hh, ha⟩ := h
  obtain ⟨hcpu, -⟩ := exec_cpuInUse he
  obtain ⟨hp, hw⟩ := exec_scripts he
  have hx : c'.panics = c.panics := (exec_frame he).2.2.2.2
  have hmem := (script_worker_mem (i := i) hsc (List.cons_ne_nil _ _)).1
  have hq : a.isRequest = false := ho.noRequest hmem a (List.mem_cons_self _ _)
  have ht : a.task? = none := ho.quiet _ hmem a (List.mem_cons_self _ _)
  have hfl : (c'.setScript (.worker i) rest).finishesLeft + finishes (a :: rest) =
      c.finishesLeft + finishes rest := by
    simpa [Config.finishesLeft, Config.setScript, hw, ht] using
      sum_map_set hsc (List.cons_ne_nil _ _) finishes rest
  simp only [hq, Bool.false_eq_true, if_false, add_zero] at hcpu
  simp only [finishes_cons] at hfl
  rw [← hp] at hh ha
  refine ⟨?_, ?_, fun hn => ?_⟩
  · show c'.cpuInUse ≤ _
    split at hcpu <;> omega
  · show heldBy c'.producer + _ ≤ c'.cpuInUse
    cases hf : a.isFinish <;> simp only [hf, Bool.false_eq_true, if_false, if_true] at hcpu hfl <;>
      omega
  · show c'.cpuInUse + requests c'.producer + _ =
      futureFinishes env opts.compLevel c'.producer + _ + _
    have := ha (by rw [← hx]; exact hn)
    cases hf : a.isFinish <;> simp only [hf, Bool.false_eq_true, if_false, if_true] at hcpu hfl <;>
      omega

theorem Permits.stepProc (h : Permits env opts P₀ c) (ho : Origin env opts.compLevel P₀ c)
    (hs : Shape P₀) (p : Proc) : Permits env opts P₀ (SoongZip.stepProc env opts c p) := by
  rcases stepProc_cases c p with heq | ⟨a, rest, c', hsc, he, heq⟩ | ⟨a, rest, x, hsc, -, heq⟩ <;>
    rw [heq]
  · exact h
  · cases p with
    | producer => exact h.producer ho hs hsc he
    | worker i => exact h.worker ho hsc he
  · obtain ⟨hb, hh, -⟩ := h
    cases p with
    | producer =>
      refine ⟨hb, ?_, fun hn => by simp at hn⟩
      show heldBy [] + c.finishesLeft ≤ c.cpuInUse
      rw [heldBy_nil]
      omega
    | worker i =>
      have hset := sum_map_set hsc (List.cons_ne_nil _ _) finishes []
      refine ⟨hb, ?_, fun hn => by simp at hn⟩
      simp only [Config.setScript, Config.finishesLeft, finishes, List.countP_nil] at hset hh ⊢
      omega

theorem Permits.stepWriter (h : Permits env opts P₀ c) (cs : Case) :
    Permits env opts P₀ (SoongZip.stepWriter env c cs) := by
  obtain ⟨hb, hh, ha⟩ := h
  have hcpu := stepWriter_cpuInUse env c cs
  rcases stepWriter_cases env c cs with hsame | ⟨p, e, rest, hsc, -, -, heq⟩
  · refine ⟨hcpu ▸ hb, ?_, fun hn => ?_⟩
    · rw [hcpu, Config.finishesLeft, hsame.producer, hsame.workers]
      exact hh
    · rw [hcpu, Config.finishesLeft, hsame.producer, hsame.workers]
      exact ha (hsame.panics ▸ hn)
  · rw [heq] at hcpu ⊢
    cases p with
    | producer =>
      have hsc : c.producer = .sendError e :: rest := hsc
      have hheld : heldBy (.sendError e :: rest) = heldBy rest := by
        simp [heldBy, permitOps, Action.permitOp?]
      have hff : futureFinishes env opts.compLevel (.sendError e :: rest) =
          futureFinishes env opts.compLevel rest := by
        simp [futureFinishes, workersOf, Action.task?]
      rw [hsc, hheld] at hh
      rw [hsc, hff] at ha
      refine ⟨hcpu ▸ hb, hcpu ▸ hh, fun hn => ?_⟩
      have := ha hn
      simp only [requests_cons, Action.isRequest, Bool.false_eq_true, if_false, add_zero] at this
      rw [hcpu]
      exact this
    | worker i =>
      have hset := sum_map_set hsc (List.cons_ne_nil _ _) finishes rest
      simp only [finishes_cons, Action.isFinish, Bool.false_eq_true, if_false, add_zero] at hset
      have hfl : (Config.finish { c.setScript (.worker i) rest with
          writer := { c.writer with err := some e } } (some e)).finishesLeft = c.finishesLeft := by
        simp only [Config.finish, Config.setScript, Config.finishesLeft] at hset ⊢
        omega
      refine ⟨hcpu ▸ hb, by rw [hcpu, hfl]; exact hh, fun hn => ?_⟩
      rw [hcpu, hfl]
      exact ha hn

theorem Permits.step (h : Permits env opts P₀ c) (ho : Origin env opts.compLevel P₀ c)
    (hs : Shape P₀) (s : Sched) : Permits env opts P₀ (SoongZip.step env opts c s) := by
  cases s with
  | writer cs => exact h.stepWriter cs
  | proc p => exact h.stepProc ho hs p

end Permits

/-! ### The runs of `write` -/

section Write

variable (env : Env) (opts : Options) (out : String) (ms : List PathMapping) (manifest : String)

/-- `write` starts with no worker running, no permit or memory in use and no panic, and a
producer of the producer's shape or none at all. -/
theorem write_start :
    let c₀ := write env opts out ms manifest
    c₀.workers = [] ∧ c₀.cpuInUse = 0 ∧ c₀.memInUse = 0 ∧ c₀.panics = [] ∧
      (c₀.producer = [] ∨ Script 0 c₀.producer) := by
  unfold write
  split
  · exact ⟨rfl, rfl, rfl, rfl, .inl rfl⟩
  · dsimp only
    split
    · exact ⟨rfl, rfl, rfl, rfl, .inl rfl⟩
    · exact ⟨rfl, rfl, rfl, rfl, .inr (producer_script env opts Tracker.empty _)⟩

theorem write_shape : Shape (write env opts out ms manifest).producer := by
  rcases (write_start env opts out ms manifest).2.2.2.2 with h | h
  · rw [h]
    exact ⟨.nil, by simp, by simp⟩
  · exact h.shape

variable {env opts out ms manifest}

/-- The permits and the origin of the scripts in every configuration of a run of `write`. -/
theorem write_permits {c : Config} (hr : Reachable env opts (write env opts out ms manifest) c) :
    Permits env opts (write env opts out ms manifest).producer c ∧
      Origin env opts.compLevel (write env opts out ms manifest).producer c := by
  induction hr with
  | init =>
    obtain ⟨hw, hcpu, -, -, -⟩ := write_start env opts out ms manifest
    have hheld : heldBy (write env opts out ms manifest).producer = 0 := by
      unfold heldBy
      rw [if_neg (write_shape env opts out ms manifest).alternates.2]
    refine ⟨⟨by omega, by simp [hheld, hcpu, Config.finishesLeft, hw], fun _ => ?_⟩,
      ⟨List.suffix_refl _, by simp [hw]⟩⟩
    simp [hcpu, Config.finishesLeft, hw]
    omega
  | step s _ ih => exact ⟨ih.1.step ih.2 (write_shape env opts out ms manifest) s, ih.2.step s⟩

end Write

end SoongZip
