import SoongZip.Room

/-!
# What the producer's script delivers

Facts about the producer's script that the writer and the rate limiter rely on while a run is
under way. Each `Request` of the producer is followed by the `go` statement it is for, unless a
window read fails right after it (`soong_zip.go:604–622`), so before any `Request` the permits
requested match the workers started (`Script.requests_eq_tasks`). A worker that does not fail
gives its permit back. A block whose workers do not fail delivers its entry and a buffer on each
of its reader slots, and closes its reader list (`Block.complete`). And the block of any slot
the producer has pushed, before it stops at a push, lies wholly before it (`Script.locate`).
-/

namespace SoongZip

/-! ### Permits and the workers they are for -/

section Pairs

/-- Before each `Request` (`false`) of the list, the `Request`s and `go` statements pair up. -/
def Matched (l : List Bool) : Prop :=
  ∀ L₁ L₂, l = L₁ ++ false :: L₂ → L₁.count false = L₁.count true

theorem Matched.append {l₁ l₂ : List Bool} (h₁ : Matched l₁)
    (hb : l₁.count false = l₁.count true) (h₂ : Matched l₂) : Matched (l₁ ++ l₂) := by
  intro L₁ L₂ h
  rcases List.append_eq_append_iff.mp h with ⟨a', rfl, h'⟩ | ⟨c', rfl, h'⟩
  · simp [List.count_append, hb, h₂ a' L₂ h']
  · cases c' with
    | nil => simpa using hb
    | cons x c'' =>
      obtain ⟨rfl, rfl⟩ := List.cons.inj h'
      exact h₁ L₁ c'' rfl

theorem matched_nil : Matched [] := fun L₁ L₂ h => by simp at h

theorem matched_request : Matched [false] := fun L₁ L₂ h => by
  rcases L₁ with _ | ⟨x, L₁⟩ <;> simp_all

theorem matched_pair : Matched [false, true] := fun L₁ L₂ h => by
  rcases L₁ with _ | ⟨x, _ | ⟨y, L₁⟩⟩ <;> simp_all

theorem Loop.matched {k j : Nat} {acts : List Action} {err : Option GoError}
    (h : Loop k j acts err) :
    Matched (permitOps acts) ∧
      (err = none → (permitOps acts).count false = (permitOps acts).count true) := by
  induction h with
  | done => exact ⟨matched_nil, fun _ => rfl⟩
  | fail => exact ⟨matched_request, nofun⟩
  | @next j r start dict last acts err _ ih =>
    show Matched ([false, true] ++ permitOps acts) ∧
      (err = none → ([false, true] ++ permitOps acts).count false =
        ([false, true] ++ permitOps acts).count true)
    exact ⟨matched_pair.append rfl ih.1, fun he => by simp [List.count_append, ih.2 he]⟩

theorem Block.matched {k : Nat} {b : List Action} (h : Block k b) :
    Matched (permitOps b) ∧ (permitOps b).count false = (permitOps b).count true := by
  cases h with
  | @split ze r cap loop _ hl =>
    have hp : permitOps (splitHead k ze r cap ++ loop ++ [.closeReaders k]) =
        [false, true] ++ permitOps loop := by simp [permitOps, splitHead, Action.permitOp?]
    rw [hp]
    exact ⟨matched_pair.append rfl hl.matched.1, by simp [List.count_append, hl.matched.2 rfl]⟩
  | whole => exact ⟨matched_pair, rfl⟩
  | _ => exact ⟨matched_nil, rfl⟩

theorem Script.matched {k : Nat} {P : List Action} (h : Script k P) : Matched (permitOps P) := by
  induction h with
  | done | fail | hang => exact matched_nil
  | failSplit k e hf =>
    cases hf with
    | @mk ze r cap loop e' _ hl =>
      have hp : permitOps (splitHead k ze r cap ++ loop ++ [.sendError e, .closeWriteOps]) =
          [false, true] ++ permitOps loop := by simp [permitOps, splitHead, Action.permitOp?]
      rw [hp]
      exact matched_pair.append rfl hl.matched.1
  | block hb _ ih =>
    rw [permitOps, List.filterMap_append]
    exact hb.matched.1.append hb.matched.2 ih

theorem requests_eq_count (s : List Action) : requests s = (permitOps s).count false := by
  induction s with
  | nil => rfl
  | cons a s ih => cases a <;> simp [requests_cons, permitOps, Action.isRequest, Action.permitOp?, ih]

theorem tasks_eq_count (s : List Action) :
    (s.filterMap Action.task?).length = (permitOps s).count true := by
  induction s with
  | nil => rfl
  | cons a s ih => cases a <;> simp [permitOps, Action.task?, Action.permitOp?, ih]

/-- Before any `Request` of the producer, it has requested one permit per worker it started. -/
theorem Script.requests_eq_tasks {k : Nat} {P X Y : List Action} (h : Script k P) {k' : Nat}
    (hP : P = X ++ .cpuRequest k' :: Y) : requests X = (X.filterMap Action.task?).length := by
  rw [requests_eq_count, tasks_eq_count]
  exact h.matched _ (permitOps Y) (by simp [hP, permitOps, Action.permitOp?])

end Pairs

/-! ### Permits given back -/

section Finishes

variable (env : Env) (level : Int)

/-- Workers that send no error give back one permit each. -/
theorem futureFinishes_of_ok {X : List Action}
    (hok : ∀ u ∈ workersOf env level X, ∀ a ∈ u, a.isSendError = false) :
    futureFinishes env level X = (X.filterMap Action.task?).length := by
  simp only [futureFinishes, workersOf] at hok ⊢
  generalize X.filterMap Action.task? = ts at hok ⊢
  induction ts with
  | nil => rfl
  | cons t ts ih =>
    simp only [List.map_cons, List.mem_cons, forall_eq_or_imp] at hok
    simp only [List.map_cons, List.sum_cons, List.length_cons, taskScript_finishes env level t hok.1,
      ih hok.2]
    omega

end Finishes

/-- A producer that does not hang ends by closing `z.writeOps`. -/
theorem Script.closeWriteOps_mem {k : Nat} {P : List Action} (h : Script k P) (hh : .hang ∉ P) :
    .closeWriteOps ∈ P := by
  induction h with
  | done | fail | failSplit => simp
  | hang => simp at hh
  | block _ _ ih => exact List.mem_append_right _ (ih fun h => hh (List.mem_append_right _ h))

/-! ### What a block whose workers succeed delivers -/

section Complete

variable {env : Env} {level : Int}

/-- A block loop whose workers succeed fills every reader slot it enqueues. -/
theorem Loop.delivers {k j : Nat} {acts : List Action} {err : Option GoError}
    (h : Loop k j acts err) (he : err = none)
    (hok : ∀ u ∈ workersOf env level acts, ∀ a ∈ u, a.isSendError = false) :
    ∀ j', Msg.reader j' ∈ sendsOf (opsOn (.readers k) acts) →
      ∃ d, Msg.data d ∈ sendsOf ((workersOf env level acts).flatMap (opsOn (.data k j'))) := by
  induction h with
  | done => simp
  | fail => cases he
  | @next j r start dict last acts err _ ih =>
    have hw : workersOf env level (.sendReader k j :: .cpuRequest k ::
        .spawn (.compressPartialFile k j r start dict last) :: acts) =
        compressPartialFile env level k j r start dict last :: workersOf env level acts := by
      simp [workersOf, Action.task?, taskScript]
    have hrd : sendsOf (opsOn (.readers k) (.sendReader k j :: .cpuRequest k ::
        .spawn (.compressPartialFile k j r start dict last) :: acts)) =
        .reader j :: sendsOf (opsOn (.readers k) acts) := by
      simp [opsOn, Action.opOn, Action.chanOp?, sendsOf, ChanOp.msg?]
    rw [hw] at hok ⊢
    rw [hrd]
    intro j' hj'
    rcases compressPartialFile_cases env level k j r start dict last with ⟨e, hp⟩ | ⟨d, hp⟩
    · simp [hp, Action.isSendError] at hok
    rcases List.mem_cons.mp hj' with hj' | hj'
    · cases hj'
      exact ⟨d, by simp [hp, opsOn, Action.opOn, Action.chanOp?, sendsOf, ChanOp.msg?]⟩
    · obtain ⟨d', hd'⟩ := ih he (fun u hu => hok u (.tail _ hu)) j' hj'
      exact ⟨d', by rw [List.flatMap_cons, sendsOf_append]; exact List.mem_append_right _ hd'⟩

/-- A block whose workers send no error delivers its entry and a buffer on each reader slot of
its reader list, and closes that list. -/
theorem Block.complete {k : Nat} {b : List Action} (h : Block k b)
    (hok : ∀ u ∈ workersOf env level b, ∀ a ∈ u, a.isSendError = false) :
    Delivered (sendsIn env level b) k ∧
      ∀ ze, entryOf (sendsIn env level b) k = some ze → ze.futureReaders = some k →
        ChanOp.close ∈ (unitsOf env level b).flatMap (opsOn (.readers k)) := by
  cases h with
  | dir ze hze _ =>
    have he : entryOf (sendsIn env level [.sendEntry k ze, .closeEntry k, .sendWriteOp k]) k =
        some ze := by
      simp [entryOf, sendsIn, unitsOf, workersOf, Action.task?, opsOn, Action.opOn,
        Action.chanOp?, sendsOf, ChanOp.msg?, Msg.entry?]
    refine ⟨⟨ze, he, fun r hr => by simp [hze] at hr⟩, fun ze' he' hr => ?_⟩
    rw [he] at he'
    cases he'
    simp [hze] at hr
  | symlink ze d hze _ =>
    refine ⟨⟨ze, ?_, fun r hr j hj => ?_⟩, fun _ _ _ => ?_⟩
    · simp [entryOf, sendsIn, unitsOf, workersOf, Action.task?, opsOn_cons, Action.opOn,
        Action.chanOp?, Msg.entry?]
    · rw [hze] at hr
      cases hr
      simp [readersOf, sendsIn, unitsOf, workersOf, Action.task?, opsOn_cons, Action.opOn,
        Action.chanOp?, Msg.reader?] at hj
      subst hj
      simp [dataOf, sendsIn, unitsOf, workersOf, Action.task?, opsOn_cons, Action.opOn,
        Action.chanOp?, Msg.data?]
    · simp [unitsOf, workersOf, Action.task?, opsOn_cons, Action.opOn, Action.chanOp?]
  | whole ze r =>
    have hw : workersOf env level [.sendWriteOp k, .cpuRequest k, .memRequest k ze.allocatedSize,
        .spawn (.compressWholeFile k ze r)] = [compressWholeFile env level k ze r] := by
      simp [workersOf, Action.task?, taskScript]
    rw [hw] at hok
    rcases compressWholeFile_cases env level k ze r with ⟨e, hc⟩ | ⟨e, hc⟩ | ⟨fh, d, hc, -⟩ <;>
      rw [hc] at hok
    · simp [Action.isSendError] at hok
    · simp [Action.isSendError] at hok
    refine ⟨⟨{ ze with fh := fh, futureReaders := some k }, ?_, fun r hr j hj => ?_⟩,
      fun _ _ _ => ?_⟩
    · simp [entryOf, sendsIn, unitsOf, hw, hc, wholeFileTail, opsOn_cons, Action.opOn,
        Action.chanOp?, Msg.entry?]
    · cases hr
      simp [readersOf, sendsIn, unitsOf, hw, hc, wholeFileTail, opsOn_cons, Action.opOn,
        Action.chanOp?, Msg.reader?] at hj
      subst hj
      simp [dataOf, sendsIn, unitsOf, hw, hc, wholeFileTail, opsOn_cons, Action.opOn,
        Action.chanOp?, Msg.data?]
    · simp [unitsOf, hw, hc, wholeFileTail, opsOn_cons, Action.opOn, Action.chanOp?]
  | @split ze r cap loop hze hl =>
    obtain ⟨he, hr, hdata⟩ := split_sends env level ze r cap hl _ (.inr rfl)
    have hw : workersOf env level (splitHead k ze r cap ++ loop ++ [.closeReaders k]) =
        crcFile env k r ze :: workersOf env level loop := by
      simp [splitHead, workersOf, Action.task?, taskScript]
    rw [hw] at hok
    rcases crcFile_cases env k r ze with ⟨e, hc⟩ | hc
    · simp [hc, Action.isSendError] at hok
    have hent : entryOf (sendsIn env level (splitHead k ze r cap ++ loop ++ [.closeReaders k])) k =
        some { ze with fh := { ze.fh with crc32 := Crc32.checksumIEEE (env.data r) } } := by
      rw [entryOf, he, hc]
      simp [opsOn_cons, Action.opOn, Action.chanOp?, Msg.entry?]
    refine ⟨⟨_, hent, fun r' hr' j hj => ?_⟩, fun _ _ _ => ?_⟩
    · simp only [hze, Option.some.injEq] at hr'
      subst hr'
      rw [readersOf, hr] at hj
      obtain ⟨m, hm, hmj⟩ := List.mem_filterMap.mp hj
      cases m <;> simp [Msg.reader?] at hmj
      subst hmj
      obtain ⟨d, hd⟩ := hl.delivers rfl (fun u hu => hok u (.tail _ hu)) _ hm
      rw [dataOf, hdata]
      exact List.head?_isSome.mpr (List.ne_nil_of_mem (List.mem_filterMap.mpr ⟨_, hd, rfl⟩))
    · simp [unitsOf, opsOn_append, opsOn_cons, Action.opOn, Action.chanOp?]

end Complete

/-! ### Where the producer is -/

section Locate

theorem Block.writeOps {k : Nat} {b : List Action} (h : Block k b) :
    opsOn .writeOps b = [.send (.op k)] := by
  cases h with
  | split ze r cap _ hl =>
    simp [splitHead, hl.silent_writeOps, opsOn_cons, Action.opOn, Action.chanOp?]
  | _ => simp [opsOn_cons, Action.opOn, Action.chanOp?]

theorem FailedSplit.writeOps {k : Nat} {f : List Action} (h : FailedSplit k f) :
    opsOn .writeOps f = [.send (.op k)] := by
  cases h with
  | mk ze r cap e _ hl => simp [splitHead, hl.silent_writeOps, opsOn_cons, Action.opOn, Action.chanOp?]

/-- A piece that pushes slot `k` once, cut after the push: the rest pushes nothing. -/
theorem writeOps_after_push {X c' : List Action} {k k₁ : Nat}
    (h : opsOn .writeOps (X ++ c') = [.send (.op k)])
    (hk : Msg.op k₁ ∈ sendsOf (opsOn .writeOps X)) : k₁ = k ∧ opsOn .writeOps c' = [] := by
  rw [opsOn_append] at h
  rcases hX : opsOn .writeOps X with _ | ⟨x, xs⟩
  · rw [hX] at hk
    cases hk
  · rw [hX, List.cons_append, List.cons.injEq, List.append_eq_nil] at h
    obtain ⟨rfl, rfl, hc⟩ := h
    rw [hX] at hk
    simpa using And.intro hk hc

/-- A script that pushes nothing does not start with a push. -/
theorem not_push_head {c' Z : List Action} (hc : opsOn .writeOps c' = []) (hne : c' ≠ [])
    (hY : ∀ a ∈ (c' ++ Z).head?, ∃ k', a = .sendWriteOp k') : False := by
  obtain ⟨x, c'', rfl⟩ := List.exists_cons_of_ne_nil hne
  obtain ⟨k', rfl⟩ := hY x (by simp)
  simp [opsOn_cons, Action.opOn, Action.chanOp?] at hc

/-- Where the producer stops, at a push or at its end, with no error sent: the block of each
slot it has pushed lies wholly before it, after complete blocks for the slots before, and what
follows that block is a script for the slots after. -/
theorem Script.locate {k : Nat} {P : List Action} (h : Script k P) {X Y : List Action}
    (hP : P = X ++ Y) (hX : ∀ a ∈ X, a.isSendError = false)
    (hY : ∀ a ∈ Y.head?, ∃ k', a = .sendWriteOp k') {k₁ : Nat}
    (hk : Msg.op k₁ ∈ sendsOf (opsOn .writeOps X)) :
    ∃ X₁ b X₂, X = X₁ ++ b ++ X₂ ∧ Blocks k k₁ X₁ ∧ Block k₁ b ∧ Script (k₁ + 1) (X₂ ++ Y) := by
  induction h generalizing X Y with
  | done | fail | hang =>
    have hs := congrArg (fun P => sendsOf (opsOn .writeOps P)) hP
    simp [opsOn_cons, Action.opOn, Action.chanOp?] at hs
    rw [hs.1] at hk
    cases hk
  | failSplit k e hf =>
    rcases List.append_eq_append_iff.mp hP with ⟨a', rfl, ht⟩ | ⟨c', rfl, rfl⟩
    · cases a' with
      | nil =>
        rw [List.nil_append] at ht
        subst ht
        obtain ⟨k', hk'⟩ := hY (.sendError e) (by simp)
        cases hk'
      | cons x a'' =>
        obtain ⟨rfl, -⟩ := List.cons.inj ht
        simpa [Action.isSendError] using hX (.sendError e) (by simp)
    · obtain ⟨rfl, hc⟩ := writeOps_after_push hf.writeOps hk
      cases c' with
      | nil =>
        obtain ⟨k', hk'⟩ := hY (.sendError e) (by simp)
        cases hk'
      | cons x c'' => exact (not_push_head hc (List.cons_ne_nil _ _) hY).elim
  | @block k b rest hb hr ih =>
    rcases List.append_eq_append_iff.mp hP with ⟨a', rfl, rfl⟩ | ⟨c', rfl, rfl⟩
    · rw [opsOn_append, sendsOf_append, hb.writeOps] at hk
      rcases List.mem_append.mp hk with hk | hk
      · simp only [sendsOf_send, sendsOf_nil, List.mem_singleton, Msg.op.injEq] at hk
        subst hk
        exact ⟨[], b, a', by simp, .nil _, hb, hr⟩
      · obtain ⟨X₁, b', X₂, rfl, hbs, hb', hs⟩ :=
          ih rfl (fun a ha => hX a (List.mem_append_right _ ha)) hY hk
        exact ⟨b ++ X₁, b', X₂, by simp, .cons hb hbs, hb', hs⟩
    · obtain ⟨rfl, hc⟩ := writeOps_after_push hb.writeOps hk
      cases c' with
      | nil => exact ⟨[], X, [], by simp, .nil _, by simpa using hb, by simpa using hr⟩
      | cons x c'' => exact (not_push_head hc (List.cons_ne_nil _ _) hY).elim

end Locate

end SoongZip
