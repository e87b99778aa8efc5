import SoongZip.Delivery

/-!
# What a run keeps while the writer runs

Four invariants of every run of `write`, each kept by one lemma per kind of step and carried
over the run by one induction on `Reachable` (`write_live`). The limiters stop exactly when
`z.errors` is closed: the deferred calls of `write` do both (`soong_zip.go:329–357`). A channel
some script closes is closed, or its close is still to come. The error of a worker the producer
has started waits in a running worker until the writer takes it. And every reader list has room
for all the reader slots of the run, or is still to be made by every script that enqueues on
it.
-/

namespace SoongZip

/-! ### What a step does to the limiters and the reader lists -/

section Frame

variable {env : Env} {opts : Options} {c c' : Config} {a : Action}

theorem exec_stopped (h : exec env opts c a = .next c') : c'.stopped = c.stopped := by
  cases a <;> simp only [exec, sendOn, closeOn] at h <;> repeat' split at h
  all_goals cases h
  all_goals rfl

/-- Only a `make` changes the capacity of a reader list, to the capacity it is made with. -/
theorem exec_readersCap (h : exec env opts c a = .next c') (k : Nat) :
    (∀ n, a ≠ .makeReaders k n) ∧ c'.readersCap k = c.readersCap k ∨
      ∃ n, a = .makeReaders k n ∧ c'.readersCap k = n := by
  cases a <;> simp only [exec, sendOn, closeOn] at h <;> repeat' split at h
  all_goals cases h
  all_goals try exact .inl ⟨nofun, rfl⟩
  rename_i k' n
  by_cases hk : k = k'
  · subst hk
    exact .inr ⟨n, rfl, by simp⟩
  · exact .inl ⟨by simp [Ne.symm hk], by simp [hk]⟩

@[simp] theorem Config.setScript_stopped (c : Config) (p : Proc) (s : List Action) :
    (c.setScript p s).stopped = c.stopped := by cases p <;> rfl

@[simp] theorem Config.setScript_readersCap (c : Config) (p : Proc) (s : List Action) :
    (c.setScript p s).readersCap = c.readersCap := by cases p <;> rfl

/-- The writer stops the limiters only as it closes `z.errors`, and makes no reader list. -/
theorem stepWriter_stopped (env : Env) (c : Config) (cs : Case) :
    ((stepWriter env c cs).stopped = c.stopped ∧
        (stepWriter env c cs).errorsClosed = c.errorsClosed ∨
      (stepWriter env c cs).stopped = true ∧ (stepWriter env c cs).errorsClosed = true) ∧
    (stepWriter env c cs).readersCap = c.readersCap := by
  cases cs <;> simp only [stepWriter] <;> repeat' split
  all_goals first
    | exact ⟨.inl ⟨rfl, rfl⟩, rfl⟩
    | exact ⟨.inr ⟨rfl, rfl⟩, by simp [Config.finish]⟩
    | ((simp only [recvWriteOp, recvEntry, recvReaders, recvData]; repeat' split) <;>
        first | exact ⟨.inl ⟨rfl, rfl⟩, rfl⟩ | exact ⟨.inr ⟨rfl, rfl⟩, rfl⟩)

end Frame

/-! ### Invariants over the scripts still to run -/

section Kept

variable {S : ChanName → List Msg} {a : Action} {rest : List Action}
  {Q pend pend' U : List (List Action)}

/-- Every reader list has room for the reader slots `S` gives it, or is still to be made by
every script of `pend` that enqueues on it. -/
def RoomKept (S : ChanName → List Msg) (pend : List (List Action)) (cap : Nat → Nat) : Prop :=
  ∀ k, (∀ u ∈ pend, ∀ n, .makeReaders k n ∈ u → (S (.readers k)).length ≤ n) ∧
    ((S (.readers k)).length ≤ cap k ∨ ∀ u ∈ pend, MadeFirst k u)

theorem MadeFirst.tail {k : Nat} (h : MadeFirst k (a :: rest)) (ha : ∀ n, a ≠ .makeReaders k n) :
    MadeFirst k rest := fun pre j post hr => by
  obtain ⟨n, hn⟩ := h (a :: pre) j post (by rw [hr]; rfl)
  rcases List.mem_cons.mp hn with hn | hn
  · exact absurd hn.symm (ha n)
  · exact ⟨n, hn⟩

theorem RoomKept.perm {cap : Nat → Nat} (h : RoomKept S pend cap) (hp : pend.Perm pend') :
    RoomKept S pend' cap := fun k =>
  ⟨fun u hu => (h k).1 u (hp.mem_iff.mpr hu),
    (h k).2.imp id fun hm u hu => hm u (hp.mem_iff.mpr hu)⟩

/-- A script takes a step: a `make` sets the capacity of its list. -/
theorem RoomKept.advance {cap cap' : Nat → Nat} (h : RoomKept S ((a :: rest) :: Q) cap)
    (hcap : ∀ k, (∀ n, a ≠ .makeReaders k n) ∧ cap' k = cap k ∨
      ∃ n, a = .makeReaders k n ∧ cap' k = n) :
    RoomKept S (rest :: Q) cap' := fun k => by
  obtain ⟨hroom, hmade⟩ := h k
  refine ⟨fun u hu n hn => ?_, ?_⟩
  · rcases List.mem_cons.mp hu with rfl | hu
    · exact hroom _ (.head _) n (.tail _ hn)
    · exact hroom u (.tail _ hu) n hn
  rcases hcap k with ⟨ha, hc⟩ | ⟨n, rfl, hc⟩
  · rw [hc]
    refine hmade.imp id fun hm u hu => ?_
    rcases List.mem_cons.mp hu with rfl | hu
    · exact (hm _ (.head _)).tail ha
    · exact hm u (.tail _ hu)
  · exact .inl (hc ▸ hroom _ (.head _) n (.head _))

theorem RoomKept.drop {cap : Nat → Nat} (h : RoomKept S ((a :: rest) :: Q) cap) :
    RoomKept S ([] :: Q) cap := fun k =>
  ⟨fun u hu n hn => by
    rcases List.mem_cons.mp hu with rfl | hu
    · cases hn
    · exact (h k).1 u (.tail _ hu) n hn,
   (h k).2.imp id fun hm u hu => by
    rcases List.mem_cons.mp hu with rfl | hu
    · exact .of_not_mem fun _ => List.not_mem_nil _
    · exact hm u (.tail _ hu)⟩

/-- Every channel a script of `U` closes is closed in `V`, or its close is in a script of
`pend`. -/
def ClosesKept (U pend : List (List Action)) (V : ChanName → Chan Msg) : Prop :=
  ∀ ch, ChanOp.close ∈ U.flatMap (opsOn ch) →
    (V ch).closed = true ∨ ChanOp.close ∈ pend.flatMap (opsOn ch)

theorem ClosesKept.perm {V : ChanName → Chan Msg} (h : ClosesKept U pend V)
    (hp : pend.Perm pend') : ClosesKept U pend' V := fun ch hc =>
  (h ch hc).imp id fun hm => by
    obtain ⟨u, hu, hm⟩ := List.mem_flatMap.mp hm
    exact List.mem_flatMap.mpr ⟨u, hp.mem_iff.mp hu, hm⟩

theorem ChanOp.apply_closed (op : ChanOp) {ch : Chan Msg} (h : ch.closed = true) :
    (op.apply ch).closed = true := by
  cases op <;> simp [ChanOp.apply, Chan.send, Chan.close, h]

/-- A script takes a step: a close closes its channel, and no channel is opened again. -/
theorem ClosesKept.advance {V : ChanName → Chan Msg} (h : ClosesKept U ((a :: rest) :: Q) V) :
    ClosesKept U (rest :: Q) (a.applyTo V) := fun ch hc => by
  have hclosed : (V ch).closed = true → (a.applyTo V ch).closed = true := fun hv => by
    unfold Action.applyTo
    split
    · exact ChanOp.apply_closed _ hv
    · exact hv
  rcases h ch hc with hv | hm
  · exact .inl (hclosed hv)
  rw [List.flatMap_cons, List.mem_append, opsOn_cons, List.mem_append] at hm
  rcases hm with (hm | hm) | hm
  · have hop : a.opOn ch = some .close := Option.mem_toList.mp hm
    left
    simp [Action.applyTo, hop, ChanOp.apply, Chan.close]
  · exact .inr (List.mem_flatMap.mpr ⟨rest, .head _, hm⟩)
  · obtain ⟨u, hu, hm⟩ := List.mem_flatMap.mp hm
    exact .inr (List.mem_flatMap.mpr ⟨u, .tail _ hu, hm⟩)

theorem ClosesKept.of_closed {V V' : ChanName → Chan Msg} (h : ClosesKept U pend V)
    (hV : ∀ ch, (V' ch).closed = (V ch).closed) : ClosesKept U pend V' := fun ch hc =>
  (h ch hc).imp (fun hv => (hV ch).trans hv) id

end Kept

/-! ### The invariant -/

/-- What the run of `write` from the producer's script `P₀` keeps: the limiters are stopped
exactly when `z.errors` is closed; while `z.errors` is open, a channel some script closes is
closed or has its close still to come; while the writer runs, a worker error the producer has
started waits in a running worker; and every reader list has room for the reader slots of the
run, or is still to be made by every script that enqueues on it. -/
structure Live (env : Env) (opts : Options) (P₀ : List Action) (c : Config) : Prop where
  stopped : c.stopped = c.errorsClosed
  closes : c.errorsClosed = false →
    ClosesKept (unitsOf env opts.compLevel P₀) (c.pending env opts.compLevel) c.view
  errors : c.writer.status = .running → ∀ X t, P₀ = X ++ c.producer → .spawn t ∈ X →
    (∃ a ∈ taskScript env opts.compLevel t, a.isSendError) → ∃ w ∈ c.workers, ∃ a ∈ w, a.isSendError
  room : RoomKept (sendsIn env opts.compLevel P₀) (c.pending env opts.compLevel) c.readersCap

theorem mem_set_or {α : Type} {W : List (List α)} {w : List α} (hw : w ∈ W) (i : Nat)
    (x : List α) : w ∈ W.set i x ∨ W.getD i [] = w := by
  obtain ⟨j, hj, rfl⟩ := List.mem_iff_getElem.mp hw
  by_cases hij : i = j
  · subst hij
    exact .inr (by simp [List.getD_eq_getElem?_getD, hj])
  · exact .inl (List.mem_iff_getElem.mpr ⟨j, by simpa using hj, by simp [List.getElem_set, hij]⟩)

section Step

variable {env : Env} {opts : Options} {P₀ : List Action} {S : ChanName → List Msg} {c : Config}

/-- A completed step of a goroutine keeps a started worker's error in a running worker. -/
theorem Live.errors_next (h : Live env opts P₀ c) (ho : Origin env opts.compLevel P₀ c)
    (hq : c.QuietWorkers) {p : Proc} {a : Action} {rest : List Action} {c' : Config}
    (hs : c.script p = a :: rest) (he : exec env opts c a = .next c') :
    (c'.setScript p rest).writer.status = .running → ∀ X t,
      P₀ = X ++ (c'.setScript p rest).producer → .spawn t ∈ X →
      (∃ b ∈ taskScript env opts.compLevel t, b.isSendError) →
      ∃ w ∈ (c'.setScript p rest).workers, ∃ b ∈ w, b.isSendError := by
  obtain ⟨hpc, hwc⟩ := exec_scripts he
  rw [Config.setScript_writer, (exec_frame he).1]
  intro hrun X t hX ht hse
  cases p with
  | producer =>
    obtain ⟨X₀, hX₀⟩ := ho.producer
    have hs : c.producer = a :: rest := hs
    have hXX : X = X₀ ++ [a] := by
      rw [hs] at hX₀
      simp only [Config.setScript] at hX
      exact List.append_cancel_right (hX.symm.trans (hX₀.symm.trans (by simp)))
    subst hXX
    simp only [Config.setScript, hwc]
    rcases List.mem_append.mp ht with ht | ht
    · obtain ⟨w, hw, hb⟩ := h.errors hrun X₀ t (by rw [hs] at hX₀; rw [← hX₀, hs]) ht hse
      exact ⟨w, List.mem_append_left _ hw, hb⟩
    · obtain rfl : a = .spawn t := (List.mem_singleton.mp ht).symm
      exact ⟨_, List.mem_append_right _ (by simp [Action.task?]), hse⟩
  | worker i =>
    have ha : a.task? = none := hq _ (script_worker_mem hs (List.cons_ne_nil _ _)).1 a (.head _)
    simp only [Config.setScript, hpc] at hX ⊢
    rw [hwc, ha, Option.map_none', Option.toList_none, List.append_nil]
    obtain ⟨w, hw, b, hb, hbe⟩ := h.errors hrun X t hX ht hse
    rcases mem_set_or hw i rest with hw' | hwi
    · exact ⟨w, hw', b, hb, hbe⟩
    · have hwi : w = a :: rest := hwi.symm.trans hs
      subst hwi
      rcases List.mem_cons.mp hb with rfl | hb
      · simp [isSendError_of_exec he] at hbe
      · refine ⟨rest, ?_, b, hb, hbe⟩
        have hi : i < c.workers.length := by
          by_contra hi
          simp [Config.script, List.getD_eq_getElem?_getD, List.getElem?_eq_none (Nat.le_of_not_lt hi)] at hs
        exact List.mem_iff_getElem.mpr ⟨i, by simpa using hi, by simp⟩

/-- A step of the producer or a worker keeps the invariant. -/
theorem Live.stepProc (h : Live env opts P₀ c) (hc : ChannelInv env opts S c) (hcalm : Calm c)
    (ho : Origin env opts.compLevel P₀ c) (p : Proc) :
    Live env opts P₀ (SoongZip.stepProc env opts c p) := by
  rcases stepProc_cases c p with heq | ⟨a, rest, c', hs, he, heq⟩ | ⟨a, rest, x, hs, hx, heq⟩ <;>
    rw [heq]
  · exact h
  · obtain ⟨Q, hP, hnext, -⟩ := pending_step env opts hc.quiet hs
    have hP' := hnext c' (exec_scripts he).1 (exec_scripts he).2
    obtain ⟨-, -, -, hec, -⟩ := exec_frame he
    refine ⟨?_, fun hcl => ?_, h.errors_next ho hc.quiet hs he, ?_⟩
    · simp [exec_stopped he, hec, h.stopped]
    · rw [Config.setScript_view, exec_view he]
      exact ((h.closes (by simpa [hec] using hcl)).perm hP).advance.perm hP'.symm
    · rw [Config.setScript_readersCap]
      exact ((h.room.perm hP).advance (exec_readersCap he)).perm hP'.symm
  · obtain ⟨Q, hP, -, hpan⟩ := pending_step env opts hc.quiet hs
    obtain ⟨-, hec⟩ := hc.exec_panic hs hx
    have hP' := hpan (c.panics ++ [x]) fun b hb =>
      hc.disciplined.quietAfterError _ (hP.mem_iff.mpr (.head _)) b (by
        simpa [List.dropWhile_cons, (hc.exec_panic hs hx).1] using hb) |>.2
    refine ⟨by simpa using h.stopped, fun hcl => by simp [hec] at hcl, fun hrun => ?_,
      by simpa using (h.room.perm hP).drop.perm hP'.symm⟩
    simp only [Config.setScript_writer] at hrun
    simp [(hcalm.running hrun).1] at hec

/-- A step of the writer keeps the invariant. -/
theorem Live.stepWriter (h : Live env opts P₀ c) (hc : ChannelInv env opts S c) (cs : Case) :
    Live env opts P₀ (SoongZip.stepWriter env c cs) := by
  obtain ⟨hsc, hcap⟩ := stepWriter_stopped env c cs
  rcases stepWriter_cases env c cs with hs | ⟨p, e, rest, hsp, hrun, -, heq⟩
  · have hpend : (SoongZip.stepWriter env c cs).pending env opts.compLevel =
        c.pending env opts.compLevel := by simp [Config.pending, hs.producer, hs.workers]
    refine ⟨?_, fun hcl => ?_, fun hrun X t hX ht hse => ?_, ?_⟩
    · rcases hsc with ⟨h1, h2⟩ | ⟨h1, h2⟩ <;> simp [h1, h2, h.stopped]
    · have hcl' : c.errorsClosed = false := by
        rcases hsc with ⟨-, h2⟩ | ⟨-, h2⟩ <;> simp_all
      rw [hpend]
      exact (h.closes hcl').of_closed fun ch => (hs.view ch).2
    · have hrun' : c.writer.status = .running := by
        by_contra hn
        rw [stepWriter_of_not_running env hn] at hrun
        exact hn hrun
      rw [hs.producer] at hX
      rw [hs.workers]
      exact h.errors hrun' X t hX ht hse
    · rw [hpend, hcap]
      exact h.room
  · rw [heq]
    obtain ⟨Q, hP, hnext, -⟩ := pending_step env opts hc.quiet hsp
    have hP' := hnext c rfl (by simp [Action.task?])
    refine ⟨by simp [Config.finish], fun hcl => by simp [Config.finish] at hcl,
      fun hr => by simp at hr, ?_⟩
    have hpend : (Config.finish { c.setScript p rest with writer := { c.writer with err := some e } }
        (some e)).pending env opts.compLevel = (c.setScript p rest).pending env opts.compLevel := rfl
    rw [hpend]
    simpa [Config.finish] using (h.room.perm hP).advance (fun k => .inl ⟨nofun, rfl⟩) |>.perm hP'.symm

end Step

/-! ### Every run of `write` -/

section Write

variable {env : Env} {opts : Options} {out : String} {ms : List PathMapping} {manifest : String}

theorem write_pending (env : Env) (opts : Options) (out : String) (ms : List PathMapping)
    (manifest : String) :
    (write env opts out ms manifest).pending env opts.compLevel =
      unitsOf env opts.compLevel (write env opts out ms manifest).producer := by
  simp [Config.pending, unitsOf, workersOf, (write_start env opts out ms manifest).1]

/-- The invariant holds all along every run of `write`. -/
theorem write_live {c : Config} (hr : Reachable env opts (write env opts out ms manifest) c) :
    Live env opts (write env opts out ms manifest).producer c := by
  have hS := carried_eq_sendsIn env opts (write_start env opts out ms manifest).1
  induction hr with
  | init =>
    have hroom := write_roomy env opts out ms manifest
    refine ⟨?_, fun _ ch hch => .inr ?_, fun _ X t hX ht _ => ?_, fun k =>
      ⟨fun u hu n hn => hroom.room u ?_ k n hn, .inr fun u hu => hroom.madeFirst u ?_ k⟩⟩
    · unfold write
      split
      · rfl
      dsimp only
      split <;> rfl
    · rwa [write_pending]
    · rw [List.append_left_eq_self.mp hX.symm] at ht
      cases ht
    · rwa [← write_pending]
    · rwa [← write_pending]
  | step s hr' ih =>
    have hc := hS ▸ write_channelInv env opts out ms manifest hr'
    cases s with
    | proc p =>
      exact ih.stepProc hc (write_limits env opts out ms manifest hr').1 (write_permits hr').2 p
    | writer cs => exact ih.stepWriter hc cs

end Write

end SoongZip
