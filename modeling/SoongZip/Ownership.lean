import SoongZip.Scripts

/-!
# Every channel has one owner

The scripts a run of `write` starts from — the producer's and those of all the workers it will
start — keep the channel discipline of `SoongZip.Channels`: each data channel is operated on by
one of them, which closes it at most once and last, sends nothing after an error, and sends a
value on an entry or reader slot before closing it. The proof follows the shape of the
producer's script (`SoongZip.Scripts`): each block is well formed on its own, and blocks for
different entries share no channel but `z.writeOps`.
-/

namespace SoongZip

/-! ### Checks on one script -/

/-- The channel an operation sends on or closes. -/
def Action.chan? (a : Action) : Option ChanName := a.chanOp?.map Prod.fst

/-- Whether an operation closes a data channel. -/
def Action.isClose (a : Action) : Bool :=
  match a.chanOp? with
  | some (_, .close) => true
  | _ => false

/-- Every close is the last operation of its script on its channel. -/
def closesLast : List Action → Bool
  | [] => true
  | a :: rest =>
    (match a.chanOp? with
      | some (ch, .close) => rest.all fun b => b.chan? != some ch
      | _ => true) && closesLast rest

/-- Every close of an entry or reader slot follows a send on it, the slots in `sent` having
been sent on already. -/
def closesFilled (sent : List ChanName) : List Action → Bool
  | [] => true
  | a :: rest =>
    match a.chanOp? with
    | some (ch, .close) => (!ch.carriesValue || decide (ch ∈ sent)) && closesFilled sent rest
    | some (ch, .send _) => closesFilled (ch :: sent) rest
    | none => closesFilled sent rest

/-- Nothing after the first `z.errors <- err` sends or starts a goroutine. -/
def quietAfterError (s : List Action) : Bool :=
  (s.dropWhile fun a => !a.isSendError).all fun a => !a.isSend && a.task?.isNone

/-- The checks one script passes on its own. -/
structure LocalWF (s : List Action) : Prop where
  closesLast : closesLast s = true
  closesFilled : closesFilled [] s = true
  quiet : quietAfterError s = true

theorem opOn_eq_none_of_chan {a : Action} {ch : ChanName} (h : a.chan? ≠ some ch) :
    a.opOn ch = none := by
  unfold Action.opOn
  unfold Action.chan? at h
  split
  · rename_i ch' op hop
    rw [hop] at h
    simp only [Option.map_some', ne_eq, Option.some.injEq] at h
    simp [h]
  · rfl

theorem opsOn_eq_nil_of_all {s : List Action} {ch : ChanName}
    (h : s.all (fun b => b.chan? != some ch) = true) : opsOn ch s = [] := by
  refine List.filterMap_eq_nil_iff.mpr fun a ha => opOn_eq_none_of_chan ?_
  simpa using List.all_eq_true.mp h a ha

theorem close_not_mem_dropLast_of_closesLast {s : List Action} (h : closesLast s = true)
    (ch : ChanName) : ChanOp.close ∉ (opsOn ch s).dropLast := by
  induction s with
  | nil => simp
  | cons a s ih =>
    simp only [closesLast, Bool.and_eq_true] at h
    cases hop : a.chanOp? with
    | none => rw [opsOn_cons_of_none hop]; exact ih h.2
    | some p =>
      obtain ⟨ch', op⟩ := p
      rw [hop] at h
      by_cases hch : ch' = ch
      · subst hch
        rw [opsOn_cons_self hop]
        cases op with
        | close => simp [opsOn_eq_nil_of_all h.1]
        | send m =>
          have := ih h.2
          revert this
          cases opsOn ch' s <;> simp
      · rw [opsOn_cons_of_ne hop hch]
        exact ih h.2

theorem closesFilled_sound {sent : List ChanName} {s : List Action}
    (h : closesFilled sent s = true) {ch : ChanName} (hv : ch.carriesValue = true)
    (hc : ChanOp.close ∈ opsOn ch s) : ch ∈ sent ∨ sendsOf (opsOn ch s) ≠ [] := by
  induction s generalizing sent with
  | nil => simp at hc
  | cons a s ih =>
    cases hop : a.chanOp? with
    | none =>
      simp only [closesFilled, hop] at h
      rw [opsOn_cons_of_none hop] at hc ⊢
      exact ih h hc
    | some p =>
      obtain ⟨ch', op⟩ := p
      by_cases hch : ch' = ch
      · subst hch
        rw [opsOn_cons_self hop]
        cases op with
        | close =>
          simp only [closesFilled, hop, Bool.and_eq_true, Bool.or_eq_true, Bool.not_eq_true',
            decide_eq_true_eq] at h
          exact .inl (h.1.resolve_left (by simp [hv]))
        | send m => exact .inr (by simp)
      · rw [opsOn_cons_of_ne hop hch] at hc ⊢
        cases op with
        | close =>
          simp only [closesFilled, hop, Bool.and_eq_true] at h
          exact ih h.2 hc
        | send m =>
          simp only [closesFilled, hop] at h
          exact (ih h hc).imp_left fun h1 => (List.mem_cons.mp h1).resolve_left (Ne.symm hch)

theorem quietAfterError_sound {s : List Action} (h : quietAfterError s = true) :
    ∀ a ∈ s.dropWhile (fun a => !a.isSendError), a.isSend = false ∧ a.task? = none := by
  intro a ha
  simpa using List.all_eq_true.mp h a ha

/-- Scripts that each pass the local checks and of which at most one operates on each channel
are well formed. -/
theorem WellFormed.of_local {P : List (List Action)} (hl : ∀ s ∈ P, LocalWF s)
    (ho : ∀ ch, P.Pairwise (Apart ch)) : WellFormed P where
  owned := ho
  closeLast ch s hs := close_not_mem_dropLast_of_closesLast (hl s hs).closesLast ch
  quietAfterError s hs := quietAfterError_sound (hl s hs).quiet
  closeHasValue ch hv hc := by
    obtain ⟨s, hs, hcs⟩ := List.mem_flatMap.mp hc
    have hsend := (closesFilled_sound (hl s hs).closesFilled hv hcs).resolve_left
      (List.not_mem_nil _)
    intro hnil
    refine hsend (List.filterMap_eq_nil_iff.mpr fun o ho => ?_)
    exact List.filterMap_eq_nil_iff.mp hnil o (List.mem_flatMap.mpr ⟨s, hs, ho⟩)

/-! #### Scripts without closes or errors -/

theorem closesLast_append_of_noClose {s : List Action} (h : ∀ a ∈ s, a.isClose = false)
    (s' : List Action) : closesLast (s ++ s') = closesLast s' := by
  induction s with
  | nil => rfl
  | cons a s ih =>
    have ha := h a (.head _)
    unfold Action.isClose at ha
    rw [List.cons_append, closesLast, ih fun b hb => h b (.tail _ hb)]
    split
    · rename_i hop
      simp [hop] at ha
    · rfl

theorem closesFilled_of_noValueClose {s : List Action}
    (h : ∀ a ∈ s, ∀ ch, a.chanOp? = some (ch, .close) → ch.carriesValue = false) :
    ∀ sent, closesFilled sent s = true := by
  induction s with
  | nil => intro; rfl
  | cons a s ih =>
    intro sent
    have ih' := ih fun b hb => h b (.tail _ hb)
    unfold closesFilled
    split
    · rename_i ch hop
      simp [h a (.head _) ch hop, ih']
    · exact ih' _
    · exact ih' _

theorem quietAfterError_of_noSendError {s : List Action} (h : ∀ a ∈ s, a.isSendError = false) :
    quietAfterError s = true := by
  have : s.dropWhile (fun a => !a.isSendError) = [] := by
    induction s with
    | nil => rfl
    | cons a s ih => simp [List.dropWhile_cons, h a (.head _), ih fun b hb => h b (.tail _ hb)]
  simp [quietAfterError, this]

/-! ### The channels a script operates on -/

/-- The entry a data channel belongs to. -/
def ChanName.index? : ChanName → Option Nat
  | .entry k => some k
  | .readers k => some k
  | .data k _ => some k
  | _ => none

/-- Script `s` operates only on channels satisfying `p`. -/
def Touches (s : List Action) (p : ChanName → Prop) : Prop := ∀ ch, opsOn ch s ≠ [] → p ch

theorem touches_of_chan {s : List Action} {p : ChanName → Prop}
    (h : ∀ a ∈ s, ∀ ch, a.chan? = some ch → p ch) : Touches s p := by
  intro ch hne
  by_contra hp
  exact hne (List.filterMap_eq_nil_iff.mpr fun a ha =>
    opOn_eq_none_of_chan fun hc => hp (h a ha ch hc))

theorem Touches.mono {s : List Action} {p q : ChanName → Prop} (h : Touches s p)
    (hpq : ∀ ch, p ch → q ch) : Touches s q := fun ch hne => hpq ch (h ch hne)

theorem Touches.append {s s' : List Action} {p : ChanName → Prop} (h : Touches s p)
    (h' : Touches s' p) : Touches (s ++ s') p := by
  intro ch hne
  rw [opsOn_append] at hne
  by_cases hs : opsOn ch s = []
  · exact h' ch (by simpa [hs] using hne)
  · exact h ch hs

theorem Touches.silent {s : List Action} {p : ChanName → Prop} (h : Touches s p) {ch : ChanName}
    (hp : ¬p ch) : opsOn ch s = [] := by
  by_contra hne
  exact hp (h ch hne)

theorem Apart.of_touches {s s' : List Action} {p q : ChanName → Prop} (h : Touches s p)
    (h' : Touches s' q) {ch : ChanName} (hpq : ¬(p ch ∧ q ch)) : Apart ch s s' := by
  by_contra hn
  simp only [Apart, not_or] at hn
  exact hpq ⟨h ch hn.1, h' ch hn.2⟩

/-! ### Joining the scripts of two pieces -/

/-- The scripts of the workers a script starts. -/
def workersOf (env : Env) (level : Int) (s : List Action) : List (List Action) :=
  (s.filterMap Action.task?).map (taskScript env level)

@[simp] theorem workersOf_append (env : Env) (level : Int) (s s' : List Action) :
    workersOf env level (s ++ s') = workersOf env level s ++ workersOf env level s' := by
  simp [workersOf]

theorem not_mem_dropLast_append {o : ChanOp} {l l' : List ChanOp} (h : o ∉ l)
    (h' : o ∉ l'.dropLast) : o ∉ (l ++ l').dropLast := by
  rw [List.dropLast_append]
  split
  · exact fun hm => h (List.dropLast_subset _ hm)
  · simp [h, h']

/-- Two pieces that share only `z.writeOps`, which the first only sends on, and whose workers
leave `z.writeOps` alone, make a well-formed whole when the first sends no error. -/
theorem WellFormed.append {b r : List Action} {T₁ T₂ : List (List Action)}
    (h₁ : WellFormed (b :: T₁)) (h₂ : WellFormed (r :: T₂))
    (hsep : ∀ ch, ch ≠ .writeOps →
      (∀ u ∈ b :: T₁, opsOn ch u = []) ∨ ∀ u ∈ r :: T₂, opsOn ch u = [])
    (hT : ∀ u ∈ T₁ ++ T₂, opsOn .writeOps u = []) (hbw : ChanOp.close ∉ opsOn .writeOps b)
    (hbe : ∀ a ∈ b, a.isSendError = false) : WellFormed ((b ++ r) :: (T₁ ++ T₂)) := by
  have hflat : ∀ ch, ch ≠ .writeOps →
      ((b ++ r) :: (T₁ ++ T₂)).flatMap (opsOn ch) = (b :: T₁).flatMap (opsOn ch) ∨
        ((b ++ r) :: (T₁ ++ T₂)).flatMap (opsOn ch) = (r :: T₂).flatMap (opsOn ch) := by
    intro ch hw
    rcases hsep ch hw with hs | hs
    · have h₁ : T₁.flatMap (opsOn ch) = [] := List.flatMap_eq_nil_iff.mpr fun u hu => hs u (.tail _ hu)
      exact .inr (by simp [hs b (.head _), h₁])
    · have h₂ : T₂.flatMap (opsOn ch) = [] := List.flatMap_eq_nil_iff.mpr fun u hu => hs u (.tail _ hu)
      exact .inl (by simp [hs r (.head _), h₂])
  refine ⟨fun ch => ?_, fun ch s hs => ?_, fun s hs => ?_, fun ch hv hc => ?_⟩
  · -- owned
    refine List.pairwise_cons.mpr ⟨fun u hu => ?_, List.pairwise_append.mpr ⟨?_, ?_, ?_⟩⟩
    · by_cases hw : ch = .writeOps
      · exact .inr (hw ▸ hT u hu)
      rcases List.mem_append.mp hu with hu | hu <;> rcases hsep ch hw with hs | hs
      · exact .inr (hs u (.tail _ hu))
      · rcases (List.pairwise_cons.mp (h₁.owned ch)).1 u hu with h | h
        · exact .inl (by simp [h, hs r (.head _)])
        · exact .inr h
      · rcases (List.pairwise_cons.mp (h₂.owned ch)).1 u hu with h | h
        · exact .inl (by simp [h, hs b (.head _)])
        · exact .inr h
      · exact .inr (hs u (.tail _ hu))
    · exact (List.pairwise_cons.mp (h₁.owned ch)).2
    · exact (List.pairwise_cons.mp (h₂.owned ch)).2
    · intro x hx y hy
      by_cases hw : ch = .writeOps
      · exact .inl (hw ▸ hT x (List.mem_append_left _ hx))
      rcases hsep ch hw with hs | hs
      · exact .inl (hs x (.tail _ hx))
      · exact .inr (hs y (.tail _ hy))
  · -- closeLast
    rcases List.mem_cons.mp hs with rfl | hs
    · rw [opsOn_append]
      by_cases hw : ch = .writeOps
      · subst hw
        exact not_mem_dropLast_append hbw (h₂.closeLast _ r (.head _))
      rcases hsep ch hw with hs | hs
      · rw [hs b (.head _), List.nil_append]
        exact h₂.closeLast ch r (.head _)
      · rw [hs r (.head _), List.append_nil]
        exact h₁.closeLast ch b (.head _)
    · rcases List.mem_append.mp hs with hs | hs
      · exact h₁.closeLast ch s (.tail _ hs)
      · exact h₂.closeLast ch s (.tail _ hs)
  · -- quietAfterError
    rcases List.mem_cons.mp hs with rfl | hs
    · rw [List.dropWhile_append_of_pos (by simpa using hbe)]
      exact h₂.quietAfterError r (.head _)
    · rcases List.mem_append.mp hs with hs | hs
      · exact h₁.quietAfterError s (.tail _ hs)
      · exact h₂.quietAfterError s (.tail _ hs)
  · -- closeHasValue
    have hw : ch ≠ .writeOps := by rintro rfl; cases hv
    rcases hflat ch hw with h | h <;> rw [h] at hc ⊢
    · exact h₁.closeHasValue ch hv hc
    · exact h₂.closeHasValue ch hv hc


/-! ### The workers' scripts -/

theorem crcFile_local (env : Env) (k : Nat) (r : Source) (ze : ZipEntry) :
    LocalWF (crcFile env k r ze) ∧ Touches (crcFile env k r ze) (· = .entry k) := by
  rcases crcFile_cases env k r ze with ⟨e, h⟩ | h <;> rw [h] <;>
    exact ⟨by constructor <;> simp [closesLast, closesFilled, quietAfterError, Action.chan?,
      Action.chanOp?, Action.isSendError, Action.isSend, Action.task?],
      touches_of_chan (by simp [Action.chan?, Action.chanOp?])⟩

theorem compressPartialFile_local (env : Env) (level : Int) (k j : Nat) (r : Source) (start : Nat)
    (dict : List UInt8) (last : Bool) :
    LocalWF (compressPartialFile env level k j r start dict last) ∧
      Touches (compressPartialFile env level k j r start dict last) (· = .data k j) := by
  rcases compressPartialFile_cases env level k j r start dict last with ⟨e, h⟩ | ⟨d, h⟩ <;>
    rw [h] <;>
    exact ⟨by constructor <;> simp [closesLast, closesFilled, quietAfterError, Action.chan?,
      Action.chanOp?, Action.isSendError, Action.isSend, Action.task?],
      touches_of_chan (by simp [Action.chan?, Action.chanOp?])⟩

theorem compressWholeFile_local (env : Env) (level : Int) (k : Nat) (ze : ZipEntry) (r : Source) :
    LocalWF (compressWholeFile env level k ze r) ∧
      Touches (compressWholeFile env level k ze r) (·.index? = some k) := by
  rcases compressWholeFile_cases env level k ze r with ⟨e, h⟩ | ⟨e, h⟩ | ⟨fh, d, h, -⟩ <;>
    rw [h] <;>
    exact ⟨by constructor <;> simp [closesLast, closesFilled, quietAfterError, wholeFileTail,
      Action.chan?, Action.chanOp?, Action.isSendError, Action.isSend, Action.task?,
      ChanName.carriesValue],
      touches_of_chan (by simp [wholeFileTail, Action.chan?, Action.chanOp?, ChanName.index?])⟩

/-! ### Blocks -/

/-- A piece of the producer's script for entry `k`, with the workers it starts: well formed,
operating only on `z.writeOps` and entry `k`'s channels, its workers not on `z.writeOps`, and
neither closing `z.writeOps` nor sending an error. -/
structure Piece (env : Env) (level : Int) (k : Nat) (b : List Action) : Prop where
  wellFormed : WellFormed (b :: workersOf env level b)
  touches : Touches b fun ch => ch = .writeOps ∨ ch.index? = some k
  workers : ∀ u ∈ workersOf env level b, Touches u fun ch => ch.index? = some k
  keepsWriteOps : ChanOp.close ∉ opsOn .writeOps b
  noError : ∀ a ∈ b, a.isSendError = false

/-- The block loop sends only on the reader list, and neither closes nor sends an error. -/
theorem Loop.actions {k j : Nat} {acts : List Action} {err : Option GoError}
    (h : Loop k j acts err) :
    ∀ a ∈ acts, a.isClose = false ∧ a.isSendError = false ∧ ∀ ch, a.chan? = some ch → ch = .readers k := by
  induction h with
  | done => simp
  | fail => simp [Action.isClose, Action.isSendError, Action.chan?, Action.chanOp?]
  | next _ _ _ _ _ _ ih =>
    intro a ha
    rcases List.mem_cons.mp ha with rfl | ha
    · simp [Action.isClose, Action.isSendError, Action.chan?, Action.chanOp?]
    rcases List.mem_cons.mp ha with rfl | ha
    · simp [Action.isClose, Action.isSendError, Action.chan?, Action.chanOp?]
    rcases List.mem_cons.mp ha with rfl | ha
    · simp [Action.isClose, Action.isSendError, Action.chan?, Action.chanOp?]
    exact ih a ha

/-- The block workers of a loop from block `j` are well formed, each fills one reader slot
from `j` on, and no two fill the same. -/
theorem Loop.workers (env : Env) (level : Int) {k j : Nat} {acts : List Action}
    {err : Option GoError} (h : Loop k j acts err) :
    (∀ u ∈ workersOf env level acts, LocalWF u ∧ Touches u fun ch => ∃ j', j ≤ j' ∧ ch = .data k j') ∧
      ∀ ch, (workersOf env level acts).Pairwise (Apart ch) := by
  induction h with
  | done => simp [workersOf]
  | fail => simp [workersOf, Action.task?]
  | @next j r start dict last acts _ _ ih =>
    have hw : workersOf env level (.sendReader k j :: .cpuRequest k ::
        .spawn (.compressPartialFile k j r start dict last) :: acts) =
        compressPartialFile env level k j r start dict last :: workersOf env level acts := by
      simp [workersOf, Action.task?, taskScript]
    obtain ⟨hl, ht⟩ := compressPartialFile_local env level k j r start dict last
    rw [hw]
    refine ⟨fun u hu => ?_, fun ch => .cons (fun u hu => ?_) (ih.2 ch)⟩
    · rcases List.mem_cons.mp hu with rfl | hu
      · exact ⟨hl, ht.mono fun ch h => ⟨j, le_rfl, h⟩⟩
      · exact ⟨(ih.1 u hu).1, (ih.1 u hu).2.mono fun ch ⟨j', hj, h⟩ => ⟨j', by omega, h⟩⟩
    · refine Apart.of_touches ht (ih.1 u hu).2 ?_
      rintro ⟨rfl, j', hj, h⟩
      cases h
      omega

theorem Action.not_close_of_isClose {a : Action} (h : a.isClose = false) (ch : ChanName) :
    a.chanOp? ≠ some (ch, .close) := by
  intro hc
  simp [Action.isClose, hc] at h

theorem exists_close_of_mem_opsOn {s : List Action} {ch : ChanName}
    (h : ChanOp.close ∈ opsOn ch s) : ∃ a ∈ s, a.chanOp? = some (ch, .close) := by
  obtain ⟨a, ha, hop⟩ := List.mem_filterMap.mp h
  refine ⟨a, ha, ?_⟩
  unfold Action.opOn at hop
  split at hop
  · rename_i ch' op hc
    split at hop
    · cases hop
      rename_i heq
      rw [hc, heq]
    · cases hop
  · cases hop

/-- A piece without workers whose script passes the local checks. -/
theorem Piece.solo {env : Env} {level : Int} {k : Nat} {b : List Action} (hl : LocalWF b)
    (hw : workersOf env level b = [])
    (ht : Touches b fun ch => ch = .writeOps ∨ ch.index? = some k)
    (hk : ChanOp.close ∉ opsOn .writeOps b) (he : ∀ a ∈ b, a.isSendError = false) :
    Piece env level k b where
  wellFormed := by
    rw [hw]
    exact .of_local (by simpa using hl) fun _ => List.pairwise_singleton _ _
  touches := ht
  workers := by simp [hw]
  keepsWriteOps := hk
  noError := he

/-- A split entry's operations, ended by `close(futureReaders)` or cut short by a failed
window read, with its CRC worker and its block workers. -/
theorem splitPiece (env : Env) (level : Int) {k : Nat} (ze : ZipEntry) (r : Source)
    (cap : Nat) {loop : List Action} {err : Option GoError} (hl : Loop k 0 loop err)
    (tail : List Action) (ht : tail = [] ∨ tail = [.closeReaders k]) :
    Piece env level k (splitHead k ze r cap ++ loop ++ tail) := by
  have hacts : ∀ a ∈ splitHead k ze r cap ++ loop ++ tail, a.isSendError = false ∧
      (∀ ch, a.chanOp? = some (ch, .close) → ch = .readers k) ∧
      ∀ ch, a.chan? = some ch → ch = .writeOps ∨ ch = .readers k := by
    intro a ha
    rcases List.mem_append.mp ha with ha | ha
    · rcases List.mem_append.mp ha with ha | ha
      · simp only [splitHead, List.mem_cons, List.mem_singleton, List.not_mem_nil, or_false] at ha
        rcases ha with rfl | rfl | rfl | rfl | rfl <;>
          simp [Action.isSendError, Action.chan?, Action.chanOp?]
      · obtain ⟨hc, he, hr⟩ := hl.actions a ha
        exact ⟨he, fun ch h => absurd h (Action.not_close_of_isClose hc ch),
          fun ch h => .inr (hr ch h)⟩
    · rcases ht with rfl | rfl
      · cases ha
      · rw [List.mem_singleton.mp ha]
        simp [Action.isSendError, Action.chan?, Action.chanOp?]
  have hnoClose : ∀ a ∈ splitHead k ze r cap ++ loop, a.isClose = false := by
    intro a ha
    rcases List.mem_append.mp ha with ha | ha
    · simp only [splitHead, List.mem_cons, List.mem_singleton, List.not_mem_nil, or_false] at ha
      rcases ha with rfl | rfl | rfl | rfl | rfl <;> simp [Action.isClose, Action.chanOp?]
    · exact (hl.actions a ha).1
  have hlocal : LocalWF (splitHead k ze r cap ++ loop ++ tail) := by
    refine ⟨?_, closesFilled_of_noValueClose (fun a ha ch hc => ?_) _,
      quietAfterError_of_noSendError fun a ha => (hacts a ha).1⟩
    · rw [closesLast_append_of_noClose hnoClose]
      rcases ht with rfl | rfl <;> rfl
    · rw [(hacts a ha).2.1 ch hc]
      rfl
  have htb : Touches (splitHead k ze r cap ++ loop ++ tail)
      fun ch => ch = .writeOps ∨ ch = .readers k :=
    touches_of_chan fun a ha => (hacts a ha).2.2
  have hw : workersOf env level (splitHead k ze r cap ++ loop ++ tail) =
      crcFile env k r ze :: workersOf env level loop := by
    have : workersOf env level tail = [] := by rcases ht with rfl | rfl <;> rfl
    simp only [workersOf_append, this, List.append_nil]
    simp [splitHead, workersOf, Action.task?, taskScript]
  obtain ⟨hcl, hct⟩ := crcFile_local env k r ze
  obtain ⟨hlw, hlp⟩ := hl.workers env level
  refine ⟨?_, htb.mono fun ch h => h.imp_right fun h => by rw [h]; rfl, ?_, fun hc => ?_,
    fun a ha => (hacts a ha).1⟩
  · rw [hw]
    refine .of_local (fun s hs => ?_) fun ch => .cons (fun u hu => ?_) (.cons (fun u hu => ?_) (hlp ch))
    · rcases List.mem_cons.mp hs with rfl | hs
      · exact hlocal
      rcases List.mem_cons.mp hs with rfl | hs
      · exact hcl
      · exact (hlw s hs).1
    · rcases List.mem_cons.mp hu with rfl | hu
      · exact Apart.of_touches htb hct (by rintro ⟨h | h, rfl⟩ <;> cases h)
      · exact Apart.of_touches htb (hlw u hu).2 (by rintro ⟨h | h, j', -, rfl⟩ <;> cases h)
    · exact Apart.of_touches hct (hlw u hu).2 (by rintro ⟨rfl, j', -, h⟩; cases h)
  · rw [hw]
    intro u hu
    rcases List.mem_cons.mp hu with rfl | hu
    · exact hct.mono fun ch h => by rw [h]; rfl
    · exact (hlw u hu).2.mono fun ch ⟨j', _, h⟩ => by rw [h]; rfl
  · obtain ⟨a, ha, hc⟩ := exists_close_of_mem_opsOn hc
    cases (hacts a ha).2.1 _ hc

/-- Each block of the producer, with the workers it starts, is a piece for its entry. -/
theorem Block.piece (env : Env) (level : Int) {k : Nat} {b : List Action} (h : Block k b) :
    Piece env level k b := by
  cases h with
  | dir | symlink =>
    exact .solo (by constructor <;> simp [closesLast, closesFilled, quietAfterError, Action.chan?,
        Action.chanOp?, Action.isSendError, ChanName.carriesValue])
      (by simp [workersOf, Action.task?])
      (touches_of_chan (by simp [Action.chan?, Action.chanOp?, ChanName.index?]))
      (by simp [opsOn, Action.opOn, Action.chanOp?]) (by simp [Action.isSendError])
  | whole ze r =>
    have hw : workersOf env level [.sendWriteOp k, .cpuRequest k, .memRequest k ze.allocatedSize,
        .spawn (.compressWholeFile k ze r)] = [compressWholeFile env level k ze r] := by
      simp [workersOf, Action.task?, taskScript]
    have htb : Touches [.sendWriteOp k, .cpuRequest k, .memRequest k ze.allocatedSize,
        .spawn (.compressWholeFile k ze r)] (· = .writeOps) :=
      touches_of_chan (by simp [Action.chan?, Action.chanOp?])
    obtain ⟨hl, ht⟩ := compressWholeFile_local env level k ze r
    refine ⟨?_, htb.mono fun ch h => .inl h, by rw [hw]; simpa using ht,
      by simp [opsOn, Action.opOn, Action.chanOp?], by simp [Action.isSendError]⟩
    rw [hw]
    refine .of_local ?_ fun ch => List.pairwise_pair.mpr (Apart.of_touches htb ht ?_)
    · simp only [List.mem_cons, List.mem_singleton, List.not_mem_nil, or_false, forall_eq_or_imp,
        forall_eq]
      refine ⟨?_, hl⟩
      constructor <;> simp [closesLast, closesFilled, quietAfterError, Action.chanOp?,
        Action.isSendError]
    · rintro ⟨rfl, h⟩
      cases h
  | split ze r cap _ hl => exact splitPiece env level ze r cap hl _ (.inr rfl)

/-- The start of a split entry whose window read failed is a piece for its entry. -/
theorem FailedSplit.piece (env : Env) (level : Int) {k : Nat} {f : List Action}
    (h : FailedSplit k f) : Piece env level k f := by
  cases h with
  | mk ze r cap e _ hl => simpa using splitPiece env level ze r cap hl [] (.inl rfl)

/-! ### The whole script -/

/-- The producer's script from entry `k` on, with the workers it starts: well formed, operating
only on `z.writeOps` and the channels of entries from `k` on, its workers not on
`z.writeOps`. -/
structure Rest (env : Env) (level : Int) (k : Nat) (P : List Action) : Prop where
  wellFormed : WellFormed (P :: workersOf env level P)
  touches : Touches P fun ch => ch = .writeOps ∨ ∃ k', ch.index? = some k' ∧ k ≤ k'
  workers : ∀ u ∈ workersOf env level P, Touches u fun ch => ∃ k', ch.index? = some k' ∧ k ≤ k'

/-- A script's ending: it operates on `z.writeOps` only and starts no worker. -/
theorem Rest.ending {env : Env} {level : Int} {s : List Action} (hl : LocalWF s)
    (hw : workersOf env level s = []) (ht : Touches s (· = .writeOps)) (k : Nat) :
    Rest env level k s where
  wellFormed := by
    rw [hw]
    exact .of_local (by simpa using hl) fun _ => List.pairwise_singleton _ _
  touches := ht.mono fun _ => .inl
  workers := by simp [hw]

/-- A piece for entry `k` followed by the script from entry `k + 1` on. -/
theorem Piece.append {env : Env} {level : Int} {k : Nat} {b rest : List Action}
    (hp : Piece env level k b) (hr : Rest env level (k + 1) rest) :
    Rest env level k (b ++ rest) := by
  have hwo : ∀ u ∈ workersOf env level b ++ workersOf env level rest,
      opsOn .writeOps u = [] := by
    intro u hu
    rcases List.mem_append.mp hu with hu | hu
    · exact (hp.workers u hu).silent (by simp [ChanName.index?])
    · exact (hr.workers u hu).silent (by simp [ChanName.index?])
  refine ⟨?_, (hp.touches.mono fun ch h => h.imp_right fun h => ⟨k, h, le_rfl⟩).append
      (hr.touches.mono fun ch h => h.imp_right fun ⟨k', h, hk⟩ => ⟨k', h, by omega⟩), ?_⟩
  · rw [workersOf_append]
    refine hp.wellFormed.append hr.wellFormed (fun ch hw => ?_) hwo hp.keepsWriteOps hp.noError
    by_cases hk : ch.index? = some k
    · refine .inr fun u hu => ?_
      rcases List.mem_cons.mp hu with rfl | hu
      · refine hr.touches.silent ?_
        rintro (h | ⟨k', h, hk'⟩)
        · exact hw h
        · rw [hk] at h
          cases h
          omega
      · refine (hr.workers u hu).silent ?_
        rintro ⟨k', h, hk'⟩
        rw [hk] at h
        cases h
        omega
    · refine .inl fun u hu => ?_
      rcases List.mem_cons.mp hu with rfl | hu
      · exact hp.touches.silent (by rintro (h | h) <;> simp_all)
      · exact (hp.workers u hu).silent hk
  · rw [workersOf_append]
    intro u hu
    rcases List.mem_append.mp hu with hu | hu
    · exact (hp.workers u hu).mono fun ch h => ⟨k, h, le_rfl⟩
    · exact (hr.workers u hu).mono fun ch ⟨k', h, hk⟩ => ⟨k', h, by omega⟩

theorem Rest.fail (env : Env) (level : Int) (e : GoError) (k : Nat) :
    Rest env level k [.sendError e, .closeWriteOps] :=
  .ending (by constructor <;> simp [closesLast, closesFilled, quietAfterError, Action.chan?,
      Action.chanOp?, Action.isSendError, Action.isSend, Action.task?, ChanName.carriesValue])
    (by simp [workersOf, Action.task?]) (touches_of_chan (by simp [Action.chan?, Action.chanOp?])) k

/-- The producer's script, with the workers it starts, keeps the channel discipline. -/
theorem Script.rest (env : Env) (level : Int) {k : Nat} {P : List Action} (h : Script k P) :
    Rest env level k P := by
  induction h with
  | done k =>
    exact .ending (by constructor <;> simp [closesLast, closesFilled, quietAfterError,
        Action.chan?, Action.chanOp?, Action.isSendError, ChanName.carriesValue])
      (by simp [workersOf, Action.task?]) (touches_of_chan (by simp [Action.chan?, Action.chanOp?])) k
  | fail k e => exact .fail env level e k
  | hang k =>
    exact .ending (by constructor <;> simp [closesLast, closesFilled, quietAfterError,
        Action.chanOp?, Action.isSendError])
      (by simp [workersOf, Action.task?]) (touches_of_chan (by simp [Action.chan?, Action.chanOp?])) k
  | failSplit k e hf => exact (hf.piece env level).append (.fail env level e (k + 1))
  | block hb _ ih => exact (hb.piece env level).append ih

/-! ### The start of `write` -/

/-- A configuration with no worker running whose producer has a script of the producer's shape
starts from well-formed scripts. -/
theorem Config.wellFormed_of_script {c : Config} {k : Nat} (hw : c.workers = [])
    (h : Script k c.producer) (env : Env) (level : Int) : WellFormed (c.pending env level) := by
  simpa [Config.pending, workersOf, hw] using (h.rest env level).wellFormed

/-- The scripts `write` starts from keep the channel discipline. -/
theorem write_wellFormed (env : Env) (opts : Options) (out : String) (ms : List PathMapping)
    (manifest : String) :
    WellFormed ((write env opts out ms manifest).pending env opts.compLevel) := by
  have hnil : WellFormed [([] : List Action)] :=
    .of_local (by simp [LocalWF.mk, closesLast, closesFilled, quietAfterError]) fun _ =>
      List.pairwise_singleton _ _
  unfold write
  split
  · exact hnil
  · dsimp only
    split
    · exact hnil
    · exact Config.wellFormed_of_script rfl (producer_script env opts _ _) env _

/-- In every configuration a run of `write` reaches, the channel discipline holds: the values
each data channel has carried are a prefix of what the scripts `write` started from send on it,
and the only panic of the producer and the workers is a send on `z.errors` after `write`
returned. -/
theorem write_channelInv (env : Env) (opts : Options) (out : String) (ms : List PathMapping)
    (manifest : String) {c : Config} (hr : Reachable env opts (write env opts out ms manifest) c) :
    ChannelInv env opts (carried env opts (write env opts out ms manifest)) c := by
  refine (ChannelInv.init env opts (fun ch => ?_) ?_ ?_ (write_wellFormed env opts out ms manifest)).reachable hr
  all_goals unfold write; split
  all_goals try (dsimp only; split)
  all_goals first | rfl | cases ch <;> rfl

end SoongZip
