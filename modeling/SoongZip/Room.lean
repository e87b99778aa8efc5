import SoongZip.Returns

/-!
# Room on the channels

`soong_zip.go:565–867`. Every entry slot and reader slot is made with room for one value
(`make(chan …, 1)`), and the reader list of an entry with room for every reader slot the entry
enqueues: one for a symlink or a whole file (lines 736 and 852), `fileSize/parallelBlockSize + 1`
for a split file (line 592), which has `⌈fileSize/parallelBlockSize⌉` blocks. So the producer's
script and its workers send at most one value on each entry slot and reader slot, each reader
list is made, in the script that sends on it, before anything is sent on it, and it is made with
room for all the run sends on it.
-/

namespace SoongZip

/-! ### One value on each slot -/

section Once

variable {env : Env} {level : Int}

/-- Scripts of which at most one operates on `ch`, each sending at most one value on it, send at
most one value on `ch` between them. -/
theorem sendsOf_flatMap_le_one {ch : ChanName} :
    ∀ {L : List (List Action)}, L.Pairwise (Apart ch) →
      (∀ u ∈ L, (sendsOf (opsOn ch u)).length ≤ 1) → (sendsOf (L.flatMap (opsOn ch))).length ≤ 1
  | [], _, _ => by simp
  | u :: L, hp, h => by
    obtain ⟨hu, hL⟩ := List.pairwise_cons.mp hp
    rw [List.flatMap_cons, sendsOf_append, List.length_append]
    by_cases hne : opsOn ch u = []
    · simpa [hne] using sendsOf_flatMap_le_one hL fun v hv => h v (List.mem_cons_of_mem _ hv)
    · rw [List.flatMap_eq_nil_iff.mpr fun v hv => (hu v hv).resolve_left hne]
      simpa using h u (List.mem_cons_self _ _)

/-- A worker sends at most one value on each channel. -/
theorem taskScript_sends_le_one (env : Env) (level : Int) (t : Task) (ch : ChanName) :
    (sendsOf (opsOn ch (taskScript env level t))).length ≤ 1 := by
  cases t with
  | crcFile k r ze =>
    rcases crcFile_cases env k r ze with ⟨e, h⟩ | h <;> rw [taskScript, h] <;>
      cases ch <;> simp [opsOn_cons, Action.opOn, Action.chanOp?]
    split_ifs <;> simp
  | compressPartialFile k j r start dict last =>
    rcases compressPartialFile_cases env level k j r start dict last with ⟨e, h⟩ | ⟨d, h⟩ <;>
      rw [taskScript, h] <;> cases ch <;> simp [opsOn_cons, Action.opOn, Action.chanOp?]
    split_ifs <;> simp
  | compressWholeFile k ze r =>
    rcases compressWholeFile_cases env level k ze r with ⟨e, h⟩ | ⟨e, h⟩ | ⟨fh, d, h, -⟩ <;>
      rw [taskScript, h] <;>
      cases ch <;> simp [wholeFileTail, opsOn_cons, Action.opOn, Action.chanOp?] <;> split_ifs <;> simp

theorem ChanName.ne_writeOps_of_carriesValue {ch : ChanName} (hv : ch.carriesValue) :
    ch ≠ .writeOps := by
  rintro rfl
  cases hv

theorem ChanName.ne_readers_of_carriesValue {ch : ChanName} (hv : ch.carriesValue) (k : Nat) :
    ch ≠ .readers k := by
  rintro rfl
  cases hv

theorem splitHead_silent {k : Nat} (ze : ZipEntry) (r : Source) (cap : Nat) {ch : ChanName}
    (hv : ch.carriesValue) : opsOn ch (splitHead k ze r cap) = [] := by
  cases ch <;> simp_all [splitHead, opsOn, Action.opOn, Action.chanOp?, ChanName.carriesValue]

/-- A block of the producer sends at most one value on each entry slot and reader slot. -/
theorem Block.sends_le_one {k : Nat} {b : List Action} (h : Block k b) {ch : ChanName}
    (hv : ch.carriesValue) : (sendsOf (opsOn ch b)).length ≤ 1 := by
  cases h with
  | split ze r cap _ hl =>
    have hr := ChanName.ne_readers_of_carriesValue hv k
    simp [splitHead_silent ze r cap hv, hl.silent hr, opsOn_cons, Action.opOn, Action.chanOp?,
      Ne.symm hr]
  | _ =>
    cases ch <;> simp [ChanName.carriesValue, opsOn_cons, Action.opOn, Action.chanOp?] at hv ⊢ <;>
      split_ifs <;> simp

/-- The producer's script sends at most one value on each entry slot and reader slot. -/
theorem Script.sends_le_one (env : Env) (level : Int) {k : Nat} {P : List Action} (h : Script k P)
    {ch : ChanName} (hv : ch.carriesValue) : (sendsOf (opsOn ch P)).length ≤ 1 := by
  have hw := ChanName.ne_writeOps_of_carriesValue hv
  induction h with
  | done | fail | hang => simp [opsOn_cons, Action.opOn, Action.chanOp?, Ne.symm hw]
  | failSplit k e hf =>
    cases hf with
    | mk ze r cap e' _ hl =>
      have hr := ChanName.ne_readers_of_carriesValue hv k
      simp [splitHead_silent ze r cap hv, hl.silent hr, opsOn_cons, Action.opOn, Action.chanOp?,
        Ne.symm hw]
  | @block k b rest hb hr ih =>
    rw [opsOn_append, sendsOf_append, List.length_append]
    by_cases hk : ch.index? = some k
    · rw [(hr.rest env level).touches.silent (by
        rintro (h | ⟨k', hk', hle⟩)
        · exact hw h
        · rw [hk] at hk'; cases hk'; omega)]
      simpa using hb.sends_le_one hv
    · rw [(hb.piece env level).touches.silent (by rintro (h | h) <;> [exact hw h; exact hk h])]
      simpa using ih

/-- The operations on `ch` of scripts of which at most one operates on it are those of the one
that does. -/
theorem flatMap_opsOn_eq_owner {ch : ChanName} {u : List Action} :
    ∀ {L : List (List Action)}, L.Pairwise (Apart ch) → u ∈ L → opsOn ch u ≠ [] →
      L.flatMap (opsOn ch) = opsOn ch u
  | v :: L, hp, hu, hne => by
    obtain ⟨hv, hL⟩ := List.pairwise_cons.mp hp
    rcases List.mem_cons.mp hu with rfl | hu
    · rw [List.flatMap_cons, flatMap_opsOn_of_owner hp hne, List.append_nil]
    · rw [List.flatMap_cons, (hv u hu).resolve_right hne, List.nil_append]
      exact flatMap_opsOn_eq_owner hL hu hne

/-- The producer's script and its workers send at most one value on each entry slot and reader
slot. -/
theorem Script.sendsIn_le_one {k : Nat} {P : List Action} (h : Script k P) {ch : ChanName}
    (hv : ch.carriesValue) : (sendsIn env level P ch).length ≤ 1 :=
  sendsOf_flatMap_le_one ((h.rest env level).wellFormed.owned ch) fun u hu => by
    rcases List.mem_cons.mp hu with rfl | hu
    · exact h.sends_le_one env level hv
    · obtain ⟨t, -, rfl⟩ := List.mem_map.mp hu
      exact taskScript_sends_le_one env level t ch

end Once

/-! ### Room on the reader lists -/

section Room

/-- Every reader list a script makes is one it operates on, made with room for every reader slot
the script enqueues on it. -/
def RoomFor (u : List Action) : Prop :=
  ∀ k cap, .makeReaders k cap ∈ u →
    opsOn (.readers k) u ≠ [] ∧ (sendsOf (opsOn (.readers k) u)).length ≤ cap

theorem RoomFor.of_not_mem {u : List Action} (h : ∀ k cap, .makeReaders k cap ∉ u) : RoomFor u :=
  fun k cap hm => absurd hm (h k cap)

/-- Two scripts with room, neither operating on a reader list the other makes. -/
theorem RoomFor.append {A B : List Action} (hA : RoomFor A) (hB : RoomFor B)
    (hAB : ∀ k cap, .makeReaders k cap ∈ A → opsOn (.readers k) B = [])
    (hBA : ∀ k cap, .makeReaders k cap ∈ B → opsOn (.readers k) A = []) : RoomFor (A ++ B) := by
  intro k cap hm
  rcases List.mem_append.mp hm with hm | hm
  · simpa [hAB k cap hm] using hA k cap hm
  · simpa [hBA k cap hm] using hB k cap hm

/-- Operations on `z.writeOps` and entry slots only, then a script with room. -/
theorem RoomFor.append_slots {A B : List Action}
    (hA : ∀ a ∈ A, a.chan? = some .writeOps ∨ ∃ k, a.chan? = some (.entry k)) (hB : RoomFor B) :
    RoomFor (A ++ B) := by
  have hm : ∀ k cap, .makeReaders k cap ∉ A := fun k cap hm => by
    rcases hA _ hm with h | ⟨_, h⟩ <;> cases h
  refine (RoomFor.of_not_mem hm).append hB (fun k cap h => absurd h (hm k cap)) fun k _ _ =>
    (touches_of_chan fun a ha ch hch => ?_).silent (p := (· ≠ .readers k))
      (by simp)
  rcases hA a ha with h | ⟨k', h⟩ <;> rw [h] at hch <;> cases hch <;> simp

theorem pushDirs_slots (opts : Options) (dir : String) :
    ∀ (t : Tracker) (zs : List String), ∀ a ∈ (pushDirs opts dir t zs).2,
      a.chan? = some .writeOps ∨ ∃ k, a.chan? = some (.entry k)
  | t, [], a, ha => by simp [pushDirs] at ha
  | t, cleanDir :: rest, a, ha => by
    simp only [pushDirs, List.cons_append, List.nil_append, List.mem_cons] at ha
    rcases ha with rfl | rfl | rfl | ha
    · exact .inr ⟨_, rfl⟩
    · exact .inr ⟨_, rfl⟩
    · exact .inl rfl
    · exact pushDirs_slots opts dir _ rest a ha

theorem writeDirectory_slots (opts : Options) (t : Tracker) (dir src : String) {e : Emitted}
    (h : writeDirectory opts t dir src = some e) :
    ∀ a ∈ e.actions, a.chan? = some .writeOps ∨ ∃ k, a.chan? = some (.entry k) := by
  unfold writeDirectory at h
  obtain ⟨l, -, rfl⟩ := Option.map_eq_some'.mp h
  dsimp only
  split
  · simp
  · split
    · exact pushDirs_slots opts _ _ _
    · simp

theorem writeSymlink_roomFor (env : Env) (t : Tracker) (rel file : String) :
    RoomFor (writeSymlink env t rel file).actions := by
  unfold writeSymlink
  split
  · exact .of_not_mem fun _ _ => List.not_mem_nil _
  · intro k cap hm
    simp only [List.mem_cons, Action.makeReaders.injEq, List.mem_singleton, reduceCtorEq,
      or_false, List.not_mem_nil] at hm
    obtain ⟨rfl, rfl⟩ := hm
    simp [opsOn_cons, Action.opOn, Action.chanOp?]

theorem Loop.makeReaders_not_mem {k j : Nat} {acts : List Action} {err : Option GoError}
    (h : Loop k j acts err) (k' cap : Nat) : .makeReaders k' cap ∉ acts := by
  induction h with
  | done => simp
  | fail => simp
  | next _ _ _ _ _ _ ih => simpa using ih

/-- A block loop that stops on a failed read has enqueued the failed block's reader slot. -/
theorem Loop.readers_ne_nil {k j : Nat} {acts : List Action} {e : GoError}
    (h : Loop k j acts (some e)) : opsOn (.readers k) acts ≠ [] := by
  cases h <;> simp [opsOn_cons, Action.opOn, Action.chanOp?]

/-- One block of the block loop enqueues one reader slot. -/
theorem blockStep_sends (k j : Nat) (t : Task) (X : List Action × Option GoError) :
    (sendsOf (opsOn (.readers k)
      (Prod.map (fun x => [Action.sendReader k j, .cpuRequest k] ++ .spawn t :: x) id X).1)).length =
      (sendsOf (opsOn (.readers k) X.1)).length + 1 := by
  simp [opsOn_cons, Action.opOn, Action.chanOp?]

/-- The block loop from offset `start` enqueues one reader slot per block of the rest of the
file. -/
theorem blockLoop_sends_le (env : Env) (k : Nat) (r : Source) (fileSize : Nat) :
    ∀ start j, (sendsOf (opsOn (.readers k) (blockLoop env k r fileSize start j).1)).length ≤
      blockCount (fileSize - start) := by
  intro start j
  induction start, j using blockLoop.induct env k r fileSize with
  | case1 start j h _ e hdict =>
    have hd : (if start ≥ windowSize then env.read r (.dict start) else .ok []) = .error e := by
      rw [← hdict]
      rfl
    rw [blockLoop.eq_1]
    simp only [h, ↓reduceIte, hd]
    simp [opsOn_cons, Action.opOn, Action.chanOp?, blockCount, parallelBlockSize]
    omega
  | case2 start j h _ d hdict ih =>
    have hd : (if start ≥ windowSize then env.read r (.dict start) else .ok []) = .ok d := by
      rw [← hdict]
      rfl
    rw [blockLoop.eq_1, if_pos h]
    dsimp only
    rw [hd]
    refine (blockStep_sends k j _ _).trans_le ?_
    simp only [blockCount, parallelBlockSize] at ih ⊢
    omega
  | case3 start j h =>
    rw [blockLoop.eq_1]
    simp [h]

/-- The split path of `writeFileContents` makes its reader list with room for every block:
`fileSize / parallelBlockSize + 1` is at least `⌈fileSize / parallelBlockSize⌉`. -/
theorem splitPath_roomFor (env : Env) (k n : Nat) (ze : ZipEntry) (r : Source) (fileSize : Nat) :
    RoomFor ([.sendWriteOp k, .cpuRequest k, .memRequest k n] ++
      [.makeReaders k (fileSize / parallelBlockSize + 1), .spawn (.crcFile k r ze)] ++
      (blockLoop env k r fileSize 0 0).1 ++
      (if (blockLoop env k r fileSize 0 0).2.isSome then [] else [.closeReaders k])) := by
  have hl := blockLoop_loop env k r fileSize 0 0
  have hle := blockLoop_sends_le env k r fileSize 0 0
  generalize blockLoop env k r fileSize 0 0 = bl at hl hle ⊢
  obtain ⟨acts, err⟩ := bl
  intro k' cap hm
  have htail : ∀ k' cap, .makeReaders k' cap ∉
      (if err.isSome then [] else [Action.closeReaders k]) := by
    intro k' cap
    split <;> simp
  simp only [List.mem_append, List.mem_cons, Action.makeReaders.injEq, reduceCtorEq,
    List.mem_singleton, false_or, or_false, List.not_mem_nil] at hm
  rcases hm with (⟨rfl, rfl⟩ | hm) | hm
  · have hops : opsOn (.readers k') ([.sendWriteOp k', .cpuRequest k', .memRequest k' n] ++
        [.makeReaders k' (fileSize / parallelBlockSize + 1), .spawn (.crcFile k' r ze)] ++ acts ++
        (if err.isSome then [] else [Action.closeReaders k'])) =
        opsOn (.readers k') acts ++ if err.isSome then [] else [.close] := by
      split <;> simp [opsOn_cons, Action.opOn, Action.chanOp?]
    rw [hops]
    refine ⟨?_, ?_⟩
    · cases err with
      | none => simp
      | some e => simpa using hl.readers_ne_nil
    · have hb : blockCount (fileSize - 0) ≤ fileSize / parallelBlockSize + 1 := by
        simp only [blockCount, parallelBlockSize]
        omega
      split <;> simpa using hle.trans hb
  · exact absurd hm (hl.makeReaders_not_mem _ _)
  · exact absurd hm (htail _ _)

theorem writeFileContents_roomFor (env : Env) (t : Tracker) (header : FileHeader) (r : Source) :
    RoomFor (writeFileContents env t header r).actions := by
  dsimp only [writeFileContents]
  split
  all_goals first
    | exact splitPath_roomFor env _ _ _ r _
    | exact .of_not_mem fun _ _ => by simp

theorem addNonDir_roomFor (env : Env) (t : Tracker) (dest src : String) (method : UInt16)
    (s : FileInfo) : RoomFor (addNonDir env t dest src method s).actions := by
  have hnil : RoomFor [] := .of_not_mem fun _ _ => List.not_mem_nil _
  unfold addNonDir
  split
  · exact hnil
  · split
    · exact hnil
    · dsimp only
      split
      · exact writeSymlink_roomFor env _ dest src
      · split
        · exact hnil
        · split
          · exact hnil
          · exact writeFileContents_roomFor env _ _ _

theorem addFile_roomFor (env : Env) (opts : Options) (t : Tracker) (dest src : String)
    (method : UInt16) {e : Emitted} (h : addFile env opts t dest src method = some e) :
    RoomFor e.actions := by
  have hnil : RoomFor [] := .of_not_mem fun _ _ => List.not_mem_nil _
  unfold addFile at h
  split at h
  · cases h
    exact hnil
  · split at h
    · split at h
      · simpa using RoomFor.append_slots (writeDirectory_slots opts t dest src h) hnil
      · cases h
        exact hnil
    · obtain ⟨w, hw, rfl⟩ := Option.map_eq_some'.mp h
      have hwd := writeDirectory_slots opts t _ src hw
      split
      · simpa using RoomFor.append_slots hwd hnil
      · exact RoomFor.append_slots hwd (addNonDir_roomFor env w.tracker dest src method _)

theorem addManifest_roomFor (env : Env) (t : Tracker) (dest src : String) (method : UInt16) :
    RoomFor (addManifest env t dest src method).actions := by
  have hnil : RoomFor [] := .of_not_mem fun _ _ => List.not_mem_nil _
  unfold addManifest
  split
  · exact hnil
  · split
    · exact hnil
    · split
      · exact hnil
      · exact writeFileContents_roomFor env t _ _

theorem Block.makeReaders_mem {k k' cap : Nat} {b : List Action} (h : Block k b)
    (hm : .makeReaders k' cap ∈ b) : k' = k := by
  cases h with
  | split ze r cap' _ hl =>
    simp only [splitHead, List.mem_append, List.mem_cons, Action.makeReaders.injEq, reduceCtorEq,
      List.mem_singleton, false_or, or_false, List.not_mem_nil] at hm
    rcases hm with ⟨rfl, -⟩ | hm
    · rfl
    · exact absurd hm (hl.makeReaders_not_mem _ _)
  | _ => simp_all

theorem Blocks.le {k₀ k₁ : Nat} {bs : List Action} (h : Blocks k₀ k₁ bs) : k₀ ≤ k₁ := by
  induction h with
  | nil => exact le_rfl
  | cons _ _ ih => omega

theorem Blocks.makeReaders_lt {k₀ k₁ k' cap : Nat} {bs : List Action} (h : Blocks k₀ k₁ bs)
    (hm : .makeReaders k' cap ∈ bs) : k' < k₁ := by
  induction h with
  | nil => simp at hm
  | cons hb hbs ih =>
    rcases List.mem_append.mp hm with hm | hm
    · have := hbs.le
      rw [hb.makeReaders_mem hm]
      omega
    · exact ih hm

/-- Complete blocks operate on `z.writeOps` and on the channels of their own entries. -/
theorem Blocks.touches (env : Env) (level : Int) {k₀ k₁ : Nat} {bs : List Action}
    (h : Blocks k₀ k₁ bs) :
    Touches bs fun ch => ch = .writeOps ∨ ∃ k', ch.index? = some k' ∧ k' < k₁ := by
  induction h with
  | nil => exact fun ch hne => absurd rfl hne
  | @cons k k₁ b bs hb hbs ih =>
    have := hbs.le
    refine ((hb.piece env level).touches.mono fun ch hch => ?_).append ih
    rcases hch with hch | hch
    · exact .inl hch
    · exact .inr ⟨k, hch, by omega⟩

theorem Script.makeReaders_ge {k k' cap : Nat} {P : List Action} (h : Script k P)
    (hm : .makeReaders k' cap ∈ P) : k ≤ k' := by
  induction h with
  | done | fail | hang => simp at hm
  | failSplit k e hf =>
    cases hf with
    | mk ze r cap' e' _ hl =>
      simp only [splitHead, List.mem_append, List.mem_cons, Action.makeReaders.injEq,
        reduceCtorEq, List.mem_singleton, false_or, or_false, List.not_mem_nil] at hm
      rcases hm with (⟨rfl, -⟩ | hm) | hm
      · exact le_rfl
      · exact absurd hm (hl.makeReaders_not_mem _ _)
  | block hb _ ih =>
    rcases List.mem_append.mp hm with hm | hm
    · exact (hb.makeReaders_mem hm).ge
    · exact Nat.le_of_succ_le (ih hm)

/-- Every reader list the producer makes has room for every reader slot the producer enqueues on
it, over every mapping list. -/
theorem producer_roomFor (env : Env) (opts : Options) :
    ∀ (t : Tracker) (ms : List PathMapping), RoomFor (producer env opts t ms)
  | t, [] => .of_not_mem fun _ _ => by simp [producer]
  | t, ele :: rest => by
    simp only [producer]
    have hem := fun e => @producer_call_emits env opts t ele e
    have hroom : ∀ e, (if opts.emulateJar ∧ ele.dest = manifestDest then
        some (addManifest env t ele.dest ele.src ele.zipMethod)
        else addFile env opts t ele.dest ele.src ele.zipMethod) = some e → RoomFor e.actions := by
      intro e he
      split at he
      · cases he
        exact addManifest_roomFor env t _ _ _
      · exact addFile_roomFor env opts t _ _ _ he
    generalize (if opts.emulateJar ∧ ele.dest = manifestDest then
      some (addManifest env t ele.dest ele.src ele.zipMethod)
      else addFile env opts t ele.dest ele.src ele.zipMethod) = call at hem hroom ⊢
    match call, hem, hroom with
    | none, _, _ => exact .of_not_mem fun _ _ => by simp
    | some e, hem, hroom =>
      have he := hem e rfl
      unfold Emits at he
      dsimp only
      split
      · refine (hroom e rfl).append (.of_not_mem fun _ _ => by simp) (fun _ _ _ => ?_)
          fun _ _ h => by simp at h
        simp [opsOn_cons, Action.opOn, Action.chanOp?]
      · rename_i herr
        rw [herr] at he
        have hs := producer_script env opts e.tracker rest
        refine (hroom e rfl).append (producer_roomFor env opts e.tracker rest)
          (fun k _ hm => (hs.rest env opts.compLevel).touches.silent ?_)
          fun k _ hm => (he.touches env opts.compLevel).silent ?_
        · have := he.makeReaders_lt hm
          rintro (h | ⟨k', h, hle⟩)
          · cases h
          · cases h
            omega
        · have := hs.makeReaders_ge hm
          rintro (h | ⟨k', h, hlt⟩)
          · cases h
          · cases h
            omega

/-- A whole-file worker makes its reader list with room for its one reader slot. -/
theorem taskScript_roomFor (env : Env) (level : Int) (t : Task) : RoomFor (taskScript env level t) := by
  cases t with
  | crcFile k r ze =>
    rcases crcFile_cases env k r ze with ⟨e, h⟩ | h <;> rw [taskScript, h] <;>
      exact .of_not_mem fun _ _ => by simp
  | compressPartialFile k j r start dict last =>
    rcases compressPartialFile_cases env level k j r start dict last with ⟨e, h⟩ | ⟨d, h⟩ <;>
      rw [taskScript, h] <;> exact .of_not_mem fun _ _ => by simp
  | compressWholeFile k ze r =>
    rcases compressWholeFile_cases env level k ze r with ⟨e, h⟩ | ⟨e, h⟩ | ⟨fh, d, h, -⟩ <;>
      rw [taskScript, h]
    · exact .of_not_mem fun _ _ => by simp
    all_goals
      intro k' cap hm
      simp only [wholeFileTail, List.cons_append, List.nil_append, List.mem_cons,
        Action.makeReaders.injEq, reduceCtorEq, List.mem_singleton, false_or, or_false,
        List.not_mem_nil] at hm
      obtain ⟨rfl, rfl⟩ := hm
      simp [wholeFileTail, opsOn_cons, Action.opOn, Action.chanOp?]

end Room

/-! ### Reader lists are made before they are used -/

section Made

/-- Every reader slot a script enqueues on entry `k`'s reader list comes after the script has
made the list. -/
def MadeFirst (k : Nat) (u : List Action) : Prop :=
  ∀ pre j post, u = pre ++ .sendReader k j :: post → ∃ cap, .makeReaders k cap ∈ pre

theorem MadeFirst.of_not_mem {k : Nat} {u : List Action} (h : ∀ j, .sendReader k j ∉ u) :
    MadeFirst k u := fun pre j _ hu => absurd (hu ▸ List.mem_append_right pre (.head _)) (h j)

/-- A start that makes the list and enqueues nothing on it, then anything. -/
theorem MadeFirst.of_made {k cap : Nat} {A : List Action} (hA : ∀ j, .sendReader k j ∉ A)
    (hm : .makeReaders k cap ∈ A) (B : List Action) : MadeFirst k (A ++ B) := by
  intro pre j _ h
  rcases List.append_eq_append_iff.mp h with ⟨a', rfl, -⟩ | ⟨c', rfl, hc⟩
  · exact ⟨cap, List.mem_append_left _ hm⟩
  · cases c' with
    | nil => exact ⟨cap, by simpa using hm⟩
    | cons x c'' =>
      obtain ⟨rfl, -⟩ := List.cons.inj hc
      exact absurd (List.mem_append_right _ (.head _)) (hA j)

theorem MadeFirst.append {k : Nat} {A B : List Action} (hA : MadeFirst k A) (hB : MadeFirst k B) :
    MadeFirst k (A ++ B) := by
  intro pre j post h
  rcases List.append_eq_append_iff.mp h with ⟨a', rfl, hb⟩ | ⟨c', rfl, hc⟩
  · obtain ⟨cap, hm⟩ := hB a' j post hb
    exact ⟨cap, List.mem_append_right _ hm⟩
  · cases c' with
    | nil => exact absurd (hB [] j post (by simpa using hc.symm)) (by simp)
    | cons x c'' =>
      obtain ⟨rfl, rfl⟩ := List.cons.inj hc
      exact hA pre j c'' rfl

theorem splitHead_madeFirst (k' k : Nat) (ze : ZipEntry) (r : Source) (cap : Nat)
    {loop : List Action} {err : Option GoError} (hl : Loop k 0 loop err) (tail : List Action)
    (ht : ∀ j, .sendReader k' j ∉ tail) : MadeFirst k' (splitHead k ze r cap ++ loop ++ tail) := by
  by_cases hk : k' = k
  · subst hk
    rw [List.append_assoc]
    exact .of_made (fun j => by simp [splitHead])
      (show Action.makeReaders k' cap ∈ splitHead k' ze r cap by simp [splitHead]) _
  · refine .of_not_mem fun j hj => ?_
    simp only [splitHead, List.mem_append, List.mem_cons, reduceCtorEq, List.mem_singleton,
      false_or, or_false, List.not_mem_nil] at hj
    rcases hj with hj | hj
    · have := (hl.actions _ hj).2.2 _ rfl
      simp at this
      exact hk this
    · exact ht j hj

theorem Block.madeFirst {k : Nat} {b : List Action} (h : Block k b) (k' : Nat) : MadeFirst k' b := by
  cases h with
  | split ze r cap _ hl => exact splitHead_madeFirst k' k ze r cap hl _ (by simp)
  | symlink ze d =>
    by_cases hk : k' = k
    · subst hk
      exact .of_made (A := [.makeReaders k' 1]) (by simp) (List.mem_singleton_self _) _
    · exact .of_not_mem fun j => by simp [hk]
  | _ => exact .of_not_mem fun j => by simp

theorem Script.madeFirst {k : Nat} {P : List Action} (h : Script k P) (k' : Nat) : MadeFirst k' P := by
  induction h with
  | done | fail | hang => exact .of_not_mem fun j => by simp
  | failSplit k e hf =>
    cases hf with
    | mk ze r cap e' _ hl =>
      simpa using splitHead_madeFirst k' k ze r cap hl [.sendError e, .closeWriteOps] (by simp)
  | block hb _ ih => exact (hb.madeFirst k').append ih

theorem taskScript_madeFirst (env : Env) (level : Int) (t : Task) (k' : Nat) :
    MadeFirst k' (taskScript env level t) := by
  cases t with
  | crcFile k r ze =>
    rcases crcFile_cases env k r ze with ⟨e, h⟩ | h <;> rw [taskScript, h] <;>
      exact .of_not_mem fun _ => by simp
  | compressPartialFile k j r start dict last =>
    rcases compressPartialFile_cases env level k j r start dict last with ⟨e, h⟩ | ⟨d, h⟩ <;>
      rw [taskScript, h] <;> exact .of_not_mem fun _ => by simp
  | compressWholeFile k ze r =>
    rcases compressWholeFile_cases env level k ze r with ⟨e, h⟩ | ⟨e, h⟩ | ⟨fh, d, h, -⟩ <;>
      rw [taskScript, h]
    · exact .of_not_mem fun _ => by simp
    all_goals
      by_cases hk : k' = k
      · subst hk
        exact .of_made (A := [.makeReaders k' 1]) (by simp) (List.mem_singleton_self _) _
      · exact .of_not_mem fun j => by simp [wholeFileTail, hk]

end Made

/-! ### The room of a run of `write` -/

section Write

variable {env : Env} {level : Int} {P₀ : List Action}

/-- What the producer's script `P₀` guarantees of the room on the channels: at most one value
on each entry slot and reader slot; every reader list made with room for all the reader slots
the run enqueues on it; and, in every script, each list made before anything is enqueued on
it. -/
structure Roomy (env : Env) (level : Int) (P₀ : List Action) : Prop where
  single : ∀ ch, ch.carriesValue → (sendsIn env level P₀ ch).length ≤ 1
  room : ∀ u ∈ unitsOf env level P₀, ∀ k cap, .makeReaders k cap ∈ u →
    (sendsIn env level P₀ (.readers k)).length ≤ cap
  madeFirst : ∀ u ∈ unitsOf env level P₀, ∀ k, MadeFirst k u

theorem Roomy.of_script {k : Nat} (h : Script k P₀) (hr : RoomFor P₀) : Roomy env level P₀ where
  single _ hv := h.sendsIn_le_one hv
  room u hu k cap hm := by
    have hu' : RoomFor u := by
      rcases List.mem_cons.mp hu with rfl | hu
      · exact hr
      · obtain ⟨t, -, rfl⟩ := List.mem_map.mp hu
        exact taskScript_roomFor env level t
    obtain ⟨hne, hle⟩ := hu' k cap hm
    rwa [sendsIn, flatMap_opsOn_eq_owner (L := unitsOf env level P₀)
      ((h.rest env level).wellFormed.owned _) hu hne]
  madeFirst u hu k := by
    rcases List.mem_cons.mp hu with rfl | hu
    · exact h.madeFirst k
    · obtain ⟨t, -, rfl⟩ := List.mem_map.mp hu
      exact taskScript_madeFirst env level t k

theorem Roomy.nil : Roomy env level [] where
  single _ _ := by simp [sendsIn, unitsOf, workersOf]
  room u hu k cap hm := by simp [unitsOf, workersOf] at hu; simp [hu] at hm
  madeFirst u hu k := by
    simp [unitsOf, workersOf] at hu
    exact .of_not_mem fun _ => by simp [hu]

theorem write_roomy (env : Env) (opts : Options) (out : String) (ms : List PathMapping)
    (manifest : String) : Roomy env opts.compLevel (write env opts out ms manifest).producer := by
  unfold write
  split
  · exact .nil
  dsimp only
  split
  · exact .nil
  · exact .of_script (producer_script env opts Tracker.empty _) (producer_roomFor env opts _ _)

end Write

end SoongZip
