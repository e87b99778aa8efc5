import SoongZip.Channels
import SoongZip.Split

/-!
# The shape of the producer's script

`write`'s producer goroutine (`soong_zip.go:370–385`) runs the calls of
`SoongZip.Producer` one after another. Whatever the path mappings and the environment, its
script is a sequence of blocks, one per entry, for the entries `0, 1, 2, …` in order, ended by
`close(z.writeOps)`, by an error sent on `z.errors` (possibly after the start of a split entry
whose window read failed), or by a loop that never ends. Each block is a directory, a symlink,
a whole-file entry or a split entry, and names only its own entry's channels.
-/

namespace SoongZip

/-- The block loop of a split entry from block `j` (`soong_zip.go:604–622`): one reader slot,
one permit and one worker per block, and the slot and permit of a block whose window read
failed. -/
inductive Loop (k : Nat) : Nat → List Action → Option GoError → Prop
  | done (j : Nat) : Loop k j [] none
  | fail (j : Nat) (e : GoError) : Loop k j [.sendReader k j, .cpuRequest k] (some e)
  | next (j : Nat) (r : Source) (start : Nat) (dict : List UInt8) (last : Bool)
      {acts : List Action} {err : Option GoError} :
      Loop k (j + 1) acts err →
      Loop k j (.sendReader k j :: .cpuRequest k ::
        .spawn (.compressPartialFile k j r start dict last) :: acts) err

/-- The start of a split entry: its slot, its permit and memory, its reader list and its CRC
worker. -/
def splitHead (k : Nat) (ze : ZipEntry) (r : Source) (cap : Nat) : List Action :=
  [.sendWriteOp k, .cpuRequest k, .memRequest k ze.allocatedSize, .makeReaders k cap,
    .spawn (.crcFile k r ze)]

/-- The producer's operations for entry `k`. -/
inductive Block (k : Nat) : List Action → Prop
  | dir (ze : ZipEntry) : ze.futureReaders = none → ze.allocatedSize = 0 →
      Block k [.sendEntry k ze, .closeEntry k, .sendWriteOp k]
  | symlink (ze : ZipEntry) (d : List UInt8) : ze.futureReaders = some k → ze.allocatedSize = 0 →
      Block k [.makeReaders k 1, .sendReader k 0, .closeReaders k, .sendData k 0 d,
        .closeData k 0, .sendEntry k ze, .closeEntry k, .sendWriteOp k]
  | whole (ze : ZipEntry) (r : Source) :
      Block k [.sendWriteOp k, .cpuRequest k, .memRequest k ze.allocatedSize,
        .spawn (.compressWholeFile k ze r)]
  | split (ze : ZipEntry) (r : Source) (cap : Nat) {loop : List Action} :
      ze.futureReaders = some k → Loop k 0 loop none →
      loop.count (.cpuRequest k) = blockCount ze.fh.fileSize →
      Block k (splitHead k ze r cap ++ loop ++ [.closeReaders k])

/-- A split entry whose block loop stopped on a failed window read. -/
inductive FailedSplit (k : Nat) : List Action → Prop
  | mk (ze : ZipEntry) (r : Source) (cap : Nat) {loop : List Action} (e : GoError) :
      ze.futureReaders = some k → Loop k 0 loop (some e) →
      FailedSplit k (splitHead k ze r cap ++ loop)

/-- Complete blocks for the entries `k, …, k' - 1`. -/
inductive Blocks : Nat → Nat → List Action → Prop
  | nil (k : Nat) : Blocks k k []
  | cons {k k' : Nat} {b bs : List Action} : Block k b → Blocks (k + 1) k' bs →
      Blocks k k' (b ++ bs)

/-- The producer's script from entry `k` on. -/
inductive Script : Nat → List Action → Prop
  | done (k : Nat) : Script k [.closeWriteOps]
  | fail (k : Nat) (e : GoError) : Script k [.sendError e, .closeWriteOps]
  | hang (k : Nat) : Script k [.hang]
  | failSplit (k : Nat) {f : List Action} (e : GoError) : FailedSplit k f →
      Script k (f ++ [.sendError e, .closeWriteOps])
  | block {k : Nat} {b rest : List Action} : Block k b → Script (k + 1) rest →
      Script k (b ++ rest)

theorem Blocks.append {k k' k'' : Nat} {bs bs' : List Action} (h : Blocks k k' bs)
    (h' : Blocks k' k'' bs') : Blocks k k'' (bs ++ bs') := by
  induction h with
  | nil => exact h'
  | cons hb _ ih => rw [List.append_assoc]; exact .cons hb (ih h')

theorem Blocks.script {k k' : Nat} {bs rest : List Action} (h : Blocks k k' bs)
    (h' : Script k' rest) : Script k (bs ++ rest) := by
  induction h with
  | nil => exact h'
  | cons hb _ ih => rw [List.append_assoc]; exact .block hb (ih h')

/-- What a producer call emits from tracker `t`: complete blocks for the entries it allocates
and, when it fails, at most the start of a split entry after them. -/
def Emits (t : Tracker) (e : Emitted) : Prop :=
  match e.error with
  | none => Blocks t.nextEntry e.tracker.nextEntry e.actions
  | some _ => ∃ k bs f, Blocks t.nextEntry k bs ∧ (f = [] ∨ FailedSplit k f) ∧ e.actions = bs ++ f

theorem Blocks.single {k : Nat} {b : List Action} (h : Block k b) : Blocks k (k + 1) b := by
  simpa using Blocks.cons h (.nil _)

theorem Emits.of_fail (t t' : Tracker) (e : GoError) : Emits t ⟨t', [], some e⟩ :=
  ⟨t.nextEntry, [], [], .nil _, .inl rfl, rfl⟩

/-! ### Each call of the producer -/

theorem blockLoop_loop (env : Env) (k : Nat) (r : Source) (fileSize : Nat) :
    ∀ start j, Loop k j (blockLoop env k r fileSize start j).1 (blockLoop env k r fileSize start j).2 := by
  intro start j
  induction start, j using blockLoop.induct env k r fileSize with
  | case1 start j h _ e hdict =>
    have hd : (if start ≥ windowSize then env.read r (.dict start) else .ok []) = .error e := by
      rw [← hdict]
      rfl
    rw [blockLoop.eq_1]
    simp only [h, ↓reduceIte, hd]
    exact .fail j e
  | case2 start j h _ d hdict ih =>
    have hd : (if start ≥ windowSize then env.read r (.dict start) else .ok []) = .ok d := by
      rw [← hdict]
      rfl
    rw [blockLoop.eq_1, if_pos h]
    dsimp only
    rw [hd]
    generalize blockLoop env k r fileSize (start + parallelBlockSize) (j + 1) = X at ih ⊢
    obtain ⟨acts, err⟩ := X
    exact .next j r start d _ ih
  | case3 start j h =>
    rw [blockLoop.eq_1]
    simp only [h, ↓reduceIte]
    exact .done j

/-- A block loop from offset `start` that ends without a failed window read requests one permit
per block of the rest of the file. -/
theorem blockLoop_requests (env : Env) (k : Nat) (r : Source) (fileSize : Nat) :
    ∀ start j, (blockLoop env k r fileSize start j).2 = none →
      (blockLoop env k r fileSize start j).1.count (.cpuRequest k) = blockCount (fileSize - start) := by
  intro start j
  induction start, j using blockLoop.induct env k r fileSize with
  | case1 start j h _ e hdict =>
    have hd : (if start ≥ windowSize then env.read r (.dict start) else .ok []) = .error e := by
      rw [← hdict]
      rfl
    rw [blockLoop.eq_1]
    simp [h, hd]
  | case2 start j h _ d hdict ih =>
    have hd : (if start ≥ windowSize then env.read r (.dict start) else .ok []) = .ok d := by
      rw [← hdict]
      rfl
    rw [blockLoop.eq_1, if_pos h]
    dsimp only
    rw [hd]
    generalize blockLoop env k r fileSize (start + parallelBlockSize) (j + 1) = X at ih ⊢
    obtain ⟨acts, err⟩ := X
    intro hn
    rw [blockCount_sub_of_lt h, ← ih hn]
    simp
  | case3 start j h =>
    rw [blockLoop.eq_1, blockCount_sub_of_le h]
    simp [h]

theorem pushDirs_blocks (opts : Options) (dir : String) :
    ∀ (t : Tracker) (zs : List String),
      Blocks t.nextEntry (pushDirs opts dir t zs).1.nextEntry (pushDirs opts dir t zs).2
  | t, [] => .nil _
  | t, cleanDir :: rest => by
    simp only [pushDirs]
    exact .cons (.dir _ rfl rfl) (pushDirs_blocks opts dir { t with nextEntry := t.nextEntry + 1 } rest)

theorem dirLoop_nextEntry (src : String) : ∀ {fuel : Nat} {t : Tracker} {d : String}
    {zs : List String} {l : DirLoop}, dirLoop src fuel t d zs = some l →
      l.tracker.nextEntry = t.nextEntry
  | 0, _, _, _, _, h => by simp [dirLoop] at h
  | fuel + 1, t, d, zs, l, h => by
    rcases dirLoop_round src t d zs with ⟨-, hs⟩ | ⟨_, -, hs⟩ | ⟨-, -, -, -, hs⟩ <;> rw [hs] at h
    · cases h
      rfl
    · cases h
      rfl
    · exact (dirLoop_nextEntry src h).trans rfl

theorem writeDirectory_emits (opts : Options) (t : Tracker) (dir src : String) {e : Emitted}
    (h : writeDirectory opts t dir src = some e) : Emits t e := by
  unfold writeDirectory at h
  obtain ⟨l, hl, rfl⟩ := Option.map_eq_some'.mp h
  have hnext : l.tracker.nextEntry = t.nextEntry := dirLoop_nextEntry src hl
  split
  · exact Emits.of_fail _ _ _
  · split
    · simp only [Emits]
      rw [← hnext]
      exact pushDirs_blocks opts l.dir l.tracker l.zipDirs
    · simp only [Emits, hnext]
      exact .nil _

theorem writeSymlink_emits (env : Env) (t : Tracker) (rel file : String) :
    Emits t (writeSymlink env t rel file) := by
  unfold writeSymlink
  split
  · exact Emits.of_fail _ _ _
  · exact Blocks.single (.symlink _ _ rfl rfl)

theorem splitPath_emits (env : Env) (t : Tracker) (ze : ZipEntry) (r : Source)
    (cap fileSize : Nat) (hze : ze.futureReaders = some t.nextEntry) (hfs : ze.fh.fileSize = fileSize) :
    Emits t ⟨{ t with nextEntry := t.nextEntry + 1 },
      splitHead t.nextEntry ze r cap ++ (blockLoop env t.nextEntry r fileSize 0 0).1 ++
        (if (blockLoop env t.nextEntry r fileSize 0 0).2.isSome then []
          else [.closeReaders t.nextEntry]),
      (blockLoop env t.nextEntry r fileSize 0 0).2⟩ := by
  have hl := blockLoop_loop env t.nextEntry r fileSize 0 0
  have hn := blockLoop_requests env t.nextEntry r fileSize 0 0
  rw [Nat.sub_zero] at hn
  generalize blockLoop env t.nextEntry r fileSize 0 0 = bl at hl hn ⊢
  obtain ⟨acts, err⟩ := bl
  cases err with
  | none => exact Blocks.single (.split _ _ _ hze hl (by rw [hfs]; exact hn rfl))
  | some e => exact ⟨t.nextEntry, [], _, .nil _, .inr (.mk _ r cap e hze hl), by simp⟩

theorem writeFileContents_emits (env : Env) (t : Tracker) (header : FileHeader) (r : Source) :
    Emits t (writeFileContents env t header r) := by
  dsimp only [writeFileContents]
  split
  · exact splitPath_emits env t { fh := _, futureReaders := some _, allocatedSize := _ } r _ _ rfl rfl
  · exact Blocks.single (.whole { fh := _, futureReaders := none, allocatedSize := _ } r)

theorem Emits.congr {t t' : Tracker} {e : Emitted} (h : t'.nextEntry = t.nextEntry)
    (he : Emits t' e) : Emits t e := by
  unfold Emits at he ⊢
  rwa [h] at he

theorem Emits.after {t t' : Tracker} {acts : List Action} {e : Emitted}
    (hb : Blocks t.nextEntry t'.nextEntry acts) (he : Emits t' e) : Emits t (Emitted.after acts e) := by
  unfold Emits at he ⊢
  simp only [Emitted.after]
  split at he
  · exact hb.append he
  · obtain ⟨k, bs, f, hbs, hf, heq⟩ := he
    exact ⟨k, acts ++ bs, f, hb.append hbs, hf, by rw [heq, List.append_assoc]⟩

theorem addNonDir_emits (env : Env) (t : Tracker) (dest src : String) (method : UInt16)
    (s : FileInfo) : Emits t (addNonDir env t dest src method s) := by
  unfold addNonDir
  split
  · exact Emits.of_fail _ _ _
  · split
    · exact Emits.of_fail _ _ _
    · dsimp only
      split
      · exact (writeSymlink_emits env _ dest src).congr rfl
      · split
        · exact Emits.of_fail _ _ _
        · split
          · exact Emits.of_fail _ _ _
          · exact (writeFileContents_emits env _ _ _).congr rfl

theorem addFile_emits (env : Env) (opts : Options) (t : Tracker) (dest src : String)
    (method : UInt16) {e : Emitted} (h : addFile env opts t dest src method = some e) :
    Emits t e := by
  unfold addFile at h
  split at h
  · cases h
    exact Emits.of_fail _ _ _
  · split at h
    · split at h
      · exact writeDirectory_emits opts t dest src h
      · cases h
        exact Blocks.nil _
    · obtain ⟨w, hw, rfl⟩ := Option.map_eq_some'.mp h
      have hwe := writeDirectory_emits opts t _ src hw
      split
      · exact hwe
      · rename_i hnone
        unfold Emits at hwe
        rw [hnone] at hwe
        exact Emits.after hwe (addNonDir_emits env w.tracker dest src method _)

theorem addManifest_emits (env : Env) (t : Tracker) (dest src : String) (method : UInt16) :
    Emits t (addManifest env t dest src method) := by
  unfold addManifest
  split
  · exact Emits.of_fail _ _ _
  · split
    · exact Emits.of_fail _ _ _
    · split
      · exact Emits.of_fail _ _ _
      · exact writeFileContents_emits env t _ _

/-- The call the producer makes for one mapping, `addManifest` or `addFile`, emits from its
tracker. -/
theorem producer_call_emits (env : Env) (opts : Options) (t : Tracker) (ele : PathMapping)
    {e : Emitted} (h : (if opts.emulateJar ∧ ele.dest = manifestDest then
      some (addManifest env t ele.dest ele.src ele.zipMethod)
      else addFile env opts t ele.dest ele.src ele.zipMethod) = some e) : Emits t e := by
  split at h
  · cases h
    exact addManifest_emits env t _ _ _
  · exact addFile_emits env opts t _ _ _ h

/-- The producer's script is a sequence of blocks for the entries from the tracker's next one
on, with one of the four endings. -/
theorem producer_script (env : Env) (opts : Options) :
    ∀ (t : Tracker) (ms : List PathMapping), Script t.nextEntry (producer env opts t ms)
  | t, [] => .done _
  | t, ele :: rest => by
    simp only [producer]
    have hem := fun e => @producer_call_emits env opts t ele e
    generalize (if opts.emulateJar ∧ ele.dest = manifestDest then
      some (addManifest env t ele.dest ele.src ele.zipMethod)
      else addFile env opts t ele.dest ele.src ele.zipMethod) = call at hem ⊢
    match call, hem with
    | none, _ => exact .hang _
    | some e, hem =>
      have he := hem e rfl
      unfold Emits at he
      dsimp only
      split
      · rename_i err herr
        rw [herr] at he
        obtain ⟨k, bs, f, hbs, hf, heq⟩ := he
        rw [heq, List.append_assoc]
        refine hbs.script ?_
        rcases hf with rfl | hf
        · exact .fail k err
        · exact .failSplit k err hf
      · rename_i herr
        rw [herr] at he
        exact he.script (producer_script env opts e.tracker rest)

/-! ### The producer never hangs

The producer emits `.hang` only where a call has not returned, and every call returns
(`addFile_isSome`); so no script of the producer takes the `hang` ending. -/

theorem Loop.hang_not_mem {k j : Nat} {acts : List Action} {err : Option GoError}
    (h : Loop k j acts err) : Action.hang ∉ acts := by
  induction h <;> simp_all

theorem Block.hang_not_mem {k : Nat} {b : List Action} (h : Block k b) : Action.hang ∉ b := by
  cases h with
  | split _ _ _ _ hl _ => simp [splitHead, hl.hang_not_mem]
  | _ => simp

theorem Blocks.hang_not_mem {k k' : Nat} {bs : List Action} (h : Blocks k k' bs) :
    Action.hang ∉ bs := by
  induction h with
  | nil => simp
  | cons hb _ ih => simp [hb.hang_not_mem, ih]

theorem Emits.hang_not_mem {t : Tracker} {e : Emitted} (h : Emits t e) : Action.hang ∉ e.actions := by
  unfold Emits at h
  split at h
  · exact h.hang_not_mem
  · obtain ⟨k, bs, f, hb, hf, he⟩ := h
    rw [he]
    rcases hf with rfl | ⟨_, _, _, _, _, hl⟩
    · simpa using hb.hang_not_mem
    · simp [hb.hang_not_mem, splitHead, hl.hang_not_mem]

/-- Every call of the producer returns, so its script never hangs: over every mapping list, from
every tracker. -/
theorem producer_hang_free (env : Env) (opts : Options) :
    ∀ (t : Tracker) (ms : List PathMapping), Action.hang ∉ producer env opts t ms
  | _, [] => by simp [producer]
  | t, ele :: rest => by
    simp only [producer]
    have hem := fun e => @producer_call_emits env opts t ele e
    have hsome : (if opts.emulateJar ∧ ele.dest = manifestDest then
        some (addManifest env t ele.dest ele.src ele.zipMethod)
        else addFile env opts t ele.dest ele.src ele.zipMethod).isSome := by
      split
      · rfl
      · exact addFile_isSome ele.src env opts t ele.dest ele.zipMethod
    generalize (if opts.emulateJar ∧ ele.dest = manifestDest then
      some (addManifest env t ele.dest ele.src ele.zipMethod)
      else addFile env opts t ele.dest ele.src ele.zipMethod) = call at hem hsome ⊢
    obtain ⟨e, rfl⟩ := Option.isSome_iff_exists.mp hsome
    have he := (hem e rfl).hang_not_mem
    dsimp only
    split
    · simp [he]
    · simp [he, producer_hang_free env opts e.tracker rest]

end SoongZip
