import Mathlib.Data.List.Chain
import SoongZip.Scripts

/-!
# The names of the entries the producer publishes

`zipWriter.addFile` refuses a path it has already created as a file or as a directory
(`soong_zip.go:492–506`), and the ancestor loop of `writeDirectory` records only directories it
has not created (lines 797–811). Every entry is published under a name the tracker has just
recorded: a file or a symlink under its path, a directory under its path and a separator. So
while every mapping goes through `addFile` (in jar mode the manifest's path goes to
`addManifest`, which records nothing) and no destination ends in a separator other than the root,
no two entries the producer publishes share a name, and no entry is named both `p` and `p/`.

`NameBook` is what the tracker and the names published so far satisfy; the ancestor loop,
`writeDirectory`, `addFile` and the producer goroutine keep it.
-/

namespace SoongZip

/-! ### The names a script publishes -/

/-- The name of the entry an action publishes: the entry it sends, or the entry of the CRC or
whole-file worker it starts, which sends it under that name. -/
def Action.entryName? : Action → Option String
  | .sendEntry _ ze => some ze.fh.name
  | .spawn (.crcFile _ _ ze) => some ze.fh.name
  | .spawn (.compressWholeFile _ ze _) => some ze.fh.name
  | _ => none

/-- The names of the entries a script publishes, in order. -/
def entryNames (acts : List Action) : List String := acts.filterMap Action.entryName?

@[simp] theorem entryNames_append (a b : List Action) :
    entryNames (a ++ b) = entryNames a ++ entryNames b :=
  List.filterMap_append ..

theorem wholeFileTail_name {k k' : Nat} {ze ze' : ZipEntry} {fh : FileHeader} {p : List UInt8}
    (h : .sendEntry k' ze' ∈ wholeFileTail k ze fh p) : ze'.fh.name = fh.name := by
  simp [wholeFileTail] at h
  obtain ⟨-, rfl⟩ := h
  rfl

/-- A whole-file worker publishes its entry under the name it was started with, compressed or
stored. -/
theorem compressWholeFile_name {env : Env} {level : Int} {k k' : Nat} {ze ze' : ZipEntry}
    {r : Source} (h : .sendEntry k' ze' ∈ compressWholeFile env level k ze r) :
    ze'.fh.name = ze.fh.name := by
  have stored : ∀ fh : FileHeader, fh.name = ze.fh.name →
      .sendEntry k' ze' ∈ wholeFileStored env k ze fh r → ze'.fh.name = ze.fh.name := by
    intro fh hfh hs
    rcases wholeFileStored_cases env k ze fh r with ⟨e, he⟩ | he <;> rw [he] at hs
    · simp at hs
    · exact (wholeFileTail_name hs).trans hfh
  unfold compressWholeFile at h
  split at h
  · simp at h
  split at h
  · simp at h
  rcases List.mem_append.mp h with h | h
  · simp at h
  split at h
  · split at h
    · simp at h
    · split at h
      · exact (wholeFileTail_name h :)
      · exact stored _ (by rfl) h
  · exact stored _ (by rfl) h

/-- A worker publishes only the entry it was started with, under that entry's name. -/
theorem taskScript_entryName {env : Env} {level : Int} {t : Task} {k : Nat} {ze : ZipEntry}
    (h : .sendEntry k ze ∈ taskScript env level t) :
    (Action.spawn t).entryName? = some ze.fh.name := by
  cases t with
  | crcFile k' r ze₀ =>
    rcases crcFile_cases env k' r ze₀ with ⟨e, hc⟩ | hc <;> simp [taskScript, hc] at h
    obtain ⟨-, rfl⟩ := h
    rfl
  | compressPartialFile k' j r start dict last =>
    rcases compressPartialFile_cases env level k' j r start dict last with ⟨e, hc⟩ | ⟨d, hc⟩ <;>
      simp [taskScript, hc] at h
  | compressWholeFile k' ze₀ r => exact congrArg some (compressWholeFile_name h).symm

theorem Loop.entryNames_eq_nil {k j : Nat} {acts : List Action} {err : Option GoError}
    (h : Loop k j acts err) : entryNames acts = [] := by
  induction h with
  | done | fail => rfl
  | next _ _ _ _ _ _ ih => simpa [entryNames, Action.entryName?] using ih

/-- `writeFileContents` publishes one entry, under the header's name, and moves only the entry
index. -/
theorem writeFileContents_names (env : Env) (t : Tracker) (h : FileHeader) (r : Source) :
    entryNames (writeFileContents env t h r).actions = [h.name] ∧
      (writeFileContents env t h r).tracker = { t with nextEntry := t.nextEntry + 1 } := by
  have hl : ∀ fileSize, (blockLoop env t.nextEntry r fileSize 0 0).1.filterMap Action.entryName? = [] :=
    fun fileSize => (blockLoop_loop env t.nextEntry r fileSize 0 0).entryNames_eq_nil
  dsimp only [writeFileContents]
  refine ⟨?_, by split <;> rfl⟩
  split <;> simp [entryNames, Action.entryName?, hl, FileHeader.setModTime]

/-- `writeSymlink` publishes nothing, or one entry under the link's path, and moves only the
entry index. -/
theorem writeSymlink_names (env : Env) (t : Tracker) (rel file : String) :
    (entryNames (writeSymlink env t rel file).actions = [] ∨
        entryNames (writeSymlink env t rel file).actions = [rel]) ∧
      (writeSymlink env t rel file).tracker.createdFiles = t.createdFiles ∧
      (writeSymlink env t rel file).tracker.createdDirs = t.createdDirs := by
  unfold writeSymlink
  split
  · exact ⟨.inl rfl, rfl, rfl⟩
  · exact ⟨.inr rfl, rfl, rfl⟩

theorem dirEntry_name (opts : Options) (dir cleanDir : String) :
    (dirEntry opts dir cleanDir).fh.name = cleanDir ++ "/" := by
  unfold dirEntry
  split <;> rfl

/-- The directory entries of `writeDirectory` are named by their paths and a separator. -/
theorem pushDirs_names (opts : Options) (dir : String) : ∀ (t : Tracker) (zs : List String),
    entryNames (pushDirs opts dir t zs).2 = zs.map (· ++ "/") ∧
      (pushDirs opts dir t zs).1.createdFiles = t.createdFiles ∧
      (pushDirs opts dir t zs).1.createdDirs = t.createdDirs
  | _, [] => ⟨rfl, rfl, rfl⟩
  | t, cleanDir :: rest => by
    obtain ⟨hn, hf, hd⟩ := pushDirs_names opts dir { t with nextEntry := t.nextEntry + 1 } rest
    refine ⟨?_, hf, hd⟩
    simp only [pushDirs, List.cons_append, List.map_cons]
    simpa [entryNames, Action.entryName?, dirEntry_name] using hn

/-! ### The bookkeeping invariant -/

/-- A path followed by a separator determines the path. -/
theorem append_sep_inj {p q : String} (h : p ++ "/" = q ++ "/") : p = q :=
  String.ext (List.append_cancel_right (congrArg String.data h))

theorem getLast_append_sep (p : String) : (p ++ "/").toList.getLast? = some '/' := by
  show (p.data ++ ['/']).getLast? = some '/'
  simp

/-- What the tracker and the names published so far keep: the names are distinct; each is a
file the tracker has recorded, or a directory it has recorded followed by a separator; no path
is recorded as both; no recorded file ends in a separator; and every recorded directory is a
non-empty cleaned path. -/
structure NameBook (t : Tracker) (names : List String) : Prop where
  nodup : names.Nodup
  named : ∀ n ∈ names, (t.createdFiles n).isSome ∨ ∃ d, n = d ++ "/" ∧ (t.createdDirs d).isSome
  apart : ∀ p, t.createdFiles p = none ∨ t.createdDirs p = none
  files : ∀ p, (t.createdFiles p).isSome → p.toList.getLast? ≠ some '/'
  dirs : ∀ d, (t.createdDirs d).isSome → d ≠ "" ∧ Filepath.clean d = d

namespace NameBook

variable {t : Tracker} {names : List String}

theorem empty : NameBook Tracker.empty [] :=
  ⟨List.nodup_nil, by simp, fun _ => .inl rfl, by simp [Tracker.empty], by simp [Tracker.empty]⟩

/-- The book reads only the two maps. -/
theorem of_maps {t' : Tracker} (h : NameBook t names) (hf : t'.createdFiles = t.createdFiles)
    (hd : t'.createdDirs = t.createdDirs) : NameBook t' names := by
  obtain ⟨f', d', n'⟩ := t'
  obtain ⟨f, d, n⟩ := t
  dsimp only at hf hd
  subst hf hd
  exact ⟨h.nodup, h.named, h.apart, h.files, h.dirs⟩

theorem not_mem_of_fresh_file (h : NameBook t names) {p : String} (hf : t.createdFiles p = none)
    (hp : p.toList.getLast? ≠ some '/') : p ∉ names := fun hm => by
  rcases h.named p hm with hs | ⟨d, rfl, -⟩
  · simp [hf] at hs
  · exact hp (getLast_append_sep d)

theorem sep_not_mem_of_fresh_dir (h : NameBook t names) {d : String}
    (hd : t.createdDirs d = none) : d ++ "/" ∉ names := fun hm => by
  rcases h.named _ hm with hs | ⟨d', he, hs⟩
  · exact h.files _ hs (getLast_append_sep d)
  · obtain rfl := append_sep_inj he
    simp [hd] at hs

/-- No name of the book is another one followed by a separator. -/
theorem sep_not_mem (h : NameBook t names) {p : String} (hp : p ∈ names) : p ++ "/" ∉ names := by
  intro hs
  rcases h.named _ hs with hf | ⟨d, he, hd⟩
  · exact h.files _ hf (getLast_append_sep p)
  obtain rfl := append_sep_inj he
  rcases h.named _ hp with hf | ⟨d', rfl, hd'⟩
  · rcases h.apart p with h' | h' <;> simp [h'] at hf hd
  · obtain ⟨-, hc⟩ := h.dirs _ hd
    have hroot := Filepath.clean_eq_root_of_getLast (d' ++ "/") (by rw [hc]; exact getLast_append_sep d')
    rw [hc] at hroot
    exact (h.dirs d' hd').1 (append_sep_inj (hroot.trans (by decide : "/" = "" ++ "/")))

/-- Recording a directory that is not a file keeps the book. -/
theorem recordDir (h : NameBook t names) {d src : String} (hf : t.createdFiles d = none)
    (hd : d ≠ "") (hc : Filepath.clean d = d) :
    NameBook { t with createdDirs := Function.update t.createdDirs d (some src) } names where
  nodup := h.nodup
  named n hn := (h.named n hn).imp_right fun ⟨d', he, hs⟩ => ⟨d', he, by
    by_cases hdd : d' = d
    · subst hdd
      simp
    · simpa [Function.update_noteq hdd] using hs⟩
  apart p := by
    by_cases hp : p = d
    · exact .inl (hp ▸ hf)
    · simpa [Function.update_noteq hp] using h.apart p
  files := h.files
  dirs d' hs := by
    by_cases hdd : d' = d
    · exact hdd ▸ ⟨hd, hc⟩
    · exact h.dirs d' (by simpa [Function.update_noteq hdd] using hs)

/-- Recording a path that is neither a file nor a directory and does not end in a separator
keeps the book, which may then also hold the path. -/
theorem recordFile (h : NameBook t names) {p : String} (src : String)
    (hd : t.createdDirs p = none) (hf : t.createdFiles p = none) (hp : p.toList.getLast? ≠ some '/') :
    NameBook { t with createdFiles := Function.update t.createdFiles p (some src) } names ∧
      NameBook { t with createdFiles := Function.update t.createdFiles p (some src) }
        (names ++ [p]) := by
  have hnamed : ∀ n, (t.createdFiles n).isSome ∨ (∃ d, n = d ++ "/" ∧ (t.createdDirs d).isSome) →
      (Function.update t.createdFiles p (some src) n).isSome ∨
        ∃ d, n = d ++ "/" ∧ (t.createdDirs d).isSome := fun n hn => by
    by_cases hnp : n = p
    · subst hnp
      simp
    · simpa [Function.update_noteq hnp] using hn
  have hb : NameBook { t with createdFiles := Function.update t.createdFiles p (some src) } names :=
    { nodup := h.nodup
      named := fun n hn => hnamed n (h.named n hn)
      apart := fun q => by
        by_cases hq : q = p
        · exact .inr (hq ▸ hd)
        · simpa [Function.update_noteq hq] using h.apart q
      files := fun q hq => by
        by_cases hqp : q = p
        · exact hqp ▸ hp
        · exact h.files q (by simpa [Function.update_noteq hqp] using hq)
      dirs := h.dirs }
  refine ⟨hb, { hb with
    nodup := h.nodup.append (List.nodup_singleton p) fun _ hm hp' =>
      h.not_mem_of_fresh_file hf hp (List.mem_singleton.mp hp' ▸ hm)
    named := fun n hn => ?_ }⟩
  rcases List.mem_append.mp hn with hn | hn
  · exact hb.named n hn
  · obtain rfl := List.mem_singleton.mp hn
    exact .inl (by simp)

/-- Publishing distinct new names, each a recorded file or a recorded directory and a separator,
keeps the book. -/
theorem publish (h : NameBook t names) {new : List String} (hn : new.Nodup)
    (hfresh : ∀ n ∈ new, n ∉ names)
    (hnamed : ∀ n ∈ new, (t.createdFiles n).isSome ∨ ∃ d, n = d ++ "/" ∧ (t.createdDirs d).isSome) :
    NameBook t (names ++ new) :=
  { h with
    nodup := h.nodup.append hn fun _ h1 h2 => hfresh _ h2 h1
    named := fun n hm => (List.mem_append.mp hm).elim (h.named n) (hnamed n) }

end NameBook

/-! ### Each call keeps the book -/

section Calls

variable (src : String)

/-- The ancestor loop keeps the book from a cleaned path on, and changes only `createdDirs`. -/
theorem dirLoop_book : ∀ {fuel : Nat} {t : Tracker} {d : String} {zs : List String} {l : DirLoop}
    {names : List String}, dirLoop src fuel t d zs = some l → NameBook t names →
      Filepath.clean d = d →
      NameBook l.tracker names ∧ l.tracker.createdFiles = t.createdFiles
  | 0, _, _, _, _, _, h, _, _ => by simp [dirLoop] at h
  | fuel + 1, t, d, zs, l, names, h, hb, hc => by
    rcases dirLoop_round src t d zs with ⟨-, hs⟩ | ⟨_, -, hs⟩ | ⟨hd, -, -, hf, hs⟩
    · rw [hs] at h
      cases h
      exact ⟨hb, rfl⟩
    · rw [hs] at h
      cases h
      exact ⟨hb, rfl⟩
    · rw [hs] at h
      obtain ⟨hb', hf'⟩ := dirLoop_book h (hb.recordDir hf hd hc) (Filepath.clean_clean _)
      exact ⟨hb', hf'⟩

/-- A loop that ends without an error has created the path it started from, unless that is `""`
or `.`. -/
theorem dirLoop_start : ∀ {fuel : Nat} {t : Tracker} {d : String} {zs : List String}
    {l : DirLoop}, dirLoop src fuel t d zs = some l → l.error = none →
      d = "" ∨ d = "." ∨ (l.tracker.createdDirs d).isSome
  | 0, _, _, _, _, h, _ => by simp [dirLoop] at h
  | fuel + 1, t, d, zs, l, h, he => by
    rcases dirLoop_round src t d zs with ⟨hstop, hs⟩ | ⟨_, -, hs⟩ | ⟨-, -, -, -, hs⟩
    · rw [hs] at h
      cases h
      exact hstop
    · rw [hs] at h
      cases h
      simp at he
    · rw [hs] at h
      obtain ⟨recs, -, hr⟩ := dirLoop_recorded src h
      refine .inr (.inr ?_)
      rw [hr.createdDirs d]
      split <;> simp

theorem writeDirectory_book {opts : Options} {t : Tracker} {dir : String} {w : Emitted}
    {names : List String} (h : writeDirectory opts t dir src = some w) (hb : NameBook t names) :
    NameBook w.tracker (names ++ entryNames w.actions) := by
  unfold writeDirectory at h
  obtain ⟨l, hl, rfl⟩ := Option.map_eq_some'.mp h
  obtain ⟨recs, hz, hr⟩ := dirLoop_recorded src hl
  have hbl := (dirLoop_book src hl hb (Filepath.clean_clean dir)).1
  rw [List.append_nil] at hz
  split
  · simpa [entryNames] using hbl
  split
  · obtain ⟨hn, hf, hd⟩ := pushDirs_names opts l.dir l.tracker l.zipDirs
    refine NameBook.of_maps ?_ hf hd
    show NameBook l.tracker (names ++ entryNames (pushDirs opts l.dir l.tracker l.zipDirs).2)
    rw [hn, hz]
    refine hbl.publish (hr.nodup.map fun _ _ => append_sep_inj) ?_ ?_
    · intro n hn
      obtain ⟨d, hd, rfl⟩ := List.mem_map.mp hn
      exact hb.sep_not_mem_of_fresh_dir (hr.fresh d hd)
    · intro n hn
      obtain ⟨d, hd, rfl⟩ := List.mem_map.mp hn
      exact .inr ⟨d, rfl, by simp [hr.createdDirs d, hd]⟩
  · simpa [entryNames] using hbl

/-- `writeDirectory` that returns no error has created the cleaned path, unless it is `""` or
`.`. -/
theorem writeDirectory_start {opts : Options} {t : Tracker} {dir : String} {w : Emitted}
    (h : writeDirectory opts t dir src = some w) (he : w.error = none) :
    Filepath.clean dir = "" ∨ Filepath.clean dir = "." ∨
      (w.tracker.createdDirs (Filepath.clean dir)).isSome := by
  unfold writeDirectory at h
  obtain ⟨l, hl, rfl⟩ := Option.map_eq_some'.mp h
  cases hle : l.error with
  | some e => simp [hle] at he
  | none =>
    have hdirs : (if opts.directories then
        ((pushDirs opts l.dir l.tracker l.zipDirs).1 : Tracker) else l.tracker).createdDirs =
          l.tracker.createdDirs := by
      split
      · exact (pushDirs_names opts l.dir l.tracker l.zipDirs).2.2
      · rfl
    have hs := dirLoop_start src hl hle
    simp only [hle]
    split <;> simp_all

/-- What `addFile` after its parent directories can do: refuse, publishing nothing and leaving
the maps as they were; or record its destination, which was neither a file nor a directory, as a
file, and publish nothing or one entry under it. -/
theorem addNonDir_spec (env : Env) (t : Tracker) (dest : String) (method : UInt16)
    (s : FileInfo) :
    (entryNames (addNonDir env t dest src method s).actions = [] ∧
        (addNonDir env t dest src method s).tracker.createdFiles = t.createdFiles ∧
        (addNonDir env t dest src method s).tracker.createdDirs = t.createdDirs) ∨
      (t.createdDirs dest = none ∧ t.createdFiles dest = none ∧
        (addNonDir env t dest src method s).tracker.createdFiles =
          Function.update t.createdFiles dest (some src) ∧
        (addNonDir env t dest src method s).tracker.createdDirs = t.createdDirs ∧
        (entryNames (addNonDir env t dest src method s).actions = [] ∨
          entryNames (addNonDir env t dest src method s).actions = [dest])) := by
  unfold addNonDir
  split
  · exact .inl ⟨rfl, rfl, rfl⟩
  rename_i hd
  split
  · exact .inl ⟨rfl, rfl, rfl⟩
  rename_i hf
  refine .inr ⟨hd, hf, ?_⟩
  split
  · obtain ⟨hn, hf', hd'⟩ := writeSymlink_names env
      { t with createdFiles := Function.update t.createdFiles dest (some src) } dest src
    exact ⟨hf', hd', hn⟩
  split
  · exact ⟨rfl, rfl, .inl rfl⟩
  split
  · exact ⟨rfl, rfl, .inl rfl⟩
  obtain ⟨hn, ht⟩ := writeFileContents_names env
    { t with createdFiles := Function.update t.createdFiles dest (some src) } _ (.file src)
  rw [hn, ht]
  split <;> exact ⟨rfl, rfl, .inr rfl⟩

/-- `addFile` after its parent directories keeps the book. -/
theorem addNonDir_book {env : Env} {t : Tracker} {dest : String} {method : UInt16}
    {s : FileInfo} {names : List String} (hb : NameBook t names)
    (hdest : dest.toList.getLast? = some '/' → (t.createdDirs dest).isSome) :
    NameBook (addNonDir env t dest src method s).tracker
      (names ++ entryNames (addNonDir env t dest src method s).actions) := by
  rcases addNonDir_spec src env t dest method s with ⟨hn, hf, hd⟩ | ⟨hd, hf, hf', hd', hn⟩
  · rw [hn, List.append_nil]
    exact hb.of_maps hf hd
  · have hp : dest.toList.getLast? ≠ some '/' := fun h => by simpa [hd] using hdest h
    obtain ⟨hb1, hb2⟩ := hb.recordFile src hd hf hp
    rcases hn with hn | hn <;> rw [hn]
    · rw [List.append_nil]
      exact hb1.of_maps hf' hd'
    · exact hb2.of_maps hf' hd'

/-- `addFile` keeps the book when its destination ends in a separator only at the root. -/
theorem addFile_book {env : Env} {opts : Options} {t : Tracker} {dest : String} {method : UInt16}
    {e : Emitted} {names : List String} (h : addFile env opts t dest src method = some e)
    (hb : NameBook t names) (hdest : dest.toList.getLast? = some '/' → dest = "/") :
    NameBook e.tracker (names ++ entryNames e.actions) := by
  unfold addFile at h
  split at h
  · cases h
    simpa [entryNames] using hb
  split at h
  · split at h
    · exact writeDirectory_book src h hb
    · cases h
      simpa [entryNames] using hb
  obtain ⟨w, hw, rfl⟩ := Option.map_eq_some'.mp h
  have hbw := writeDirectory_book src hw hb
  split
  · exact hbw
  rename_i hwe
  simp only [Emitted.after, entryNames_append, ← List.append_assoc]
  refine addNonDir_book src hbw fun hl => ?_
  obtain rfl := hdest hl
  have hroot : Filepath.clean (Filepath.dir "/") = "/" := by decide
  simpa [hroot] using writeDirectory_start src hw hwe

end Calls

/-! ### The producer goroutine -/

/-- Every run of the producer goroutine keeps the book, while every mapping goes through
`addFile` and no destination ends in a separator other than the root. -/
theorem producer_book (env : Env) (opts : Options) : ∀ (ms : List PathMapping) (t : Tracker)
    (names : List String), NameBook t names →
    (∀ m ∈ ms, opts.emulateJar = true → m.dest ≠ manifestDest) →
    (∀ m ∈ ms, m.dest.toList.getLast? = some '/' → m.dest = "/") →
    ∃ t', NameBook t' (names ++ entryNames (producer env opts t ms))
  | [], t, _, hb, _, _ => ⟨t, by simpa [producer, entryNames, Action.entryName?] using hb⟩
  | m :: ms, t, names, hb, hjar, hdest => by
    have hcall : ¬(opts.emulateJar = true ∧ m.dest = manifestDest) := fun h =>
      hjar m (List.mem_cons_self _ _) h.1 h.2
    simp only [producer, hcall, if_false]
    cases hadd : addFile env opts t m.dest m.src m.zipMethod with
    | none => exact ⟨t, by simpa [entryNames, Action.entryName?] using hb⟩
    | some e =>
      have hbe := addFile_book m.src hadd hb (hdest m (List.mem_cons_self _ _))
      dsimp only
      split
      · exact ⟨e.tracker, by simpa [entryNames, Action.entryName?] using hbe⟩
      · obtain ⟨t', ht'⟩ := producer_book env opts ms e.tracker _ hbe
          (fun m' hm' => hjar m' (List.mem_cons_of_mem _ hm'))
          (fun m' hm' => hdest m' (List.mem_cons_of_mem _ hm'))
        exact ⟨t', by simpa using ht'⟩

/-- The entries a run of the producer publishes have distinct names, and none is named by
another's name and a separator. -/
theorem producer_names_distinct (env : Env) (opts : Options) (ms : List PathMapping)
    (hjar : ∀ m ∈ ms, opts.emulateJar = true → m.dest ≠ manifestDest)
    (hdest : ∀ m ∈ ms, m.dest.toList.getLast? = some '/' → m.dest = "/") :
    (entryNames (producer env opts Tracker.empty ms)).Nodup ∧
      ∀ p ∈ entryNames (producer env opts Tracker.empty ms),
        p ++ "/" ∉ entryNames (producer env opts Tracker.empty ms) := by
  obtain ⟨t', hb⟩ := producer_book env opts ms Tracker.empty [] NameBook.empty hjar hdest
  rw [List.nil_append] at hb
  exact ⟨hb.nodup, fun p hp => hb.sep_not_mem hp⟩

/-! ### Directory entries come before what they hold

With `-d` (and `-jar`, which sets it), `writeDirectory` publishes an entry for every directory it
records, parents first, and `addFile` records a file's parent directories before the file. So
every entry comes after the entry of the directory it lies in. -/

/-- The directory an entry lies in, in terms of the property stated: `filepath.Dir` of its name
without the separator a directory entry ends in. -/
def entryParent (name : String) : String :=
  Filepath.dir ⟨(name.toList.reverse.dropWhile (· = '/')).reverse⟩

theorem entryParent_of_getLast {n : String} (h : n.toList.getLast? ≠ some '/') :
    entryParent n = Filepath.dir n := by
  have hd : n.toList.reverse.dropWhile (· = '/') = n.toList.reverse := by
    cases hr : n.toList.reverse with
    | nil => rfl
    | cons c cs =>
      have hc : c ≠ '/' := fun hc => h (by rw [← List.head?_reverse, hr, hc]; rfl)
      simp [hc]
  rw [entryParent, hd, List.reverse_reverse]
  rfl

/-- The entry of a directory lies in the directory's `Dir`; the root's lies nowhere. -/
theorem entryParent_sep {d : String} (h : d.toList.getLast? ≠ some '/' ∨ d = "/") :
    entryParent (d ++ "/") = if d = "/" then "." else Filepath.dir d := by
  rcases h with h | rfl
  · have hne : d ≠ "/" := fun e => h (by rw [e]; rfl)
    have hcut : (d ++ "/").toList.reverse.dropWhile (· = '/') = d.toList.reverse.dropWhile (· = '/') := by
      show (d.data ++ ['/']).reverse.dropWhile (· = '/') = d.data.reverse.dropWhile (· = '/')
      simp
    rw [if_neg hne, ← entryParent_of_getLast h, entryParent, entryParent, hcut]
  · decide

/-- The property stated, on a list of entry names: every entry whose directory is not `.` comes
after that directory's entry. -/
def ParentsFirst (names : List String) : Prop :=
  ∀ pre n post, names = pre ++ n :: post → entryParent n ≠ "." → entryParent n ++ "/" ∈ pre

theorem ParentsFirst.nil : ParentsFirst [] := fun pre n post h => by simp at h

/-- A name whose directory's entry is already there may come next. -/
theorem ParentsFirst.snoc {names : List String} {n : String} (h : ParentsFirst names)
    (hn : entryParent n ≠ "." → entryParent n ++ "/" ∈ names) : ParentsFirst (names ++ [n]) := by
  intro pre x post he hx
  rcases List.eq_nil_or_concat post with rfl | ⟨post', y, rfl⟩
  · obtain ⟨rfl, hxn⟩ := List.append_inj' he rfl
    obtain rfl := List.singleton_inj.mp hxn
    exact hn hx
  · rw [List.concat_eq_append,
      show pre ++ x :: (post' ++ [y]) = (pre ++ x :: post') ++ [y] by simp] at he
    exact h pre x post' (List.append_inj' he rfl).1 hx

/-- Directories pushed parents first, from a directory whose entry is there (or `.`, or the root
pushed first), keep every entry after its directory's. -/
theorem ParentsFirst.push {names : List String} (h : ParentsFirst names) :
    ∀ {x : String} {recs : List String}, List.Chain (fun a b => Filepath.dir b = a) x recs →
      (x = "" ∨ x = "." ∨ x ++ "/" ∈ names ∨ (x = "/" ∧ recs.head? = some "/")) →
      (∀ r ∈ recs, r.toList.getLast? ≠ some '/' ∨ r = "/") →
      ParentsFirst (names ++ recs.map (· ++ "/"))
  | _, [], _, _, _ => by simpa using h
  | x, r :: rs, hc, hx, hr => by
    obtain ⟨hrx, hc⟩ := List.chain_cons.mp hc
    have hfirst : ParentsFirst (names ++ [r ++ "/"]) := by
      refine h.snoc fun hp => ?_
      rw [entryParent_sep (hr r (List.mem_cons_self _ _))] at hp ⊢
      split at hp
      · exact absurd rfl hp
      rename_i hne
      rw [if_neg hne]
      rcases hx with hx | hx | hx | ⟨-, hh⟩
      · exact absurd (hrx.trans hx) (Filepath.dir_ne_empty r)
      · exact absurd (hrx.trans hx) hp
      · rwa [hrx]
      · exact absurd (by simpa using hh) hne
    simpa using hfirst.push hc (.inr (.inr (.inl (List.mem_append_right _ (List.mem_singleton_self _)))))
      fun r' hr' => hr r' (List.mem_cons_of_mem _ hr')

/-- In directory mode, what the tracker and the names published so far keep besides the book:
every name comes after its directory's entry, and every directory created has its entry. -/
structure TreeBook (t : Tracker) (names : List String) : Prop where
  book : NameBook t names
  parentsFirst : ParentsFirst names
  published : ∀ d, (t.createdDirs d).isSome → d ++ "/" ∈ names

theorem TreeBook.empty : TreeBook Tracker.empty [] :=
  ⟨NameBook.empty, ParentsFirst.nil, by simp [Tracker.empty]⟩

theorem TreeBook.of_maps {t t' : Tracker} {names : List String} (h : TreeBook t names)
    (hf : t'.createdFiles = t.createdFiles) (hd : t'.createdDirs = t.createdDirs) :
    TreeBook t' names :=
  ⟨h.book.of_maps hf hd, h.parentsFirst, fun d hs => h.published d (hd ▸ hs)⟩

theorem NameBook.dir_shape {t : Tracker} {names : List String} (h : NameBook t names) {d : String}
    (hd : (t.createdDirs d).isSome) : d.toList.getLast? ≠ some '/' ∨ d = "/" := by
  by_cases hl : d.toList.getLast? = some '/'
  · have hc := (h.dirs d hd).2
    exact .inr (hc ▸ Filepath.clean_eq_root_of_getLast d (by rwa [hc]))
  · exact .inl hl

section Tree

variable (src : String)

/-- The loop records a chain of paths: read from where it stops, each is the `Dir` of the next,
the last being the path it started from. It stops at `""`, `.`, a directory created before it, or
the root it has just recorded, and never at a path longer than the one it started from. -/
theorem dirLoop_chain : ∀ {fuel : Nat} {t : Tracker} (p : String) {zs : List String}
    {l : DirLoop}, dirLoop src fuel t (Filepath.clean p) zs = some l → l.error = none →
      ∃ recs, l.zipDirs = recs ++ zs ∧
        List.Chain' (fun a b => Filepath.dir a = b) (l.dir :: recs).reverse ∧
        (l.dir :: recs).reverse.head? = some (Filepath.clean p) ∧
        (l.dir = "" ∨ l.dir = "." ∨ (t.createdDirs l.dir).isSome ∨
          (l.dir = "/" ∧ recs.head? = some "/")) ∧
        (l.dir = "." ∨ l.dir.length ≤ (Filepath.clean p).length)
  | 0, _, _, _, _, h, _ => by simp [dirLoop] at h
  | fuel + 1, t, p, zs, l, h, he => by
    rcases dirLoop_round src t (Filepath.clean p) zs with
      ⟨hstop, hs⟩ | ⟨_, -, hs⟩ | ⟨-, hdot, -, -, hs⟩
    · rw [hs] at h
      cases h
      exact ⟨[], rfl, List.chain'_singleton _, rfl,
        hstop.elim .inl fun h => .inr (h.elim .inl (.inr ∘ .inl)), .inr le_rfl⟩
    · rw [hs] at h
      cases h
      simp at he
    rw [hs] at h
    rcases Filepath.dir_clean_shrinks p with h1 | h1 | h1 | ⟨hlen, -⟩
    · exact absurd h1 hdot
    · -- the root records itself and stops at itself
      rw [h1, show Filepath.dir "/" = "/" by decide] at h
      cases fuel with
      | zero => simp [dirLoop] at h
      | succ fuel =>
        rw [dirLoop_stop src _ (Nat.succ_pos _) (.inr (.inr (by simp)))] at h
        cases h
        rw [h1]
        exact ⟨["/"], rfl, List.chain'_pair.mpr (show Filepath.dir "/" = "/" by decide), rfl,
          .inr (.inr (.inr ⟨rfl, rfl⟩)), .inr le_rfl⟩
    · -- the next round stops at `.`
      rw [h1] at h
      cases fuel with
      | zero => simp [dirLoop] at h
      | succ fuel =>
        rw [dirLoop_stop src _ (Nat.succ_pos _) (.inr (.inl rfl))] at h
        cases h
        exact ⟨[Filepath.clean p], rfl, List.chain'_pair.mpr h1, by simp, .inr (.inl rfl), .inl rfl⟩
    · -- the rest of the loop starts from the shorter `Dir`
      obtain ⟨recs, hz, hc, hh, hst, hl⟩ := dirLoop_chain _ h he
      have hdir : l.dir ≠ Filepath.clean p := fun e => by
        rcases hl with hl | hl
        · exact hdot (e ▸ hl)
        · exact absurd (e ▸ hl) (not_le.mpr hlen)
      refine ⟨recs ++ [Filepath.clean p], by simp [hz], ?_, by simp, ?_, ?_⟩
      · rw [show (l.dir :: (recs ++ [Filepath.clean p])).reverse =
          Filepath.clean p :: (l.dir :: recs).reverse by simp]
        exact List.chain'_cons'.mpr ⟨fun y hy => by rw [hh] at hy; exact (Option.some.inj hy).symm ▸ rfl, hc⟩
      · refine hst.imp_right (Or.imp_right (Or.imp (fun hst => ?_) fun ⟨hst, hr⟩ => ⟨hst, ?_⟩))
        · simpa [Function.update_noteq hdir] using hst
        · simp [List.head?_append, hr]
      · exact hl.imp_right fun hl => hl.trans hlen.le

/-- With `-d`, `writeDirectory` keeps the tree book, and publishes nothing when it fails. -/
theorem writeDirectory_tree {opts : Options} {t : Tracker} {dir : String} {w : Emitted}
    {names : List String} (hdirs : opts.directories = true)
    (h : writeDirectory opts t dir src = some w) (hb : TreeBook t names) :
    ParentsFirst (names ++ entryNames w.actions) ∧
      (w.error = none → TreeBook w.tracker (names ++ entryNames w.actions)) := by
  have hbook := writeDirectory_book src h hb.book
  unfold writeDirectory at h
  obtain ⟨l, hl, rfl⟩ := Option.map_eq_some'.mp h
  cases hle : l.error with
  | some e =>
    simp only [hle, entryNames, List.filterMap_nil, List.append_nil]
    exact ⟨hb.parentsFirst, fun h => by simp at h⟩
  | none =>
    obtain ⟨recs, hz, hr⟩ := dirLoop_recorded src hl
    obtain ⟨recs', hz', hc, -, hst, -⟩ := dirLoop_chain src dir hl hle
    rw [List.append_nil] at hz hz'
    rw [hz] at hz'
    subst hz'
    have hbl := (dirLoop_book src hl hb.book (Filepath.clean_clean dir)).1
    simp only [hle, hdirs, if_true] at hbook ⊢
    obtain ⟨hn, -, hdd⟩ := pushDirs_names opts l.dir l.tracker l.zipDirs
    rw [hz] at hn hdd hbook ⊢
    rw [hn] at hbook ⊢
    have hpf : ParentsFirst (names ++ recs.map (· ++ "/")) := by
      exact hb.parentsFirst.push (List.chain'_reverse.mp hc)
        (hst.imp_right (Or.imp_right (Or.imp_left (hb.published _))))
        fun r hr' => hbl.dir_shape (by simp [hr.createdDirs r, hr'])
    refine ⟨hpf, fun _ => ⟨hbook, hpf, fun d hd => ?_⟩⟩
    rw [hdd, hr.createdDirs d] at hd
    split at hd
    · exact List.mem_append_right _ (List.mem_map_of_mem _ ‹_›)
    · exact List.mem_append_left _ (hb.published d hd)

/-- With `-d`, `addFile` after its parent directories keeps the tree book when the destination's
`Dir` is `.` or a directory created. -/
theorem addNonDir_tree {env : Env} {t : Tracker} {dest : String} {method : UInt16}
    {s : FileInfo} {names : List String} (hb : TreeBook t names)
    (hdest : dest.toList.getLast? = some '/' → (t.createdDirs dest).isSome)
    (hparent : Filepath.dir dest = "." ∨ (t.createdDirs (Filepath.dir dest)).isSome) :
    TreeBook (addNonDir env t dest src method s).tracker
      (names ++ entryNames (addNonDir env t dest src method s).actions) := by
  have hbook := @addNonDir_book src env t dest method s names hb.book hdest
  rcases addNonDir_spec src env t dest method s with ⟨hn, hf, hd⟩ | ⟨hd, -, -, hd', hn⟩
  · rw [hn, List.append_nil] at hbook ⊢
    exact hb.of_maps hf hd
  have hp : dest.toList.getLast? ≠ some '/' := fun h => by simpa [hd] using hdest h
  refine ⟨hbook, ?_, fun d hs => List.mem_append_left _ (hb.published d (hd' ▸ hs))⟩
  rcases hn with hn | hn <;> rw [hn]
  · simpa using hb.parentsFirst
  · refine hb.parentsFirst.snoc fun hpp => ?_
    rw [entryParent_of_getLast hp] at hpp ⊢
    exact hb.published _ (hparent.resolve_left hpp)

/-- With `-d`, every `addFile` keeps every entry after its directory's, and keeps the tree book
when it returns no error. -/
theorem addFile_tree {env : Env} {opts : Options} {t : Tracker} {dest : String} {method : UInt16}
    {e : Emitted} {names : List String} (hdirs : opts.directories = true)
    (h : addFile env opts t dest src method = some e) (hb : TreeBook t names)
    (hdest : dest.toList.getLast? = some '/' → dest = "/") :
    ParentsFirst (names ++ entryNames e.actions) ∧
      (e.error = none → TreeBook e.tracker (names ++ entryNames e.actions)) := by
  unfold addFile at h
  split at h
  · cases h
    exact ⟨by simpa [entryNames] using hb.parentsFirst, fun h => by simp at h⟩
  split at h
  · exact writeDirectory_tree src hdirs h hb
  obtain ⟨w, hw, rfl⟩ := Option.map_eq_some'.mp h
  obtain ⟨hpw, hbw⟩ := writeDirectory_tree src hdirs hw hb
  split
  · rename_i he
    exact ⟨hpw, fun h' => by simp [he] at h'⟩
  rename_i hwe
  simp only [Emitted.after, entryNames_append, ← List.append_assoc]
  have hcd : Filepath.clean (Filepath.dir dest) = Filepath.dir dest := Filepath.clean_clean _
  have hparent : Filepath.dir dest = "." ∨ (w.tracker.createdDirs (Filepath.dir dest)).isSome := by
    rcases writeDirectory_start src hw hwe with h | h | h <;> rw [hcd] at h
    · exact absurd h (Filepath.dir_ne_empty dest)
    · exact .inl h
    · exact .inr h
  have hdest' : dest.toList.getLast? = some '/' → (w.tracker.createdDirs dest).isSome := fun hl => by
    obtain rfl := hdest hl
    rw [show Filepath.dir "/" = "/" by decide] at hparent
    exact hparent.resolve_left (by decide)
  refine ⟨?_, fun _ => addNonDir_tree src (hbw hwe) hdest' hparent⟩
  exact (addNonDir_tree src (hbw hwe) hdest' hparent).parentsFirst

end Tree

/-- With `-d`, every run of the producer goroutine publishes every entry after the entry of the
directory it lies in, while every mapping goes through `addFile` and no destination ends in a
separator other than the root. -/
theorem producer_parents_first (env : Env) (opts : Options) (hdirs : opts.directories = true) :
    ∀ (ms : List PathMapping) (t : Tracker) (names : List String), TreeBook t names →
    (∀ m ∈ ms, opts.emulateJar = true → m.dest ≠ manifestDest) →
    (∀ m ∈ ms, m.dest.toList.getLast? = some '/' → m.dest = "/") →
    ParentsFirst (names ++ entryNames (producer env opts t ms))
  | [], _, _, hb, _, _ => by simpa [producer, entryNames, Action.entryName?] using hb.parentsFirst
  | m :: ms, t, names, hb, hjar, hdest => by
    have hcall : ¬(opts.emulateJar = true ∧ m.dest = manifestDest) := fun h =>
      hjar m (List.mem_cons_self _ _) h.1 h.2
    simp only [producer, hcall, if_false]
    cases hadd : addFile env opts t m.dest m.src m.zipMethod with
    | none => simpa [entryNames, Action.entryName?] using hb.parentsFirst
    | some e =>
      obtain ⟨hpf, htree⟩ := addFile_tree m.src hdirs hadd hb (hdest m (List.mem_cons_self _ _))
      dsimp only
      split
      · simpa [entryNames, Action.entryName?] using hpf
      · rename_i he
        simpa using producer_parents_first env opts hdirs ms e.tracker _ (htree he)
          (fun m' hm' => hjar m' (List.mem_cons_of_mem _ hm'))
          (fun m' hm' => hdest m' (List.mem_cons_of_mem _ hm'))

/-! ### The jar order puts the manifest first -/

/-- Outside `META-INF/` itself, `jar.EntryNamesLess` puts `META-INF/MANIFEST.MF` before every
other name. -/
theorem entryNamesLess_manifest {d : String} (h0 : d ≠ "META-INF/") (h1 : d ≠ manifestDest) :
    entryNamesLess manifestDest d = true ∧ entryNamesLess d manifestDest = false := by
  have hm : jarIndex manifestDest = 1 := by decide
  have hd : 2 ≤ jarIndex d := by
    unfold jarIndex
    simp only [h0, h1, if_false]
    split <;> omega
  simp only [entryNamesLess, hm, if_neg (show 1 ≠ jarIndex d by omega),
    if_neg (show jarIndex d ≠ 1 by omega)]
  exact ⟨by simpa using hd, by simp; omega⟩

/-- With no destination `META-INF/`, `jarSort` puts a mapping to `META-INF/MANIFEST.MF` first
when there is one. -/
theorem jarSort_head {ms : List PathMapping} (hm : ∃ m ∈ ms, m.dest = manifestDest)
    (h0 : ∀ m ∈ ms, m.dest ≠ "META-INF/") :
    ∃ m rest, jarSort ms = m :: rest ∧ m.dest = manifestDest := by
  unfold jarSort
  induction ms with
  | nil =>
    obtain ⟨m, hm, -⟩ := hm
    cases hm
  | cons a ms ih =>
    rw [List.insertionSort]
    by_cases hms : ∃ m ∈ ms, m.dest = manifestDest
    · obtain ⟨h, rest, he, hh⟩ := ih hms fun m hm => h0 m (List.mem_cons_of_mem _ hm)
      rw [he, List.orderedInsert]
      split
      · rename_i hr
        refine ⟨a, _, rfl, ?_⟩
        by_contra hne
        rw [hh, (entryNamesLess_manifest (h0 a (List.mem_cons_self _ _)) hne).1] at hr
        exact Bool.noConfusion hr
      · exact ⟨h, _, rfl, hh⟩
    · have ha : a.dest = manifestDest := by
        obtain ⟨m, hm, hmd⟩ := hm
        rcases List.mem_cons.mp hm with rfl | hm
        · exact hmd
        · exact absurd ⟨m, hm, hmd⟩ hms
      cases he : List.insertionSort (fun a b => entryNamesLess b.dest a.dest = false) ms with
      | nil => exact ⟨a, [], rfl, ha⟩
      | cons h rest =>
        have hmem : h ∈ ms := (List.perm_insertionSort _ ms).subset (he ▸ List.mem_cons_self _ _)
        have hne : h.dest ≠ manifestDest := fun e => hms ⟨h, hmem, e⟩
        rw [List.orderedInsert, if_pos (by
          rw [ha]; exact (entryNamesLess_manifest (h0 h (List.mem_cons_of_mem _ hmem)) hne).2)]
        exact ⟨a, _, rfl, ha⟩

/-- `addManifest` publishes the manifest under its destination, or fails before publishing. -/
theorem addManifest_names (env : Env) (t : Tracker) (dest src : String) (m : UInt16) :
    (entryNames (addManifest env t dest src m).actions = [] ∧
        (addManifest env t dest src m).error.isSome) ∨
      entryNames (addManifest env t dest src m).actions = [dest] := by
  unfold addManifest
  split
  · exact .inl ⟨rfl, rfl⟩
  split
  · exact .inl ⟨rfl, rfl⟩
  split
  · exact .inl ⟨rfl, rfl⟩
  exact .inr (writeFileContents_names _ _ _ _).1

/-- In jar mode, a producer whose first mapping goes to `META-INF/MANIFEST.MF` publishes that name
before any other. -/
theorem producer_head_manifest (env : Env) (opts : Options) (t : Tracker) (m : PathMapping)
    (ms : List PathMapping) (hj : opts.emulateJar = true) (hm : m.dest = manifestDest) :
    ∀ n, (entryNames (producer env opts t (m :: ms))).head? = some n → n = manifestDest := by
  intro n hn
  simp only [producer, hj, hm, true_and, if_true] at hn
  rcases addManifest_names env t manifestDest m.src m.zipMethod with ⟨h1, h2⟩ | h1 <;>
    split at hn
  · rw [entryNames_append, h1] at hn
    simp [entryNames, Action.entryName?] at hn
  · rename_i he
    simp [he] at h2
  all_goals
    rw [entryNames_append, h1] at hn
    simpa using hn.symm

end SoongZip
