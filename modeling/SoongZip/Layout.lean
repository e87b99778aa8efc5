import SoongZip.Limits
import SoongZip.Names

/-!
# The names in the archive

The encoder gets one header per slot the writer reaches, in slot order, and the entry of a
slot is published by one operation of the producer's script: a send of the entry, or the start
of the worker that sends it (`soong_zip.go:418–458,565–639`). So the header names of the archive,
under any schedule and as far as the writer has got, are among the names the producer's script
publishes, each slot's name from its own publishing operation. What `Names` proves of those
names carries over to the archive of every run of `write`.
-/

namespace SoongZip

section Publishers

variable {env : Env} {level : Int} {P₀ : List Action}

/-- The entry a slot carries was published by an operation of the producer's script. -/
theorem exists_publisher {k : Nat} {ze : ZipEntry} (he : entryOf (sendsIn env level P₀) k = some ze) :
    ∃ b ∈ P₀, b.Publishes env level k ze := by
  have hmem : Msg.entry ze ∈ sendsIn env level P₀ (.entry k) := by
    obtain ⟨m, hm, hme⟩ := List.mem_filterMap.mp (List.mem_of_mem_head? he)
    cases m <;> simp [Msg.entry?] at hme
    exact hme ▸ hm
  obtain ⟨u, hu, a, ha, hop⟩ := exists_send_of_mem_sendsOf hmem
  rcases List.mem_cons.mp hu with rfl | hu
  · exact ⟨a, ha, .inl (Action.eq_sendEntry hop)⟩
  · obtain ⟨t, ht, rfl⟩ := List.mem_map.mp hu
    obtain ⟨b, hb, hbt⟩ := List.mem_filterMap.mp ht
    cases b <;> simp [Action.task?] at hbt
    subst hbt
    exact ⟨_, hb, .inr ⟨_, rfl, Action.eq_sendEntry hop ▸ ha⟩⟩

/-- The slot and the name of the entry an action publishes. -/
def Action.published? : Action → Option (Nat × String)
  | .sendEntry k ze => some (k, ze.fh.name)
  | .spawn (.crcFile k _ ze) => some (k, ze.fh.name)
  | .spawn (.compressWholeFile k ze _) => some (k, ze.fh.name)
  | _ => none

theorem Action.published?_map_snd (a : Action) : a.published?.map Prod.snd = a.entryName? := by
  cases a with
  | spawn t => cases t <;> rfl
  | _ => rfl

theorem entryNames_eq_published (P : List Action) :
    entryNames P = (P.filterMap Action.published?).map Prod.snd := by
  rw [List.map_filterMap, entryNames]
  simp only [Action.published?_map_snd]

/-- An operation that publishes an entry on a slot is the one `published?` names. -/
theorem Action.Publishes.published {a : Action} {k : Nat} {ze : ZipEntry}
    (h : a.Publishes env level k ze) : a.published? = some (k, ze.fh.name) := by
  rcases h with rfl | ⟨t, rfl, ht⟩
  · rfl
  · have hname := taskScript_entryName ht
    obtain ⟨r, ze₀, hk, -⟩ := taskScript_publishes ht
    rcases hk with rfl | rfl <;> simp_all [Action.entryName?, Action.published?]

/-- In a list whose `filterMap` has distinct values, one value comes from one element. -/
theorem eq_of_filterMap_nodup {α β : Type} {f : α → Option β} :
    ∀ {l : List α}, (l.filterMap f).Nodup → ∀ {a b : α}, a ∈ l → b ∈ l →
      ∀ {x : β}, f a = some x → f b = some x → a = b
  | [], _, _, _, ha, _, _, _, _ => absurd ha (List.not_mem_nil _)
  | y :: l, hn, a, b, ha, hb, x, hax, hbx => by
    have hcons : (y :: l).filterMap f = (f y).toList ++ l.filterMap f := by
      cases hy : f y <;> simp [hy]
    rw [hcons] at hn
    have hout : ∀ c ∈ l, f y = some x → f c = some x → False := fun c hc hy hc' =>
      (List.nodup_append.mp hn).2.2 (by simp [hy]) (List.mem_filterMap.mpr ⟨c, hc, hc'⟩)
    rcases List.mem_cons.mp ha with rfl | ha' <;> rcases List.mem_cons.mp hb with rfl | hb'
    · rfl
    · exact (hout b hb' hax hbx).elim
    · exact (hout a ha' hbx hax).elim
    · exact eq_of_filterMap_nodup (List.nodup_append.mp hn).2.1 ha' hb' hax hbx

end Publishers

/-! ### The header names of the archive -/

section Headers

variable (S : ChanName → List Msg)

theorem headerCall_name (fh : FileHeader) :
    (headerCall fh).1.header?.map FileHeader.name = some fh.name := by
  unfold headerCall
  split <;> rfl

theorem copies_headers (k : Nat) (js : List Nat) : (copies S k js).filterMap OutCall.header? = [] :=
  List.filterMap_eq_nil_iff.mpr fun o ho => by
    obtain ⟨j, -, hj⟩ := List.mem_filterMap.mp ho
    simp only [Option.map_eq_some'] at hj
    obtain ⟨d, -, rfl⟩ := hj
    rfl

/-- The encoder calls of a slot create one header, under the name of the slot's entry. -/
theorem entryLog_names (k : Nat) :
    ((entryLog S k).filterMap OutCall.header?).map FileHeader.name =
      ((entryOf S k).map fun ze => ze.fh.name).toList := by
  unfold entryLog
  cases entryOf S k with
  | none => rfl
  | some ze =>
    obtain ⟨fh, hfh, hname⟩ := Option.map_eq_some'.mp (headerCall_name ze.fh)
    dsimp only
    rw [List.filterMap_cons_some hfh]
    split <;> simp [copies_headers, OutCall.header?, hname]

/-- The header names of the archive: the names of the slots' entries, in slot order. -/
theorem archive_names :
    ((archive S ++ [OutCall.closeArchive]).filterMap OutCall.header?).map FileHeader.name =
      (slotsOf S).filterMap fun k => (entryOf S k).map fun ze => ze.fh.name := by
  rw [List.filterMap_append, archive, List.filterMap_flatMap]
  simp only [OutCall.header?, List.filterMap_cons_none, List.filterMap_nil, List.append_nil,
    List.map_flatMap, entryLog_names]
  induction slotsOf S with
  | nil => rfl
  | cons k L ih =>
    rw [List.flatMap_cons, ih]
    cases h : entryOf S k <;> simp [List.filterMap_cons, h]

end Headers

section Distinct

variable {env : Env} {level : Int} {P₀ : List Action}

/-- A name of the archive is a name the producer's script publishes. -/
theorem mem_entryNames_of_archive {n : String}
    (h : n ∈ (slotsOf (sendsIn env level P₀)).filterMap fun k =>
      (entryOf (sendsIn env level P₀) k).map fun ze => ze.fh.name) :
    n ∈ entryNames P₀ := by
  obtain ⟨k, -, hk⟩ := List.mem_filterMap.mp h
  obtain ⟨ze, hze, rfl⟩ := Option.map_eq_some'.mp hk
  obtain ⟨b, hb, hp⟩ := exists_publisher hze
  exact List.mem_filterMap.mpr ⟨b, hb, by rw [← Action.published?_map_snd, hp.published]; rfl⟩

/-- When the producer's script publishes distinct names, the slots' entries have distinct
names. -/
theorem archive_names_nodup (hS : (slotsOf (sendsIn env level P₀)).Nodup)
    (hn : (entryNames P₀).Nodup) :
    ((slotsOf (sendsIn env level P₀)).filterMap fun k =>
      (entryOf (sendsIn env level P₀) k).map fun ze => ze.fh.name).Nodup := by
  refine hS.filterMap fun k k' n hk hk' => ?_
  obtain ⟨ze, hze, rfl⟩ := Option.map_eq_some'.mp hk
  obtain ⟨ze', hze', hname⟩ := Option.map_eq_some'.mp hk'
  obtain ⟨b, hb, hp⟩ := exists_publisher hze
  obtain ⟨b', hb', hp'⟩ := exists_publisher hze'
  have hnames : ∀ {a : Action} {k : Nat} {ze : ZipEntry}, a.Publishes env level k ze →
      a.entryName? = some ze.fh.name := fun hp => by
    rw [← Action.published?_map_snd, hp.published]
    rfl
  obtain rfl := eq_of_filterMap_nodup hn hb hb' (hnames hp) (hname ▸ hnames hp')
  exact (Prod.mk.inj (Option.some.inj (hp.published.symm.trans hp'.published))).1

end Distinct

/-! ### The slots the producer publishes, in order -/

theorem Loop.published {k j : Nat} {acts : List Action} {err : Option GoError}
    (h : Loop k j acts err) : acts.filterMap Action.published? = [] := by
  induction h with
  | done | fail => rfl
  | next _ _ _ _ _ _ ih => simpa [Action.published?] using ih

theorem Block.published {k : Nat} {b : List Action} (h : Block k b) :
    ∃ n, b.filterMap Action.published? = [(k, n)] := by
  cases h with
  | dir ze _ _ => exact ⟨_, rfl⟩
  | symlink ze d _ _ => exact ⟨_, rfl⟩
  | whole ze r => exact ⟨_, rfl⟩
  | split ze r cap _ hl => exact ⟨ze.fh.name, by simp [splitHead, Action.published?, hl.published]⟩

/-- The producer publishes one entry for each slot it pushes, in push order. -/
theorem Script.published {k : Nat} {P : List Action} (h : Script k P) :
    ∃ n, (P.filterMap Action.published?).map Prod.fst = List.range' k n ∧
      sendsOf (opsOn .writeOps P) = (List.range' k n).map Msg.op := by
  induction h with
  | done | fail | hang =>
    exact ⟨0, by simp [Action.published?],
      by simp [opsOn, Action.opOn, Action.chanOp?, sendsOf, ChanOp.msg?]⟩
  | failSplit k e hf =>
    cases hf with
    | mk ze r cap e _ hl =>
      refine ⟨1, by simp [splitHead, Action.published?, hl.published], ?_⟩
      rw [opsOn_append, opsOn_append, hl.silent_writeOps]
      simp [splitHead, opsOn, Action.opOn, Action.chanOp?, sendsOf, ChanOp.msg?]
  | block hb _ ih =>
    obtain ⟨n, h1, h2⟩ := ih
    obtain ⟨nm, hb1⟩ := hb.published
    refine ⟨n + 1, ?_, ?_⟩
    · rw [List.filterMap_append, hb1, List.map_append, h1]
      rfl
    · rw [opsOn_append, sendsOf_append, hb.slots, h2]
      rfl

/-- The slots of a run are the slots the producer's script publishes on. -/
theorem Script.slotsOf_sendsIn {P : List Action} (h : Script 0 P) (env : Env) (level : Int) :
    slotsOf (sendsIn env level P) = (P.filterMap Action.published?).map Prod.fst := by
  obtain ⟨n, h1, h2⟩ := h.published
  have hS : sendsIn env level P .writeOps = (List.range' 0 n).map Msg.op := by
    rw [sendsIn, unitsOf, List.flatMap_cons,
      List.flatMap_eq_nil_iff.mpr fun u hu =>
        ((h.rest env level).workers u hu).silent (by simp [ChanName.index?]),
      List.append_nil, h2]
  rw [slotsOf_map_op _ hS, h1]

theorem filterMap_fst_eq_snd {g : Nat → Option String} :
    ∀ {L : List (Nat × String)}, (∀ p ∈ L, g p.1 = some p.2) →
      (L.map Prod.fst).filterMap g = L.map Prod.snd
  | [], _ => rfl
  | p :: L, h => by
    rw [List.map_cons, List.filterMap_cons_some (h p (List.mem_cons_self _ _)), List.map_cons,
      filterMap_fst_eq_snd fun q hq => h q (List.mem_cons_of_mem _ hq)]

section Complete

variable {env : Env} {level : Int} {P₀ : List Action}

/-- When every slot delivers its entry, the archive's header names are the names the producer's
script publishes, in its order. -/
theorem archive_names_of_delivered (h : Script 0 P₀)
    (hd : ∀ k ∈ slotsOf (sendsIn env level P₀), Delivered (sendsIn env level P₀) k) :
    ((slotsOf (sendsIn env level P₀)).filterMap fun k =>
      (entryOf (sendsIn env level P₀) k).map fun ze => ze.fh.name) = entryNames P₀ := by
  have hslots := h.slotsOf_sendsIn env level
  have hnd : (P₀.filterMap fun a => a.published?.map Prod.fst).Nodup := by
    obtain ⟨n, h1, -⟩ := h.published
    rw [← List.map_filterMap, h1]
    exact List.nodup_range' 0 n
  rw [hslots, entryNames_eq_published]
  refine filterMap_fst_eq_snd fun ⟨k, nm⟩ hp => ?_
  obtain ⟨a, ha, hap⟩ := List.mem_filterMap.mp hp
  obtain ⟨ze, hze, -⟩ := hd k (hslots ▸ List.mem_map_of_mem Prod.fst hp)
  obtain ⟨b, hb, hpb⟩ := exists_publisher hze
  obtain rfl := eq_of_filterMap_nodup hnd ha hb (x := k) (by simp [hap]) (by simp [hpb.published])
  rw [hze]
  exact congrArg some (Prod.mk.inj (Option.some.inj (hpb.published.symm.trans hap))).2

/-- Once the writer has returned nil, the archive's header names are the names the producer's
script publishes, in its order. -/
theorem WriterInv.out_names {c : Config} (hw : WriterInv (sendsIn env level P₀) c)
    (hP : P₀ = [] ∨ Script 0 P₀) (hret : c.writer.status = .returned none) :
    (c.out.filterMap OutCall.header?).map FileHeader.name = entryNames P₀ := by
  obtain ⟨hout, hd⟩ := hw.complete hret
  rw [hout, archive_names]
  rcases hP with rfl | h
  · simp [slotsOf, sendsIn, unitsOf, workersOf, entryNames]
  · exact archive_names_of_delivered h hd

end Complete

/-! ### Every run of `write` -/

section Write

variable {env : Env} {opts : Options} {out : String} {ms : List PathMapping} {manifest : String}

/-- The writer's invariant over a run of `write`, with the values the producer's script sends. -/
theorem write_writerInv_sendsIn {c : Config}
    (hr : Reachable env opts (write env opts out ms manifest) c) :
    WriterInv (sendsIn env opts.compLevel (write env opts out ms manifest).producer) c :=
  carried_eq_sendsIn env opts (write_start env opts out ms manifest).1 ▸
    write_writerInv env opts out ms manifest hr

/-- Outside jar mode with a manifest, `write` starts no producer or one over its mappings, in
some order. -/
theorem write_producer (hjar : opts.emulateJar = true → manifest = "") :
    (write env opts out ms manifest).producer = [] ∨
      ∃ ms', (∀ m ∈ ms', m ∈ ms) ∧
        (write env opts out ms manifest).producer = producer env opts Tracker.empty ms' := by
  unfold write
  split
  · exact .inl rfl
  dsimp only
  split
  · exact .inl rfl
  rename_i hm
  refine .inr ⟨_, fun m hm' => ?_, rfl⟩
  by_cases hj : opts.emulateJar = true
  · simp only [hj, hjar hj, ne_eq, not_true_eq_false, if_false, if_true, jarSort] at hm'
    exact (List.perm_insertionSort _ _).mem_iff.mp hm'
  · have hman : manifest = "" := by simpa [hj] using hm
    simpa [hj, hman] using hm'

/-- Whatever the schedule, the entries of the archive `write` produces have distinct names, and
no entry is named by another's name and a separator, provided every mapping goes through
`addFile` (in jar mode there is no `-m` manifest and no mapping to `META-INF/MANIFEST.MF`) and no
destination ends in a separator other than the root. -/
theorem write_names_distinct {c : Config} (hr : Reachable env opts (write env opts out ms manifest) c)
    (hjar : opts.emulateJar = true → manifest = "" ∧ ∀ m ∈ ms, m.dest ≠ manifestDest)
    (hdest : ∀ m ∈ ms, m.dest.toList.getLast? = some '/' → m.dest = "/") :
    ((c.out.filterMap OutCall.header?).map FileHeader.name).Nodup ∧
      ∀ p ∈ (c.out.filterMap OutCall.header?).map FileHeader.name,
        p ++ "/" ∉ (c.out.filterMap OutCall.header?).map FileHeader.name := by
  have hop := WriterInv.out_prefix (write_writerInv_sendsIn hr)
  have hpre := (hop.filterMap OutCall.header?).map FileHeader.name
  rw [archive_names] at hpre
  have hP : (entryNames (write env opts out ms manifest).producer).Nodup ∧
      ∀ p ∈ entryNames (write env opts out ms manifest).producer,
        p ++ "/" ∉ entryNames (write env opts out ms manifest).producer := by
    rcases write_producer (fun h => (hjar h).1) with h | ⟨ms', hms', h⟩ <;> rw [h]
    · exact ⟨List.nodup_nil, fun _ h => absurd h (List.not_mem_nil _)⟩
    · exact producer_names_distinct env opts ms' (fun m hm hj => (hjar hj).2 m (hms' m hm))
        (fun m hm => hdest m (hms' m hm))
  refine ⟨(archive_names_nodup (write_planned env opts out ms manifest).carried.slots hP.1).sublist
    hpre.sublist, fun p hp hs => ?_⟩
  exact hP.2 p (mem_entryNames_of_archive (hpre.subset hp))
    (mem_entryNames_of_archive (hpre.subset hs))

/-- Two files and their directory under `-d`, one goroutine run after the other. -/
theorem write_names_distinct_two_files :
    let env : Env := Env.healthy fun p => if p = "a" then some (.file [7] false) else none
    let opts : Options :=
      { emulateJar := false, directories := true, parallelJobs := 4, compLevel := 5 }
    let c := run env opts (write env opts "out" [⟨"x/a", "a", Zip.deflate⟩, ⟨"x/b", "a", Zip.store⟩] "")
      (sequentialSchedule 30 2)
    ((c.out.filterMap OutCall.header?).map FileHeader.name).Nodup ∧
      ∀ p ∈ (c.out.filterMap OutCall.header?).map FileHeader.name,
        p ++ "/" ∉ (c.out.filterMap OutCall.header?).map FileHeader.name :=
  write_names_distinct (reachable_run _ _ _ _) (fun h => absurd h (by decide)) (by decide)

/-- Whatever the schedule, when `write` returns nil the archive's header names are exactly the
names of the entries the producer published, in the order it published them. -/
theorem write_names_complete {c : Config}
    (hr : Reachable env opts (write env opts out ms manifest) c)
    (hret : c.writer.status = .returned none) :
    (c.out.filterMap OutCall.header?).map FileHeader.name =
      entryNames (write env opts out ms manifest).producer :=
  (write_writerInv_sendsIn hr).out_names (write_start env opts out ms manifest).2.2.2.2 hret

set_option maxRecDepth 20000 in
/-- The run of `write_names_distinct_two_files` returns nil. -/
theorem write_names_complete_two_files :
    let env : Env := Env.healthy fun p => if p = "a" then some (.file [7] false) else none
    let opts : Options :=
      { emulateJar := false, directories := true, parallelJobs := 4, compLevel := 5 }
    let c₀ := write env opts "out" [⟨"x/a", "a", Zip.deflate⟩, ⟨"x/b", "a", Zip.store⟩] ""
    let c := run env opts c₀ (sequentialSchedule 30 2)
    c.writer.status = .returned none ∧
      (c.out.filterMap OutCall.header?).map FileHeader.name = entryNames c₀.producer :=
  ⟨by decide, write_names_complete (reachable_run _ _ _ _) (by decide)⟩

/-- With `-d` (or `-jar`, which sets it), whatever the schedule, when `write` returns nil every
entry of its archive comes after the entry of the directory it lies in, provided every mapping
goes through `addFile` and no destination ends in a separator other than the root. -/
theorem write_parents_first {c : Config}
    (hr : Reachable env opts (write env opts out ms manifest) c) (hdirs : opts.directories = true)
    (hjar : opts.emulateJar = true → manifest = "" ∧ ∀ m ∈ ms, m.dest ≠ manifestDest)
    (hdest : ∀ m ∈ ms, m.dest.toList.getLast? = some '/' → m.dest = "/")
    (hret : c.writer.status = .returned none) :
    ParentsFirst ((c.out.filterMap OutCall.header?).map FileHeader.name) := by
  rw [(write_writerInv_sendsIn hr).out_names (write_start env opts out ms manifest).2.2.2.2 hret]
  rcases write_producer (fun h => (hjar h).1) with h | ⟨ms', hms', h⟩ <;> rw [h]
  · exact ParentsFirst.nil
  · simpa using producer_parents_first env opts hdirs ms' Tracker.empty [] TreeBook.empty
      (fun m hm hj => (hjar hj).2 m (hms' m hm)) (fun m hm => hdest m (hms' m hm))

set_option maxRecDepth 20000 in
/-- The run of `write_names_distinct_two_files`: `x/` comes before `x/a` and `x/b`. -/
theorem write_parents_first_two_files :
    let env : Env := Env.healthy fun p => if p = "a" then some (.file [7] false) else none
    let opts : Options :=
      { emulateJar := false, directories := true, parallelJobs := 4, compLevel := 5 }
    let c := run env opts (write env opts "out" [⟨"x/a", "a", Zip.deflate⟩, ⟨"x/b", "a", Zip.store⟩] "")
      (sequentialSchedule 30 2)
    c.writer.status = .returned none ∧
      ParentsFirst ((c.out.filterMap OutCall.header?).map FileHeader.name) :=
  ⟨by decide, write_parents_first (reachable_run _ _ _ _) rfl (fun h => absurd h (by decide))
    (by decide) (by decide)⟩

theorem write_producer_jar (hj : opts.emulateJar = true) (hm : manifest ≠ "") :
    (write env opts out ms manifest).producer = [] ∨
      (write env opts out ms manifest).producer =
        producer env opts Tracker.empty (jarSort (ms ++ [⟨manifestDest, manifest, Zip.deflate⟩])) := by
  unfold write
  split
  · exact .inl rfl
  dsimp only
  rw [if_neg (by simp [hj])]
  exact .inr (by simp [hm, hj])

/-- In jar mode with a `-m` manifest, whatever the schedule, when `write` returns nil its archive
starts with `META-INF/MANIFEST.MF`, or has no entry, provided no destination ends in a separator
other than the root. -/
theorem write_jar_manifest_first {c : Config}
    (hr : Reachable env opts (write env opts out ms manifest) c) (hj : opts.emulateJar = true)
    (hm : manifest ≠ "") (hdest : ∀ m ∈ ms, m.dest.toList.getLast? = some '/' → m.dest = "/")
    (hret : c.writer.status = .returned none) :
    ∀ n, ((c.out.filterMap OutCall.header?).map FileHeader.name).head? = some n →
      n = manifestDest := by
  rw [(write_writerInv_sendsIn hr).out_names (write_start env opts out ms manifest).2.2.2.2 hret]
  rcases write_producer_jar hj hm with h | h <;> rw [h]
  · simp [entryNames]
  have h0 : ∀ m ∈ ms ++ [⟨manifestDest, manifest, Zip.deflate⟩], m.dest ≠ "META-INF/" := by
    intro m hm' he
    rcases List.mem_append.mp hm' with hm' | hm'
    · have hroot := hdest m hm' (by rw [he]; decide)
      rw [he] at hroot
      exact absurd hroot (by decide)
    · rw [List.mem_singleton.mp hm'] at he
      have he' : manifestDest = "META-INF/" := he
      exact absurd he' (by decide)
  obtain ⟨m, rest, hs, hmd⟩ :=
    jarSort_head ⟨_, List.mem_append_right _ (List.mem_singleton_self _), rfl⟩ h0
  rw [hs]
  exact producer_head_manifest env opts _ m rest hj hmd

set_option maxRecDepth 20000 in
/-- A jar run with a `-m` manifest and one file: the manifest comes first. -/
theorem write_jar_manifest_first_one_file :
    let env : Env := Env.healthy fun p =>
      if p = "a" then some (.file [7] false) else if p = "m" then some (.file [] false) else none
    let opts : Options :=
      { emulateJar := true, directories := true, parallelJobs := 4, compLevel := 5 }
    let c := run env opts (write env opts "out" [⟨"a", "a", Zip.deflate⟩] "m")
      (sequentialSchedule 30 2)
    c.writer.status = .returned none ∧
      ∀ n, ((c.out.filterMap OutCall.header?).map FileHeader.name).head? = some n →
        n = manifestDest :=
  ⟨by decide, write_jar_manifest_first (reachable_run _ _ _ _) rfl (by decide) (by decide)
    (by decide)⟩

end Write

end SoongZip
