import SoongZip.Producer

/-!
# The ancestor loop of `writeDirectory` ends

`zipWriter.writeDirectory` (`soong_zip.go:797–811`) walks up from `filepath.Clean(dir)` through
`filepath.Dir` until it reaches `.`, a directory it has already created, or a file of the same
name, and records every path it passes in `createdDirs`. The Go loop has no bound; the model runs
it with a fuel of the cleaned path's length plus two (`writeDirectory`).

Each round stops, fails, or records its path and moves to the `Dir` of a cleaned path, which is
`.` or shorter with fewer components (`Filepath.dir_clean_shrinks`), except at the root `/`,
which is its own `Dir`: there the entry the first visit records stops the second. So the fuel
always suffices, more fuel changes nothing, and the loop records each path once, at most one per
component of the cleaned path and one more for the root.
-/

namespace SoongZip

section Ancestors

variable (src : String)

/-- What one round of the loop at `d` does, whatever fuel is left: stop at `""`, `.` or a
directory already created; fail on a file of the same name; or record `d` and move to its
`Dir`. -/
theorem dirLoop_round (t : Tracker) (d : String) (zs : List String) :
    ((d = "" ∨ d = "." ∨ (t.createdDirs d).isSome) ∧
        ∀ fuel, dirLoop src (fuel + 1) t d zs = some ⟨t, d, zs, none⟩) ∨
      (∃ prev, (d ≠ "" ∧ d ≠ "." ∧ t.createdDirs d = none ∧ t.createdFiles d = some prev) ∧
        ∀ fuel, dirLoop src (fuel + 1) t d zs = some ⟨t, d, zs, some (.dirAndFile d src prev)⟩) ∨
      (d ≠ "" ∧ d ≠ "." ∧ t.createdDirs d = none ∧ t.createdFiles d = none ∧
        ∀ fuel, dirLoop src (fuel + 1) t d zs =
          dirLoop src fuel { t with createdDirs := Function.update t.createdDirs d (some src) }
            (Filepath.dir d) (d :: zs)) := by
  by_cases hd : d ≠ "" ∧ d ≠ "."
  · cases hn : t.createdDirs d with
    | some _ => exact .inl ⟨.inr (.inr (by simp [hn])), fun _ => by simp [dirLoop, hd, hn]⟩
    | none =>
      cases hf : t.createdFiles d with
      | some prev => exact .inr (.inl ⟨prev, ⟨hd.1, hd.2, rfl, rfl⟩, fun _ => by simp [dirLoop, hd, hn, hf]⟩)
      | none => exact .inr (.inr ⟨hd.1, hd.2, rfl, rfl, fun _ => by simp [dirLoop, hd, hn, hf]⟩)
  · exact .inl ⟨by tauto, fun _ => by rw [dirLoop, if_neg hd]⟩

/-- A round at `""`, `.` or a directory already created ends the loop. -/
theorem dirLoop_stop (fuel : Nat) (hf : 0 < fuel) {t : Tracker} {d : String} {zs : List String}
    (h : d = "" ∨ d = "." ∨ (t.createdDirs d).isSome) :
    dirLoop src fuel t d zs = some ⟨t, d, zs, none⟩ := by
  obtain ⟨fuel, rfl⟩ := Nat.exists_eq_succ_of_ne_zero (Nat.pos_iff_ne_zero.mp hf)
  rcases dirLoop_round src t d zs with ⟨-, hs⟩ | ⟨_, ⟨h1, h2, hn, -⟩, -⟩ | ⟨h1, h2, hn, -⟩
  · exact hs fuel
  · simp [h1, h2, hn] at h
  · simp [h1, h2, hn] at h

/-- A loop that ends within some fuel ends the same way with more. -/
theorem dirLoop_fuel_add (k : Nat) : ∀ {fuel : Nat} {t : Tracker} {d : String}
    {zs : List String} {l : DirLoop}, dirLoop src fuel t d zs = some l →
      dirLoop src (fuel + k) t d zs = some l
  | 0, _, _, _, _, h => by simp [dirLoop] at h
  | fuel + 1, t, d, zs, l, h => by
    rw [Nat.add_right_comm]
    rcases dirLoop_round src t d zs with ⟨-, hs⟩ | ⟨_, -, hs⟩ | ⟨-, -, -, -, hs⟩
    · rwa [hs] at h ⊢
    · rwa [hs] at h ⊢
    · rw [hs] at h ⊢
      exact dirLoop_fuel_add k h

/-- `recs` are the paths a run of the loop records between trackers `t` and `t'`: each new to
`t`, each once, and `createdDirs` changes at them only, to `src`. -/
structure Recorded (t t' : Tracker) (recs : List String) : Prop where
  nodup : recs.Nodup
  fresh : ∀ p ∈ recs, t.createdDirs p = none
  createdDirs : ∀ p, t'.createdDirs p = if p ∈ recs then some src else t.createdDirs p

theorem Recorded.nil (t : Tracker) : Recorded src t t [] := ⟨List.nodup_nil, by simp, by simp⟩

/-- Recording `d` before a run that records `recs`. -/
theorem Recorded.record {t t' : Tracker} {recs : List String} {d : String}
    (h : Recorded src { t with createdDirs := Function.update t.createdDirs d (some src) } t' recs)
    (hn : t.createdDirs d = none) : Recorded src t t' (recs ++ [d]) := by
  have hfresh : ∀ p ∈ recs, p ≠ d ∧ t.createdDirs p = none := fun p hp => by
    have := h.fresh p hp
    by_cases hpd : p = d
    · subst hpd
      simp at this
    · simpa [Function.update_noteq hpd, hpd] using this
  refine ⟨?_, fun p hp => ?_, fun p => ?_⟩
  · exact h.nodup.append (List.nodup_singleton d)
      (List.disjoint_singleton.mpr fun hd => (hfresh d hd).1 rfl)
  · rcases List.mem_append.mp hp with hp | hp
    · exact (hfresh p hp).2
    · rw [List.mem_singleton.mp hp]
      exact hn
  · rw [h.createdDirs p]
    by_cases hpd : p = d
    · subst hpd
      simp
    · simp [Function.update_noteq hpd, hpd]

/-- Every run of the loop appends the paths it records, parents first, to `zipDirs`. -/
theorem dirLoop_recorded : ∀ {fuel : Nat} {t : Tracker} {d : String} {zs : List String}
    {l : DirLoop}, dirLoop src fuel t d zs = some l →
      ∃ recs, l.zipDirs = recs ++ zs ∧ Recorded src t l.tracker recs
  | 0, _, _, _, _, h => by simp [dirLoop] at h
  | fuel + 1, t, d, zs, l, h => by
    rcases dirLoop_round src t d zs with ⟨-, hs⟩ | ⟨_, -, hs⟩ | ⟨-, -, hn, -, hs⟩
    · rw [hs] at h
      cases h
      exact ⟨[], rfl, .nil src t⟩
    · rw [hs] at h
      cases h
      exact ⟨[], rfl, .nil src t⟩
    · rw [hs] at h
      obtain ⟨recs, hz, hr⟩ := dirLoop_recorded h
      exact ⟨recs ++ [d], by simp [hz], hr.record src hn⟩

private theorem clean_length_pos {p : String} (h : Filepath.clean p ≠ "") :
    0 < (Filepath.clean p).length :=
  Nat.pos_of_ne_zero fun h0 => h (String.ext (List.eq_nil_of_length_eq_zero h0))

/-- From a cleaned path, the loop ends within the path's length plus one rounds, and records at
most one path per component and one more. -/
theorem dirLoop_clean : ∀ {fuel : Nat} (t : Tracker) (p : String) (zs : List String),
    (Filepath.clean p).length + 1 ≤ fuel → ∃ l, dirLoop src fuel t (Filepath.clean p) zs = some l ∧
      l.zipDirs.length ≤ zs.length + Filepath.components (Filepath.clean p) + 1
  | 0, _, _, _, hf => absurd hf (by omega)
  | fuel + 1, t, p, zs, hf => by
    rcases dirLoop_round src t (Filepath.clean p) zs with ⟨-, hs⟩ | ⟨_, -, hs⟩ | ⟨hd, hdot, -, -, hs⟩
    · exact ⟨_, hs fuel, by dsimp only; omega⟩
    · exact ⟨_, hs fuel, by dsimp only; omega⟩
    rw [hs fuel]
    have hpos := clean_length_pos hd
    rcases Filepath.dir_clean_shrinks p with h | h | h | ⟨hlen, hcomp⟩
    · exact absurd h hdot
    · -- the root: the second visit finds the entry the first one recorded
      rw [h, show Filepath.dir "/" = "/" by decide]
      exact ⟨_, dirLoop_stop src fuel (by omega) (.inr (.inr (by simp))),
        by simp [Filepath.components, Filepath.elems]⟩
    · rw [h]
      exact ⟨_, dirLoop_stop src fuel (by omega) (.inr (.inl rfl)), by simp⟩
    · simp only [Filepath.dir] at hlen hcomp ⊢
      obtain ⟨l, hl, hb⟩ := @dirLoop_clean fuel
        { t with createdDirs := Function.update t.createdDirs (Filepath.clean p) (some src) }
        ⟨((Filepath.clean p).toList.reverse.dropWhile (· ≠ '/')).reverse⟩ (Filepath.clean p :: zs)
        (by omega)
      refine ⟨l, hl, ?_⟩
      simp only [List.length_cons] at hb
      omega

/-- The ancestor loop of `writeDirectory`, from every path and every tracker. Each round stops,
fails, or records its path and moves to the path's `Dir`; the `Dir` of a cleaned path other than
`.` and `/` is `.` or strictly shorter, and `/` is its own `Dir`, where the second round stops. So
the loop ends within `writeDirectory`'s fuel, and ends the same way with any more; it records
each path once, and at most one per component of the cleaned path and one more. -/
theorem writeDirectory_ancestors_end (t : Tracker) (dir src : String) :
    (∀ fuel (t' : Tracker) d zs,
      dirLoop src (fuel + 1) t' d zs = some ⟨t', d, zs, none⟩ ∨
      (∃ prev, dirLoop src (fuel + 1) t' d zs = some ⟨t', d, zs, some (.dirAndFile d src prev)⟩) ∨
      dirLoop src (fuel + 1) t' d zs =
        dirLoop src fuel { t' with createdDirs := Function.update t'.createdDirs d (some src) }
          (Filepath.dir d) (d :: zs)) ∧
    (∀ p, Filepath.clean p = "." ∨ Filepath.clean p = "/" ∨ Filepath.dir (Filepath.clean p) = "." ∨
      (Filepath.dir (Filepath.clean p)).length < (Filepath.clean p).length) ∧
    (Filepath.dir "/" = "/" ∧ ∀ (t' : Tracker) zs, dirLoop src 2 t' "/" zs ≠ none) ∧
    ∃ l, (∀ k, dirLoop src ((Filepath.clean dir).length + 2 + k) t (Filepath.clean dir) [] = some l) ∧
      Recorded src t l.tracker l.zipDirs ∧
      l.zipDirs.length ≤ Filepath.components (Filepath.clean dir) + 1 := by
  refine ⟨fun fuel t' d zs => ?_, fun p => ?_, ⟨by decide, fun t' zs => ?_⟩, ?_⟩
  · rcases dirLoop_round src t' d zs with ⟨-, hs⟩ | ⟨prev, -, hs⟩ | ⟨-, -, -, -, hs⟩
    exacts [.inl (hs fuel), .inr (.inl ⟨prev, hs fuel⟩), .inr (.inr (hs fuel))]
  · exact (Filepath.dir_clean_shrinks p).imp_right (.imp_right (.imp_right And.left))
  · obtain ⟨l, hl, -⟩ := @dirLoop_clean src 2 t' "/" zs (by decide)
    rw [show Filepath.clean "/" = "/" by decide] at hl
    simp [hl]
  · obtain ⟨l, hl, hb⟩ := @dirLoop_clean src ((Filepath.clean dir).length + 2) t dir [] (by omega)
    obtain ⟨recs, hz, hr⟩ := dirLoop_recorded src hl
    rw [List.append_nil] at hz
    exact ⟨l, fun k => dirLoop_fuel_add src k hl, hz ▸ hr, by simpa using hb⟩

/-- A relative path of one single-character element: its round records it and moves to `.`, which
ends the loop but is no shorter. -/
theorem dirLoop_one_char_not_shorter :
    Filepath.clean "a" = "a" ∧ Filepath.dir "a" = "." ∧ (Filepath.dir "a").length = "a".length ∧
      (dirLoop "s" 3 ⟨fun _ => none, fun _ => none, 0⟩ "a" []).map (fun l => (l.dir, l.zipDirs)) =
        some (".", ["a"]) := by
  decide

/-! ### `writeDirectory` and `addFile` return

`none` is the model's call that has not returned; only the ancestor loop could fail to. -/

theorem writeDirectory_isSome (opts : Options) (t : Tracker) (dir : String) :
    (writeDirectory opts t dir src).isSome := by
  obtain ⟨l, hl, -⟩ := @dirLoop_clean src ((Filepath.clean dir).length + 2) t dir [] (by omega)
  simp [writeDirectory, hl]

theorem addFile_isSome (env : Env) (opts : Options) (t : Tracker) (dest : String)
    (method : UInt16) : (addFile env opts t dest src method).isSome := by
  unfold addFile
  split
  · rfl
  · split
    · split
      · exact writeDirectory_isSome src opts t dest
      · rfl
    · simpa using writeDirectory_isSome src opts t _

end Ancestors

end SoongZip
