import Mathlib.Data.List.Basic

/-!
# Go library functions that `soong_zip` relies on

`path/filepath` on Unix (`Clean`, `Dir`) and `hash/crc32` (`ChecksumIEEE`). `Clean` is the
lexical rewrite its documentation states: collapse separators, drop `.` elements, let `..`
remove the element before it, drop `..` at the root, and return `.` for an empty result. Bytes
of a multi-byte UTF-8 character are never `/` or `.`, so working on characters is the same as
Go's work on bytes.
-/

namespace SoongZip

/-- The bytes of a Go string, as `[]byte(s)` converts it. -/
def bytesOf (s : String) : List UInt8 := s.toUTF8.data.toList

end SoongZip

namespace SoongZip.Filepath

/-- The path elements between separators, in order, empty elements included. -/
def elems : List Char → List (List Char)
  | [] => [[]]
  | c :: cs =>
    if c = '/' then [] :: elems cs
    else match elems cs with
      | [] => [[c]]
      | e :: es => (c :: e) :: es

/-- One element of `Clean`'s loop. `out` holds the kept elements, last first: empty and `.`
elements are dropped, `..` removes a kept element before it or is kept itself at the start of a
relative path, and any other element is kept. -/
def cleanElem (rooted : Bool) (out : List (List Char)) (e : List Char) : List (List Char) :=
  if e = [] ∨ e = ['.'] then out
  else if e = ['.', '.'] then
    match out with
    | x :: rest => if x = ['.', '.'] then e :: out else rest
    | [] => if rooted then [] else [e]
  else e :: out

/-- Kept elements joined by single separators. -/
def joinElems : List (List Char) → List Char
  | [] => []
  | [e] => e
  | e :: f :: es => e ++ '/' :: joinElems (f :: es)

/-- `filepath.Clean`. -/
def clean (path : String) : String :=
  let cs := path.toList
  let rooted := cs.head? == some '/'
  let body := joinElems ((elems cs).foldl (cleanElem rooted) []).reverse
  if rooted then ⟨'/' :: body⟩ else if body.isEmpty then "." else ⟨body⟩

/-- `filepath.Dir`: `Clean` of everything up to and including the last separator. -/
def dir (path : String) : String :=
  clean ⟨(path.toList.reverse.dropWhile (· ≠ '/')).reverse⟩

example : clean "a//b/./c/../d/" = "a/b/d" := by decide
example : clean "../../a/.." = "../.." := by decide
example : clean "/../a" = "/a" := by decide
example : dir "a/b" = "a" ∧ dir "a" = "." ∧ dir "/a" = "/" ∧ dir "/" = "/" := by decide

/-! ### Cleaned paths end in a separator only at the root -/

/-- Elements that `Clean` keeps are non-empty and hold no separator. -/
def Kept (out : List (List Char)) : Prop := ∀ x ∈ out, x ≠ [] ∧ '/' ∉ x

theorem not_sep_of_mem_elems : ∀ {cs : List Char} {e : List Char},
    e ∈ elems cs → '/' ∉ e
  | [], e, h => by simp_all [elems]
  | c :: cs, e, h => by
    unfold elems at h
    split at h
    · rcases List.mem_cons.mp h with rfl | h
      · simp
      · exact not_sep_of_mem_elems h
    · rename_i hc
      split at h
      · simp only [List.mem_singleton] at h
        subst h
        simpa [eq_comm] using hc
      · rename_i e' es hes
        have hsub : ∀ x ∈ e' :: es, '/' ∉ x := fun x hx =>
          @not_sep_of_mem_elems cs x (by rw [hes]; exact hx)
        rcases List.mem_cons.mp h with rfl | h
        · simp only [List.mem_cons, not_or]
          exact ⟨Ne.symm hc, hsub e' (List.mem_cons_self _ _)⟩
        · exact hsub e (List.mem_cons_of_mem _ h)

private theorem kept_cleanElem {rooted : Bool} {out : List (List Char)} {e : List Char}
    (hout : Kept out) (he : '/' ∉ e) : Kept (cleanElem rooted out e) := by
  unfold cleanElem
  split
  · exact hout
  · rename_i hne
    split
    · split
      · split
        · intro x hx
          rcases List.mem_cons.mp hx with rfl | hx
          · exact ⟨by simp_all, he⟩
          · exact hout x hx
        · intro x hx
          exact hout x (List.mem_cons_of_mem _ hx)
      · split
        · simp [Kept]
        · intro x hx
          simp only [List.mem_singleton] at hx
          subst hx
          exact ⟨by simp_all, he⟩
    · intro x hx
      rcases List.mem_cons.mp hx with rfl | hx
      · exact ⟨by simp_all, he⟩
      · exact hout x hx

private theorem kept_foldl (rooted : Bool) (es : List (List Char)) (hes : ∀ e ∈ es, '/' ∉ e) :
    ∀ out, Kept out → Kept (es.foldl (cleanElem rooted) out) := by
  induction es with
  | nil => exact fun _ h => h
  | cons e es ih =>
    intro out hout
    exact ih (fun x hx => hes x (List.mem_cons_of_mem _ hx)) _
      (kept_cleanElem hout (hes e (List.mem_cons_self _ _)))

theorem kept_clean (rooted : Bool) (cs : List Char) :
    Kept ((elems cs).foldl (cleanElem rooted) []).reverse := fun x hx =>
  kept_foldl _ _ (fun _ he => not_sep_of_mem_elems he) [] (by simp [Kept]) x (List.mem_reverse.mp hx)

private theorem getLast?_cons_of_ne_nil {a : Char} {l : List Char} (h : l ≠ []) :
    (a :: l).getLast? = l.getLast? :=
  List.getLast?_append_of_ne_nil [a] h

private theorem getLast_joinElems :
    ∀ {xs : List (List Char)}, Kept xs → xs ≠ [] → ∃ c, (joinElems xs).getLast? = some c ∧ c ≠ '/'
  | [], _, h => absurd rfl h
  | [x], hk, _ => by
    obtain ⟨hx, hs⟩ := hk x (List.mem_singleton_self _)
    refine ⟨x.getLast hx, List.getLast?_eq_getLast x hx, fun hc => hs ?_⟩
    rw [← hc]
    exact List.getLast_mem hx
  | x :: y :: ys, hk, _ => by
    obtain ⟨c, hc, hne⟩ := @getLast_joinElems (y :: ys)
      (fun z hz => hk z (List.mem_cons_of_mem _ hz)) (List.cons_ne_nil _ _)
    have hj : joinElems (y :: ys) ≠ [] := fun h => by simp [h] at hc
    refine ⟨c, ?_, hne⟩
    simp only [joinElems]
    rw [List.getLast?_append_of_ne_nil _ (List.cons_ne_nil _ _), getLast?_cons_of_ne_nil hj, hc]

/-- A cleaned path ends in a separator only when it is the root `/`. -/
theorem clean_eq_root_of_getLast (path : String) (h : (clean path).toList.getLast? = some '/') :
    clean path = "/" := by
  unfold clean at h ⊢
  dsimp only at h ⊢
  have hk := kept_clean (path.toList.head? == some '/') path.toList
  generalize ((elems path.toList).foldl (cleanElem (path.toList.head? == some '/')) []).reverse
    = out at hk h ⊢
  generalize (path.toList.head? == some '/') = rooted at h ⊢
  have hlast : out ≠ [] → (joinElems out).getLast? ≠ some '/' := fun hne hc => by
    obtain ⟨c, hc', hne'⟩ := getLast_joinElems hk hne
    rw [hc] at hc'
    exact hne' (Option.some.inj hc').symm
  cases rooted with
  | true =>
    rcases eq_or_ne out [] with rfl | hne
    · rfl
    · exfalso
      refine hlast hne ?_
      have hj : joinElems out ≠ [] := by
        intro hj
        obtain ⟨c, hc, -⟩ := getLast_joinElems hk hne
        simp [hj] at hc
      simpa [getLast?_cons_of_ne_nil hj] using h
  | false =>
    simp only [Bool.false_eq_true, ↓reduceIte] at h ⊢
    split
    · simp_all
    · rename_i hb
      rw [if_neg hb] at h
      exact absurd h (hlast (fun hout => hb (by simp [hout, joinElems])))

/-! ### `Dir` of a cleaned path is shorter and has fewer components -/

/-- The number of components of a path, its non-empty elements: the measure of the ancestor
loop's bound. -/
def components (path : String) : Nat := (elems path.toList).countP (· ≠ [])

example : components "/a/b" = 2 ∧ components "/" = 0 ∧ components "a/../b" = 3 := by decide

theorem elems_ne_nil : ∀ cs : List Char, elems cs ≠ []
  | [] => by simp [elems]
  | c :: cs => by
    unfold elems
    split
    · simp
    · split <;> simp

/-- A separator splits the elements of the two sides apart. -/
theorem elems_append_sep : ∀ xs ys : List Char, elems (xs ++ '/' :: ys) = elems xs ++ elems ys
  | [], ys => by simp [elems]
  | c :: xs, ys => by
    obtain ⟨e, es, he⟩ := List.exists_cons_of_ne_nil (elems_ne_nil xs)
    rw [List.cons_append, elems, elems, elems_append_sep xs ys, he]
    split <;> rfl

theorem elems_of_not_mem : ∀ {cs : List Char}, '/' ∉ cs → elems cs = [cs]
  | [], _ => rfl
  | c :: cs, h => by
    simp only [List.mem_cons, not_or] at h
    simp [elems, Ne.symm h.1, elems_of_not_mem h.2]

private theorem joinElems_cons_cons (c : Char) (e : List Char) (es : List (List Char)) :
    joinElems ((c :: e) :: es) = c :: joinElems (e :: es) := by
  cases es <;> rfl

/-- `Clean`'s join undoes the split into elements. -/
theorem joinElems_elems : ∀ cs : List Char, joinElems (elems cs) = cs
  | [] => rfl
  | c :: cs => by
    obtain ⟨e, es, he⟩ := List.exists_cons_of_ne_nil (elems_ne_nil cs)
    have ih : joinElems (e :: es) = cs := he ▸ joinElems_elems cs
    unfold elems
    split
    · rename_i hc
      simp [hc, he, joinElems, ih]
    · simp [he, joinElems_cons_cons, ih]

/-- Kept elements are split back apart. -/
theorem elems_joinElems : ∀ {xs : List (List Char)}, Kept xs → xs ≠ [] → elems (joinElems xs) = xs
  | [], _, h => absurd rfl h
  | [x], hk, _ => elems_of_not_mem (hk x (List.mem_singleton_self _)).2
  | x :: y :: ys, hk, _ => by
    rw [joinElems, elems_append_sep, elems_of_not_mem (hk x (List.mem_cons_self _ _)).2,
      elems_joinElems (fun z hz => hk z (List.mem_cons_of_mem _ hz)) (List.cons_ne_nil _ _)]
    rfl

theorem countP_elems_joinElems {xs : List (List Char)} (hk : Kept xs) :
    (elems (joinElems xs)).countP (· ≠ []) = xs.length := by
  rcases eq_or_ne xs [] with rfl | hne
  · rfl
  · rw [elems_joinElems hk hne, List.countP_eq_length]
    exact fun x hx => by simpa using (hk x hx).1

theorem length_joinElems_cons (x : List Char) (xs : List (List Char)) :
    (joinElems (x :: xs)).length = x.length + (if xs = [] then 0 else (joinElems xs).length + 1) := by
  cases xs <;> simp [joinElems]

/-- Dropping elements never lengthens the joined path. -/
theorem length_joinElems_le {xs ys : List (List Char)} (h : xs.Sublist ys) :
    (joinElems xs).length ≤ (joinElems ys).length := by
  induction h with
  | slnil => exact le_rfl
  | cons y _ ih =>
    refine ih.trans ?_
    rw [length_joinElems_cons]
    split
    · simp_all [joinElems]
    · omega
  | cons₂ x h ih =>
    rw [length_joinElems_cons, length_joinElems_cons]
    split
    · omega
    · rename_i hne
      rw [if_neg (by rintro rfl; exact hne (List.eq_nil_of_sublist_nil h))]
      omega

private theorem cleanElem_sublist (rooted : Bool) (out : List (List Char)) (e : List Char) :
    (cleanElem rooted out e).reverse.Sublist (out.reverse ++ [e].filter (· ≠ [])) := by
  unfold cleanElem
  split
  · exact List.sublist_append_left _ _
  · rename_i he
    have hne : e ≠ [] := fun h => he (.inl h)
    split
    · split <;> split <;> simp [hne]
    · simp [hne]

/-- The elements `Clean` keeps are a sub-list of the path's non-empty elements. -/
theorem foldl_cleanElem_sublist (rooted : Bool) :
    ∀ (es out : List (List Char)),
      (es.foldl (cleanElem rooted) out).reverse.Sublist (out.reverse ++ es.filter (· ≠ []))
  | [], out => by simp
  | e :: es, out => by
    refine (foldl_cleanElem_sublist rooted es _).trans ?_
    rw [show e :: es = [e] ++ es from rfl, List.filter_append, ← List.append_assoc]
    exact (cleanElem_sublist rooted out e).append (List.Sublist.refl _)

/-- `Clean` returns `.` or a path with no more components and no more characters. -/
theorem clean_shrinks (path : String) :
    clean path = "." ∨ (components (clean path) ≤ components path ∧ (clean path).length ≤ path.length) := by
  obtain ⟨cs⟩ := path
  have hk := kept_clean (cs.head? == some '/') cs
  have hs := foldl_cleanElem_sublist (cs.head? == some '/') (elems cs) []
  unfold clean components
  dsimp only [String.toList]
  generalize ((elems cs).foldl (cleanElem (cs.head? == some '/')) []).reverse = out at hk hs ⊢
  rw [List.reverse_nil, List.nil_append] at hs
  cases hr : (cs.head? == some '/')
  · by_cases hb : (joinElems out).isEmpty
    · exact .inl (by simp [hb])
    · simp only [Bool.false_eq_true, ↓reduceIte, hb]
      refine .inr ⟨?_, ?_⟩
      · rw [countP_elems_joinElems hk, List.countP_eq_length_filter]
        exact hs.length_le
      · simpa [joinElems_elems] using length_joinElems_le (hs.trans (List.filter_sublist _))
  · obtain ⟨tl, rfl⟩ : ∃ tl, cs = '/' :: tl := by
      cases cs with
      | nil => simp at hr
      | cons c tl => exact ⟨tl, by simpa using hr⟩
    have hsep (cs : List Char) : elems ('/' :: cs) = [] :: elems cs := by simp [elems]
    simp only [hsep, List.filter_cons, ne_eq, not_true_eq_false, decide_False,
      Bool.false_eq_true, ↓reduceIte] at hs
    simp only [↓reduceIte, hsep]
    refine .inr ⟨?_, ?_⟩
    · rw [List.countP_cons, List.countP_cons, countP_elems_joinElems hk,
        List.countP_eq_length_filter]
      simpa using hs.length_le
    · simpa [joinElems_elems] using length_joinElems_le (hs.trans (List.filter_sublist _))
/-- Where `Dir` cuts a path: nowhere when it has no separator, else after its last one. -/
private theorem cut_last_sep (cs : List Char) :
    (cs.reverse.dropWhile (· ≠ '/')).reverse = [] ∨ ∃ q last, '/' ∉ last ∧
      cs = q ++ '/' :: last ∧ (cs.reverse.dropWhile (· ≠ '/')).reverse = q ++ ['/'] := by
  have hsplit := List.takeWhile_append_dropWhile (· ≠ '/') cs.reverse
  rcases hd : cs.reverse.dropWhile (· ≠ '/') with _ | ⟨c, rest⟩
  · exact .inl rfl
  · have hc := List.head?_dropWhile_not (· ≠ '/') cs.reverse
    rw [hd] at hc
    simp only [List.head?_cons, decide_eq_false_iff_not, not_not] at hc
    subst hc
    refine .inr ⟨rest.reverse, (cs.reverse.takeWhile (· ≠ '/')).reverse, fun hm => ?_, ?_, by simp⟩
    · simpa using List.mem_takeWhile_imp (List.mem_reverse.mp hm)
    · conv_lhs => rw [← List.reverse_reverse cs, ← hsplit, hd]
      simp

/-- One round of the ancestor loop: `Dir` of a cleaned path other than `.` and `/` is `.` or is
shorter and has fewer components. -/
theorem dir_clean_shrinks (p : String) :
    clean p = "." ∨ clean p = "/" ∨ dir (clean p) = "." ∨
      ((dir (clean p)).length < (clean p).length ∧ components (dir (clean p)) < components (clean p)) := by
  rcases cut_last_sep (clean p).toList with hpre | ⟨q, last, hlast, hcs, hpre⟩
  · exact .inr (.inr (.inl (by rw [dir, hpre]; decide)))
  have hdata : (clean p).data = q ++ '/' :: last := hcs
  rcases eq_or_ne last [] with rfl | hne
  · exact .inr (.inl (clean_eq_root_of_getLast p (by simp [hdata])))
  have hdir : dir (clean p) = clean ⟨q ++ ['/']⟩ := by rw [dir, hpre]
  refine .inr (.inr ?_)
  rw [hdir]
  rcases clean_shrinks ⟨q ++ ['/']⟩ with h | ⟨hc, hl⟩
  · exact .inl h
  · have hcomp : components ⟨q ++ ['/']⟩ < components (clean p) := by
      simp [components, hdata, elems, elems_append_sep, elems_of_not_mem hlast, hne]
    have hlen : (String.mk (q ++ ['/'])).length < (clean p).length := by
      show _ < (clean p).data.length
      simp [hdata, List.length_pos.mpr hne]
    exact .inr ⟨hl.trans_lt hlen, hc.trans_lt hcomp⟩

/-- `Clean` never returns the empty path. -/
theorem clean_ne_empty (p : String) : clean p ≠ "" := by
  unfold clean
  dsimp only
  split
  · exact fun h => List.cons_ne_nil _ _ (congrArg String.data h)
  split
  · decide
  · rename_i hb
    exact fun h => hb (by simpa using congrArg String.data h)

theorem dir_ne_empty (p : String) : dir p ≠ "" := clean_ne_empty _

/-! ### `Clean` is idempotent -/

/-- An element `Clean` keeps as it is: not empty, `.` or `..`. -/
def Plain (x : List Char) : Prop := x ≠ [] ∧ x ≠ ['.'] ∧ x ≠ ['.', '.']

/-- The stack `Clean`'s loop builds, last element first: plain elements over a bottom of `..`
elements, which only a relative path has. -/
def Settled (rooted : Bool) (out : List (List Char)) : Prop :=
  ∃ a b, out = a ++ b ∧ (∀ x ∈ a, Plain x) ∧ (∀ x ∈ b, x = ['.', '.']) ∧ (rooted → b = [])

private theorem settled_cleanElem {rooted : Bool} {out : List (List Char)} (e : List Char)
    (h : Settled rooted out) : Settled rooted (cleanElem rooted out e) := by
  obtain ⟨a, b, rfl, ha, hb, hr⟩ := h
  unfold cleanElem
  split
  · exact ⟨a, b, rfl, ha, hb, hr⟩
  rename_i he
  split
  · rename_i hdd
    split
    · rename_i x rest hxr
      cases a with
      | nil =>
        rw [List.nil_append] at hxr ⊢
        subst hxr
        rw [if_pos (hb x (List.mem_cons_self _ _))]
        exact ⟨[], e :: x :: rest, rfl, by simp, by simpa [hdd] using hb,
          fun h => absurd (hr h) (List.cons_ne_nil _ _)⟩
      | cons y a =>
        obtain ⟨rfl, rfl⟩ := List.cons.inj hxr
        rw [if_neg (ha _ (List.mem_cons_self _ _)).2.2]
        exact ⟨a, b, rfl, fun z hz => ha z (List.mem_cons_of_mem _ hz), hb, hr⟩
    · rename_i hnil
      obtain ⟨rfl, rfl⟩ := List.append_eq_nil.mp hnil
      split
      · exact ⟨[], [], rfl, by simp, by simp, fun _ => rfl⟩
      · rename_i hr'
        exact ⟨[], [e], rfl, by simp, by simp [hdd], fun h => absurd h hr'⟩
  · rename_i hdd
    exact ⟨e :: a, b, rfl, by simp_all [Plain], hb, hr⟩

theorem settled_foldl (rooted : Bool) :
    ∀ (es out : List (List Char)), Settled rooted out → Settled rooted (es.foldl (cleanElem rooted) out)
  | [], _, h => h
  | e :: es, _, h => settled_foldl rooted es _ (settled_cleanElem e h)

private theorem Settled.tail {rooted : Bool} {x : List Char} {out : List (List Char)}
    (h : Settled rooted (x :: out)) : Settled rooted out := by
  obtain ⟨a, b, hab, ha, hb, hr⟩ := h
  cases a with
  | nil =>
    rw [List.nil_append] at hab
    subst hab
    exact ⟨[], out, rfl, by simp, fun z hz => hb z (List.mem_cons_of_mem _ hz),
      fun h => absurd (hr h) (List.cons_ne_nil _ _)⟩
  | cons y a =>
    obtain ⟨-, rfl⟩ := List.cons.inj hab
    exact ⟨a, b, rfl, fun z hz => ha z (List.mem_cons_of_mem _ hz), hb, hr⟩

/-- The loop keeps the top element of a settled stack. -/
private theorem cleanElem_push {rooted : Bool} {x : List Char} {out : List (List Char)}
    (h : Settled rooted (x :: out)) : cleanElem rooted out x = x :: out := by
  obtain ⟨a, b, hab, ha, hb, hr⟩ := h
  cases a with
  | nil =>
    rw [List.nil_append] at hab
    subst hab
    have hrooted : rooted = false := by
      cases rooted
      · rfl
      · exact absurd (hr rfl) (List.cons_ne_nil _ _)
    subst hrooted
    rw [hb x (List.mem_cons_self _ _)]
    cases out with
    | nil => rfl
    | cons z out => simp [cleanElem, hb z (by simp)]
  | cons y a =>
    obtain ⟨rfl, -⟩ := List.cons.inj hab
    obtain ⟨h1, h2, h3⟩ := ha _ (List.mem_cons_self _ _)
    simp [cleanElem, h1, h2, h3]

private theorem foldr_cleanElem {rooted : Bool} :
    ∀ (l acc : List (List Char)), Settled rooted (l ++ acc) →
      l.foldr (fun x out => cleanElem rooted out x) acc = l ++ acc
  | [], _, _ => rfl
  | x :: l, acc, h => by
    rw [List.foldr_cons, foldr_cleanElem l acc h.tail]
    exact cleanElem_push h

/-- The loop run over a settled stack's elements, first to last, builds that stack. -/
private theorem foldl_settled {rooted : Bool} {out : List (List Char)} (h : Settled rooted out) :
    out.reverse.foldl (cleanElem rooted) [] = out := by
  rw [List.foldl_reverse]
  simpa using foldr_cleanElem out [] (by simpa using h)

private theorem foldl_elems_joinElems {rooted : Bool} {out : List (List Char)}
    (hs : Settled rooted out) (hk : Kept out) :
    (elems (joinElems out.reverse)).foldl (cleanElem rooted) [] = out := by
  rcases eq_or_ne out [] with rfl | hne
  · simp [elems, joinElems, cleanElem]
  · rw [elems_joinElems (fun x hx => hk x (List.mem_reverse.mp hx)) (by simpa using hne),
      foldl_settled hs]

theorem head?_joinElems_ne_sep : ∀ {xs : List (List Char)}, Kept xs →
    (joinElems xs).head? ≠ some '/'
  | [], _ => by simp [joinElems]
  | x :: xs, hk => by
    obtain ⟨hx, hs⟩ := hk x (List.mem_cons_self _ _)
    obtain ⟨c, x, rfl⟩ := List.exists_cons_of_ne_nil hx
    rw [joinElems_cons_cons, List.head?_cons]
    exact fun h => hs (Option.some.inj h ▸ List.mem_cons_self _ _)

private theorem clean_mk (cs : List Char) : clean ⟨cs⟩ =
    let rooted := cs.head? == some '/'
    let body := joinElems ((elems cs).foldl (cleanElem rooted) []).reverse
    if rooted then ⟨'/' :: body⟩ else if body.isEmpty then "." else ⟨body⟩ := rfl

private theorem kept_reverse {out : List (List Char)} (hk : Kept out.reverse) : Kept out :=
  fun x hx => hk x (List.mem_reverse.mpr hx)

private theorem clean_rooted_settled {out : List (List Char)} (hs : Settled true out)
    (hk : Kept out.reverse) :
    clean ⟨'/' :: joinElems out.reverse⟩ = ⟨'/' :: joinElems out.reverse⟩ := by
  have hsep : elems ('/' :: joinElems out.reverse) = [] :: elems (joinElems out.reverse) := by
    simp [elems]
  rw [clean_mk]
  simp only [List.head?_cons, beq_self_eq_true, ↓reduceIte, hsep, List.foldl_cons]
  rw [show cleanElem true [] [] = [] by simp [cleanElem], foldl_elems_joinElems hs (kept_reverse hk)]

private theorem clean_relative_settled {out : List (List Char)} (hs : Settled false out)
    (hk : Kept out.reverse) (hne : out ≠ []) :
    clean ⟨joinElems out.reverse⟩ = ⟨joinElems out.reverse⟩ := by
  have hr : ((joinElems out.reverse).head? == some '/') = false := by
    simpa using head?_joinElems_ne_sep hk
  have hb : (joinElems out.reverse).isEmpty = false := by
    obtain ⟨c, hc, -⟩ := getLast_joinElems hk (by simpa using hne)
    cases h : joinElems out.reverse <;> simp_all
  rw [clean_mk]
  simp only [hr, Bool.false_eq_true, ↓reduceIte, foldl_elems_joinElems hs (kept_reverse hk), hb]

/-- What `Clean` returns for a settled stack is returned by `Clean` as it is. -/
private theorem clean_settled {rooted : Bool} {out : List (List Char)} (hs : Settled rooted out)
    (hk : Kept out.reverse) :
    let body := joinElems out.reverse
    let q : String := if rooted then ⟨'/' :: body⟩ else if body.isEmpty then "." else ⟨body⟩
    clean q = q := by
  cases rooted with
  | true => exact clean_rooted_settled hs hk
  | false =>
    simp only [Bool.false_eq_true, ↓reduceIte]
    split
    · rfl
    · rename_i hb
      exact clean_relative_settled hs hk (by rintro rfl; exact hb rfl)

/-- `Clean` returns a cleaned path as it is. -/
theorem clean_clean (p : String) : clean (clean p) = clean p :=
  clean_settled (settled_foldl _ (elems p.toList) [] ⟨[], [], rfl, by simp, by simp, fun _ => rfl⟩)
    (kept_clean _ p.toList)

end SoongZip.Filepath

namespace SoongZip.Crc32

/-- One bit of the reflected CRC-32 with the IEEE polynomial `0xedb88320`. -/
def bitStep (c : UInt32) : UInt32 := if c &&& 1 = 1 then (c >>> 1) ^^^ 0xedb88320 else c >>> 1

/-- One byte of `crc32.Update` with the IEEE table. -/
def byteStep (crc : UInt32) (b : UInt8) : UInt32 := Nat.repeat bitStep 8 (crc ^^^ b.toUInt32)

/-- `crc32.ChecksumIEEE`, which `crc32.NewIEEE` followed by `Sum32` also computes. -/
def checksumIEEE (data : List UInt8) : UInt32 := ~~~(data.foldl byteStep 0xffffffff)

set_option maxRecDepth 10000 in
example : checksumIEEE (bytesOf "hello\n") = 0x363a3020 := by decide

/-- The empty string has checksum zero, the header value of a directory entry. -/
theorem checksumIEEE_nil : checksumIEEE [] = 0 := by decide

end SoongZip.Crc32
