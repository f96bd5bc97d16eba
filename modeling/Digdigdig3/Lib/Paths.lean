import Mathlib.Tactic.Common

/-!
# Paths

POSIX paths as texts, and the directories they lead to when no symbolic link is on the way.
A directory is the list of names below the root of the file system, so that one directory
contains another when its list is a prefix of the other's.

* `resolve_join`: joining a text to a path walks the components of the text from the
  directory of the path, or from the root if the text is absolute.
* `walk_of_inside`: the components of a relative text that never climbs above its start
  lead to the same names below every directory.
* `walk_eq_of_not_inside`: those of a text that climbs higher lead to the same place from
  all subdirectories of a directory.
* `extension_append`, `fileStem_append`: the parts of a file name.
* `tag_append_inj`: names built from a tag and arguments determine both.
-/

namespace Digdigdig3

/-- A directory: the names that lead to it from the root. -/
abbrev Dir := List (List Char)

namespace Paths

/-! ## Components -/

/-- `path.is_absolute()`. -/
def isAbsolute (path : List Char) : Bool := path.head? == some '/'

/-- The pieces of `path` between its separators. -/
def components (path : List Char) : List (List Char) := path.splitOn '/'

/-- A component that stays in the directory. -/
def IsHere (name : List Char) : Prop := name = [] ∨ name = ['.']

instance (name : List Char) : Decidable (IsHere name) := inferInstanceAs (Decidable (_ ∨ _))

/-- The component that goes to the parent directory. -/
def up : List Char := ['.', '.']

/-- The directory that the component `name` leads to from `dir`. The root is its own
    parent. -/
def enter (dir : Dir) (name : List Char) : Dir :=
  if IsHere name then dir else if name = up then dir.dropLast else dir ++ [name]

/-- The directory that the components `names` lead to from `dir`. -/
def walk (dir : Dir) (names : List (List Char)) : Dir := names.foldl enter dir

/-- The directory of `path` for a process in the directory `cwd`. -/
def resolve (cwd : Dir) (path : List Char) : Dir :=
  walk (if isAbsolute path then [] else cwd) (components path)

/-- `path.join(text)`. -/
def join (path text : List Char) : List Char :=
  if isAbsolute text then text
  else if path = [] ∨ path.getLast? = some '/' then path ++ text
  else path ++ '/' :: text

theorem walk_append (dir : Dir) (as bs : List (List Char)) :
    walk dir (as ++ bs) = walk (walk dir as) bs :=
  List.foldl_append

@[simp] theorem walk_nil (dir : Dir) : walk dir [] = dir := rfl

@[simp] theorem walk_cons (dir : Dir) (name : List Char) (names : List (List Char)) :
    walk dir (name :: names) = walk (enter dir name) names := rfl

theorem enter_of_isHere {name : List Char} (h : IsHere name) (dir : Dir) :
    enter dir name = dir := by
  rw [enter, if_pos h]

theorem components_append (p q : List Char) :
    components (p ++ '/' :: q) = components p ++ components q :=
  List.splitOn_append_cons_self p q

@[simp] theorem components_nil : components [] = [[]] := List.splitOn_nil '/'

@[simp] theorem walk_components_nil (dir : Dir) : walk dir (components []) = dir := by
  rw [components_nil, walk_cons, walk_nil, enter_of_isHere (Or.inl rfl)]

theorem isAbsolute_append {p : List Char} (h : p ≠ []) (q : List Char) :
    isAbsolute (p ++ q) = isAbsolute p := by
  unfold isAbsolute
  cases p with
  | nil => exact absurd rfl h
  | cons c p => rfl

/-- A doubled separator leads to the same directory. -/
theorem walk_components_double (dir : Dir) (p q : List Char) :
    walk dir (components (p ++ '/' :: '/' :: q)) = walk dir (components (p ++ '/' :: q)) := by
  have hempty : components ('/' :: q) = components [] ++ components q :=
    components_append [] q
  rw [components_append, components_append, hempty, walk_append, walk_append, walk_append,
    walk_components_nil]

/-- Joining a text to a path walks on from the directory of the path. -/
theorem resolve_join (cwd : Dir) (p t : List Char) :
    resolve cwd (join p t) =
      walk (if isAbsolute t then [] else resolve cwd p) (components t) := by
  unfold join
  by_cases ht : isAbsolute t
  · rw [if_pos ht, if_pos ht, resolve, if_pos ht]
  · rw [if_neg ht, if_neg ht]
    by_cases hp : p = []
    · subst hp
      rw [if_pos (Or.inl rfl), List.nil_append, resolve, if_neg ht]
      rfl
    · by_cases hslash : p.getLast? = some '/'
      · -- the separator is already there: it ends `p` with an empty component
        obtain ⟨p', rfl⟩ : ∃ p', p = p' ++ ['/'] := List.getLast?_eq_some_iff.mp hslash
        rw [if_pos (Or.inr hslash), resolve, resolve, isAbsolute_append hp,
          List.append_assoc, List.singleton_append, components_append, components_append,
          walk_append, walk_append, walk_components_nil]
      · rw [if_neg (by rintro (h | h) <;> contradiction), resolve, resolve,
          isAbsolute_append hp, components_append, walk_append]

/-- What is joined to a path depends on its directory only. -/
theorem resolve_join_congr {cwd : Dir} {p q : List Char} (h : resolve cwd p = resolve cwd q)
    (t : List Char) : resolve cwd (join p t) = resolve cwd (join q t) := by
  rw [resolve_join, resolve_join, h]

theorem resolve_join_double (cwd : Dir) (root : List Char) {p : List Char} (hp : p ≠ [])
    (q : List Char) :
    resolve cwd (join root (p ++ '/' :: '/' :: q)) = resolve cwd (join root (p ++ '/' :: q)) := by
  rw [resolve_join, resolve_join, isAbsolute_append hp, isAbsolute_append hp]
  exact walk_components_double _ p q

/-! ## Names -/

/-- A text that is one name of a directory entry. -/
structure IsName (t : List Char) : Prop where
  noSeparator : '/' ∉ t
  notHere : ¬IsHere t
  notUp : t ≠ up

instance (t : List Char) : Decidable (IsName t) :=
  decidable_of_iff ('/' ∉ t ∧ ¬IsHere t ∧ t ≠ up)
    ⟨fun h => ⟨h.1, h.2.1, h.2.2⟩, fun h => ⟨h.1, h.2, h.3⟩⟩

theorem isName_of_length {t : List Char} (hsep : '/' ∉ t) (hlen : 2 < t.length) : IsName t := by
  refine ⟨hsep, ?_, ?_⟩
  · rintro (rfl | rfl) <;> contradiction
  · rintro rfl
    contradiction

theorem IsName.components_eq {t : List Char} (h : IsName t) : components t = [t] :=
  List.splitOn_eq_singleton h.noSeparator

theorem IsName.enter_eq {t : List Char} (h : IsName t) (dir : Dir) :
    enter dir t = dir ++ [t] := by
  rw [enter, if_neg h.notHere, if_neg h.notUp]

theorem IsName.not_isAbsolute {t : List Char} (h : IsName t) : isAbsolute t = false := by
  unfold isAbsolute
  rw [beq_eq_false_iff_ne]
  intro hhead
  exact h.noSeparator (List.mem_of_mem_head? hhead)

theorem IsName.resolve_join {t : List Char} (h : IsName t) (cwd : Dir) (p : List Char) :
    resolve cwd (join p t) = resolve cwd p ++ [t] := by
  rw [Paths.resolve_join, h.not_isAbsolute, h.components_eq, walk_cons, walk_nil]
  exact h.enter_eq _

/-! ## Walks that stay inside -/

/-- `enter` below a directory that is not left: `rel` are the names below it. -/
def enterInside (rel : Dir) (name : List Char) : Option Dir :=
  if IsHere name then some rel
  else if name = up then if rel = [] then none else some rel.dropLast
  else some (rel ++ [name])

/-- The names below a directory that the relative path `t` leads to from it, unless `t` is
    absolute or climbs above the directory on its way. -/
def inside (t : List Char) : Option Dir :=
  if isAbsolute t then none else (components t).foldlM enterInside []

theorem enter_of_enterInside {rel rel' : Dir} {name : List Char}
    (h : enterInside rel name = some rel') (dir : Dir) :
    enter (dir ++ rel) name = dir ++ rel' := by
  unfold enterInside at h
  unfold enter
  split_ifs at h ⊢ with hhere hup hrel
  · rw [Option.some.inj h]
  · rw [List.dropLast_append_of_ne_nil hrel, Option.some.inj h]
  · rw [List.append_assoc, Option.some.inj h]

theorem walk_of_foldlM {names : List (List Char)} {rel rel' : Dir}
    (h : names.foldlM enterInside rel = some rel') (dir : Dir) :
    walk (dir ++ rel) names = dir ++ rel' := by
  induction names generalizing rel with
  | nil =>
    rw [List.foldlM_nil] at h
    rw [walk_nil, Option.some.inj h]
  | cons name names ih =>
    rw [List.foldlM_cons] at h
    obtain ⟨next, hnext, hrest⟩ := Option.bind_eq_some_iff.mp h
    rw [walk_cons, enter_of_enterInside hnext]
    exact ih hrest

/-- Where `enterInside` stops, the place reached does not depend on the last name of the
    directory. -/
theorem walk_eq_of_foldlM_none {names : List (List Char)} {rel : Dir}
    (h : names.foldlM enterInside rel = none) (dir : Dir) (x y : List Char) :
    walk (dir ++ [x] ++ rel) names = walk (dir ++ [y] ++ rel) names := by
  induction names generalizing rel with
  | nil => cases h
  | cons name names ih =>
    rw [List.foldlM_cons] at h
    rw [walk_cons, walk_cons]
    cases hnext : enterInside rel name with
    | some next =>
      rw [enter_of_enterInside hnext, enter_of_enterInside hnext]
      rw [hnext] at h
      exact ih h
    | none =>
      unfold enterInside at hnext
      split_ifs at hnext with hhere hup hrel
      subst hrel
      have hparent : ∀ z, enter (dir ++ [z] ++ []) name = dir := by
        intro z
        rw [List.append_nil, enter, if_neg hhere, if_pos hup, List.dropLast_concat]
      rw [hparent, hparent]

/-- A text that stays inside leads to the same names below every directory. -/
theorem resolve_join_of_inside {t : List Char} {rel : Dir} (h : inside t = some rel)
    (cwd : Dir) (p : List Char) : resolve cwd (join p t) = resolve cwd p ++ rel := by
  unfold inside at h
  split_ifs at h with habs
  rw [resolve_join, if_neg habs]
  have hwalk := walk_of_foldlM h (resolve cwd p)
  rwa [List.append_nil] at hwalk

/-- A text that does not stay inside leads to one place from all names of a directory. -/
theorem resolve_join_of_not_inside {t : List Char} (h : inside t = none) (cwd : Dir)
    (p : List Char) {x y : List Char} (hx : IsName x) (hy : IsName y) :
    resolve cwd (join (join p x) t) = resolve cwd (join (join p y) t) := by
  unfold inside at h
  rw [resolve_join, resolve_join cwd (join p y)]
  split_ifs at h with habs
  · rw [if_pos habs, if_pos habs]
  · rw [if_neg habs, if_neg habs, hx.resolve_join, hy.resolve_join]
    have hwalk := walk_eq_of_foldlM_none h (resolve cwd p) x y
    rwa [List.append_nil, List.append_nil] at hwalk

/-- A name stays inside. -/
theorem IsName.inside_eq {t : List Char} (h : IsName t) : inside t = some [t] := by
  rw [inside, h.not_isAbsolute, if_neg Bool.false_ne_true, h.components_eq,
    List.foldlM_cons, enterInside, if_neg h.notHere, if_neg h.notUp]
  rfl

/-! ## Tagged names -/

/-- Texts built from a tag and arguments determine both, when the tags differ, and the
    tags that take arguments are prefixes of no other tag. -/
theorem tag_append_inj {ι α : Type*} {tag : ι → List α} {takesArgs : ι → Prop}
    (hinj : ∀ i j, tag i = tag j → i = j)
    (hfree : ∀ i j, takesArgs i → tag i <+: tag j → i = j) {i j : ι} {a b : List α}
    (ha : ¬takesArgs i → a = []) (hb : ¬takesArgs j → b = [])
    (h : tag i ++ a = tag j ++ b) : i = j ∧ a = b := by
  -- the tag that is a prefix of the other either takes arguments, or is the whole text
  have hwhole : ∀ {i j : ι} {a b : List α}, (¬takesArgs i → a = []) →
      tag i ++ a = tag j ++ b → tag i <+: tag j → i = j := by
    intro i j a b ha h hle
    by_cases hargs : takesArgs i
    · exact hfree i j hargs hle
    · rw [ha hargs, List.append_nil] at h
      refine hinj i j (hle.eq_of_length_le ?_)
      rw [h, List.length_append]
      exact Nat.le_add_right _ _
  have hij : i = j := by
    have hi : tag i <+: tag j ++ b := ⟨a, h⟩
    have hj : tag j <+: tag j ++ b := List.prefix_append _ _
    rcases List.prefix_or_prefix_of_prefix hi hj with hle | hle
    · exact hwhole ha h hle
    · exact (hwhole hb h.symm hle).symm
  subst hij
  exact ⟨rfl, List.append_cancel_left h⟩

/-! ## Stems and extensions -/

/-- A file name without and with what is behind its last dot. -/
def rsplitDot (name : List Char) : Option (List Char × List Char) :=
  match name.reverse.dropWhile (· ≠ '.') with
  | [] => none
  | _ :: before => some (before.reverse, (name.reverse.takeWhile (· ≠ '.')).reverse)

/-- `path.file_stem()` of a file name. -/
def fileStem (name : List Char) : List Char :=
  match rsplitDot name with
  | some (before, _) => if name = up ∨ before = [] then name else before
  | none => name

/-- `path.extension()` of a file name. -/
def extension (name : List Char) : Option (List Char) :=
  match rsplitDot name with
  | some (before, after) => if name = up ∨ before = [] then none else some after
  | none => none

theorem rsplitDot_append (stem : List Char) {ext : List Char} (hext : '.' ∉ ext) :
    rsplitDot (stem ++ '.' :: ext) = some (stem, ext) := by
  have hall : ∀ c ∈ ext.reverse, decide (c ≠ '.') = true := by
    intro c hc
    refine decide_eq_true fun heq => hext ?_
    rw [← heq]
    exact List.mem_reverse.mp hc
  have hreverse : (stem ++ '.' :: ext).reverse = ext.reverse ++ '.' :: stem.reverse := by simp
  rw [rsplitDot, hreverse, List.dropWhile_append_of_pos hall, List.takeWhile_append_of_pos hall]
  simp

theorem append_ext_ne_up {stem ext : List Char} (hstem : stem ≠ []) (hne : ext ≠ []) :
    stem ++ '.' :: ext ≠ up := by
  intro h
  have hlength := congrArg List.length h
  have hpos := List.length_pos_iff.mpr hstem
  have hpos' := List.length_pos_iff.mpr hne
  simp only [List.length_append, List.length_cons, up, List.length_nil] at hlength
  omega

theorem extension_append {stem ext : List Char} (hstem : stem ≠ []) (hne : ext ≠ [])
    (hext : '.' ∉ ext) : extension (stem ++ '.' :: ext) = some ext := by
  simp only [extension, rsplitDot_append stem hext]
  exact if_neg (not_or.mpr ⟨append_ext_ne_up hstem hne, hstem⟩)

theorem fileStem_append {stem ext : List Char} (hstem : stem ≠ []) (hne : ext ≠ [])
    (hext : '.' ∉ ext) : fileStem (stem ++ '.' :: ext) = stem := by
  simp only [fileStem, rsplitDot_append stem hext]
  exact if_neg (not_or.mpr ⟨append_ext_ne_up hstem hne, hstem⟩)

end Paths

end Digdigdig3
