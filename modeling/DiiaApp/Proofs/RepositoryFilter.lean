import DiiaApp.RepositoryFilter
import Mathlib.Data.List.Infix
import Mathlib.Data.List.TakeWhile

/-!
# The filter and the mask

The mask looks at the directories below the folder of the repositories, the filter at the whole
path. So they select the same file just where the other directories of the path do not mislead it
(`selects_iff`).
-/

namespace DiiaApp

open Js

section Segments

variable {α : Type} [DecidableEq α] {sep : α}

omit [DecidableEq α] in
theorem intercalate_append {xs ys : List (List α)} (hx : xs ≠ []) (hy : ys ≠ []) :
    [sep].intercalate (xs ++ ys) = [sep].intercalate xs ++ sep :: [sep].intercalate ys := by
  induction xs with
  | nil => exact absurd rfl hx
  | cons x xs ih =>
    rcases xs with _ | ⟨x', xs⟩
    · obtain ⟨y, ys, rfl⟩ := List.exists_cons_of_ne_nil hy
      simp
    · rw [List.cons_append, List.intercalate_cons_of_ne_nil (by simp),
        List.intercalate_cons_of_ne_nil (by simp), ih (by simp)]
      simp

/-- A text between separators is one of the segments in the middle. -/
theorem infix_segments_iff {text : List α} {x y : List α} (hx : sep ∉ x) (hy : sep ∉ y) :
    (sep :: x ++ sep :: y ++ [sep]) <:+: text ↔ ∃ before after, before ≠ [] ∧ after ≠ [] ∧
      text.splitOn sep = before ++ x :: y :: after := by
  constructor
  · rintro ⟨u, v, rfl⟩
    refine ⟨u.splitOn sep, v.splitOn sep, List.splitOn_ne_nil _ _, List.splitOn_ne_nil _ _, ?_⟩
    have htext : u ++ (sep :: x ++ sep :: y ++ [sep]) ++ v
        = u ++ sep :: (x ++ sep :: (y ++ sep :: v)) := by simp
    rw [htext, List.splitOn_append_cons_self, List.splitOn_append_cons_self_of_not_mem hx,
      List.splitOn_append_cons_self_of_not_mem hy]
  · rintro ⟨before, after, hb, ha, hsplit⟩
    refine ⟨[sep].intercalate before, [sep].intercalate after, ?_⟩
    have hjoin : [sep].intercalate (text.splitOn sep) = text := List.intercalate_splitOn sep
    rw [← hjoin, hsplit, intercalate_append hb (by simp),
      List.intercalate_cons_of_ne_nil (by simp), List.intercalate_cons_of_ne_nil ha]
    simp

/-- There is something before the first separator. -/
theorem span_iff {text : List α} :
    (text.takeWhile (· ≠ sep) ≠ [] ∧ text.dropWhile (· ≠ sep) ≠ []) ↔
      ∃ x v, x ≠ [] ∧ sep ∉ x ∧ text = x ++ sep :: v := by
  constructor
  · rintro ⟨hx, hrest⟩
    obtain ⟨c, v, hdrop⟩ := List.exists_cons_of_ne_nil hrest
    obtain rfl : c = sep := by
      have hnot := List.head?_dropWhile_not (· ≠ sep) text
      rw [hdrop] at hnot
      simpa using hnot
    refine ⟨text.takeWhile (· ≠ c), v, hx, fun hmem => ?_, ?_⟩
    · simpa using List.mem_takeWhile_imp hmem
    · rw [← hdrop, List.takeWhile_append_dropWhile]
  · rintro ⟨x, v, hx, hsep, rfl⟩
    have hall : ∀ c ∈ x, decide (c ≠ sep) = true := by
      intro c hc
      rw [decide_eq_true_iff]
      rintro rfl
      exact hsep hc
    rw [List.takeWhile_append_of_pos hall, List.dropWhile_append_of_pos hall]
    simp [hx]

end Segments

/-- The directories on the path of a file `r` below the folder of `D`. -/
def directories (D r : JsString) : List JsString :=
  D.splitOn pathSep ++ js "repositories" :: (r.splitOn pathSep).dropLast

/-- A directory `repositories`, not at the start, has the directory `name` in it. -/
def HoldsDirectory (dirs : List JsString) (name : JsString) : Prop :=
  ∃ before after, before ≠ [] ∧ dirs = before ++ js "repositories" :: name :: after

/-- The path of a file `r` below the folder of `D`. -/
def repositoryPath (D r : JsString) : JsString := D ++ js "/repositories/" ++ r

theorem splitOn_repositoryPath (D r : JsString) : (repositoryPath D r).splitOn pathSep
    = D.splitOn pathSep ++ js "repositories" :: r.splitOn pathSep := by
  have hpath : repositoryPath D r = D ++ pathSep :: (js "repositories" ++ pathSep :: r) := by
    have hname : js "/repositories/" = pathSep :: (js "repositories" ++ [pathSep]) := by decide
    simp [repositoryPath, hname]
  have hfolder : pathSep ∉ js "repositories" := by decide
  rw [hpath, List.splitOn_append_cons_self, List.splitOn_append_cons_self_of_not_mem hfolder]

theorem holdsDirectory_iff {D r name : JsString} (hname : pathSep ∉ name) :
    includes (repositoryPath D r) (js "/repositories/" ++ name ++ js "/") ↔
      HoldsDirectory (directories D r) name := by
  have hfolder : pathSep ∉ js "repositories" := by decide
  have htext : js "/repositories/" ++ name ++ js "/"
      = pathSep :: js "repositories" ++ pathSep :: name ++ [pathSep] := by
    have hstart : js "/repositories/" = pathSep :: (js "repositories" ++ [pathSep]) := by decide
    have hend : js "/" = [pathSep] := by decide
    simp [hstart, hend]
  have hlast : D.splitOn pathSep ++ js "repositories" :: r.splitOn pathSep
      = directories D r ++ [(r.splitOn pathSep).getLast (List.splitOn_ne_nil _ _)] := by
    rw [directories, List.append_assoc, List.cons_append, List.dropLast_append_getLast]
  rw [includes, decide_eq_true_iff, htext, infix_segments_iff hfolder hname,
    splitOn_repositoryPath, hlast]
  constructor
  · rintro ⟨before, after, hb, ha, h⟩
    obtain ⟨after, z, rfl⟩ := (List.eq_nil_or_concat after).resolve_left ha
    refine ⟨before, after, hb, ?_⟩
    rw [List.concat_eq_append, ← List.cons_append, ← List.cons_append, ← List.append_assoc] at h
    exact (List.append_inj' h rfl).1
  · rintro ⟨before, after, hb, h⟩
    refine ⟨before, after ++ [(r.splitOn pathSep).getLast (List.splitOn_ne_nil _ _)], hb,
      by simp, ?_⟩
    rw [h]
    simp

theorem startsSubfolder_iff {text : JsString} : startsSubfolder text ↔
    ∃ name, name ≠ [] ∧ pathSep ∉ name ∧ js "/repositories/" ++ name ++ js "/" <+: text := by
  have hend : js "/" = [pathSep] := by decide
  simp only [startsSubfolder, Bool.and_eq_true, decide_eq_true_iff, List.isPrefixOf_iff_prefix,
    and_assoc, span_iff, hend]
  constructor
  · rintro ⟨⟨rest, rfl⟩, name, v, hne, hsep, hrest⟩
    rw [List.drop_left] at hrest
    exact ⟨name, hne, hsep, v, by simp [hrest]⟩
  · rintro ⟨name, hne, hsep, v, rfl⟩
    rw [List.append_assoc, List.append_assoc, List.drop_left]
    exact ⟨List.prefix_append _ _, name, v, hne, hsep, rfl⟩

theorem isInSubfolder_iff {D r : JsString} : isInSubfolder (repositoryPath D r) ↔
    ∃ name, name ≠ [] ∧ pathSep ∉ name ∧ HoldsDirectory (directories D r) name := by
  simp only [isInSubfolder, List.any_eq_true, List.mem_tails, startsSubfolder_iff]
  constructor
  · rintro ⟨t, ⟨u, hu⟩, name, hne, hsep, v, rfl⟩
    refine ⟨name, hne, hsep, (holdsDirectory_iff hsep).1 ?_⟩
    rw [includes, decide_eq_true_iff]
    exact ⟨u, v, by rw [← hu, List.append_assoc]⟩
  · rintro ⟨name, hne, hsep, hholds⟩
    have hinfix := (holdsDirectory_iff hsep).2 hholds
    rw [includes, decide_eq_true_iff] at hinfix
    obtain ⟨u, v, hu⟩ := hinfix
    exact ⟨js "/repositories/" ++ name ++ js "/" ++ v, ⟨u, by simp [← hu]⟩, name, hne, hsep, v,
      rfl⟩

/-- The other directories on the path do not mislead the filter: a file in another directory below
the folder is not on a path with the adapter's directory in some directory `repositories`; of a file
right in the folder, if a directory `repositories` on its path holds a directory, one holds the
adapter's. -/
def SelectsAlike (databaseAdapter D r : JsString) : Prop :=
  if pathSep ∈ r then
    databaseAdapter ++ js "/" <+: r ∨ ¬ HoldsDirectory (directories D r) databaseAdapter
  else (∃ name, name ≠ [] ∧ pathSep ∉ name ∧ HoldsDirectory (directories D r) name) →
    HoldsDirectory (directories D r) databaseAdapter

theorem keepsRepository_iff {a D r : JsString} (ha : pathSep ∉ a) :
    keepsRepository a (repositoryPath D r) ↔
      ((∃ name, name ≠ [] ∧ pathSep ∉ name ∧ HoldsDirectory (directories D r) name) →
        HoldsDirectory (directories D r) a) := by
  have hfolder : includes (repositoryPath D r) (js "/repositories/") := by
    rw [includes, decide_eq_true_iff]
    exact ⟨D, r, rfl⟩
  rw [← isInSubfolder_iff, ← holdsDirectory_iff ha, keepsRepository]
  simp only [hfolder, Bool.true_and, Bool.or_eq_true, Bool.not_eq_true', imp_iff_not_or,
    Bool.not_eq_true]

/-- A directory right below the folder. -/
theorem holdsDirectory_below {D r name : JsString} (hname : pathSep ∉ name)
    (h : name ++ js "/" <+: r) : HoldsDirectory (directories D r) name := by
  obtain ⟨v, rfl⟩ := h
  have hend : js "/" = [pathSep] := by decide
  have hdirs : ((name ++ js "/" ++ v).splitOn pathSep).dropLast
      = name :: (v.splitOn pathSep).dropLast := by
    rw [hend, List.append_assoc, List.singleton_append,
      List.splitOn_append_cons_self_of_not_mem hname,
      List.dropLast_cons_of_ne_nil (List.splitOn_ne_nil _ _)]
  exact ⟨D.splitOn pathSep, (v.splitOn pathSep).dropLast, List.splitOn_ne_nil _ _,
    by rw [directories, hdirs]⟩

theorem selects_iff {a D r : JsString} (ha : pathSep ∉ a) (hr : r.head? ≠ some pathSep) :
    (keepsRepository a (repositoryPath D r) ↔ selectedByMask a r) ↔ SelectsAlike a D r := by
  have hend : js "/" = [pathSep] := by decide
  rw [keepsRepository_iff ha, SelectsAlike, selectedByMask]
  simp only [Bool.or_eq_true, decide_eq_true_iff, List.isPrefixOf_iff_prefix]
  split_ifs with hsep
  · have hother : ∃ name, name ≠ [] ∧ pathSep ∉ name ∧ HoldsDirectory (directories D r) name := by
      obtain ⟨name, v, rfl, hname⟩ := List.eq_append_cons_of_mem hsep
      have hne : name ≠ [] := by
        rintro rfl
        exact hr rfl
      exact ⟨name, hne, hname, holdsDirectory_below hname ⟨v, by simp [hend]⟩⟩
    by_cases hp : a ++ js "/" <+: r
    · simp [hp, holdsDirectory_below ha hp]
    · simp [hp, hsep, hother]
  · simp [hsep]

variable {M : Type}

theorem kept_iff {modules : Modules M} {files : List (JsString × M)} {p : JsString} {m : M}
    {a : JsString} (hfolder : (js "repositories", files) ∈ modules) (hfile : (p, m) ∈ files) :
    (∃ kept, (js "repositories", kept) ∈ filterRepositoryModulesByAdapter a modules ∧
      (p, m) ∈ kept) ↔ keepsRepository a p := by
  constructor
  · rintro ⟨kept, hkept, hmem⟩
    obtain ⟨folder, -, hfilter⟩ := List.mem_map.1 hkept
    split_ifs at hfilter with hname
    · obtain ⟨-, rfl⟩ := Prod.mk.inj hfilter
      exact (List.mem_filter.1 hmem).2
    · exact absurd (congrArg Prod.fst hfilter) hname
  · intro hkeeps
    refine ⟨files.filter fun file => keepsRepository a file.1, ?_,
      List.mem_filter.2 ⟨hfile, hkeeps⟩⟩
    exact List.mem_map.2 ⟨_, hfolder, if_pos rfl⟩

/-- The filter selects the file that the mask selects just where the path does not mislead it. -/
theorem filterRepositoryModulesByAdapter_selects_iff {modules : Modules M}
    {files : List (JsString × M)} {m : M} {a D r : JsString} (ha : pathSep ∉ a)
    (hr : r.head? ≠ some pathSep) (hfolder : (js "repositories", files) ∈ modules)
    (hfile : (repositoryPath D r, m) ∈ files) :
    ((∃ kept, (js "repositories", kept) ∈ filterRepositoryModulesByAdapter a modules ∧
      (repositoryPath D r, m) ∈ kept) ↔ selectedByMask a r) ↔ SelectsAlike a D r := by
  rw [kept_iff hfolder hfile]
  exact selects_iff ha hr

/-- The modules of one repository. -/
def userModules (D : String) : Modules Unit :=
  [(js "repositories", [(repositoryPath (js D) (js "user.js"), ())])]

theorem filterRepositoryModulesByAdapter_selects_iff_user :
    (∃ kept, (js "repositories", kept) ∈
        filterRepositoryModulesByAdapter (js "mongo") (userModules "/app/dist") ∧
      (repositoryPath (js "/app/dist") (js "user.js"), ()) ∈ kept) ↔
    selectedByMask (js "mongo") (js "user.js") := by
  refine (filterRepositoryModulesByAdapter_selects_iff (by decide) (by decide)
    (List.mem_singleton_self _) (List.mem_singleton_self _)).2 ?_
  rw [SelectsAlike, if_neg (by decide), ← isInSubfolder_iff]
  exact fun h => absurd h (by decide)

/-- Below a folder that is itself named `repositories` no file is kept. -/
theorem filterRepositoryModulesByAdapter_misled :
    ¬ ((∃ kept, (js "repositories", kept) ∈ filterRepositoryModulesByAdapter (js "mongo")
          (userModules "/home/repositories/app/dist") ∧
        (repositoryPath (js "/home/repositories/app/dist") (js "user.js"), ()) ∈ kept) ↔
      selectedByMask (js "mongo") (js "user.js")) := by
  have hfolder : (js "repositories", [(repositoryPath (js "/home/repositories/app/dist")
      (js "user.js"), ())]) ∈ userModules "/home/repositories/app/dist" := List.mem_singleton_self _
  rw [kept_iff hfolder (List.mem_singleton_self _)]
  decide

end DiiaApp
