import DiiaApp.Dependencies
import Mathlib.Data.List.Forall2

/-!
# What a group has

The modules of a folder are registered under the camel case of their directories and file name run
together (`registrationNameOf_eq`), so that two of them can get one name. Of those only the last is
in the container, and its instance is put into the list of the group for each of them. The list has
one instance of each class just where no two paths read alike (`exact_iff_alike`).
-/

namespace DiiaApp

open Js

def isLowerLetter (u : CodeUnit) : Bool := 97 ≤ u.toNat ∧ u.toNat ≤ 122

/-- What the two packages are documented to do, as far as the names depend on it: a lower-case first
letter becomes the upper-case one, the plural `s` goes, and the last letter of a word stays in lower
case. -/
structure WordFunctions.Documented (w : WordFunctions) : Prop where
  upperFirst : ∀ u s, isLowerLetter u = true → w.upperFirst (u :: s) = (u - 32) :: s
  singular : ∀ s ∈ [js "action", js "task", js "scheduledTask", js "eventListener",
    js "externalEventListener"], w.singular (s ++ js "s") = s
  camelCase : ∀ s u v, isLowerLetter u = true → isLowerLetter v = true →
    (w.camelCase (s ++ [u, v])).getLast? = some v

/-- The directories of a module below the folder and its name, where it is not `index`. -/
def segments (depsDir folderName p : JsString) : List JsString :=
  splitText [pathSep] ((dirBelow depsDir folderName p).getD []) ++
    if pathName p ≠ js "index" then [pathName p] else []

/-- The segments with their first letters capitalised, run together. -/
def runTogether (w : WordFunctions) (depsDir folderName p : JsString) : JsString :=
  ((segments depsDir folderName p).map w.upperFirst).flatten

/-- Two paths read alike: with the type of the folder after them, they are the same in camel
case. -/
def ReadAlike (w : WordFunctions) (depsDir folderName p q : JsString) : Prop :=
  let dependencyType := w.upperFirst (w.singular folderName)
  w.camelCase (runTogether w depsDir folderName p ++ dependencyType) =
    w.camelCase (runTogether w depsDir folderName q ++ dependencyType)

/-- A module below the folder. -/
def IsBelow (depsDir folderName p : JsString) : Prop := dirBelow depsDir folderName p ≠ none

/-- A list with one instance of each of some classes, and nothing else. -/
def IsExact {κ : Type} (items : List (DepsInstance κ)) (classes : List κ) : Prop :=
  items.Nodup ∧ (items.map DepsInstance.cls).Perm classes

section Names

variable {w : WordFunctions} {options : LoadDepsFromFolderOptions} {g depsDir p : JsString}

theorem defaultNameFormatter_eq {folderName : JsString} (h : IsBelow depsDir folderName p) :
    defaultNameFormatter w folderName depsDir p =
      .ok (w.camelCase (runTogether w depsDir folderName p ++
        w.upperFirst (w.singular folderName))) := by
  obtain ⟨below, hb⟩ := Option.ne_none_iff_exists'.1 h
  rw [defaultNameFormatter, hb]
  dsimp only
  rw [runTogether, segments, hb, Option.getD_some, List.map_append]
  split_ifs <;> rfl

theorem groupFolders (h : options ∈ defaultFoldersWithDeps) (hg : options.groupName = some g) :
    options.nameFormatter = none ∧ folderOptions options.folderName = options ∧
      g ∈ defaultGroups ∧ ∃ s ∈ [js "action", js "task", js "scheduledTask", js "eventListener",
        js "externalEventListener"], options.folderName = s ++ js "s" := by
  simp only [defaultFoldersWithDeps, List.mem_cons, List.not_mem_nil, or_false] at h
  rcases h with rfl | rfl | rfl | rfl | rfl | rfl | rfl | rfl | rfl
  all_goals cases hg
  all_goals exact ⟨rfl, rfl, by decide, by decide⟩

/-- The type of a group's folder ends in two lower-case letters, the last of which ends no name of a
group. -/
theorem dependencyType_end (hw : w.Documented) {s folderName : JsString}
    (hs : s ∈ [js "action", js "task", js "scheduledTask", js "eventListener",
      js "externalEventListener"]) (hf : folderName = s ++ js "s") : ∃ t u v,
      w.upperFirst (w.singular folderName) = t ++ [u, v] ∧ isLowerLetter u = true ∧
        isLowerLetter v = true ∧ ∀ g ∈ defaultGroups, g.getLast? ≠ some v := by
  rw [hf, hw.singular s hs]
  simp only [List.mem_cons, List.not_mem_nil, or_false] at hs
  rcases hs with rfl | rfl | rfl | rfl | rfl
  · exact ⟨js "Acti", 111, 110, hw.upperFirst 97 (js "ction") rfl, by decide, by decide, by decide⟩
  · exact ⟨js "Ta", 115, 107, hw.upperFirst 116 (js "ask") rfl, by decide, by decide, by decide⟩
  · exact ⟨js "ScheduledTa", 115, 107, hw.upperFirst 115 (js "cheduledTask") rfl, by decide,
      by decide, by decide⟩
  · exact ⟨js "EventListen", 101, 114, hw.upperFirst 101 (js "ventListener") rfl, by decide,
      by decide, by decide⟩
  · exact ⟨js "ExternalEventListen", 101, 114, hw.upperFirst 101 (js "xternalEventListener") rfl,
      by decide, by decide, by decide⟩

/-- The name that a module of a group's folder is registered under, which is not that of a group. -/
theorem registrationNameOf_eq (hw : w.Documented) (h : options ∈ defaultFoldersWithDeps)
    (hg : options.groupName = some g) (hp : IsBelow depsDir options.folderName p) :
    ∃ n, registrationNameOf w options depsDir p = .ok n ∧ n ∉ defaultGroups ∧
      n = w.camelCase (runTogether w depsDir options.folderName p ++
        w.upperFirst (w.singular options.folderName)) := by
  obtain ⟨hf, -, -, s, hs, hname⟩ := groupFolders h hg
  obtain ⟨t, u, v, ht, hu, hv, hlast⟩ := dependencyType_end hw hs hname
  refine ⟨_, by rw [registrationNameOf, hf, defaultNameFormatter_eq hp], fun hmem => ?_, rfl⟩
  refine hlast _ hmem ?_
  rw [ht, ← List.append_assoc]
  exact hw.camelCase _ u v hu hv

end Names

section Registering

open DepsContainer

variable {κ : Type} {g : JsString} {app : DepsContainer κ}

/-- A class in a group, under its name. -/
def dependencyIn (g : JsString) (d : JsString × κ) : ContainerDependency κ :=
  ⟨some g, d.1, some d.2⟩

theorem names_registerGroup (app : DepsContainer κ) (group : JsString) :
    ((app.registerGroup group).groupedDepsNames.get g).getD [] =
      (app.groupedDepsNames.get g).getD [] := by
  rw [registerGroup]
  dsimp only
  split_ifs with h
  · rfl
  · rw [Js.Map.get_set]
    split_ifs with hg
    · subst hg
      rw [Js.Map.not_has.1 h]
      rfl
    · rfl

/-- Registering a group changes no class. -/
theorem class_registerGroup (app : DepsContainer κ) (group : JsString) {n : JsString} {c : κ} :
    (app.registerGroup group).registrations.get n = some (.asClass c) ↔
      app.registrations.get n = some (.asClass c) := by
  rw [registerGroup]
  dsimp only
  split_ifs with h
  · rfl
  · rw [Js.Map.get_set]
    split_ifs with hg
    · subst hg
      simp [Js.Map.not_has.1 h]
    · rfl

/-- What some classes of a group leave: their names in the group, and under each name a class, that
of its own where no two have one name. -/
structure Holds (g : JsString) (deps : List (JsString × κ)) (app : DepsContainer κ) : Prop where
  names : (app.groupedDepsNames.get g).getD [] = deps.map Prod.fst
  group : ∀ c, app.registrations.get g ≠ some (.asClass c)
  found : ∀ n ∈ deps.map Prod.fst, ∃ c, app.registrations.get n = some (.asClass c)
  own : (deps.map Prod.fst).Nodup → ∀ d ∈ deps, app.registrations.get d.1 = some (.asClass d.2)

theorem Holds.registerGroup {deps : List (JsString × κ)} (h : Holds g deps app)
    (group : JsString) : Holds g deps (app.registerGroup group) where
  names := by rw [names_registerGroup, h.names]
  group := fun c => by rw [Ne, class_registerGroup]; exact h.group c
  found := fun n hn => by simpa only [class_registerGroup] using h.found n hn
  own := fun hn d hd => (class_registerGroup app group).2 (h.own hn d hd)

theorem Holds.registerOne {deps : List (JsString × κ)} (h : Holds g deps app) {d : JsString × κ}
    (hd : d.1 ≠ g) : Holds g (deps ++ [d]) (app.registerOne (dependencyIn g d)) := by
  have hg := h.registerGroup g
  have hget : ∀ n, (app.registerOne (dependencyIn g d)).registrations.get n =
      if n = d.1 then some (.asClass d.2) else (app.registerGroup g).registrations.get n :=
    fun n => Js.Map.get_set ..
  refine ⟨?_, fun c => ?_, fun n hn => ?_, fun hn e he => ?_⟩
  · have hnames : (app.registerOne (dependencyIn g d)).groupedDepsNames.get g =
        some (((app.registerGroup g).groupedDepsNames.get g).getD [] ++ [d.1]) :=
      Js.Map.get_set_self ..
    rw [hnames, Option.getD_some, hg.names, List.map_append]
    rfl
  · rw [hget, if_neg hd.symm]
    exact hg.group c
  · rw [hget]
    split_ifs with hnd
    · exact ⟨d.2, rfl⟩
    · refine hg.found n ?_
      simpa [hnd] using hn
  · rw [hget]
    rw [List.map_append, List.nodup_append] at hn
    rcases List.mem_append.1 he with he | he
    · rw [if_neg (hn.2.2 _ (List.mem_map_of_mem he) _ (by simp))]
      exact hg.own hn.1 e he
    · obtain rfl := List.mem_singleton.1 he
      rw [if_pos rfl]

theorem holds_registerAll {deps : List (JsString × κ)} (h : Holds g [] app)
    (hd : ∀ d ∈ deps, d.1 ≠ g) :
    Holds g deps ((deps.map (dependencyIn g)).foldl DepsContainer.registerOne app) := by
  induction deps using List.reverseRecOn with
  | nil => exact h
  | append_singleton deps d ih =>
    rw [List.map_append, List.foldl_append]
    exact (ih fun e he => hd e (List.mem_append_left _ he)).registerOne (hd d (by simp))

/-- A group is known to the container. -/
def HasGroup (g : JsString) (app : DepsContainer κ) : Prop :=
  app.registrations.has g = true ∧ app.groupedDepsNames.has g = true

theorem hasGroup_registerGroup {group : JsString} (h : HasGroup g app ∨ g = group) :
    HasGroup g (app.registerGroup group) := by
  constructor
  · rw [registerGroup]
    dsimp only
    split_ifs with hg
    · exact h.elim And.left fun h => h ▸ hg
    · exact Js.Map.has_set.2 (h.symm.imp_right And.left)
  · rw [registerGroup]
    dsimp only
    split_ifs with hg
    · exact h.elim And.right fun h => h ▸ hg
    · exact Js.Map.has_set.2 (h.symm.imp_right And.right)

theorem hasGroup_foldl {groups : List JsString} (h : HasGroup g app ∨ g ∈ groups) :
    HasGroup g (groups.foldl DepsContainer.registerGroup app) := by
  induction groups generalizing app with
  | nil => exact h.resolve_right (by simp)
  | cons group groups ih =>
    rw [List.foldl_cons]
    refine ih ?_
    rcases h with h | h
    · exact .inl (hasGroup_registerGroup (.inl h))
    · exact (List.mem_cons.1 h).imp (fun h => hasGroup_registerGroup (.inr h)) id

theorem Holds.foldl {deps : List (JsString × κ)} (groups : List JsString) (h : Holds g deps app) :
    Holds g deps (groups.foldl DepsContainer.registerGroup app) := by
  induction groups generalizing app with
  | nil => exact h
  | cons group groups ih => exact ih (h.registerGroup group)

/-- The list of a group is resolved from the names of its classes. -/
theorem startedGroup_eq {deps : List (JsString × κ)} (hh : Holds g deps app)
    (h : HasGroup g app) : app.startedGroup g = (deps.map Prod.fst).mapM app.resolve := by
  obtain ⟨r, hr⟩ := Option.isSome_iff_exists.1 h.1
  obtain ⟨names, hn⟩ := Option.isSome_iff_exists.1 h.2
  have hnames := hh.names
  rw [hn, Option.getD_some] at hnames
  cases r with
  | asClass c => exact absurd hr (hh.group c)
  | asValue => rw [startedGroup, hr, hn, hnames]

theorem resolve_eq_some {n : JsString} {i : DepsInstance κ} :
    app.resolve n = some i ↔ i.name = n ∧ app.registrations.get n = some (.asClass i.cls) := by
  rw [DepsContainer.resolve]
  rcases hr : app.registrations.get n with _ | c | _
  · simp
  · obtain ⟨name, cls⟩ := i
    simp [eq_comm]
  · simp

theorem resolve_names {names : List JsString}
    (h : ∀ n ∈ names, ∃ c, app.registrations.get n = some (.asClass c)) :
    ∃ items, names.mapM app.resolve = some items ∧ items.map DepsInstance.name = names ∧
      ∀ i ∈ items, app.resolve i.name = some i := by
  induction names with
  | nil => exact ⟨[], rfl, rfl, by simp⟩
  | cons n names ih =>
    obtain ⟨c, hc⟩ := h n List.mem_cons_self
    obtain ⟨items, hm, hn, hi⟩ := ih fun m hm => h m (List.mem_cons_of_mem _ hm)
    have hr : app.resolve n = some ⟨n, c⟩ := resolve_eq_some.2 ⟨rfl, hc⟩
    refine ⟨⟨n, c⟩ :: items, ?_, by rw [List.map_cons, hn], List.forall_mem_cons.2 ⟨hr, hi⟩⟩
    rw [List.mapM_cons, hr, hm]
    rfl

theorem resolve_own {deps : List (JsString × κ)}
    (h : ∀ d ∈ deps, app.registrations.get d.1 = some (.asClass d.2)) :
    (deps.map Prod.fst).mapM app.resolve = some (deps.map fun d => ⟨d.1, d.2⟩) := by
  induction deps with
  | nil => rfl
  | cons d deps ih =>
    have hr : app.resolve d.1 = some ⟨d.1, d.2⟩ := resolve_eq_some.2 ⟨rfl, h d List.mem_cons_self⟩
    rw [List.map_cons, List.mapM_cons, hr, ih fun e he => h e (List.mem_cons_of_mem _ he)]
    rfl

/-- The list of a group has one instance of each class just where they have different names. -/
theorem isExact_iff {deps : List (JsString × κ)} (hh : Holds g deps app) (h : HasGroup g app) :
    ∃ items, app.startedGroup g = some items ∧
      (IsExact items (deps.map Prod.snd) ↔ (deps.map Prod.fst).Nodup) := by
  obtain ⟨items, hm, hnames, hres⟩ := resolve_names hh.found
  refine ⟨items, by rw [startedGroup_eq hh h, hm], fun hex => ?_, fun hn => ⟨?_, ?_⟩⟩
  · rw [← hnames]
    refine hex.1.map_on fun i hi j hj hij => Option.some.inj ?_
    rw [← hres i hi, hij, hres j hj]
  · exact List.Nodup.of_map _ (hnames ▸ hn)
  · rw [resolve_own (hh.own hn), Option.some.injEq] at hm
    rw [← hm, List.map_map]
    rfl

section Loading

variable {w : WordFunctions} {options : LoadDepsFromFolderOptions} {depsDir : JsString}
  {modules : List (JsString × ModuleExport κ)} {classes : List κ}

/-- The names of the modules of a group's folder. -/
def moduleNames (w : WordFunctions) (depsDir folderName : JsString)
    (modules : List (JsString × ModuleExport κ)) : List JsString :=
  modules.map fun m => w.camelCase (runTogether w depsDir folderName m.1 ++
    w.upperFirst (w.singular folderName))

theorem mapM_dependencyOf (hw : w.Documented) (h : options ∈ defaultFoldersWithDeps)
    (hg : options.groupName = some g)
    (below : ∀ m ∈ modules, IsBelow depsDir options.folderName m.1)
    (hclass : modules.map (fun m => m.2.defaultExport) = classes.map some) :
    ∃ deps : List (JsString × κ), modules.mapM (dependencyOf w options depsDir) =
        .ok (deps.map (dependencyIn g)) ∧
      deps.map Prod.fst = moduleNames w depsDir options.folderName modules ∧
      deps.map Prod.snd = classes ∧ ∀ d ∈ deps, d.1 ∉ defaultGroups := by
  induction modules generalizing classes with
  | nil =>
    rw [List.map_nil, eq_comm, List.map_eq_nil_iff] at hclass
    exact ⟨[], rfl, rfl, hclass.symm, by simp⟩
  | cons m modules ih =>
    obtain ⟨c, rest, rfl, hc, hrest⟩ := List.map_eq_cons_iff.1 hclass.symm
    obtain ⟨deps, hm, hfst, hsnd, hd⟩ := ih
      (fun e he => below e (List.mem_cons_of_mem _ he)) hrest.symm
    obtain ⟨n, hn, hnot, hname⟩ := registrationNameOf_eq hw h hg (below m List.mem_cons_self)
    have hc : m.2.defaultExport = some c := hc.symm
    have hdep : dependencyOf w options depsDir m = .ok (dependencyIn g (n, c)) := by
      rw [dependencyOf, hn, hc, hg]
      rfl
    refine ⟨(n, c) :: deps, ?_, ?_, by rw [List.map_cons, hsnd],
      List.forall_mem_cons.2 ⟨hnot, hd⟩⟩
    · rw [List.mapM_cons, hdep, hm]
      rfl
    · rw [List.map_cons, hfst, hname]
      rfl

theorem extract_folder (hf : folderOptions options.folderName = options) :
    extractDependenciesFromModules w [(options.folderName, modules)] depsDir =
      modules.mapM (dependencyOf w options depsDir) := by
  rw [extractDependenciesFromModules, List.flatMap_cons, List.flatMap_nil, List.append_nil,
    List.mapM_map]
  simp only [hf, Function.comp_def]

theorem load_folder (hg : options.groupName = some g) {deps : List (JsString × κ)}
    (hm : modules.mapM (dependencyOf w options depsDir) = .ok (deps.map (dependencyIn g))) :
    loadDepsFromFolder w app options depsDir modules =
      .ok ((app.registerGroup g).registerDependencies (deps.map (dependencyIn g))) := by
  have hall : ∀ d ∈ deps.map (dependencyIn g), d.dependency.isSome = true :=
    List.forall_mem_map.2 fun _ _ => rfl
  rw [loadDepsFromFolder, hm, hg]
  dsimp only [Except.map, Option.elim_some]
  rw [List.filter_eq_self.2 hall]

/-- A list of a group that the start makes, with one instance of each of some classes. -/
def StartsExact (started : Option (List (DepsInstance κ))) (classes : List κ) : Prop :=
  ∃ items, started = some items ∧ IsExact items classes

theorem startsExact_iff {deps : List (JsString × κ)} (hh : Holds g deps app) (h : HasGroup g app) :
    StartsExact (app.startedGroup g) (deps.map Prod.snd) ↔ (deps.map Prod.fst).Nodup := by
  obtain ⟨items, hs, hiff⟩ := isExact_iff hh h
  rw [← hiff]
  constructor
  · rintro ⟨items', hs', hex⟩
    rw [hs, Option.some.injEq] at hs'
    exact hs' ▸ hex
  · exact fun hex => ⟨items, hs, hex⟩

theorem registerDependencies_exact {deps : List (JsString × κ)} (hh : Holds g [] app)
    (hg : g ∈ defaultGroups) (hd : ∀ d ∈ deps, d.1 ∉ defaultGroups) :
    StartsExact ((app.registerDependencies (deps.map (dependencyIn g))).startedGroup g)
      (deps.map Prod.snd) ↔ (deps.map Prod.fst).Nodup :=
  startsExact_iff
    ((holds_registerAll hh fun d h hdg => hd d h (hdg ▸ hg)).foldl defaultGroups)
    (hasGroup_foldl (.inr hg))

theorem nodup_moduleNames {folderName : JsString} (hd : (modules.map Prod.fst).Nodup) :
    (moduleNames w depsDir folderName modules).Nodup ↔ ∀ p ∈ modules.map Prod.fst,
      ∀ q ∈ modules.map Prod.fst, p ≠ q → ¬ ReadAlike w depsDir folderName p q := by
  have hmap : moduleNames w depsDir folderName modules = (modules.map Prod.fst).map fun p =>
      w.camelCase (runTogether w depsDir folderName p ++ w.upperFirst (w.singular folderName)) := by
    rw [moduleNames, List.map_map]
    rfl
  rw [hmap, List.nodup_map_iff_inj_on hd]
  exact forall₂_congr fun p _ => forall₂_congr fun q _ => not_imp_not.symm

end Loading

end Registering

section Exact

variable {κ : Type} {w : WordFunctions} {options : LoadDepsFromFolderOptions} {g depsDir : JsString}
  {app : DepsContainer κ} {modules : List (JsString × ModuleExport κ)} {classes : List κ}

/-- Whichever way the modules of a group's folder are loaded, into a container that knows nothing of
the group, the list of the group has one instance of each of their classes and nothing else just
where no two of their paths read alike. -/
theorem exact_iff_alike (hw : w.Documented) (h : options ∈ defaultFoldersWithDeps)
    (hg : options.groupName = some g) (hr : app.registrations.get g = none)
    (hn : app.groupedDepsNames.get g = none) (hd : (modules.map Prod.fst).Nodup)
    (below : ∀ m ∈ modules, IsBelow depsDir options.folderName m.1)
    (hclass : modules.map (fun m => m.2.defaultExport) = classes.map some) :
    ∃ dependencies loaded,
      extractDependenciesFromModules w [(options.folderName, modules)] depsDir =
        .ok dependencies ∧
      DepsContainer.loadDepsFromFolder w app options depsDir modules = .ok loaded ∧
      (StartsExact ((app.registerDependencies dependencies).startedGroup g) classes ↔
        ∀ p ∈ modules.map Prod.fst, ∀ q ∈ modules.map Prod.fst,
          p ≠ q → ¬ ReadAlike w depsDir options.folderName p q) ∧
      (StartsExact (loaded.startedGroup g) classes ↔
        ∀ p ∈ modules.map Prod.fst, ∀ q ∈ modules.map Prod.fst,
          p ≠ q → ¬ ReadAlike w depsDir options.folderName p q) := by
  obtain ⟨-, hf, hmem, -⟩ := groupFolders h hg
  obtain ⟨deps, hm, hfst, rfl, hnot⟩ := mapM_dependencyOf hw h hg below hclass
  have hh : Holds g [] app := ⟨by rw [hn]; rfl, by simp [hr], by simp, by simp⟩
  refine ⟨_, _, (extract_folder hf).trans hm, load_folder hg hm, ?_, ?_⟩
  · rw [registerDependencies_exact hh hmem hnot, hfst, nodup_moduleNames hd]
  · rw [registerDependencies_exact (hh.registerGroup g) hmem hnot, hfst, nodup_moduleNames hd]

/-- Words of the letters `a` to `z` and `A` to `Z` of which only the first can begin one. -/
def asciiWords : WordFunctions where
  upperFirst
    | [] => []
    | u :: s => (if isLowerLetter u then u - 32 else u) :: s
  camelCase
    | [] => []
    | u :: s => (if 65 ≤ u.toNat ∧ u.toNat ≤ 90 then u + 32 else u) :: s
  singular s := if s.getLast? = some 115 then s.dropLast else s

theorem documented_asciiWords : asciiWords.Documented where
  upperFirst u s h := by simp only [asciiWords, h, if_true]
  singular := by decide
  camelCase s u v _ _ := by
    cases s with
    | nil => rfl
    | cons a s => simp [asciiWords, List.getLast?_cons, List.getLast?_append]

/-- Two modules of actions. -/
def twoModules (x y : JsString) : List (JsString × ModuleExport Bool) :=
  [(js "d/actions/" ++ x, .cls true), (js "d/actions/" ++ y, .cls false)]

theorem exact_two_modules : ∃ dependencies,
    extractDependenciesFromModules asciiWords [(js "actions", twoModules (js "x.js") (js "y.js"))]
        (js "d") = .ok dependencies ∧
      StartsExact ((DepsContainer.empty.registerDependencies dependencies).startedGroup
        (js "actionList")) [true, false] := by
  have h : (⟨js "actions", some (js "actionList"), none⟩ : LoadDepsFromFolderOptions) ∈
    defaultFoldersWithDeps := List.mem_cons_self
  have hr : (DepsContainer.empty : DepsContainer Bool).registrations.get (js "actionList") = none :=
    rfl
  have hd : ((twoModules (js "x.js") (js "y.js")).map Prod.fst).Nodup := by decide
  have below : ∀ m ∈ twoModules (js "x.js") (js "y.js"), IsBelow (js "d") (js "actions") m.1 := by
    unfold IsBelow
    decide
  have hclass : (twoModules (js "x.js") (js "y.js")).map (fun m => m.2.defaultExport) =
    [true, false].map some := rfl
  obtain ⟨dependencies, _, he, _, hiff, _⟩ :=
    exact_iff_alike documented_asciiWords h rfl hr rfl hd below hclass
  refine ⟨dependencies, he, hiff.2 ?_⟩
  unfold ReadAlike
  decide

/-- The actions `x` and `x/index` get one name, and the second is there twice, the first not. -/
theorem not_exact : ¬ ∀ (w : WordFunctions) (options : LoadDepsFromFolderOptions) (g depsDir :
    JsString) (modules : List (JsString × ModuleExport Bool)) (classes : List Bool)
    (dependencies : List (ContainerDependency Bool)) (loaded : DepsContainer Bool),
    w.Documented → options ∈ defaultFoldersWithDeps → options.groupName = some g →
      (modules.map Prod.fst).Nodup → (∀ m ∈ modules, IsBelow depsDir options.folderName m.1) →
      modules.map (fun m => m.2.defaultExport) = classes.map some →
      extractDependenciesFromModules w [(options.folderName, modules)] depsDir =
        .ok dependencies →
      DepsContainer.loadDepsFromFolder w .empty options depsDir modules = .ok loaded →
      StartsExact ((DepsContainer.empty.registerDependencies dependencies).startedGroup g)
          classes ∨ StartsExact (loaded.startedGroup g) classes := by
  intro h
  have hno : ¬ StartsExact (some [⟨js "xAction", false⟩, ⟨js "xAction", false⟩]) [true, false] := by
    rintro ⟨items, hi, hex⟩
    rw [Option.some.injEq] at hi
    subst hi
    exact absurd (hex.2.mem_iff (a := true)) (by decide)
  have hex := h asciiWords ⟨js "actions", some (js "actionList"), none⟩ (js "actionList") (js "d")
    (twoModules (js "x.js") (js "x/index.js")) [true, false] _ _ documented_asciiWords
    List.mem_cons_self rfl (by decide) (by unfold IsBelow; decide) rfl rfl rfl
  exact hex.elim hno hno

end Exact

end DiiaApp
