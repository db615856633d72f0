import DiiaApp.Errors
import DiiaApp.Js.Map

/-!
# Dependencies from modules

The application registers the classes that the modules of its folders export, each under a name made
of the path of its module, and puts an instance of each name of a group into the list of the group
when it starts.

How words are capitalised, camel-cased and put into the singular is left to `lodash` and `pluralize`
(`WordFunctions`). In the container a later registration of a name replaces the earlier, and there
is one instance to a name.
-/

namespace DiiaApp

open Js

structure WordFunctions where
  upperFirst : JsString → JsString
  camelCase : JsString → JsString
  singular : JsString → JsString

/-- The code unit `/`. -/
def pathSep : CodeUnit := 47

def splitFrom (separator : JsString) (part : JsString) : ℕ → JsString → List JsString
  | _, [] => [part]
  | skip + 1, _ :: s => splitFrom separator part skip s
  | 0, u :: s =>
    if separator.isPrefixOf (u :: s) then part :: splitFrom separator [] (separator.length - 1) s
    else splitFrom separator (part ++ [u]) 0 s

/-- `text.split(separator)` for a separator that is not empty. -/
def splitText (separator text : JsString) : List JsString := splitFrom separator [] 0 text

/-- What stands before the last `u`. -/
def beforeLast (u : CodeUnit) : JsString → Option JsString
  | [] => none
  | v :: s =>
    match beforeLast u s with
    | some t => some (v :: t)
    | none => if v = u then some [] else none

/-- What stands after the last `u`, or the whole. -/
def afterLast (u : CodeUnit) (s : JsString) : JsString := (s.reverse.takeWhile (· ≠ u)).reverse

/-- `path.parse(p).dir` of the path of a file. -/
def pathDir (p : JsString) : JsString :=
  match beforeLast pathSep p with
  | none => []
  | some [] => [pathSep]
  | some dir => dir

/-- `path.parse(p).name` of the path of a file: its last part without the extension. -/
def pathName (p : JsString) : JsString :=
  let base := afterLast pathSep p
  match beforeLast 46 base with
  | some name => if name = [] ∨ base = js ".." then base else name
  | none => base

/-- The directories of a module below `depsDir/folderName`, as one text. -/
def dirBelow (depsDir folderName p : JsString) : Option JsString :=
  (splitText (depsDir ++ pathSep :: folderName) (pathDir p))[1]?

/-- A module outside of the folder makes it throw. -/
def defaultNameFormatter (w : WordFunctions) (folderName depsDir p : JsString) :
    Except NativeError JsString :=
  match dirBelow depsDir folderName p with
  | none => .error ⟨.typeError, js "Cannot read properties of undefined (reading 'split')"⟩
  | some below =>
    let dependencyPath := (splitText [pathSep] below).map w.upperFirst ++
      if pathName p ≠ js "index" then [w.upperFirst (pathName p)] else []
    let dependencyType := w.upperFirst (w.singular folderName)
    .ok (w.camelCase (dependencyPath.flatten ++ dependencyType))

structure LoadDepsFromFolderOptions where
  folderName : JsString
  groupName : Option JsString
  /-- Of a formatter that is not the default one, what it makes of the name of a file. -/
  nameFormatter : Option (JsString → JsString)

def defaultFoldersWithDeps : List LoadDepsFromFolderOptions :=
  [⟨js "actions", some (js "actionList"), none⟩,
    ⟨js "tasks", some (js "taskList"), none⟩,
    ⟨js "scheduledTasks", some (js "scheduledTaskList"), none⟩,
    ⟨js "eventListeners", some (js "eventListenerList"), none⟩,
    ⟨js "externalEventListeners", some (js "externalEventListenerList"), none⟩,
    ⟨js "services", none, none⟩,
    ⟨js "dataMappers", none, some id⟩,
    ⟨js "repositories", none, some (· ++ js "Repository")⟩,
    ⟨js "views", none, none⟩]

/-- The names of the groups of the default folders. -/
def defaultGroups : List JsString :=
  defaultFoldersWithDeps.filterMap LoadDepsFromFolderOptions.groupName

def registrationNameOf (w : WordFunctions) (options : LoadDepsFromFolderOptions)
    (depsDir p : JsString) : Except NativeError JsString :=
  match options.nameFormatter with
  | some nameFormatter => .ok (nameFormatter (pathName p))
  | none => defaultNameFormatter w options.folderName depsDir p

variable {κ : Type}

/-- What a module exports by default: a class, a class as the default of the exports of another
module system, or something that is no class. -/
inductive ModuleExport (κ : Type)
  | cls (c : κ)
  | interop (c : κ)
  | other

/-- `module.default?.default ?? module.default`, where it is a class. -/
def ModuleExport.defaultExport : ModuleExport κ → Option κ
  | cls c => some c
  | interop c => some c
  | other => none

structure ContainerDependency (κ : Type) where
  groupName : Option JsString
  registrationName : JsString
  dependency : Option κ

/-- The options of a folder, those of another one than the default ones being its name alone. -/
def folderOptions (folderName : JsString) : LoadDepsFromFolderOptions :=
  (defaultFoldersWithDeps.find? fun options => options.folderName = folderName).getD
    ⟨folderName, none, none⟩

/-- The dependency of one module. -/
def dependencyOf (w : WordFunctions) (options : LoadDepsFromFolderOptions) (depsDir : JsString)
    (module : JsString × ModuleExport κ) : Except NativeError (ContainerDependency κ) :=
  (registrationNameOf w options depsDir module.1).map fun registrationName =>
    ⟨options.groupName, registrationName, module.2.defaultExport⟩

/-- `modules` are the files of each folder, in the order of their keys. -/
def extractDependenciesFromModules (w : WordFunctions)
    (modules : List (JsString × List (JsString × ModuleExport κ))) (depsDir : JsString) :
    Except NativeError (List (ContainerDependency κ)) :=
  let unwrappedModules := modules.flatMap fun folder => folder.2.map fun file => (folder.1, file)
  unwrappedModules.mapM fun dep => dependencyOf w (folderOptions dep.1) depsDir dep.2

/-- A registration: a class, or the list of a group, which has nothing in it before the start. -/
inductive Registered (κ : Type)
  | asClass (c : κ)
  | asValue

/-- The instance under a name, of the class that is registered there. -/
structure DepsInstance (κ : Type) where
  name : JsString
  cls : κ

structure DepsContainer (κ : Type) where
  registrations : Js.Map JsString (Registered κ)
  groupedDepsNames : Js.Map JsString (List JsString)

namespace DepsContainer

def empty : DepsContainer κ := ⟨.empty, .empty⟩

def registerGroup (app : DepsContainer κ) (groupName : JsString) : DepsContainer κ where
  registrations :=
    if app.registrations.has groupName then app.registrations
    else app.registrations.set groupName .asValue
  groupedDepsNames :=
    if app.groupedDepsNames.has groupName then app.groupedDepsNames
    else app.groupedDepsNames.set groupName []

def registerDependency (app : DepsContainer κ) (dependency : κ) (registrationName : JsString)
    (groupName : Option JsString) : DepsContainer κ where
  registrations := app.registrations.set registrationName (.asClass dependency)
  groupedDepsNames :=
    match groupName with
    | some group => app.groupedDepsNames.set group
      ((app.groupedDepsNames.get group).getD [] ++ [registrationName])
    | none => app.groupedDepsNames

/-- One dependency: its group, then its class. -/
def registerOne (app : DepsContainer κ) (d : ContainerDependency κ) : DepsContainer κ :=
  let app := d.groupName.elim app app.registerGroup
  match d.dependency with
  | some c => app.registerDependency c d.registrationName d.groupName
  | none => app

def registerDependencies (app : DepsContainer κ) (dependencies : List (ContainerDependency κ)) :
    DepsContainer κ := defaultGroups.foldl registerGroup (dependencies.foldl registerOne app)

/-- `modules` are those that are found in the folder. Only classes are registered. -/
def loadDepsFromFolder (w : WordFunctions) (app : DepsContainer κ)
    (options : LoadDepsFromFolderOptions) (depsDir : JsString)
    (modules : List (JsString × ModuleExport κ)) : Except NativeError (DepsContainer κ) :=
  let app := options.groupName.elim app app.registerGroup
  (modules.mapM (dependencyOf w options depsDir)).map fun dependencies =>
    app.registerDependencies (dependencies.filter fun d => d.dependency.isSome)

def resolve (app : DepsContainer κ) (name : JsString) : Option (DepsInstance κ) :=
  match app.registrations.get name with
  | some (.asClass c) => some ⟨name, c⟩
  | _ => none

/-- What a group has when the application has started, `none` where that fails. -/
def startedGroup (app : DepsContainer κ) (groupName : JsString) : Option (List (DepsInstance κ)) :=
  match app.registrations.get groupName, app.groupedDepsNames.get groupName with
  | some .asValue, some moduleNames => moduleNames.mapM app.resolve
  | _, _ => none

end DepsContainer

end DiiaApp
