import DiiaApp.Dependencies

/-!
# Repositories of an adapter

Of the modules under `repositories` only those of the database adapter are loaded. Modules that are
found in the file system are chosen by a glob below the folder (`selectedByMask`, file extensions
aside), modules that are handed in by their paths (`filterRepositoryModulesByAdapter`).
-/

namespace DiiaApp

open Js

variable {M : Type}

/-- `text.includes(pattern)` -/
def includes (text pattern : JsString) : Bool := pattern <:+: text

/-- `/\/repositories\/[^/]+\//` at the start of a text. -/
def startsSubfolder (text : JsString) : Bool :=
  let rest := text.drop (js "/repositories/").length
  (js "/repositories/").isPrefixOf text && rest.takeWhile (· ≠ pathSep) ≠ [] &&
    rest.dropWhile (· ≠ pathSep) ≠ []

/-- Whether a path matches `/\/repositories\/[^/]+\//`. -/
def isInSubfolder (filePath : JsString) : Bool := filePath.tails.any startsSubfolder

/-- The test that `filterRepositoryModulesByAdapter` filters by. -/
def keepsRepository (databaseAdapter filePath : JsString) : Bool :=
  let isInRepositoriesFolder := includes filePath (js "/repositories/")
  let isInDatabaseAdapterFolder :=
    includes filePath (js "/repositories/" ++ databaseAdapter ++ js "/")
  isInRepositoriesFolder && (!isInSubfolder filePath || isInDatabaseAdapterFolder)

/-- The modules of each folder, by their paths. -/
abbrev Modules (M : Type) := List (JsString × List (JsString × M))

def filterRepositoryModulesByAdapter (databaseAdapter : JsString) (modules : Modules M) :
    Modules M :=
  modules.map fun folder =>
    if folder.1 = js "repositories" then
      (folder.1, folder.2.filter fun file => keepsRepository databaseAdapter file.1)
    else folder

/-- The files below the folder that the mask `{*.js,adapter/**/*.js}` selects: those directly in it
and those anywhere in the adapter's folder. -/
def selectedByMask (adapter file : JsString) : Bool :=
  pathSep ∉ file || (adapter ++ js "/").isPrefixOf file

end DiiaApp
