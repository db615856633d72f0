import DiiaApp.ProtoSource
import DiiaApp.Traversal

/-!
# Imports of proto files

`ProtoMetadataExtractor` parses the files at its entry paths and those that they import, each once.
It finds imports with a regular expression on the text of a file (`importTexts`). What the file
imports is up to its statements (`importStatements`).
-/

namespace DiiaApp

open Js

def isQuote (u : CodeUnit) : Bool := u = 34 ∨ u = 39

def semicolon : CodeUnit := 59

/-- A match of `/import\s+["']([^"']+)["']\s*;/` at the start of a text: what is quoted and the
length of the match. -/
def importAt (s : JsString) : Option (JsString × ℕ) :=
  if (js "import").isPrefixOf s then
    let white := (s.drop 6).takeWhile isWhiteSpace
    match s.drop (6 + white.length) with
    | quote :: rest =>
      let path := rest.takeWhile fun u => !isQuote u
      match rest.drop path.length with
      | _ :: rest =>
        let white' := rest.takeWhile isWhiteSpace
        if white ≠ [] ∧ isQuote quote ∧ path ≠ [] ∧
            (rest.drop white'.length).head? = some semicolon then
          some (path, 6 + white.length + path.length + white'.length + 3)
        else none
      | [] => none
    | [] => none
  else none

/-- What the matches of a text quote, from the first on; `skip` code units belong to the match
before. -/
def importTexts (skip : ℕ) : JsString → List JsString
  | [] => []
  | u :: s =>
    match skip with
    | skip + 1 => importTexts skip s
    | 0 =>
      match importAt (u :: s) with
      | some (path, length) => path :: importTexts (length - 1) s
      | none => importTexts 0 s

inductive Token
  | word (s : JsString)
  | str (s : JsString)
  | symbol (u : CodeUnit)
  deriving DecidableEq

/-- Where a text is read, `slash` being after a slash that may begin a comment. -/
inductive Lexing
  | between
  | slash
  | word (acc : JsString)
  | str (quote : CodeUnit) (acc : JsString)
  | escape (quote : CodeUnit) (acc : JsString)
  | lineComment
  | blockComment (afterStar : Bool)

def delimiters : JsString := js "\x7b\x7d=;:[],()<>"

def isDelimiter (u : CodeUnit) : Bool := isWhiteSpace u || isQuote u || delimiters.contains u

/-- The token that a delimiter is by itself, and where the text goes on after it. -/
def afterDelimiter (u : CodeUnit) : List Token × Lexing :=
  if isQuote u then ([], .str u []) else (if isWhiteSpace u then [] else [.symbol u], .between)

/-- What an escaped code unit in a string stands for. -/
def unescape (u : CodeUnit) : JsString :=
  if u = 92 then [92]
  else if u = 48 then [0]
  else if u = 114 then [13]
  else if u = 110 then [10]
  else if u = 116 then [9]
  else []

def wordStep (acc : JsString) (u : CodeUnit) : List Token × Lexing :=
  if isDelimiter u then (.word acc.reverse :: (afterDelimiter u).1, (afterDelimiter u).2)
  else ([], .word (u :: acc))

/-- The tokens that end at a code unit, and where the text goes on. -/
def lexStep (u : CodeUnit) : Lexing → List Token × Lexing
  | .between =>
    if u = 47 then ([], .slash) else if isDelimiter u then afterDelimiter u else ([], .word [u])
  | .slash =>
    if u = 47 then ([], .lineComment)
    else if u = 42 then ([], .blockComment true)
    else wordStep [47] u
  | .word acc => wordStep acc u
  | .str quote acc =>
    if u = quote then ([.str acc.reverse], .between)
    else ([], if u = 92 then .escape quote acc else .str quote (u :: acc))
  | .escape quote acc => ([], .str quote (unescape u ++ acc))
  | .lineComment => ([], if u = newLine then .between else .lineComment)
  | .blockComment afterStar =>
    ([], if u = 47 ∧ afterStar then .between else .blockComment (u = 42))

/-- The tokens of a text, without its comments. -/
def tokens (lexing : Lexing) : JsString → List Token
  | [] =>
    match lexing with
    | .word acc => [.word acc.reverse]
    | _ => []
  | u :: s => (lexStep u lexing).1 ++ tokens (lexStep u lexing).2 s

def Token.text : Token → Option JsString
  | .str s => some s
  | _ => none

/-- The path of an import statement, after its first word: `public` or `weak` or nothing, strings
and a semicolon. -/
def importPath (ts : List Token) : Option JsString :=
  let ts := if ts.head? = some (.word (js "public")) ∨ ts.head? = some (.word (js "weak")) then ts.tail
    else ts
  let path := (ts.takeWhile fun t => t.text.isSome).filterMap Token.text
  if path ≠ [] ∧ (ts.drop path.length).head? = some (.symbol semicolon) then some path.flatten
  else none

def importPaths : List Token → List JsString
  | [] => []
  | t :: ts => (if t = .word (js "import") then (importPath ts).toList else []) ++ importPaths ts

/-- The paths of the import statements in a text. -/
def importStatements (content : JsString) : List JsString := importPaths (tokens .between content)

/-- The set of files seen, in order, and the texts parsed so far. -/
structure Extraction where
  parsedFiles : List JsString
  parsed : List JsString

/-- The files there are, the accepted texts, how a directory and a path are joined, and the
directories to look in. -/
structure ProtoFiles where
  files : Js.Map JsString JsString
  parses : JsString → Bool
  join : JsString → JsString → JsString
  includeDirs : List JsString

namespace ProtoFiles

variable (p : ProtoFiles)

def resolveProtoPath (protoRelativePath : JsString) : Option JsString :=
  (p.includeDirs.map fun dir => p.join dir protoRelativePath).find? p.files.has

/-- A path that is left alone. -/
def isBuiltin (protoRelativePath : JsString) : Bool :=
  (js "google/protobuf/").isPrefixOf protoRelativePath

def content (path : JsString) : JsString := (p.files.get path).getD []

/-- A text that is not accepted is logged, and its imports are not followed. -/
def parseProtoWithImports : ℕ → JsString → Extraction → Option Extraction
  | 0, _, _ => none
  | fuel + 1, protoRelativePath, st =>
    if isBuiltin protoRelativePath then some st
    else
      match p.resolveProtoPath protoRelativePath with
      | none => some st
      | some fullPath =>
        if fullPath ∈ st.parsedFiles then some st
        else
          let parsedFiles := st.parsedFiles ++ [fullPath]
          if p.parses (p.content fullPath) then
            Traversal.followAll (parseProtoWithImports fuel) (importTexts 0 (p.content fullPath))
              ⟨parsedFiles, st.parsed ++ [fullPath]⟩
          else some ⟨parsedFiles, st.parsed⟩

def extract (fuel : ℕ) (protoPaths : List JsString) : Option Extraction :=
  Traversal.followAll (p.parseProtoWithImports fuel) protoPaths ⟨[], []⟩

end ProtoFiles

end DiiaApp
