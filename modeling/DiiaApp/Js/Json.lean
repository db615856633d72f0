import DiiaApp.Js.Map
import DiiaApp.Js.Text

/-!
# JSON texts

`Json` is a tree as a text writes it down, `print` the text `JSON.stringify` makes of it and
`JSON.parse` the tree of a text. The reader takes one code unit at a time: its state is the arrays
and objects still open, innermost first, and what it expects next. An object of the text may give
one name twice; `merged` keeps the later value, as the language does.

A number is left to `JsNumber`: its text and the number of a text, the first read back by the
second.
-/

namespace Js

def isDigit (u : CodeUnit) : Bool := 48 ≤ u.toNat ∧ u.toNat ≤ 57

/-- The code units number tokens are made of: digits and `+-.eE`. -/
def isNumberUnit (u : CodeUnit) : Bool :=
  isDigit u ∨ u = 43 ∨ u = 45 ∨ u = 46 ∨ u = 69 ∨ u = 101

/-- One or more digits to the end. -/
def digitsToEnd (s : JsString) : Bool := s ≠ [] ∧ s.all isDigit

def dropSign : JsString → JsString
  | u :: s => if u = 43 ∨ u = 45 then s else u :: s
  | [] => []

/-- The exponent of a number token, or nothing. -/
def isExponent : JsString → Bool
  | [] => true
  | e :: s => (e = 69 ∨ e = 101) ∧ digitsToEnd (dropSign s)

/-- The fraction and the exponent of a number token. -/
def isFraction : JsString → Bool
  | [] => true
  | u :: s =>
    if u = 46 then s.takeWhile isDigit ≠ [] ∧ isExponent (s.dropWhile isDigit)
    else isExponent (u :: s)

/-- A number token without its sign. -/
def isUnsigned : JsString → Bool
  | [] => false
  | d :: s => if d = 48 then isFraction s else isDigit d ∧ isFraction (s.dropWhile isDigit)

/-- The number tokens of the JSON grammar. -/
def isNumber : JsString → Bool
  | [] => false
  | u :: s => if u = 45 then isUnsigned s else isUnsigned (u :: s)

/-- The finite numbers of the language: how a number is written and what a number token stands
for. -/
class JsNumber (N : Type) where
  toText : N → JsString
  ofText : JsString → N
  ofInt : ℤ → N
  isZero : N → Bool
  isNumber_toText : ∀ n, isNumber (toText n)
  ofText_toText : ∀ n, ofText (toText n) = n

inductive Json (N : Type)
  | null
  | bool (b : Bool)
  | num (n : N)
  | str (s : JsString)
  | arr (xs : List (Json N))
  | obj (es : List (JsString × Json N))

def hexLower (n : ℕ) : CodeUnit := if n < 10 then UInt16.ofNat (48 + n) else UInt16.ofNat (87 + n)

/-- `\uXXXX`. -/
def unicodeEscape (n : ℕ) : JsString :=
  [92, 117, hexLower (n / 4096), hexLower (n / 256 % 16), hexLower (n / 16 % 16), hexLower (n % 16)]

/-- A code point inside a string literal. -/
def quotePoint (cp : ℕ) : JsString :=
  if cp = 8 then [92, 98] else if cp = 9 then [92, 116] else if cp = 10 then [92, 110]
  else if cp = 12 then [92, 102] else if cp = 13 then [92, 114]
  else if cp = 34 then [92, 34] else if cp = 92 then [92, 92]
  else if cp < 32 ∨ isSurrogate cp then unicodeEscape cp
  else utf16 cp

/-- What stands between the quotes of a string literal. -/
def quoteBody (s : JsString) : JsString := (codePoints s).flatMap quotePoint

def quoted (body : JsString) : JsString := 34 :: (body ++ [34])

def quote (s : JsString) : JsString := quoted (quoteBody s)

variable {N : Type} [JsNumber N]

namespace Json

mutual

/-- The text of a tree. -/
def print : Json N → JsString
  | .null => js "null"
  | .bool true => js "true"
  | .bool false => js "false"
  | .num n => JsNumber.toText n
  | .str s => quote s
  | .arr [] => js "[]"
  | .arr (x :: xs) => 91 :: (print x ++ printItems xs)
  | .obj [] => js "{}"
  | .obj ((k, v) :: es) => 123 :: (quote k ++ 58 :: (print v ++ printEntries es))

def printItems : List (Json N) → JsString
  | [] => [93]
  | x :: xs => 44 :: (print x ++ printItems xs)

def printEntries : List (JsString × Json N) → JsString
  | [] => [125]
  | (k, v) :: es => 44 :: (quote k ++ 58 :: (print v ++ printEntries es))

end

/-- An array or an object that is still open, what it holds so far in reverse. -/
inductive Frame (N : Type)
  | arr (done : List (Json N))
  | obj (done : List (JsString × Json N)) (key : JsString)

/-- What a string literal is read for: a value, or the next key of an object. -/
inductive Target (N : Type)
  | value
  | key (done : List (JsString × Json N))

inductive Mode (N : Type)
  | value (close : Bool)
  | key (done : List (JsString × Json N)) (close : Bool)
  | colon (done : List (JsString × Json N)) (key : JsString)
  | after (v : Json N)
  | number (acc : JsString)
  | literal (rest : JsString) (v : Json N)
  | string (t : Target N) (acc : JsString)
  | escape (t : Target N) (acc : JsString)
  | hex (t : Target N) (acc : JsString) (left val : ℕ)

structure Reader (N : Type) where
  stack : List (Frame N)
  mode : Mode N

def isSpace (u : CodeUnit) : Bool := u = 32 ∨ u = 9 ∨ u = 10 ∨ u = 13

/-- After a value: the next item or entry, or the end of the innermost array or object. -/
def stepAfter (v : Json N) (c : CodeUnit) : List (Frame N) → Option (Reader N)
  | [] => if isSpace c then some ⟨[], .after v⟩ else none
  | .arr done :: fs =>
    if isSpace c then some ⟨.arr done :: fs, .after v⟩
    else if c = 44 then some ⟨.arr (v :: done) :: fs, .value false⟩
    else if c = 93 then some ⟨fs, .after (.arr (v :: done).reverse)⟩
    else none
  | .obj done k :: fs =>
    if isSpace c then some ⟨.obj done k :: fs, .after v⟩
    else if c = 44 then some ⟨fs, .key ((k, v) :: done) false⟩
    else if c = 125 then some ⟨fs, .after (.obj ((k, v) :: done).reverse)⟩
    else none

/-- Where a value is expected; `close` where the array may also end here. -/
def stepValue (close : Bool) (c : CodeUnit) (fs : List (Frame N)) : Option (Reader N) :=
  if isSpace c then some ⟨fs, .value close⟩
  else if c = 34 then some ⟨fs, .string .value []⟩
  else if c = 123 then some ⟨fs, .key [] true⟩
  else if c = 91 then some ⟨.arr [] :: fs, .value true⟩
  else if c = 93 ∧ close then
    match fs with
    | .arr [] :: fs' => some ⟨fs', .after (.arr [])⟩
    | _ => none
  else if c = 116 then some ⟨fs, .literal (js "rue") (.bool true)⟩
  else if c = 102 then some ⟨fs, .literal (js "alse") (.bool false)⟩
  else if c = 110 then some ⟨fs, .literal (js "ull") .null⟩
  else if c = 45 ∨ isDigit c then some ⟨fs, .number [c]⟩
  else none

/-- Where a key is expected; `close` where the object may also end here. -/
def stepKey (done : List (JsString × Json N)) (close : Bool) (c : CodeUnit)
    (fs : List (Frame N)) : Option (Reader N) :=
  if isSpace c then some ⟨fs, .key done close⟩
  else if c = 34 then some ⟨fs, .string (.key done) []⟩
  else if c = 125 ∧ close then some ⟨fs, .after (.obj done.reverse)⟩
  else none

/-- The end of a string literal. -/
def endString (acc : JsString) (fs : List (Frame N)) : Target N → Reader N
  | .value => ⟨fs, .after (.str acc.reverse)⟩
  | .key done => ⟨fs, .colon done acc.reverse⟩

/-- Inside a string literal. -/
def stepString (t : Target N) (acc : JsString) (c : CodeUnit) (fs : List (Frame N)) :
    Option (Reader N) :=
  if c = 34 then some (endString acc fs t)
  else if c = 92 then some ⟨fs, .escape t acc⟩
  else if c.toNat < 32 then none
  else some ⟨fs, .string t (c :: acc)⟩

/-- The code unit a one-letter escape stands for. -/
def escapeUnit (c : CodeUnit) : Option CodeUnit :=
  if c = 34 ∨ c = 92 ∨ c = 47 then some c
  else if c = 98 then some 8 else if c = 102 then some 12 else if c = 110 then some 10
  else if c = 114 then some 13 else if c = 116 then some 9 else none

/-- After a backslash. -/
def stepEscape (t : Target N) (acc : JsString) (c : CodeUnit) (fs : List (Frame N)) :
    Option (Reader N) :=
  if c = 117 then some ⟨fs, .hex t acc 4 0⟩
  else (escapeUnit c).map fun u => ⟨fs, .string t (u :: acc)⟩

/-- Inside `\uXXXX`, `left` digits to come. -/
def stepHex (t : Target N) (acc : JsString) (left val : ℕ) (c : CodeUnit)
    (fs : List (Frame N)) : Option (Reader N) :=
  (hexVal c).map fun x =>
    if left = 1 then ⟨fs, .string t (UInt16.ofNat (16 * val + x) :: acc)⟩
    else ⟨fs, .hex t acc (left - 1) (16 * val + x)⟩

/-- Inside a number token; a code unit of no number ends it. -/
def stepNumber (acc : JsString) (c : CodeUnit) (fs : List (Frame N)) : Option (Reader N) :=
  if isNumberUnit c then some ⟨fs, .number (c :: acc)⟩
  else if isNumber acc.reverse then stepAfter (.num (JsNumber.ofText acc.reverse)) c fs
  else none

/-- Inside `true`, `false` or `null`. -/
def stepLiteral (rest : JsString) (v : Json N) (c : CodeUnit) (fs : List (Frame N)) :
    Option (Reader N) :=
  match rest with
  | [r] => if c = r then some ⟨fs, .after v⟩ else none
  | r :: rs => if c = r then some ⟨fs, .literal rs v⟩ else none
  | [] => none

/-- One code unit of the text. -/
def step (st : Reader N) (c : CodeUnit) : Option (Reader N) :=
  match st.mode with
  | .value close => stepValue close c st.stack
  | .key done close => stepKey done close c st.stack
  | .colon done k =>
    if isSpace c then some st
    else if c = 58 then some ⟨.obj done k :: st.stack, .value false⟩
    else none
  | .after v => stepAfter v c st.stack
  | .number acc => stepNumber acc c st.stack
  | .literal rest v => stepLiteral rest v c st.stack
  | .string t acc => stepString t acc c st.stack
  | .escape t acc => stepEscape t acc c st.stack
  | .hex t acc left val => stepHex t acc left val c st.stack

/-- The tree read once the text has ended. -/
def finish : Reader N → Option (Json N)
  | ⟨[], .after v⟩ => some v
  | ⟨[], .number acc⟩ =>
    if isNumber acc.reverse then some (.num (JsNumber.ofText acc.reverse)) else none
  | _ => none

/-- The tree a text writes down, names given twice and all. -/
def read (s : JsString) : Option (Json N) :=
  (s.foldlM step ⟨[], .value false⟩).bind finish

mutual

/-- Of a name given twice the later value, at the place of the first. -/
def merged : Json N → Json N
  | .arr xs => .arr (mergedItems xs)
  | .obj es => .obj (mergedEntries [] es)
  | v => v

def mergedItems : List (Json N) → List (Json N)
  | [] => []
  | x :: xs => merged x :: mergedItems xs

def mergedEntries (acc : List (JsString × Json N)) :
    List (JsString × Json N) → List (JsString × Json N)
  | [] => acc
  | (k, v) :: es => mergedEntries (Map.put k (merged v) acc) es

end

/-- `JSON.parse`, `none` standing for its `SyntaxError`. -/
def parse (s : JsString) : Option (Json N) := (read s).map merged

mutual

/-- No object of the tree gives a name twice. -/
def WellFormed : Json N → Prop
  | .arr xs => ItemsWellFormed xs
  | .obj es => (es.map Prod.fst).Nodup ∧ EntriesWellFormed es
  | _ => True

def ItemsWellFormed : List (Json N) → Prop
  | [] => True
  | x :: xs => WellFormed x ∧ ItemsWellFormed xs

def EntriesWellFormed : List (JsString × Json N) → Prop
  | [] => True
  | e :: es => WellFormed e.2 ∧ EntriesWellFormed es

end

end Json

end Js
