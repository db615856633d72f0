import Mathlib.Data.UInt
import Mathlib.Data.List.Basic

/-!
# Strings of the language and the URI component codec

A string is its sequence of UTF-16 code units. `codePoints` reads it as code points, an unpaired
surrogate being one of its own. `encodeURIComponent` and `decodeURIComponent` are the two functions
of the language, `none` standing for the `URIError` each throws: an unpaired surrogate has no
encoding, and an escape that is cut short or whose octets are not UTF-8 has no decoding.
-/

namespace Js

/-- A UTF-16 code unit. -/
abbrev CodeUnit := UInt16

/-- A string: its code units. -/
abbrev JsString := List CodeUnit

/-- Membership in a list of strings goes by their equality. -/
instance : LawfulBEq JsString := inferInstance

/-- The string of a literal in the source, all of them ASCII. -/
def js (s : String) : JsString := s.toList.map fun c => UInt16.ofNat c.toNat

def isHigh (u : CodeUnit) : Bool := 0xD800 ≤ u.toNat ∧ u.toNat ≤ 0xDBFF

def isLow (u : CodeUnit) : Bool := 0xDC00 ≤ u.toNat ∧ u.toNat ≤ 0xDFFF

/-- A code point that is half of a pair. -/
def isSurrogate (cp : ℕ) : Bool := 0xD800 ≤ cp ∧ cp ≤ 0xDFFF

/-- The code point of a surrogate pair. -/
def pairPoint (h l : CodeUnit) : ℕ := (h.toNat - 0xD800) * 0x400 + (l.toNat - 0xDC00) + 0x10000

/-- The code points of a string, an unpaired surrogate standing for itself. -/
def codePoints : JsString → List ℕ
  | [] => []
  | [u] => [u.toNat]
  | u :: v :: rest =>
    if isHigh u ∧ isLow v then pairPoint u v :: codePoints rest
    else u.toNat :: codePoints (v :: rest)

/-- The code units of a code point. -/
def utf16 (cp : ℕ) : JsString :=
  if cp < 0x10000 then [UInt16.ofNat cp]
  else [UInt16.ofNat (0xD800 + (cp - 0x10000) / 0x400),
    UInt16.ofNat (0xDC00 + (cp - 0x10000) % 0x400)]

/-- The octets of a code point. -/
def utf8 (cp : ℕ) : List ℕ :=
  if cp < 0x80 then [cp]
  else if cp < 0x800 then [0xC0 + cp / 0x40, 0x80 + cp % 0x40]
  else if cp < 0x10000 then [0xE0 + cp / 0x1000, 0x80 + cp / 0x40 % 0x40, 0x80 + cp % 0x40]
  else [0xF0 + cp / 0x40000, 0x80 + cp / 0x1000 % 0x40, 0x80 + cp / 0x40 % 0x40,
    0x80 + cp % 0x40]

/-- The upper-case hexadecimal digit of `n < 16`. -/
def hexDigit (n : ℕ) : CodeUnit := if n < 10 then UInt16.ofNat (48 + n) else UInt16.ofNat (55 + n)

/-- The value of a hexadecimal digit of either case. -/
def hexVal (u : CodeUnit) : Option ℕ :=
  if 48 ≤ u.toNat ∧ u.toNat ≤ 57 then some (u.toNat - 48)
  else if 65 ≤ u.toNat ∧ u.toNat ≤ 70 then some (u.toNat - 55)
  else if 97 ≤ u.toNat ∧ u.toNat ≤ 102 then some (u.toNat - 87)
  else none

/-- The code points `encodeURIComponent` leaves as they are: letters, digits and `-_.!~*'()`. -/
def unreserved (cp : ℕ) : Bool :=
  (65 ≤ cp ∧ cp ≤ 90) ∨ (97 ≤ cp ∧ cp ≤ 122) ∨ (48 ≤ cp ∧ cp ≤ 57)
    ∨ cp = 45 ∨ cp = 95 ∨ cp = 46 ∨ cp = 33 ∨ cp = 126 ∨ cp = 42 ∨ cp = 39 ∨ cp = 40 ∨ cp = 41

/-- The code unit `%`. -/
def percent : CodeUnit := 37

/-- The escape of an octet. -/
def escapeOctet (b : ℕ) : JsString := [percent, hexDigit (b / 16), hexDigit (b % 16)]

def encodePoint (cp : ℕ) : Option JsString :=
  if isSurrogate cp then none
  else if unreserved cp then some (utf16 cp)
  else some ((utf8 cp).flatMap escapeOctet)

def encodeURIComponent (s : JsString) : Option JsString :=
  ((codePoints s).mapM encodePoint).map List.flatten

/-- A code unit that stands for itself, or the octet of an escape. -/
inductive Tok
  | unit (u : CodeUnit)
  | octet (b : ℕ)

/-- The escapes of a string read, `none` when one is cut short. -/
def readEscapes : JsString → Option (List Tok)
  | [] => some []
  | u :: rest =>
    if u = percent then
      match rest with
      | a :: b :: rest' =>
        (hexVal a).bind fun x => (hexVal b).bind fun y =>
          (readEscapes rest').map (.octet (16 * x + y) :: ·)
      | _ => none
    else (readEscapes rest).map (.unit u :: ·)

/-- How many octets the sequence starting with `b` has, `0` where none starts so. -/
def octetCount (b : ℕ) : ℕ :=
  if b < 0x80 then 1 else if b < 0xC0 then 0 else if b < 0xE0 then 2
  else if b < 0xF0 then 3 else if b < 0xF8 then 4 else 0

/-- The bits of a sequence of two to four octets. -/
def octetBits : List ℕ → ℕ
  | [a, b] => (a - 0xC0) * 0x40 + (b - 0x80)
  | [a, b, c] => (a - 0xE0) * 0x1000 + (b - 0x80) * 0x40 + (c - 0x80)
  | [a, b, c, d] => (a - 0xF0) * 0x40000 + (b - 0x80) * 0x1000 + (c - 0x80) * 0x40 + (d - 0x80)
  | _ => 0

/-- The code point a sequence of octets is the encoding of. -/
def decodeOctets (os : List ℕ) : Option ℕ :=
  if utf8 (octetBits os) = os ∧ ¬ isSurrogate (octetBits os) ∧ octetBits os ≤ 0x10FFFF then
    some (octetBits os)
  else none

/-- The string of the tokens, `os` being the octets of a sequence that still lacks `n`. -/
def joinToks : (os : List ℕ) → (n : ℕ) → List Tok → Option JsString
  | _, 0, [] => some []
  | _, _ + 1, [] => none
  | _, 0, .unit u :: ts => (joinToks [] 0 ts).map (u :: ·)
  | _, _ + 1, .unit _ :: _ => none
  | _, 0, .octet b :: ts =>
    match octetCount b with
    | 0 => none
    | 1 => (joinToks [] 0 ts).map (UInt16.ofNat b :: ·)
    | n + 2 => joinToks [b] (n + 1) ts
  | os, 1, .octet c :: ts =>
    (decodeOctets (os ++ [c])).bind fun cp => (joinToks [] 0 ts).map (utf16 cp ++ ·)
  | os, n + 2, .octet c :: ts => joinToks (os ++ [c]) (n + 1) ts

def decodeURIComponent (s : JsString) : Option JsString :=
  (readEscapes s).bind (joinToks [] 0)

/-- What ends a line, and what `.` of a regular expression does not match. -/
def isLineTerminator (u : CodeUnit) : Bool := u = 10 ∨ u = 13 ∨ u = 0x2028 ∨ u = 0x2029

/-- What `\w` of a regular expression matches. -/
def isWordUnit (u : CodeUnit) : Bool :=
  (48 ≤ u.toNat ∧ u.toNat ≤ 57) ∨ (65 ≤ u.toNat ∧ u.toNat ≤ 90) ∨ u = 95 ∨
    (97 ≤ u.toNat ∧ u.toNat ≤ 122)

end Js
