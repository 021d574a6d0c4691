import Telemetry.Json.Document

/-!
Strings, keys and blank space of TOML. Readers take the text from where they start and give what
they read with the rest of the text.
-/

namespace Telemetry.Toml

def isPrintable (c : Char) : Bool :=
  c = '\t' || (32 ≤ c.toNat && c.toNat != 127)

def isSpace (c : Char) : Bool :=
  c = ' ' || c = '\t'

def skipSpace (text : List Char) : List Char :=
  text.dropWhile isSpace

def newline? : List Char → Option (List Char)
  | '\n' :: rest => some rest
  | '\r' :: '\n' :: rest => some rest
  | _ => none

def skipComment (text : List Char) : List Char :=
  match text with
  | '#' :: rest => rest.dropWhile isPrintable
  | _ => text

def endLine? (text : List Char) : Option (List Char) :=
  match skipComment (skipSpace text) with
  | [] => some []
  | rest => newline? rest

/-- Skips space and line ends, and whole comments if `comments`. -/
def skipLines (comments : Bool) : Nat → List Char → List Char
  | 0, text => text
  | fuel + 1, text =>
    let rest := skipSpace text
    match newline? (if comments then skipComment rest else rest) with
    | some rest => skipLines comments fuel rest
    | none => rest

def codePoint? (digits : List Char) : Option Char :=
  match digits.mapM Document.hexValue? with
  | none => none
  | some values =>
    let n := values.foldl (fun n d => 16 * n + d) 0
    if n.isValidChar then some (Char.ofNat n) else none

def readCodePoint (count : Nat) (text : List Char) : Option (Char × List Char) :=
  if text.length < count then none
  else (codePoint? (text.take count)).map fun c => (c, text.drop count)

def readEscape (text : List Char) : Option (Char × List Char) :=
  match text with
  | 'b' :: rest => some (Char.ofNat 8, rest)
  | 't' :: rest => some ('\t', rest)
  | 'n' :: rest => some ('\n', rest)
  | 'f' :: rest => some (Char.ofNat 12, rest)
  | 'r' :: rest => some ('\r', rest)
  | '"' :: rest => some ('"', rest)
  | '\\' :: rest => some ('\\', rest)
  | 'u' :: rest => readCodePoint 4 rest
  | 'U' :: rest => readCodePoint 8 rest
  | _ => none

/-- Reads the rest of a string on one line after its opening quote. Escapes count if `escapes`. -/
def readLine (quote : Char) (escapes : Bool) : Nat → List Char → Option (List Char × List Char)
  | 0, _ => none
  | fuel + 1, text =>
    match text with
    | [] => none
    | c :: rest =>
      if c = quote then some ([], rest)
      else if c = '\\' ∧ escapes then
        match readEscape rest with
        | some (c, rest) => (readLine quote escapes fuel rest).map fun (s, rest) => (c :: s, rest)
        | none => none
      else if isPrintable c then
        (readLine quote escapes fuel rest).map fun (s, rest) => (c :: s, rest)
      else none

/-- Reads the rest of a string over lines after its opening quotes. It ends at three quotes, of
which up to two more in front belong to it. A backslash at the end of a line skips the space
up to the next character. -/
def readBlock (quote : Char) (escapes : Bool) : Nat → List Char → Option (List Char × List Char)
  | 0, _ => none
  | fuel + 1, text =>
    let next (c : Char) (rest : List Char) : Option (List Char × List Char) :=
      (readBlock quote escapes fuel rest).map fun (s, rest) => (c :: s, rest)
    match newline? text with
    | some rest => next '\n' rest
    | none =>
      match text with
      | [] => none
      | c :: rest =>
        if c = quote then
          let run := (text.takeWhile (· = quote)).length
          if run < 3 then next c rest
          else if run ≤ 5 then some (List.replicate (run - 3) quote, text.drop run)
          else none
        else if c = '\\' ∧ escapes then
          match newline? (skipSpace rest) with
          | some rest => readBlock quote escapes fuel (skipLines false fuel rest)
          | none =>
            match readEscape rest with
            | some (c, rest) => next c rest
            | none => none
        else if isPrintable c then next c rest
        else none

def readQuoted (text : List Char) : Option (String × List Char) :=
  let result :=
    match text with
    | '"' :: rest => readLine '"' true text.length rest
    | '\x27' :: rest => readLine '\x27' false text.length rest
    | _ => none
  result.map fun (s, rest) => (String.ofList s, rest)

/-- The text after a line end that directly follows the opening quotes of a block. -/
def afterOpening (text : List Char) : List Char :=
  (newline? text).getD text

def readString (text : List Char) : Option (String × List Char) :=
  let block (quote : Char) (escapes : Bool) (rest : List Char) : Option (String × List Char) :=
    (readBlock quote escapes text.length (afterOpening rest)).map fun (s, rest) =>
      (String.ofList s, rest)
  match text with
  | '"' :: '"' :: '"' :: rest => block '"' true rest
  | '\x27' :: '\x27' :: '\x27' :: rest => block '\x27' false rest
  | _ => readQuoted text

def isBare (c : Char) : Bool :=
  c.isAlphanum || c = '-' || c = '_'

def readPart (text : List Char) : Option (String × List Char) :=
  let bare := text.takeWhile isBare
  if bare.isEmpty then readQuoted text
  else some (String.ofList bare, text.dropWhile isBare)

def readKey : Nat → List Char → Option (List String × List Char)
  | 0, _ => none
  | fuel + 1, text => do
    let (part, rest) ← readPart (skipSpace text)
    match skipSpace rest with
    | '.' :: rest => (readKey fuel rest).map fun (parts, rest) => (part :: parts, rest)
    | rest => some ([part], rest)

end Telemetry.Toml
