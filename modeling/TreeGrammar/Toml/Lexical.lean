/-
# The lexical grammar of TOML

Readers take a text as a list of characters and give what they read and the rest of the text,
or nothing if the text does not begin as it should.
-/
import TreeGrammar.Decimal.Reading

namespace TreeGrammar.Toml

/-- Reads the start of a text. -/
abbrev Reader (β : Type) := List Char → Option (β × List Char)

/-! ### Blanks, comments and ends of lines -/

/-- Space and tab. -/
def isBlank (c : Char) : Bool := c = ' ' || c = '\t'

/-- Skips blanks. -/
def skipBlanks (cs : List Char) : List Char := cs.dropWhile isBlank

/-- Whether a character may stand in a comment or in a string as it is: a tab, or anything
but a control character. -/
def isPlain (c : Char) : Bool := c = '\t' || (' ' ≤ c && c.toNat ≠ 127)

/-- Reads blanks and perhaps a comment up to the end of the line or of the text. -/
def endLine? (cs : List Char) : Option (List Char) :=
  let cs := skipBlanks cs
  let cs := if cs.head? = some '#' then cs.dropWhile isPlain else cs
  match cs with
  | [] => some []
  | '\n' :: cs => some cs
  | '\r' :: '\n' :: cs => some cs
  | _ => none

/-- Skips blanks, ends of lines and comments. -/
def skipLayout? (inComment : Bool) : List Char → Option (List Char)
  | [] => some []
  | c :: cs =>
    if c = '\n' then skipLayout? false cs
    else if c = '\r' then
      if cs.head? = some '\n' then skipLayout? inComment cs else none
    else if inComment then
      if isPlain c then skipLayout? true cs else none
    else if isBlank c then skipLayout? false cs
    else if c = '#' then skipLayout? true cs
    else some (c :: cs)

/-! ### Strings -/

/-- The value of a hexadecimal digit. -/
def hexDigit? (c : Char) : Option Nat :=
  if c.isDigit then some (c.toNat - '0'.toNat)
  else if 'a' ≤ c && c ≤ 'f' then some (c.toNat - 'a'.toNat + 10)
  else if 'A' ≤ c && c ≤ 'F' then some (c.toNat - 'A'.toNat + 10)
  else none

/-- The number with the given hexadecimal digits. -/
def hexValue? (cs : List Char) : Option Nat :=
  cs.foldlM (fun n c => (hexDigit? c).map (16 * n + ·)) 0

/-- The character with the given code point in hexadecimal digits. -/
def codePoint? (digits : List Char) : Option Char :=
  (hexValue? digits).bind fun n => if n.isValidChar then some (Char.ofNat n) else none

/-- The character that a letter after a backslash stands for. -/
def escaped? (c : Char) : Option Char :=
  match c with
  | 'b' => some '\x08'
  | 't' => some '\t'
  | 'n' => some '\n'
  | 'f' => some '\x0c'
  | 'r' => some '\r'
  | '"' => some '"'
  | '\\' => some '\\'
  | _ => none

/-- Reads a string of one line behind its opening quotation mark.  Between double quotation
marks a backslash begins an escape. -/
def oneLine (quote : Char) (acc : List Char) : Reader String
  | [] => none
  | c :: cs =>
    if c = quote then some (String.ofList acc.reverse, cs)
    else if c = '\\' && quote = '"' then
      match cs with
      | 'u' :: x₁ :: x₂ :: x₃ :: x₄ :: cs =>
        (codePoint? [x₁, x₂, x₃, x₄]).bind fun c => oneLine quote (c :: acc) cs
      | 'U' :: x₁ :: x₂ :: x₃ :: x₄ :: x₅ :: x₆ :: x₇ :: x₈ :: cs =>
        (codePoint? [x₁, x₂, x₃, x₄, x₅, x₆, x₇, x₈]).bind fun c =>
          oneLine quote (c :: acc) cs
      | c :: cs => (escaped? c).bind fun c => oneLine quote (c :: acc) cs
      | [] => none
    else if isPlain c then oneLine quote (c :: acc) cs
    else none

/-- Whether what follows a backslash is blank up to the end of the line. -/
def endsLine (cs : List Char) : Bool :=
  match skipBlanks cs with
  | '\n' :: _ => true
  | '\r' :: '\n' :: _ => true
  | _ => false

/-- Reads a string of several lines behind its opening quotation marks.  It ends at three
quotation marks in a row, the last three if there are up to five.  While `trimming`, behind a
backslash at the end of a line, blanks and ends of lines are skipped.  Every end of line is
a single character of the string. -/
def manyLines (quote : Char) (trimming : Bool) (acc : List Char) : Reader String
  | [] => none
  | c :: cs =>
    if trimming && (isBlank c || c = '\n') then manyLines quote true acc cs
    else if c = '\r' then
      if cs.head? = some '\n' then manyLines quote trimming acc cs else none
    else if c = quote then
      match cs with
      | c₂ :: c₃ :: cs' =>
        if c₂ = quote && c₃ = quote then
          let more := (cs'.takeWhile (· = quote)).length
          let kept := min more 2
          some (String.ofList (acc.reverse ++ List.replicate kept quote), cs'.drop kept)
        else manyLines quote false (c :: acc) cs
      | _ => none
    else if c = '\\' && quote = '"' then
      if endsLine cs then manyLines quote true acc cs
      else
        match cs with
        | 'u' :: x₁ :: x₂ :: x₃ :: x₄ :: cs =>
          (codePoint? [x₁, x₂, x₃, x₄]).bind fun c => manyLines quote false (c :: acc) cs
        | 'U' :: x₁ :: x₂ :: x₃ :: x₄ :: x₅ :: x₆ :: x₇ :: x₈ :: cs =>
          (codePoint? [x₁, x₂, x₃, x₄, x₅, x₆, x₇, x₈]).bind fun c =>
            manyLines quote false (c :: acc) cs
        | c :: cs => (escaped? c).bind fun c => manyLines quote false (c :: acc) cs
        | [] => none
    else if isPlain c || c = '\n' then manyLines quote false (c :: acc) cs
    else none

/-- The text without an end of line at its start. -/
def dropNewline : List Char → List Char
  | '\n' :: cs => cs
  | '\r' :: '\n' :: cs => cs
  | cs => cs

/-- Reads a string of either form. -/
def string? : List Char → Option (String × List Char)
  | '"' :: '"' :: '"' :: cs => manyLines '"' false [] (dropNewline cs)
  | '\'' :: '\'' :: '\'' :: cs => manyLines '\'' false [] (dropNewline cs)
  | '"' :: cs => oneLine '"' [] cs
  | '\'' :: cs => oneLine '\'' [] cs
  | _ => none

/-! ### Keys -/

/-- Whether a character may stand in a key without quotation marks. -/
def isBare (c : Char) : Bool := c.isAlphanum || c = '_' || c = '-'

/-- Reads a single key. -/
def simpleKey : Reader String
  | '"' :: cs => oneLine '"' [] cs
  | '\'' :: cs => oneLine '\'' [] cs
  | cs =>
    let (name, rest) := cs.span isBare
    if name.isEmpty then none else some (String.ofList name, rest)

/-- Reads at most `n` keys with points between them, and blanks around them. -/
def dottedKey : (n : Nat) → Reader (List String)
  | 0, _ => none
  | n + 1, cs =>
    (simpleKey (skipBlanks cs)).bind fun (name, cs) =>
      match skipBlanks cs with
      | '.' :: cs => (dottedKey n cs).map fun (names, cs) => (name :: names, cs)
      | cs => some ([name], cs)

/-! ### Numbers -/

/-- Digits without the underscores between them. -/
def ungroup? (isDigit : Char → Bool) : List Char → Option (List Char)
  | [] => none
  | [c] => if isDigit c then some [c] else none
  | c :: '_' :: cs => if isDigit c then (ungroup? isDigit cs).map (c :: ·) else none
  | c :: cs => if isDigit c then (ungroup? isDigit cs).map (c :: ·) else none

/-- The digits of a decimal whole number, which begins with zero only if it is zero. -/
def wholeDigits? (cs : List Char) : Option (List Char) :=
  (ungroup? Char.isDigit cs).filter fun ds => ds.length = 1 || ds.head? ≠ some '0'

/-- The greatest whole number. -/
def maxInt : Int := 9223372036854775807

/-- The least whole number. -/
def minInt : Int := -9223372036854775808

/-- The value of digits to a base. -/
def baseValue? (base : Nat) (cs : List Char) : Option Nat :=
  cs.foldlM
    (fun n c => (hexDigit? c).bind fun d => if d < base then some (base * n + d) else none) 0

/-- A whole number: decimal with an optional sign, or to the base 16, 8 or 2. -/
def integer? (cs : List Char) : Option Int :=
  let based (base : Nat) (cs : List Char) : Option Int :=
    ((ungroup? (fun c => (hexDigit? c).isSome) cs).bind (baseValue? base)).map Int.ofNat
  let n? := match cs with
    | '0' :: 'x' :: cs => based 16 cs
    | '0' :: 'o' :: cs => based 8 cs
    | '0' :: 'b' :: cs => based 2 cs
    | cs =>
      let (negative, cs) := Decimal.splitSign cs
      (wholeDigits? cs).map fun ds =>
        let n : Int := Decimal.digitsValue ds
        if negative then -n else n
  n?.filter fun n => minInt ≤ n && n ≤ maxInt

/-- Whether a text is a power of ten, `e-12`, or nothing. -/
def isPower : List Char → Bool
  | [] => true
  | c :: cs =>
    (c = 'e' || c = 'E') && (ungroup? Char.isDigit (Decimal.splitSign cs).2).isSome

/-- Whether a text without a sign is a decimal number with a point, a power of ten or both. -/
def isDecimal (cs : List Char) : Bool :=
  let isPart (c : Char) : Bool := c.isDigit || c = '_'
  let (whole, rest) := cs.span isPart
  (wholeDigits? whole).isSome &&
    match rest with
    | '.' :: cs =>
      let (parts, cs) := cs.span isPart
      (ungroup? Char.isDigit parts).isSome && isPower cs
    | [] => false
    | cs => isPower cs

/-- A floating-point number: a decimal number, infinity, or what is not a number, with an
optional sign.  A positive number too great for the format is refused. -/
def float? (cs : List Char) : Option Float :=
  let (negative, body) := Decimal.splitSign cs
  let signed (x : Float) : Float := if negative then -x else x
  if body = "inf".toList then some (signed (1 / 0))
  else if body = "nan".toList then some (signed (0 / 0))
  else if isDecimal body then
    (Decimal.read? (String.ofList (body.filter (· ≠ '_')))).bind fun x =>
      if x.isInf && !negative then none else some (signed x)
  else none

end TreeGrammar.Toml
