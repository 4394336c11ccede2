import Protoscribe.Text.Digit
import Protoscribe.Yaml.Fold

/-!
# `Protoscribe.Yaml.Quoted`: scalars in quotes

In single quotes, only the quote itself is written in a special way: twice. In double quotes a
backslash starts an escape, which may also be the end of a line that is not to count.
-/

set_option autoImplicit false

namespace Protoscribe.Yaml

/-- Scans a scalar behind its single quote. The parts that are known have their last character
first. -/
def singleQuotedFrom (reversed : List Char) (gap : Gap) (line column : Nat) :
    List Char → Option (String × Position)
  | [] => none
  | c :: rest =>
    if isBlank c then singleQuotedFrom reversed (gap.addBlank c) line (column + 1) rest
    else if isBreak c then singleQuotedFrom reversed (gap.addBreak c) (line + 1) 0 rest
    else if column = 0 && isMarker (c :: rest) then none
    else
      let known := gap.folded ++ reversed
      if c = '\'' then
        match rest with
        | '\'' :: rest => singleQuotedFrom ('\'' :: known) (.blanks []) line (column + 2) rest
        | _ => some (String.ofList known.reverse, ⟨rest, line, column + 1⟩)
      else singleQuotedFrom (c :: known) (.blanks []) line (column + c.utf8Size) rest

/-- How far an escape is read. -/
inductive Escape where
  /-- No escape is open. -/
  | none
  /-- The backslash is read. -/
  | started
  /-- So many hexadecimal digits are left, and those that are read have the value. -/
  | digits (left value : Nat)

/-- The character that a letter behind a backslash stands for. -/
def escaped? : Char → Option Char
  | '0' => some '\x00'
  | 'a' => some '\x07'
  | 'b' => some '\x08'
  | 't' | '\t' => some '\t'
  | 'n' => some '\n'
  | 'v' => some '\x0b'
  | 'f' => some '\x0c'
  | 'r' => some '\r'
  | 'e' => some '\x1b'
  | ' ' => some ' '
  | '"' => some '"'
  | '/' => some '/'
  | '\\' => some '\\'
  | 'N' => some '\u0085'
  | '_' => some '\u00a0'
  | 'L' => some '\u2028'
  | 'P' => some '\u2029'
  | _ => Option.none

/-- The number of hexadecimal digits behind a letter that announces some. -/
def escapeLength? : Char → Option Nat
  | 'x' => some 2
  | 'u' => some 4
  | 'U' => some 8
  | _ => Option.none

/-- The character with a code point. -/
def charOfCode? (code : Nat) : Option Char :=
  if code.isValidChar then some (Char.ofNat code) else Option.none

/-- Scans a scalar behind its double quote. The parts that are known have their last character
first. -/
def doubleQuotedFrom (reversed : List Char) (gap : Gap) (escape : Escape) (line column : Nat) :
    List Char → Option (String × Position)
  | [] => Option.none
  | c :: rest =>
    match escape with
    | .started =>
      if isBreak c then doubleQuotedFrom reversed (.breaks Option.none []) .none (line + 1) 0 rest
      else
        match escaped? c, escapeLength? c with
        | some meant, _ => doubleQuotedFrom (meant :: reversed) gap .none line (column + 1) rest
        | _, some length => doubleQuotedFrom reversed gap (.digits length 0) line (column + 1) rest
        | _, _ => Option.none
    | .digits left value =>
      match Text.hexDigit? c with
      | Option.none => Option.none
      | some digit =>
        let value := 16 * value + digit
        if left = 1 then
          match charOfCode? value with
          | some meant => doubleQuotedFrom (meant :: reversed) gap .none line (column + 1) rest
          | Option.none => Option.none
        else doubleQuotedFrom reversed gap (.digits (left - 1) value) line (column + 1) rest
    | .none =>
      if isBlank c then doubleQuotedFrom reversed (gap.addBlank c) .none line (column + 1) rest
      else if isBreak c then doubleQuotedFrom reversed (gap.addBreak c) .none (line + 1) 0 rest
      else if column = 0 && isMarker (c :: rest) then Option.none
      else
        let known := gap.folded ++ reversed
        if c = '"' then some (String.ofList known.reverse, ⟨rest, line, column + 1⟩)
        else if c = '\\' then
          doubleQuotedFrom known (.blanks []) .started line (column + 1) rest
        else doubleQuotedFrom (c :: known) (.blanks []) .none line (column + c.utf8Size) rest

/-- Scans the scalar that starts behind a single quote. -/
def Position.singleQuoted? (position : Position) : Option (String × Position) :=
  singleQuotedFrom [] (.blanks []) position.line position.column position.rest

/-- Scans the scalar that starts behind a double quote. -/
def Position.doubleQuoted? (position : Position) : Option (String × Position) :=
  doubleQuotedFrom [] (.blanks []) .none position.line position.column position.rest

end Protoscribe.Yaml
