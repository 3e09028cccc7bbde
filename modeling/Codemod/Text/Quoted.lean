import Codemod.Text.Glyphless

/-!
# Quoted Text in Messages

How a message shows a text whose content is arbitrary: between double quotes,
with the quote, the backslash and the commonest controls behind a backslash,
and every other character without a glyph as `\u` and its code point in lower
case hexadecimal between braces. All else stands for itself, the single quote
included, so the reader of a message can tell any two texts apart.

## Main definitions

* `quoteChar`: The form of one character.
* `Text.quoted`: The form of a text.
-/

namespace Codemod

/-- A code point in hexadecimal between braces, behind a backslash and `u`. -/
def numericEscape (c : Char) : Text :=
  ['\\', 'u', '{'] ++ Nat.toDigits 16 c.toNat ++ ['}']

/-- The form of one character inside a quoted text. -/
def quoteChar (c : Char) : Text :=
  if c = '"' ∨ c = '\\' then ['\\', c]
  else if c = '\x00' then ['\\', '0']
  else if c = '\t' then ['\\', 't']
  else if c = '\r' then ['\\', 'r']
  else if c = '\n' then ['\\', 'n']
  else if isGlyphless c then numericEscape c
  else [c]

def Text.quoted (s : Text) : Text :=
  ['"'] ++ s.flatMap quoteChar ++ ['"']

end Codemod
