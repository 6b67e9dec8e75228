import ParserGen.Text.GraphemeExtend
import ParserGen.Text.Unprintable

/-!
# Quoted text

Text is shown between double quotes, on one line and without invisible characters: quotes,
backslashes and the common control characters have short escapes, and every other character that
leaves nothing to see in a place of its own is written by its number.

* `isHidden`: which characters those are;
* `escapeChar`, `quote`.
-/

namespace ParserGen.Text

/-- The fillers of Hangul: letters that stand for a missing one and are blank. -/
def isHangulFiller (c : Char) : Bool :=
  c = '\u115f' || c = '\u1160' || c = '\u3164' || c = '\uffa0'

/-- The halfwidth sound marks of Katakana, which extend the character before them but have a place
of their own. -/
def isHalfwidthSoundMark (c : Char) : Bool :=
  c = '\uff9e' || c = '\uff9f'

/-- Whether a character leaves nothing to see in a place of its own: it has no glyph, is blank, or
joins the character before it. -/
def isHidden (c : Char) : Bool :=
  isUnprintable c || isHangulFiller c || isGraphemeExtend c && !isHalfwidthSoundMark c

/-- The number of a character in lower-case hexadecimal, as an escape. -/
def numberEscape (c : Char) : List Char :=
  ['\\', 'u', '\x7b'] ++ Nat.toDigits 16 c.toNat ++ ['\x7d']

/-- A character as it is shown in quoted text. -/
def escapeChar (c : Char) : List Char :=
  match c with
  | '\x00' => ['\\', '0']
  | '\t' => ['\\', 't']
  | '\r' => ['\\', 'r']
  | '\n' => ['\\', 'n']
  | '"' => ['\\', '"']
  | '\\' => ['\\', '\\']
  | c => if isHidden c then numberEscape c else [c]

/-- Text in double quotes, escaped. -/
def quote (text : String) : String :=
  String.ofList ('"' :: (text.toList.flatMap escapeChar ++ ['"']))

end ParserGen.Text
