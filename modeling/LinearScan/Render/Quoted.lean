import LinearScan.Render.Names
import LinearScan.Render.Printable

/-!
# Quoted text

A text between quotation marks, on one line and without characters that cannot be
seen.  The marks are single ones, unless the text has single marks and no double
ones.  The mark and the backslash are written behind a backslash, the usual line
and tabulator characters as one letter behind it, and what else is not printable by
its code point.
-/

namespace LinearScan

/-- The mark that stands on both sides of a quoted text. -/
def quotationMark (s : String) : Char :=
  if s.contains '\x27' && !s.contains '\x22' then '\x22' else '\x27'

/-- A code point behind a backslash, in as few of two, four or eight digits as it
needs. -/
def codePointText (n : Nat) : String :=
  if n < 0x100 then "\\x" ++ padZeros 2 (hexDigits n)
  else if n < 0x10000 then "\\u" ++ padZeros 4 (hexDigits n)
  else "\\U" ++ padZeros 8 (hexDigits n)

/-- A character of a text that is quoted between the marks `mark`. -/
def quotedChar (mark c : Char) : String :=
  if c = mark || c = '\x5c' then "\\" ++ c.toString
  else if c = '\n' then "\\n"
  else if c = '\r' then "\\r"
  else if c = '\t' then "\\t"
  else if isPrintable c then c.toString
  else codePointText c.toNat

/-- A text between quotation marks. -/
def quoted (s : String) : String :=
  let mark := quotationMark s
  mark.toString ++ String.join (s.toList.map (quotedChar mark)) ++ mark.toString

end LinearScan
