/-!
# White space

The 25 characters with the Unicode property White_Space, and texts without them at the end.
-/

namespace Monkey

/-- The characters with the property White_Space, in the order of their code points. -/
def whiteSpace : List Char :=
  ['\u0009', '\u000a', '\u000b', '\u000c', '\u000d', '\u0020', '\u0085', '\u00a0', '\u1680',
    '\u2000', '\u2001', '\u2002', '\u2003', '\u2004', '\u2005', '\u2006', '\u2007', '\u2008',
    '\u2009', '\u200a', '\u2028', '\u2029', '\u202f', '\u205f', '\u3000']

/-- Whether a character has the property White_Space. -/
def isWhiteSpace (c : Char) : Bool := whiteSpace.contains c

/-- A text without the white space at its end. -/
def trimEnd (s : String) : String :=
  String.ofList (s.toList.reverse.dropWhile isWhiteSpace).reverse

end Monkey
