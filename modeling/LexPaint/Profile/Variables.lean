import LexPaint.Primitive
/-!
# Names behind a sign

Perl and PHP write a sign before the name of a variable. A name ends at white space or at one of
the characters listed here.

## Main definitions

* `Profile.variableEnds`: the characters that end a name.
-/

namespace LexPaint.Profile

/-- The characters other than white space that end the name of a variable. -/
def variableEnds : List Char :=
  [';', ',', '.', '(', ')', '[', ']', '{', '}', '=', '+', '-', '*', '/', '"', Char.ofNat 0x27,
    '<', '>', '!', '?', ':', '|', '&', '\\', '~', '^', '#']

end LexPaint.Profile
