/-!
# Blank characters

This file fixes which characters may stand between the tokens of an expression without having a
meaning: the twenty-five characters with the property of being white space.

## Main definitions

- `isBlank` — whether a character is blank
-/

namespace TwoLevel

/-- A character is blank when it is white space: tabulator to carriage return, the space, the next
line and no-break space, and the wide and narrow spaces and separators of the general blocks. -/
def isBlank (c : Char) : Bool :=
  let n := c.toNat
  (0x09 ≤ n && n ≤ 0x0d) || n == 0x20 || n == 0x85 || n == 0xa0 || n == 0x1680 ||
    (0x2000 ≤ n && n ≤ 0x200a) || n == 0x2028 || n == 0x2029 || n == 0x202f || n == 0x205f ||
    n == 0x3000

end TwoLevel
