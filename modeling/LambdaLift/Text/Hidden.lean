/-
  LambdaLift.Text.Hidden
  **CHARACTERS THAT DO NOT SHOW BY THEMSELVES.**

  When a text is quoted, a character is written by its code point if it
  leaves no mark, if nothing is known of it, or if it would attach to the
  character before it.  The space is the one blank that shows.
-/
import LambdaLift.Text.Classes

namespace LambdaLift.Text

/-- Whether a character does not show by itself. -/
def isHidden (c : Char) : Bool :=
  let n := c.toNat
  n < 0x20 || (n ≥ 0x7F &&
    (inRanges blankRanges n || inRanges unassignedRanges n || inRanges attachedRanges n))

end LambdaLift.Text
