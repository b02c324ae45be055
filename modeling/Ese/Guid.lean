import Ese.Text.Hex
/-!
GUID text: five groups in braces, of which the first three are stored with the lowest byte first.
-/

namespace Ese.Guid

/-- The stored position of each byte of the text, group by group. -/
def groups : List (List Nat) :=
  [[3, 2, 1, 0], [5, 4], [7, 6], [8, 9], [10, 11, 12, 13, 14, 15]]

def render (bytes : List UInt8) : String :=
  let group (positions : List Nat) := Text.Hex.ofBytes (positions.map fun i => bytes.getD i 0)
  "\x7b" ++ "-".intercalate (groups.map group) ++ "\x7d"

end Ese.Guid
