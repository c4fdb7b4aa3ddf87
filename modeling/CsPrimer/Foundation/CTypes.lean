import Mathlib.Tactic

/-!
Values of C that several programs use, with an `int` of 32 bits.
-/

namespace CsPrimer.Foundation

def intMax : Nat := 2 ^ 31 - 1

/-- The end of a string. -/
def nul : Char := '\x00'

end CsPrimer.Foundation
