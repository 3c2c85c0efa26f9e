/-!
# Arithmetic

Powers and sums of numbers are those of the core library, also where another library brings instances
of its own for them: what is defined and what is proved about it use the same operations.
-/

namespace Propeller

@[default_instance 20000]
instance (priority := 1100) powNat : Pow Nat Nat := instPowNat

@[default_instance 20000]
instance (priority := 1100) powInt : Pow Int Nat := instPowNat

instance (priority := 1100) zeroNat : Zero Nat := Zero.ofOfNat0

end Propeller
