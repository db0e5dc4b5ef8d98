import BagEquiv.Term.Printer
import BagEquiv.Formula.Json
import BagEquiv.Main
import BagEquiv.Proofs.TypeSoundness
import BagEquiv.Proofs.UndecidedCheck
import BagEquiv.Proofs.AlignedLayers
import BagEquiv.Proofs.Deciding
import BagEquiv.Proofs.AppliedMatchings
import BagEquiv.Proofs.PeeledSums
import BagEquiv.Proofs.FreshVariants
import BagEquiv.Proofs.StarElimination
import BagEquiv.Proofs.NormalForms
import BagEquiv.Proofs.Traversals
import BagEquiv.Proofs.Scores
import BagEquiv.Proofs.CountedRows
import BagEquiv.Proofs.LayerConstraints
import BagEquiv.Proofs.Memberships
import BagEquiv.Proofs.StrippedTerms
import BagEquiv.Proofs.PeelingEnds
import BagEquiv.Proofs.ReadBack
