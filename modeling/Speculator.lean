import Speculator.Tree.Equality
import Speculator.Optimize
import Speculator.Proofs.Bindings
import Speculator.Proofs.Placeholders
import Speculator.Proofs.Identity
import Speculator.Proofs.Generators
import Speculator.Proofs.WellFormed
import Speculator.Proofs.Termination
import Speculator.Proofs.Reading.RoundTrip
import Speculator.Proofs.Parentheses
import Speculator.Proofs.ScopeChains
import Speculator.Proofs.Slices
import Speculator.Proofs.Documentation
import Speculator.Proofs.BindingSites
import Speculator.Proofs.SizeLimits
import Speculator.Proofs.Comprehensions
import Speculator.Proofs.Collections
import Speculator.Proofs.Extrema
import Speculator.Proofs.Ranges
import Speculator.Proofs.FloatText
import Speculator.Proofs.Rounding
import Speculator.Proofs.Histories
import Speculator.Proofs.Codecs
