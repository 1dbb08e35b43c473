import ScaleCalls.Main
import ScaleCalls.Proofs.Calls.Constructors
import ScaleCalls.Proofs.Calls.Independence
import ScaleCalls.Proofs.Calls.Requests
import ScaleCalls.Proofs.Calls.Skipped
import ScaleCalls.Proofs.Calls.TopLevel
import ScaleCalls.Proofs.Calls.TypeWords
import ScaleCalls.Proofs.CommandLine.Overrides
import ScaleCalls.Proofs.Generation.CallNames
import ScaleCalls.Proofs.Generation.Files
import ScaleCalls.Proofs.Generation.Outcome
import ScaleCalls.Proofs.Generation.Reload
import ScaleCalls.Proofs.Metadata.Precedence
import ScaleCalls.Proofs.Metadata.Rendering
import ScaleCalls.Proofs.Registry.Layout
import ScaleCalls.Proofs.Registry.Loops
import ScaleCalls.Proofs.Scale.Canonical
import ScaleCalls.Proofs.Solidity.Comments
import ScaleCalls.Proofs.Solidity.CompactUint
import ScaleCalls.Proofs.Solidity.Encoders
import ScaleCalls.Proofs.Solidity.Integers
import ScaleCalls.Proofs.Solidity.StableNames
import ScaleCalls.Proofs.Solidity.Stepwise
import ScaleCalls.Proofs.TypeName.Generics
import ScaleCalls.Proofs.TypeName.LetterCase
import ScaleCalls.Proofs.Types.DependencyOrder
import ScaleCalls.Proofs.Types.FirstUnsupported
import ScaleCalls.Proofs.Types.Insertion
import ScaleCalls.Proofs.Types.Termination
import ScaleCalls.Proofs.Types.Variants
import ScaleCalls.Registry.Flatten
import ScaleCalls.Solidity.Evaluate
import ScaleCalls.Solidity.Word.Run
