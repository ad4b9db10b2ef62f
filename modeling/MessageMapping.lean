import MessageMapping.Main
import MessageMapping.Lazy.Eval
import MessageMapping.Proofs.NonInterference
import MessageMapping.Proofs.Precedence
import MessageMapping.Proofs.Rescoping
import MessageMapping.Proofs.Building
import MessageMapping.Proofs.RunAgreement
import MessageMapping.Proofs.ErrorCauses
import MessageMapping.Proofs.Unrolling
import MessageMapping.Proofs.LazyReading
import MessageMapping.Proofs.Isolation
import MessageMapping.Proofs.Instructions
import MessageMapping.Proofs.Mismatches
import MessageMapping.Proofs.Reading
import MessageMapping.Proofs.NumericOrder
import MessageMapping.Proofs.IntegerArithmetic
import MessageMapping.Proofs.Layers
import MessageMapping.Proofs.CheckedRuns
import MessageMapping.Proofs.Parentheses
import MessageMapping.Proofs.Collecting
import MessageMapping.Proofs.FirstFault
import MessageMapping.Proofs.Levels
import MessageMapping.Proofs.RoundTrip
import MessageMapping.Proofs.Equality
import MessageMapping.Proofs.ComparisonLaws
import MessageMapping.Proofs.MapOrder
import MessageMapping.Proofs.Cascade
import MessageMapping.Proofs.ShallowMappings
import MessageMapping.Proofs.ArithmeticFailures
import MessageMapping.Proofs.TargetTexts
import MessageMapping.Proofs.CommandRuns
import MessageMapping.Proofs.DottedPaths
