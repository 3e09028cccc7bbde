import Codemod.Main
import Codemod.Proofs.Factorisation
import Codemod.Proofs.Seam
import Codemod.Proofs.Concatenation
import Codemod.Proofs.SecondPass
import Codemod.Proofs.DryRun
import Codemod.Proofs.Idempotence
import Codemod.Proofs.Nesting
import Codemod.Proofs.Ending
import Codemod.Proofs.RepeatedRuns
import Codemod.Proofs.Matching
import Codemod.Proofs.Enumeration
import Codemod.Proofs.ReportReading
import Codemod.Proofs.CommandLine
import Codemod.Proofs.LoggedRuns
import Codemod.Proofs.LogContents
import Codemod.Proofs.Formats
import Codemod.Proofs.Isolation
import Codemod.Proofs.MissingClosers
import Codemod.Proofs.HeadCount
import Codemod.Proofs.ReportedLine
import Codemod.Proofs.LoopRuns
import Codemod.Proofs.HeadSpans
import Codemod.Proofs.EmittedCalls
import Codemod.Proofs.ExactChange
import Codemod.Proofs.Sizes
import Codemod.Proofs.ReportFields
