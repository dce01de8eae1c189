import ChainScript.Interner
import ChainScript.Main
import ChainScript.Proofs.AcceptedLanguage
import ChainScript.Proofs.Acyclicity
import ChainScript.Proofs.ArityFaults
import ChainScript.Proofs.Backtraces
import ChainScript.Proofs.CallLimits
import ChainScript.Proofs.ControlFlow
import ChainScript.Proofs.DisplayReadsBack
import ChainScript.Proofs.DisplayedScalars
import ChainScript.Proofs.EqualityOperators
import ChainScript.Proofs.FailurePlaces
import ChainScript.Proofs.Inheritance
import ChainScript.Proofs.InsertedFeeds
import ChainScript.Proofs.IntegerArithmetic
import ChainScript.Proofs.IntegerLiterals
import ChainScript.Proofs.Interning
import ChainScript.Proofs.KeptArguments
import ChainScript.Proofs.LexicalErrors
import ChainScript.Proofs.LexicalScope
import ChainScript.Proofs.LineLocality
import ChainScript.Proofs.Locations
import ChainScript.Proofs.Lookahead
import ChainScript.Proofs.Merging
import ChainScript.Proofs.NestedSpans
import ChainScript.Proofs.OptionOrder
import ChainScript.Proofs.ParserTermination
import ChainScript.Proofs.Positions
import ChainScript.Proofs.Productions
import ChainScript.Proofs.ProgramLookups
import ChainScript.Proofs.ReleaseFaults
import ChainScript.Proofs.Releases
import ChainScript.Proofs.RespacedStatements
import ChainScript.Proofs.ScopeRestoration
import ChainScript.Proofs.SplicedArguments
import ChainScript.Proofs.TableSizes
import ChainScript.Proofs.UnderlinedLabels
import ChainScript.Proofs.UnmentionedGlobals
import ChainScript.Proofs.ValueEquality
