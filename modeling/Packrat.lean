import Packrat.Grammar.Extend
import Packrat.Grammar.Listing
import Packrat.Main
import Packrat.Matching.Equations
import Packrat.Parsing.Session
import Packrat.Proofs.Matching.Flattening
import Packrat.Proofs.Matching.Once
import Packrat.Proofs.Parsing.Bindings
import Packrat.Proofs.Parsing.Producing
import Packrat.Proofs.Parsing.Quiet
import Packrat.Proofs.Parsing.Reporting
import Packrat.Proofs.Parsing.Termination
import Packrat.Proofs.Parsing.Unrolling
import Packrat.Proofs.Program.Composition
import Packrat.Proofs.Program.Document
import Packrat.Proofs.Program.Fragment
import Packrat.Proofs.Program.LineBreaks
import Packrat.Proofs.Program.LongestNumber
import Packrat.Proofs.Program.Safety
import Packrat.Proofs.Program.Separators
import Packrat.Proofs.Program.Terminated
import Packrat.Proofs.Program.Termination
import Packrat.Proofs.Program.WellFormed
import Packrat.Rule.Expression
import Packrat.Proofs.Program.Delimited
import Packrat.Proofs.Text.Quoted
import Packrat.Proofs.Program.Outline
import Packrat.Proofs.Plain.Same
import Packrat.Proofs.Program.OutlineReading
import Packrat.Proofs.Program.Tagged
import Packrat.Proofs.Grammar.Reachable
import Packrat.Proofs.Matching.Tracing
import Packrat.Proofs.CommandLine.Reporting
import Packrat.Proofs.Parsing.Notation
import Packrat.Proofs.Text.Location
import Packrat.Proofs.Matching.Furthest
import Packrat.Proofs.Grammar.Exploring
