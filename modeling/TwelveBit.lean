import TwelveBit.Main
import TwelveBit.Machine.Request
import TwelveBit.Proofs.Addressing
import TwelveBit.Proofs.Numeral
import TwelveBit.Proofs.PageRule
import TwelveBit.Proofs.Cycle
import TwelveBit.Proofs.MemoryReference
import TwelveBit.Proofs.Passes
import TwelveBit.Proofs.Layout
import TwelveBit.Proofs.PassAgreement
import TwelveBit.Proofs.Lookup
import TwelveBit.Proofs.Mnemonics
import TwelveBit.Proofs.Joining
import TwelveBit.Proofs.Spelling
import TwelveBit.Proofs.Text
import TwelveBit.Proofs.Code
import TwelveBit.Proofs.Grammar
import TwelveBit.Proofs.Kinds
import TwelveBit.Proofs.Rendering
import TwelveBit.Proofs.Reading
import TwelveBit.Proofs.Ambiguity
import TwelveBit.Proofs.RoundTrip
import TwelveBit.Proofs.Run
import TwelveBit.Proofs.Stepping
import TwelveBit.Proofs.Replay
import TwelveBit.Proofs.Diagnosis
import TwelveBit.Proofs.Faulting
import TwelveBit.Proofs.Faultless
import TwelveBit.Proofs.History
import TwelveBit.Proofs.Execution
import TwelveBit.Proofs.Translation
import TwelveBit.Proofs.Correspondence
import TwelveBit.Proofs.Reuse
import TwelveBit.Proofs.Spacing
import TwelveBit.Proofs.Constants
import TwelveBit.Proofs.Multiplication
import TwelveBit.Proofs.Printing
import TwelveBit.Proofs.Access
import TwelveBit.Proofs.Observation
import TwelveBit.Proofs.Congruence
import TwelveBit.Proofs.Output
import TwelveBit.Proofs.Renaming
import TwelveBit.Proofs.RenamedLine
import TwelveBit.Proofs.RenamedAssembly
import TwelveBit.Proofs.Truncation
import TwelveBit.Proofs.Conclusion
import TwelveBit.Proofs.Arguments
import TwelveBit.Proofs.Response
import TwelveBit.Proofs.Status
import TwelveBit.Proofs.Limit
import TwelveBit.Proofs.Tracing
import TwelveBit.Proofs.Ring
import TwelveBit.Proofs.Operate
import TwelveBit.Proofs.Rotation
import TwelveBit.Proofs.Evaluation
import TwelveBit.Proofs.Subroutine
import TwelveBit.Proofs.Contents
import TwelveBit.Proofs.Window
import TwelveBit.Proofs.SymbolList
import TwelveBit.Proofs.Redefinition
import TwelveBit.Proofs.Literal
import TwelveBit.Proofs.Options
import TwelveBit.Proofs.Building
import TwelveBit.Proofs.SingleLine
