import StridedSlice.Foreign
import StridedSlice.Main
import StridedSlice.Json.Tree
import StridedSlice.Proofs.Reference
import StridedSlice.Proofs.Resolve
import StridedSlice.Proofs.Checked
import StridedSlice.Proofs.Positions
import StridedSlice.Proofs.Store
import StridedSlice.Proofs.InPlace
import StridedSlice.Proofs.View
import StridedSlice.Proofs.Buffer
import StridedSlice.Proofs.Run
import StridedSlice.Proofs.Session
import StridedSlice.Proofs.Representation
import StridedSlice.Proofs.Traversal
import StridedSlice.Proofs.Contents
import StridedSlice.Proofs.LastWrite
import StridedSlice.Proofs.Operation
import StridedSlice.Proofs.Grammar
import StridedSlice.Proofs.Diagnosis
import StridedSlice.Proofs.Indifference
import StridedSlice.Proofs.Limits
import StridedSlice.Proofs.Positional
import StridedSlice.Proofs.Parts
import StridedSlice.Proofs.Rounding
import StridedSlice.Proofs.Resume
import StridedSlice.Proofs.Lexing
import StridedSlice.Proofs.Shortest
import StridedSlice.Proofs.Scaling
import StridedSlice.Proofs.Tokens
import StridedSlice.Proofs.Embedding
import StridedSlice.Proofs.Printing
import StridedSlice.Proofs.ExitStatus
import StridedSlice.Proofs.OneOperation
import StridedSlice.Proofs.NearMiss
import StridedSlice.Proofs.DoubleRounding
import StridedSlice.Proofs.Replay
import StridedSlice.Proofs.Lens
import StridedSlice.Proofs.Paths
import StridedSlice.Proofs.Logging
import StridedSlice.Proofs.Reread
import StridedSlice.Proofs.Exact
import StridedSlice.Proofs.Reading
import StridedSlice.Proofs.Bounds
import StridedSlice.Proofs.Load
import StridedSlice.Proofs.Modular
import StridedSlice.Proofs.Nearest
import StridedSlice.Proofs.Truncation
import StridedSlice.Proofs.Literal
import StridedSlice.Proofs.Union
import StridedSlice.Proofs.WriteBack
import StridedSlice.Proofs.Partition
import StridedSlice.Proofs.Reslicing
import StridedSlice.Proofs.Span
import StridedSlice.Proofs.Findings
import StridedSlice.Proofs.Written
import StridedSlice.Proofs.Naming
