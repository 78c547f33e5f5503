import CountedLisp.Abort
import CountedLisp.Main
import CountedLisp.Sandbox.Transcript
import CountedLisp.Proofs.Ownership
import CountedLisp.Proofs.Release
import CountedLisp.Proofs.Mirror
import CountedLisp.Proofs.Books
import CountedLisp.Proofs.Judgement
import CountedLisp.Proofs.Reading
import CountedLisp.Proofs.Store
import CountedLisp.Proofs.Scoping
import CountedLisp.Proofs.Thunks
import CountedLisp.Proofs.Library
import CountedLisp.Proofs.Calls
import CountedLisp.Proofs.Evaluation
import CountedLisp.Proofs.Workspaces
import CountedLisp.Proofs.Clients
import CountedLisp.Proofs.Sessions
import CountedLisp.Proofs.Wrapping
import CountedLisp.Proofs.Observation
import CountedLisp.Proofs.Confluence
import CountedLisp.Proofs.Neutrality
import CountedLisp.Proofs.Built
import CountedLisp.Proofs.Respects
import CountedLisp.Proofs.Moves
import CountedLisp.Proofs.Veils
import CountedLisp.Proofs.Registries
import CountedLisp.Proofs.Lineage
import CountedLisp.Proofs.Bindings
import CountedLisp.Proofs.ScopeStack
import CountedLisp.Proofs.Teardown
import CountedLisp.Proofs.Closing
import CountedLisp.Proofs.Leaks
import CountedLisp.Proofs.Lifetimes
import CountedLisp.Proofs.Cascades
import CountedLisp.Proofs.Memoization
import CountedLisp.Proofs.Forcing
import CountedLisp.Proofs.Spreading
import CountedLisp.Proofs.Grammar
import CountedLisp.Proofs.Patterns
import CountedLisp.Proofs.Segments
import CountedLisp.Proofs.Spelling
import CountedLisp.Proofs.Literals
import CountedLisp.Proofs.Rereading
import CountedLisp.Proofs.Lines
import CountedLisp.Proofs.Lists
import CountedLisp.Proofs.Printing
import CountedLisp.Proofs.LineBreaks
import CountedLisp.Proofs.Failures
import CountedLisp.Proofs.Chains
import CountedLisp.Proofs.Rounding
import CountedLisp.Proofs.Arithmetic
import CountedLisp.Proofs.Adoption
import CountedLisp.Proofs.Conditions
import CountedLisp.Proofs.Truth
import CountedLisp.Proofs.Tracking
import CountedLisp.Proofs.Limits
import CountedLisp.Proofs.ListAccess
import CountedLisp.Proofs.Traversals
import CountedLisp.Proofs.Guards
import CountedLisp.Proofs.QuotedData
import CountedLisp.Proofs.Neatness
import CountedLisp.Proofs.Diagnostics
import CountedLisp.Proofs.Arrays
