import Secd.Main
import Secd.Proofs.Store.Equality
import Secd.Proofs.Diagnostic.Rendering
import Secd.Proofs.Machine.Reaches
import Secd.Proofs.Module.Compiled
import Secd.Proofs.Machine.Reached
import Secd.Proofs.Semantics.Preservation
import Secd.Proofs.Datum.Held
import Secd.Proofs.Module.RoundTrip
import Secd.Proofs.Module.Labels
import Secd.Proofs.Reader.RoundTrip
import Secd.Proofs.Machine.Lockstep
import Secd.Proofs.Module.Unchanged
import Secd.Proofs.Machine.Finite
import Secd.Proofs.Module.Accepted
import Secd.Proofs.Reader.Grammar
import Secd.Proofs.Machine.Accounting
import Secd.Proofs.Machine.StepLimit
import Secd.Proofs.Machine.DumpLimit
import Secd.Proofs.Token.Slice
import Secd.Proofs.Datum.Spelling
import Secd.Proofs.Datum.Charted
import Secd.Proofs.Reader.ReadsBack
import Secd.Proofs.Term.Nameless
import Secd.Proofs.Module.Renamed
import Secd.Proofs.Machine.NamedCalls
import Secd.Proofs.Machine.Placeholder
import Secd.Proofs.Machine.Shapes
import Secd.Proofs.Token.Longest
import Secd.Proofs.Token.Partition
import Secd.Proofs.Reader.Separators
import Secd.Proofs.Session.Balance
import Secd.Proofs.Term.Widened
import Secd.Proofs.Datum.Sites
import Secd.Proofs.Module.Conservative
import Secd.Proofs.Term.Blame
import Secd.Proofs.Term.Sorted
import Secd.Proofs.Module.Diagnosed
import Secd.Proofs.Store.Cycles
import Secd.Proofs.Module.Legible
import Secd.Proofs.Module.NamedBlocks
import Secd.Proofs.Session.Lines
import Secd.Proofs.Diagnostic.Position
import Secd.Proofs.Machine.Restored
import Secd.Proofs.Machine.Retained
import Secd.Proofs.Machine.Traced
import Secd.Proofs.Machine.Until
import Secd.Proofs.Machine.Completed
import Secd.Proofs.Machine.Arithmetic
import Secd.Proofs.Term.Blocks
