import Cascade.Proofs.Naming.Admission
import Cascade.Proofs.Naming.Convention
import Cascade.Proofs.Naming.Orderly
import Cascade.Proofs.Naming.Score
import Cascade.Proofs.Naming.Suffix
import Cascade.Proofs.Stylesheet.Opaque
import Cascade.Proofs.Stylesheet.Splitter
import Cascade.Stylesheet.Journal
import Cascade.Stylesheet.Workspace
import Cascade.Proofs.Naming.Dependence
import Cascade.Proofs.Naming.Identifier
import Cascade.Proofs.Stylesheet.Policy
import Cascade.Proofs.Sheet.Split
import Cascade.Proofs.Selector.Members
import Cascade.Proofs.Naming.Failure
import Cascade.Proofs.Naming.History
import Cascade.Proofs.Sheet.Joint
import Cascade.Proofs.Stylesheet.Journal
import Cascade.Proofs.Naming.Coherence
import Cascade.Proofs.Ident.Longest
import Cascade.Proofs.Sheet.Progress
