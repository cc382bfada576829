import Pathwise.Check.Script.Codec
import Pathwise.Explore.Codec
import Pathwise.Json.Render
import Pathwise.Proofs.Accounting
import Pathwise.Proofs.Canonical
import Pathwise.Proofs.Cleaning
import Pathwise.Proofs.Conditions
import Pathwise.Proofs.Coverage
import Pathwise.Proofs.Drawings
import Pathwise.Proofs.Exits
import Pathwise.Proofs.Finiteness
import Pathwise.Proofs.Identity
import Pathwise.Proofs.Isolation
import Pathwise.Proofs.Leaks
import Pathwise.Proofs.Loops
import Pathwise.Proofs.Merging
import Pathwise.Proofs.Pruning
import Pathwise.Proofs.Reachability
import Pathwise.Proofs.Reloading
import Pathwise.Proofs.Retention
import Pathwise.Proofs.Sharing
import Pathwise.Proofs.Skipping
import Pathwise.Proofs.Trails
