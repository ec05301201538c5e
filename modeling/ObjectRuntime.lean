import ObjectRuntime.Boot
import ObjectRuntime.Proofs.Backtraces
import ObjectRuntime.Proofs.Binding
import ObjectRuntime.Proofs.Caching
import ObjectRuntime.Proofs.ClassGraph
import ObjectRuntime.Proofs.Cleanup
import ObjectRuntime.Proofs.Dangling
import ObjectRuntime.Proofs.Depicting
import ObjectRuntime.Proofs.Exiting
import ObjectRuntime.Proofs.Garbage
import ObjectRuntime.Proofs.Heap.Identity
import ObjectRuntime.Proofs.Heap.Tallies
import ObjectRuntime.Proofs.Held
import ObjectRuntime.Proofs.Including
import ObjectRuntime.Proofs.Inspection
import ObjectRuntime.Proofs.Invisible
import ObjectRuntime.Proofs.Keywords
import ObjectRuntime.Proofs.Leavings
import ObjectRuntime.Proofs.Membership
import ObjectRuntime.Proofs.Mirror
import ObjectRuntime.Proofs.Ordering
import ObjectRuntime.Proofs.Outliving
import ObjectRuntime.Proofs.Owners
import ObjectRuntime.Proofs.Precedence
import ObjectRuntime.Proofs.Recursion
import ObjectRuntime.Proofs.Registrations
import ObjectRuntime.Proofs.Resolution
import ObjectRuntime.Proofs.Running
import ObjectRuntime.Proofs.Sends
import ObjectRuntime.Proofs.Splatting
import ObjectRuntime.Proofs.Supers
import ObjectRuntime.Proofs.Surroundings
import ObjectRuntime.Proofs.Taking
import ObjectRuntime.Proofs.Words
