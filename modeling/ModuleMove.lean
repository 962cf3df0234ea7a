import ModuleMove.Command.Verbosity
import ModuleMove.Main
import ModuleMove.Proofs.Delta
import ModuleMove.Proofs.Dependents.Included
import ModuleMove.Proofs.Dependents.Index
import ModuleMove.Proofs.Dependents.Listed
import ModuleMove.Proofs.Dependents.Naming
import ModuleMove.Proofs.Dependents.Reworded
import ModuleMove.Proofs.Dependents.Seen
import ModuleMove.Proofs.Dependents.Straight
import ModuleMove.Proofs.Direction
import ModuleMove.Proofs.Discover
import ModuleMove.Proofs.Disk.Follow
import ModuleMove.Proofs.Disk.Tree
import ModuleMove.Proofs.Disk.Write
import ModuleMove.Proofs.Edit.Batch
import ModuleMove.Proofs.Edit.Files
import ModuleMove.Proofs.Edit.Isolated
import ModuleMove.Proofs.Edit.Jobs
import ModuleMove.Proofs.Edit.Patch
import ModuleMove.Proofs.Edit.Splice
import ModuleMove.Proofs.Path.Components
import ModuleMove.Proofs.Path.Congruence
import ModuleMove.Proofs.Path.Keyed
import ModuleMove.Proofs.Path.Normal
import ModuleMove.Proofs.Path.Order
import ModuleMove.Proofs.Path.Parent
import ModuleMove.Proofs.Path.Straight
import ModuleMove.Proofs.Plan.Again
import ModuleMove.Proofs.Plan.BarrelLine
import ModuleMove.Proofs.Plan.Barrels
import ModuleMove.Proofs.Plan.CarryOut
import ModuleMove.Proofs.Plan.Checked
import ModuleMove.Proofs.Plan.Collisions
import ModuleMove.Proofs.Plan.Consistent
import ModuleMove.Proofs.Plan.Contained
import ModuleMove.Proofs.Plan.Destination
import ModuleMove.Proofs.Plan.EditNeeded
import ModuleMove.Proofs.Plan.ExactEdit
import ModuleMove.Proofs.Plan.Idempotent
import ModuleMove.Proofs.Plan.LineTarget
import ModuleMove.Proofs.Plan.Lossless
import ModuleMove.Proofs.Plan.Movable
import ModuleMove.Proofs.Plan.Prepared
import ModuleMove.Proofs.Plan.Probed
import ModuleMove.Proofs.Plan.Rewritten
import ModuleMove.Proofs.Plan.Scanned
import ModuleMove.Proofs.Plan.Sites
import ModuleMove.Proofs.Plan.SpecifierEdit
import ModuleMove.Proofs.Plan.Stale
import ModuleMove.Proofs.Project.Classified
import ModuleMove.Proofs.Project.Probe
import ModuleMove.Proofs.Respecified
import ModuleMove.Proofs.Source.Declared
import ModuleMove.Proofs.Source.Inserted
import ModuleMove.Proofs.Source.Lines
import ModuleMove.Proofs.Source.Located
import ModuleMove.Proofs.Source.Ordered
import ModuleMove.Proofs.Source.Phrased
import ModuleMove.Proofs.Source.Placement
import ModuleMove.Proofs.Specifier
import ModuleMove.Proofs.Text.Bytes
import ModuleMove.Proofs.Text.Pieces
import ModuleMove.Proofs.Unit.Back
import ModuleMove.Proofs.Unit.Moves
import ModuleMove.Proofs.Unit.Relocate
import ModuleMove.Source.Sequence
