import TreeSchema.Grammar.Json
import TreeSchema.Config.Json
import TreeSchema.Schema.Json
import TreeSchema.Schema.Listing
import TreeSchema.Tree.Json
import TreeSchema.Element.Order
import TreeSchema.Element.Navigation
import TreeSchema.Proofs.Determined
import TreeSchema.Proofs.Independence
import TreeSchema.Proofs.Listing
import TreeSchema.Proofs.Accessors
import TreeSchema.Proofs.Positions
import TreeSchema.Proofs.Sight
import TreeSchema.Proofs.Depth
import TreeSchema.Proofs.Renaming
import TreeSchema.Proofs.Permanence
import TreeSchema.Proofs.Replay
import TreeSchema.Proofs.Inheritance
import TreeSchema.Proofs.Endless
import TreeSchema.Proofs.Upward
import TreeSchema.Proofs.Datatypes
import TreeSchema.Proofs.Labels
import TreeSchema.Proofs.Landing
import TreeSchema.Proofs.Gathering
import TreeSchema.Proofs.Exposure
import TreeSchema.Proofs.Completeness
import TreeSchema.Proofs.Nearest
import TreeSchema.Proofs.Naming
import TreeSchema.Proofs.WrittenForm
import TreeSchema.Proofs.Preorder
import TreeSchema.Proofs.Visits
import TreeSchema.Proofs.DeadEnds
import TreeSchema.Proofs.Idempotence
import TreeSchema.Proofs.Dropping
import TreeSchema.Proofs.Hiding
import TreeSchema.Proofs.Asking
