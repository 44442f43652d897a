import BoundaryTag.Main
import BoundaryTag.Proofs.Accounting
import BoundaryTag.Proofs.Confluence
import BoundaryTag.Proofs.Consistency
import BoundaryTag.Proofs.Contents
import BoundaryTag.Proofs.Damage
import BoundaryTag.Proofs.Declining
import BoundaryTag.Proofs.Detection
import BoundaryTag.Proofs.Edits
import BoundaryTag.Proofs.Finishing
import BoundaryTag.Proofs.Pages
import BoundaryTag.Proofs.Payloads
import BoundaryTag.Proofs.Placement
import BoundaryTag.Proofs.Progress
import BoundaryTag.Proofs.Reclaiming
import BoundaryTag.Proofs.Renewal
import BoundaryTag.Proofs.Rereleasing
import BoundaryTag.Proofs.Returning
import BoundaryTag.Proofs.Sharing
import BoundaryTag.Proofs.Sizing
import BoundaryTag.Proofs.Sufficing
import BoundaryTag.Proofs.Undoing
import BoundaryTag.Source.Arena
import BoundaryTag.Workbench.Pages
import BoundaryTag.Workbench.Run
import BoundaryTag.Workbench.View
