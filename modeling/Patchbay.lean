import Patchbay.Main
import Patchbay.Proofs.CommandLine.Bounds
import Patchbay.Proofs.CommandLine.Save
import Patchbay.Proofs.Document.Filed
import Patchbay.Proofs.Document.Headed
import Patchbay.Proofs.Document.Mistyped
import Patchbay.Proofs.Document.Refused
import Patchbay.Proofs.Document.Reload
import Patchbay.Proofs.Grouping.Accommodated
import Patchbay.Proofs.Grouping.Formed
import Patchbay.Proofs.Grouping.Hierarchy
import Patchbay.Proofs.Grouping.Shifted
import Patchbay.Proofs.Registered
import Patchbay.Proofs.Run.Cancelled
import Patchbay.Proofs.Run.Circular
import Patchbay.Proofs.Run.Compared
import Patchbay.Proofs.Run.OnDemand
import Patchbay.Proofs.Run.Scripted
import Patchbay.Proofs.Run.Spared
import Patchbay.Proofs.Settings.Integers
import Patchbay.Proofs.Store.Categories
import Patchbay.Proofs.Store.Reliable
import Patchbay.Proofs.Wiring.Connected
