import Atum.Admission.FileContents
import Atum.Admission.LinkResolution
import Atum.Charts.ChartVersion
import Atum.Charts.PlatformSearch
import Atum.Config.PlatformValues
import Atum.Delivery.Materialize
import Atum.Gitsnapshot.Identity
import Atum.Identity.Derive
import Atum.Images.Inventory
import Atum.Images.Kubectl
import Atum.Images.Projection
import Atum.Images.Rewriting
import Atum.Infra.ForwardingCleanup
import Atum.Kube.Observer
import Atum.Mesh.FailsClosed
import Atum.Mesh.LogPath
import Atum.Operator.Runtime
import Atum.Provider.Pagination
import Atum.Release.Canonical
import Atum.Release.Convergence
import Atum.Release.Live
import Atum.Secrets.Bcrypt
import Atum.Secretvalue.Value
import Atum.Tui.LineObserver
import Atum.Tui.Resources
import Atum.Update.Journal
import Atum.Update.Replacement
