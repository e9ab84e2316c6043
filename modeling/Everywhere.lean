import Everywhere.Library.Json
import Everywhere.Library.Frontier
import Everywhere.Library.Framing
import Everywhere.Library.Rounds
import Everywhere.Library.Pretty
import Everywhere.Frames
import Everywhere.Conversation
import Everywhere.Folder.Safety
import Everywhere.Folder.Atomic
import Everywhere.Folder.Confined
import Everywhere.Versions.Merge
import Everywhere.Versions.Edit
import Everywhere.Storage.Beside
import Everywhere.Storage.Exchange
import Everywhere.Storage.Repair
import Everywhere.Storage.Install
import Everywhere.Storage.Progress
import Everywhere.Storage.Private
import Everywhere.Central.Delivery
import Everywhere.Central.Enrollment
import Everywhere.Central.Report
import Everywhere.Share.Register
import Everywhere.Share.Reachable
import Everywhere.Share.Agreement
import Everywhere.Share.Direction
import Everywhere.Share.Paging
import Everywhere.Share.Limits
import Everywhere.Share.Checkpoint
import Everywhere.Share.Backup
import Everywhere.Share.Completion
import Everywhere.Share.Alias
import Everywhere.Share.Identified
import Everywhere.Device.Archive
import Everywhere.Folder.Calls
import Everywhere.Folder.Scan
import Everywhere.Device.Configurations
import Everywhere.Device.Generations
import Everywhere.Device.Jobs
import Everywhere.Device.Creations
import Everywhere.Service.Quote
