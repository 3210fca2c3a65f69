import SettingsArchive.Archive.Service
import SettingsArchive.Main
import SettingsArchive.Report
import SettingsArchive.Storage.Disk
import SettingsArchive.Proofs.Directory
import SettingsArchive.Proofs.Directory.Change
import SettingsArchive.Proofs.Directory.FiniteMap
import SettingsArchive.Proofs.Run
import SettingsArchive.Proofs.Operations
import SettingsArchive.Proofs.Storing
import SettingsArchive.Proofs.Base64
import SettingsArchive.Proofs.Binary64.Rounding
import SettingsArchive.Proofs.Binary64.Text
import SettingsArchive.Proofs.Calendar
import SettingsArchive.Proofs.Database
import SettingsArchive.Proofs.Numbering
import SettingsArchive.Proofs.Preview
import SettingsArchive.Proofs.Saving
import SettingsArchive.Proofs.Counter
import SettingsArchive.Proofs.Reopening
import SettingsArchive.Proofs.Proper
import SettingsArchive.Proofs.Restoring
import SettingsArchive.Proofs.Isolation
import SettingsArchive.Proofs.BestEffort
import SettingsArchive.Proofs.Stored
import SettingsArchive.Proofs.Snapshot.Shown
import SettingsArchive.Proofs.Snapshot.Importing
import SettingsArchive.Proofs.Snapshot.Storing
import SettingsArchive.Proofs.Returning
import SettingsArchive.Proofs.Clean
import SettingsArchive.Proofs.Sessions
import SettingsArchive.Proofs.Transaction
import SettingsArchive.Proofs.Issued
import SettingsArchive.Proofs.Spelling
import SettingsArchive.Proofs.Permanence
import SettingsArchive.Proofs.Policies
import SettingsArchive.Proofs.Halfway
import SettingsArchive.Proofs.Repeating
import SettingsArchive.Proofs.Undoing
import SettingsArchive.Proofs.OneByOne
import SettingsArchive.Proofs.Renaming
import SettingsArchive.Proofs.Arena.Layouts
import SettingsArchive.Proofs.Linking
import SettingsArchive.Proofs.Xml.Mixed
import SettingsArchive.Proofs.Value.Alike
import SettingsArchive.Proofs.Snapshot.Canonical
import SettingsArchive.Proofs.Walk
import SettingsArchive.Proofs.Trimming
import SettingsArchive.Proofs.Arena.Kept
import SettingsArchive.Proofs.Storage.AtomicWrite
import SettingsArchive.Proofs.Validating
import SettingsArchive.Proofs.Arena.Paths
