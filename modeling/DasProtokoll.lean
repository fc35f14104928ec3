import DasProtokoll.BitteEinBit.Bounds
import DasProtokoll.BitteEinBit.FlipBit
import DasProtokoll.Csync.Congestion
import DasProtokoll.Csync.CursorSearch
import DasProtokoll.Csync.EndOfTransmission
import DasProtokoll.Csync.PacedSession
import DasProtokoll.Csync.Resume
import DasProtokoll.Csync.Reupload
import DasProtokoll.Csync.PacedFolder
import DasProtokoll.Csync.Timeout
import DasProtokoll.Scsync.Completion
import DasProtokoll.Scsync.Confinement
import DasProtokoll.Scsync.Cursor
import DasProtokoll.Scsync.FolderRoundTrip
import DasProtokoll.Scsync.Locks
import DasProtokoll.Scsync.Reports
import DasProtokoll.Scsync.Resolve
import DasProtokoll.Scsync.RootUpdates
import DasProtokoll.Scsync.RoundTrip
import DasProtokoll.Scsync.StatusOrder
import DasProtokoll.Scsync.Termination
import DasProtokoll.Scsync.TransferLoop
import DasProtokoll.Scsync.TransferSize
