import Sunela.Lib.Bits
import Sunela.Lib.CString
import Sunela.Lib.Calendar
import Sunela.Lib.Forest
import Sunela.Lib.Gnome
import Sunela.Lib.Interrupt
import Sunela.Lib.Limbs
import Sunela.Lib.Program
import Sunela.Lib.Rows
import Sunela.Lib.Serial
import Sunela.Lib.Winding
import Sunela.Model.Accounts
import Sunela.Model.Base32
import Sunela.Model.Bip39
import Sunela.Model.Block
import Sunela.Model.Clock
import Sunela.Model.Db
import Sunela.Model.Edit
import Sunela.Model.Entry
import Sunela.Model.EntryOps
import Sunela.Model.Field
import Sunela.Model.FieldEdit
import Sunela.Model.Fmt
import Sunela.Model.Hotp
import Sunela.Model.Move
import Sunela.Model.Open
import Sunela.Model.Operation
import Sunela.Model.Pages
import Sunela.Model.Pin
import Sunela.Model.Poly
import Sunela.Model.Rmt
import Sunela.Model.RmtDb
import Sunela.Model.RmtDeposit
import Sunela.Model.RmtSession
import Sunela.Model.RmtTransport
import Sunela.Model.SetTime
import Sunela.Model.Settings
import Sunela.Model.Span
import Sunela.Model.Storage
import Sunela.Model.TextEntry
import Sunela.Model.TextFormat
import Sunela.Model.Tsort
import Sunela.Model.Tweetnacl
import Sunela.Model.UiBip39
import Sunela.Model.UiEntry
import Sunela.Model.UiStack
import Sunela.Model.WiList
import Sunela.Verification.Accenc.Decoder
import Sunela.Verification.Alloc.Accounting
import Sunela.Verification.Alloc.Allocation
import Sunela.Verification.Alloc.Calls
import Sunela.Verification.Alloc.Operations
import Sunela.Verification.Alloc.Range
import Sunela.Verification.Alloc.Records
import Sunela.Verification.Alloc.Request
import Sunela.Verification.Alloc.Rules
import Sunela.Verification.Base32.RoundTrip
import Sunela.Verification.Bip39.Chosen
import Sunela.Verification.Bip39.Matching
import Sunela.Verification.Bip39.RoundTrip
import Sunela.Verification.Button.Debounce
import Sunela.Verification.Clock.Question
import Sunela.Verification.Clock.Totp
import Sunela.Verification.Dbcrypt.Instance
import Sunela.Verification.Dbcrypt.LifeCycle
import Sunela.Verification.Dbcrypt.Sizes
import Sunela.Verification.Delete.Reopen
import Sunela.Verification.Edit.Stored
import Sunela.Verification.Edit.Unchanged
import Sunela.Verification.Entry.Buffer
import Sunela.Verification.Entry.PinPad
import Sunela.Verification.Failures.Entries
import Sunela.Verification.Failures.Renames
import Sunela.Verification.Fmt.Decimal
import Sunela.Verification.Font.Drawing
import Sunela.Verification.Generation.Counting
import Sunela.Verification.Generation.Visible
import Sunela.Verification.Gfx.Clipping
import Sunela.Verification.Gfx.Drawing
import Sunela.Verification.Gfx.Polygon
import Sunela.Verification.Hotp.Counter
import Sunela.Verification.Imath.SquareRoot
import Sunela.Verification.Kinds.Calls
import Sunela.Verification.Kinds.Fields
import Sunela.Verification.Kinds.Pages
import Sunela.Verification.Move.Folders
import Sunela.Verification.Nacl.Poly1305
import Sunela.Verification.Nacl.SecretBox
import Sunela.Verification.Nacl.Stream
import Sunela.Verification.Names.Alike
import Sunela.Verification.Names.Calls
import Sunela.Verification.Names.Constraints
import Sunela.Verification.Names.Copies
import Sunela.Verification.Names.Identifiers
import Sunela.Verification.Names.Pages
import Sunela.Verification.Names.Paths
import Sunela.Verification.Names.Subtrees
import Sunela.Verification.Open.Listing
import Sunela.Verification.Open.Payload
import Sunela.Verification.Open.Place
import Sunela.Verification.Open.Records
import Sunela.Verification.Open.Scan
import Sunela.Verification.Open.Settings
import Sunela.Verification.Open.SettingsPayload
import Sunela.Verification.Persistence.Backed
import Sunela.Verification.Persistence.Deferred
import Sunela.Verification.Persistence.Filed
import Sunela.Verification.Persistence.Named
import Sunela.Verification.Persistence.Rename
import Sunela.Verification.Persistence.Reopen
import Sunela.Verification.Persistence.Runs
import Sunela.Verification.Persistence.Settings
import Sunela.Verification.PowerLoss.Blocks
import Sunela.Verification.PowerLoss.Update
import Sunela.Verification.Remote.Abandoned
import Sunela.Verification.Remote.Calls
import Sunela.Verification.Remote.Changed
import Sunela.Verification.Remote.Closed
import Sunela.Verification.Remote.Deposits
import Sunela.Verification.Remote.Faithful
import Sunela.Verification.Remote.Listing
import Sunela.Verification.Remote.Permission
import Sunela.Verification.Remote.Polls
import Sunela.Verification.Remote.Rejected
import Sunela.Verification.Remote.Reopen
import Sunela.Verification.Remote.Secrets
import Sunela.Verification.Remote.Session
import Sunela.Verification.Remote.Transport
import Sunela.Verification.Secrets.Admission
import Sunela.Verification.Secrets.Attempts
import Sunela.Verification.Secrets.Crash
import Sunela.Verification.Secrets.Lockout
import Sunela.Verification.Secrets.PinChanges
import Sunela.Verification.Secrets.Results
import Sunela.Verification.Sha.Hmac
import Sunela.Verification.Sha.Padding
import Sunela.Verification.Span.Blocks
import Sunela.Verification.Span.Groups
import Sunela.Verification.Span.Lists
import Sunela.Verification.Span.Reclaim
import Sunela.Verification.Span.Words
import Sunela.Verification.Support.PlainCrypt
import Sunela.Verification.Support.RemoteAccount
import Sunela.Verification.Text.Breaks
import Sunela.Verification.Text.Lines
import Sunela.Verification.Timer.Queue
import Sunela.Verification.Timer.Runs
import Sunela.Verification.Touch.Gestures
import Sunela.Verification.Tsort.Order
import Sunela.Verification.Tsort.Permutation
import Sunela.Verification.UiStack.Bounds
import Sunela.Verification.Widget.Picking
import Sunela.Verification.Widget.Scrolling
