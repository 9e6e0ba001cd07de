import InvitationService.Invariants.Rejection
import InvitationService.Invariants.Capacity
import InvitationService.Invariants.Seat
import InvitationService.Invariants.Resend
import InvitationService.Invariants.Event
import InvitationService.Invariants.Listing
import InvitationService.Invariants.Locale
import InvitationService.Invariants.Counter
import InvitationService.Invariants.Created
import InvitationService.Invariants.Details
import InvitationService.Invariants.Release
import InvitationService.Removal.Leftover
import InvitationService.Removal.Slots
import InvitationService.Removal.Tree
import InvitationService.Failure.Approval
import InvitationService.Failure.Staging
import InvitationService.Failure.GuestWrite
import InvitationService.Projection.Authorization
import InvitationService.Projection.Settings
import InvitationService.Recovery.MagicLink
import InvitationService.Recovery.Contact
import InvitationService.Import.Columns
import InvitationService.Import.Preview
import InvitationService.Import.Restart
import InvitationService.Import.Worksheet
import InvitationService.Publisher.Backoff
import InvitationService.Publisher.Drain
import InvitationService.Concurrency.Reply
import InvitationService.Concurrency.Decision
import InvitationService.Concurrency.Limit
import InvitationService.Concurrency.Link
import InvitationService.Concurrency.Cooldown
import InvitationService.Invariants.ReplyInput
import InvitationService.Lib.Credit
import InvitationService.Lib.Hindsight
import InvitationService.Model.MagicLinkRequest
import InvitationService.MagicLink.Composition
import InvitationService.MagicLink.Expiry
import InvitationService.MagicLink.Ledger
import InvitationService.MagicLink.Phases
import InvitationService.MagicLink.RateLimit
import InvitationService.MagicLink.Recipients
import InvitationService.Isolation.Untouched
