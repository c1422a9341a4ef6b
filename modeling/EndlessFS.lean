import EndlessFS.Domain.Catalog
import EndlessFS.Namespace.Addresses
import EndlessFS.Uploads.Drain
import EndlessFS.Uploads.Durable
import EndlessFS.Uploads.Repeat
import EndlessFS.Transition.Versions
import EndlessFS.Identity.Revocation
import EndlessFS.Checkpoint.Resumption
import EndlessFS.Checkpoint.Collection
import EndlessFS.Checkpoint.VisitSet
import EndlessFS.Namespace.Identity
import EndlessFS.Namespace.Rename
import EndlessFS.Domain.Paging
import EndlessFS.Transition.Snapshot
import EndlessFS.Registration.Exclusive
import EndlessFS.Registration.Passkeys
import EndlessFS.Preview.Health
import EndlessFS.Preview.Generations
import EndlessFS.Namespace.Reads
import EndlessFS.Namespace.BatchOfOne
import EndlessFS.Format.Pages
import EndlessFS.Uploads.Completion
import EndlessFS.Shares.Openable
