import BetterEfisis.Lib.Pattern
import BetterEfisis.Proof.Country
import BetterEfisis.Proof.Batches
import BetterEfisis.Proof.FullTick
import BetterEfisis.Proof.Teams
import BetterEfisis.Proof.Throttle
import BetterEfisis.Proof.Snapshot
import BetterEfisis.Proof.Stranded
import BetterEfisis.Proof.Rows
import BetterEfisis.Proof.UniqueKeys
import BetterEfisis.Proof.Orphans
import BetterEfisis.Proof.Refresh
import BetterEfisis.Proof.Selections
import BetterEfisis.Proof.Associations
import BetterEfisis.Proof.Unknown
import BetterEfisis.Proof.Recorded
import BetterEfisis.Proof.Offers
import BetterEfisis.Proof.Names
import BetterEfisis.Proof.Requests
import BetterEfisis.Proof.Versus
import BetterEfisis.Proof.Malformed
import BetterEfisis.Proof.Credentials
import BetterEfisis.Proof.Cached
import BetterEfisis.Proof.Foreseen
import BetterEfisis.Proof.Rest
import BetterEfisis.Proof.Scan
import BetterEfisis.Proof.Glob
import BetterEfisis.Proof.Expired
import BetterEfisis.Proof.Deployed
