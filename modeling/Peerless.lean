import Peerless.Ledger.Agreement
import Peerless.Node.Records
import Peerless.Node.Reopened
import Peerless.Onion.Crossing
import Peerless.Onion.AnyOrder
import Peerless.Onion.ReversePath
import Peerless.Ledger.Finality
import Peerless.Onion.Nonces
import Peerless.Onion.RefusedFragments
import Peerless.Node.Bootstrap
import Peerless.Node.Appends
import Peerless.Storage.Objects
import Peerless.Node.Agreed
import Peerless.Auth.KeyRace
import Peerless.Ledger.DiskAppend
import Peerless.Node.Sharded
import Peerless.Node.Fetch
import Peerless.Onion.Layouts
import Peerless.Ledger.Proving
import Peerless.Scheduler
import Peerless.Node.UploadMemory
import Peerless.Node.BudgetedTransfer
import Peerless.Network.PeerCache
import Peerless.Identity.OneIdentity
import Peerless.State.Names
import Peerless.Auth.Credential
import Peerless.Node.Providers
import Peerless.Node.Publish
