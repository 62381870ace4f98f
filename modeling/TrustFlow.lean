import TrustFlow.SecretSharing.Faults
import TrustFlow.Audit.TamperEvidentLog
import TrustFlow.Audit.Coverage
import TrustFlow.Custody.Authorisation
import TrustFlow.Custody.DeliveryRace
import TrustFlow.Custody.Replay
import TrustFlow.Protocol.Duplicates
import TrustFlow.Pki.IdentityStore
import TrustFlow.Stegano.Detection
import TrustFlow.Stegano.Stripping
import TrustFlow.TimeLock.Destruction
import TrustFlow.Custody.Links
import TrustFlow.Custody.Sqlite
import TrustFlow.Custody.Distribution
import TrustFlow.Protocol.Broadcast
import TrustFlow.Audit.Writers
import TrustFlow.Audit.Opening
import TrustFlow.Custody.Binding
import TrustFlow.TrustDocs.Presence
import TrustFlow.TrustDocs.Disclosure
import TrustFlow.TrustDocs.ShortestPath
import TrustFlow.Protocol.Connections
import TrustFlow.Custody.Migration
import TrustFlow.Protocol.Requests
import TrustFlow.TrustDocs.Creation
