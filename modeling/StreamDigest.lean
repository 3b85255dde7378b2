import StreamDigest.Algorithm.Document
import StreamDigest.Library.Faulty
import StreamDigest.Library.Software
import StreamDigest.Policy.Document
import StreamDigest.Pool
import StreamDigest.Proofs.Account
import StreamDigest.Proofs.Arena
import StreamDigest.Proofs.Computation
import StreamDigest.Proofs.Custody
import StreamDigest.Proofs.Origin
import StreamDigest.Proofs.Pool
import StreamDigest.Proofs.Pool.Account
import StreamDigest.Proofs.Pool.Bookkeeping
import StreamDigest.Proofs.Pool.Refinement
import StreamDigest.Proofs.Service
import StreamDigest.Proofs.Session
import StreamDigest.Proofs.Software
import StreamDigest.Proofs.Streaming
import StreamDigest.Proofs.Update
import StreamDigest.Proofs.Vault
import StreamDigest.Proofs.World
import StreamDigest.Proofs.World.Copies
import StreamDigest.Session
import StreamDigest.Proofs.Hmac
import StreamDigest.Proofs.Lifecycle
import StreamDigest.Proofs.Pool.Reuse
import StreamDigest.Proofs.World.Computations
import StreamDigest.Proofs.Session.Step
import StreamDigest.Proofs.World.References
import StreamDigest.Proofs.Containment
import StreamDigest.Proofs.Without
import StreamDigest.Proofs.Session.Without
import StreamDigest.Proofs.World.Without
import StreamDigest.Proofs.World.Handles
import StreamDigest.Proofs.World.Revocation
import StreamDigest.Proofs.World.Binding
import StreamDigest.Proofs.Protocol
import StreamDigest.Proofs.World.Marks
import StreamDigest.Proofs.World.Register
import StreamDigest.Proofs.World.Store
import StreamDigest.Proofs.Permission
import StreamDigest.Proofs.World.Permission
import StreamDigest.Proofs.Veil
import StreamDigest.Proofs.Session.Veil
import StreamDigest.Proofs.World.Veil
import StreamDigest.Proofs.Json.Token
import StreamDigest.Proofs.Json.Reader
import StreamDigest.Proofs.Json.Render
import StreamDigest.Proofs.Json.Value
import StreamDigest.Proofs.Json.Ending
import StreamDigest.Proofs.Policy
import StreamDigest.Proofs.Policy.Document
import StreamDigest.Proofs.Spelling
import StreamDigest.Proofs.Range
import StreamDigest.Proofs.VoidFeeding
import StreamDigest.Proofs.Finalization
import StreamDigest.Proofs.World.Demand
