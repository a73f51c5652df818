import Mintpool.Proof.Inclusion
import Mintpool.Proof.Minted
import Mintpool.Proof.Trust
import Mintpool.Proof.Serial
import Mintpool.Proof.Refinement
import Mintpool.Proof.Ownership
import Mintpool.Proof.Signed
import Mintpool.Proof.Authentic
import Mintpool.Proof.Submission
import Mintpool.Proof.Propagation
import Mintpool.Proof.CatchUp
import Mintpool.Proof.TreeDiff
import Mintpool.Proof.TreeHash
import Mintpool.Proof.TreeExtract
import Mintpool.Proof.TreePrefix
import Mintpool.Proof.Merkle
import Mintpool.Proof.Registry
import Mintpool.Proof.Versions
import Mintpool.Proof.MapClaim
import Mintpool.Proof.BootNodes
import Mintpool.Proof.MintChecker
import Mintpool.Proof.Topics
import Mintpool.Proof.Query
import Mintpool.Proof.TwoTasks
import Mintpool.Proof.Response
import Mintpool.Proof.Replicas
import Mintpool.Proof.Connections
import Mintpool.Proof.Provenance
import Mintpool.Proof.Exchange
import Mintpool.Proof.Api
import Mintpool.Proof.Admin
import Mintpool.Sample
import Mintpool.Lib.Channel
import Mintpool.Lib.Digits
import Mintpool.Lib.Interleave
import Mintpool.Lib.KeyedTable
