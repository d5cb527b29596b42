import LinearHeap.Arena
import LinearHeap.FreeList.Linked
import LinearHeap.Registry.Basic
import LinearHeap.Script.Profile
import LinearHeap.Proofs.WellFormed
import LinearHeap.Proofs.Refinement
import LinearHeap.Proofs.Untouched
import LinearHeap.Proofs.Vetting
import LinearHeap.Proofs.Handles
import LinearHeap.Proofs.Isolation
import LinearHeap.Proofs.Conduct
import LinearHeap.Proofs.Transparency
import LinearHeap.Proofs.Censuses
import LinearHeap.Proofs.Accounts
import LinearHeap.Proofs.Balance
import LinearHeap.Proofs.Exhaustion
import LinearHeap.Proofs.Refusals
import LinearHeap.Proofs.Relocation
import LinearHeap.Proofs.Permanence
import LinearHeap.Proofs.Regain
import LinearHeap.Proofs.Replay
import LinearHeap.Proofs.Histories
import LinearHeap.Proofs.Naming
import LinearHeap.Proofs.Stocktaking
import LinearHeap.Proofs.Acceptance
import LinearHeap.Proofs.Drops
import LinearHeap.Proofs.Provision
import LinearHeap.Proofs.Pairing
import LinearHeap.Proofs.FirstFit
import LinearHeap.Proofs.Traffic
import LinearHeap.Proofs.Commuting
import LinearHeap.Proofs.Scripts
import LinearHeap.Proofs.WordAccess
import LinearHeap.Proofs.LastFault
import LinearHeap.Proofs.Reckoning
import LinearHeap.Proofs.Halting
