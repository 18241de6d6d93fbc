import BjutEth.Alien.ChargePayment
import BjutEth.Alien.Charging
import BjutEth.Alien.Credit
import BjutEth.Alien.DanglingVotes
import BjutEth.Alien.ExtraStream
import BjutEth.Alien.MissingSigners
import BjutEth.Alien.MovedVoters
import BjutEth.Alien.ProposalLedger
import BjutEth.Alien.VoteRewards
import BjutEth.Bloombits.Canonical
import BjutEth.Bloombits.Matcher
import BjutEth.Chain.HeaderRewind
import BjutEth.Chain.IndexerRuns
import BjutEth.Chain.TxLookup
import BjutEth.Clique.Honest
import BjutEth.Core.CallGas
import BjutEth.Core.StateTransition
import BjutEth.Ethash.UncleRewards
import BjutEth.P2p.Enr
import BjutEth.P2p.RandomNodes
import BjutEth.Pool.Executable
import BjutEth.Pool.Lifetime
import BjutEth.Pool.Locals
import BjutEth.Pool.Prices
import BjutEth.Pool.Rejected
import BjutEth.SideChain.MapOrder
import BjutEth.SideChain.Shares
import BjutEth.State.Copies
import BjutEth.State.ReadBack
import BjutEth.State.Undo
import BjutEth.Trie.Proof
import BjutEth.Tx.Canonical
import BjutEth.Tx.Recovery
