import ZebraCrosslink.Bft.Commit
import ZebraCrosslink.Bft.Conserve
import ZebraCrosslink.Bft.Quorum
import ZebraCrosslink.Bft.Replay
import ZebraCrosslink.Bft.Validate
import ZebraCrosslink.Bft.Wire
import ZebraCrosslink.Checkpoint.Commit
import ZebraCrosslink.Consensus.Cache
import ZebraCrosslink.Consensus.Merkle
import ZebraCrosslink.Consensus.Spent
import ZebraCrosslink.Consensus.Unreachable
import ZebraCrosslink.Mempool.Downloads
import ZebraCrosslink.Mempool.Exact
import ZebraCrosslink.Network.Bans
import ZebraCrosslink.Network.Framing
import ZebraCrosslink.Network.Reconnect
import ZebraCrosslink.Rpc.CoinbaseHeight
import ZebraCrosslink.Rpc.LongPoll
import ZebraCrosslink.Rpc.Proposal
import ZebraCrosslink.State.Best
import ZebraCrosslink.State.NewSubtrees
import ZebraCrosslink.State.Difficulty
import ZebraCrosslink.State.Find
import ZebraCrosslink.State.Indexed.Fork
import ZebraCrosslink.State.Sent
