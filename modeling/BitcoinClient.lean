import BitcoinClient.Hash
import BitcoinClient.Block
import BitcoinClient.MemPool
import BitcoinClient.PoolInvariant
import BitcoinClient.Blockchain
import BitcoinClient.MiningBase
import BitcoinClient.Miner
import BitcoinClient.MinerLoop
import BitcoinClient.Interleaving
import BitcoinClient.Preimage
import BitcoinClient.LoopRuns
