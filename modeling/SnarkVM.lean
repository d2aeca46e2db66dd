import SnarkVM.Result
import SnarkVM.Nom
import SnarkVM.Bech32.Bits
import SnarkVM.Bech32.Base32
import SnarkVM.Bech32.Checksum
import SnarkVM.Bech32.Codec
import SnarkVM.Snark.VerifyingKey
import SnarkVM.Varuna.CircuitInfo
import SnarkVM.Synthesizer.Basic
import SnarkVM.Synthesizer.Execute
import SnarkVM.Lru
import SnarkVM.Synthesizer.Verify
import SnarkVM.Synthesizer.CheckTransactions
import SnarkVM.Synthesizer.ParallelChecks
import SnarkVM.Algorithms.PedersenParameters
import SnarkVM.Console.TransactionLeaf
