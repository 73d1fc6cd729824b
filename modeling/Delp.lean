import Delp.Policy.Defaults
import Delp.Codec.Encoder
import Delp.Codec.Decoder
import Delp.Gf.Symbols
import Delp.Lib.Elimination
import Delp.Proofs.Delivery
import Delp.Proofs.Accounting
import Delp.Proofs.HeaderLengths
import Delp.Proofs.PrefixReads
import Delp.Proofs.SourceIds
import Delp.Proofs.WindowPoints
import Delp.Proofs.TrueEquations
import Delp.Proofs.CauchyRecovery
import Delp.Proofs.VandermondeRecovery
import Delp.Proofs.FeedbackReports
import Delp.Proofs.RowCap
import Delp.Proofs.EchelonCascade
import Delp.Proofs.AckUnion
import Delp.Proofs.NetworkAcks
import Delp.Proofs.Durability
import Delp.Proofs.BitFields
import Delp.Proofs.DenseRows
import Delp.Proofs.Redundancy
import Delp.Proofs.Cadence
import Delp.Proofs.LossEstimate
import Delp.Proofs.KernelsAgree
import Delp.Proofs.OrderedChannel
import Delp.Proofs.LossRepair
import Delp.Proofs.FullDelivery
import Delp.Proofs.ReceiverQueue
import Delp.Proofs.SinkQueue
import Delp.Proofs.Link
import Delp.Proofs.ReliableDelivery
import Delp.Proofs.FileTransfer
import Delp.Proofs.Duplex
import Delp.Proofs.FileArrival
