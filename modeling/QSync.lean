import QSync.AssistedMPC.Offline
import QSync.AssistedMPC.OfflineConsistency
import QSync.AssistedMPC.OfflineGates
import QSync.AssistedMPC.OfflineShares
import QSync.Asterisk.BoolEval
import QSync.Asterisk.BoolEvalCorrect
import QSync.Asterisk.BoolEvalRun
import QSync.Asterisk.BoolEvaluator
import QSync.Asterisk.BoolEvaluatorCorrect
import QSync.Asterisk.BoolEvaluatorRun
import QSync.Asterisk.BoolOpenings
import QSync.Asterisk.ComparisonCircuits
import QSync.Asterisk.ComparisonGates
import QSync.Asterisk.ComparisonRun
import QSync.Asterisk.DarkPoolOverMpc
import QSync.Asterisk.GateShares
import QSync.Asterisk.InputPrivacy
import QSync.Asterisk.LevelWires
import QSync.Asterisk.MacCheck
import QSync.Asterisk.MacSoundness
import QSync.Asterisk.Mpc
import QSync.Asterisk.MpcOverBus
import QSync.Asterisk.Offline
import QSync.Asterisk.OfflineBool
import QSync.Asterisk.OfflineConsistency
import QSync.Asterisk.OfflineGates
import QSync.Asterisk.OfflineRun
import QSync.Asterisk.OfflineShares
import QSync.Asterisk.Online
import QSync.Asterisk.OnlineCorrect
import QSync.Asterisk.OnlineGates
import QSync.Asterisk.OnlineLevels
import QSync.Asterisk.OnlineRing
import QSync.Asterisk.OnlineRun
import QSync.Asterisk.Opening
import QSync.Asterisk.OpeningLoops
import QSync.Asterisk.OpeningPrivacy
import QSync.Asterisk.Preproc
import QSync.Asterisk.RandGenPool
import QSync.Asterisk.Sharing
import QSync.Asterisk.TpRounds
import QSync.Foundations.AuthSharing
import QSync.Foundations.Batching
import QSync.Foundations.BitCompare
import QSync.Foundations.Buffers
import QSync.Foundations.Bytes
import QSync.Foundations.CarryNetworks
import QSync.Foundations.Coupling
import QSync.Foundations.Descent
import QSync.Foundations.EventRuns
import QSync.Foundations.LinearForms
import QSync.Foundations.MultiArray
import QSync.Foundations.Network
import QSync.Foundations.Programs
import QSync.Foundations.Rounds
import QSync.Foundations.Seqlock
import QSync.Io.AesCtr
import QSync.Io.Arrivals
import QSync.Io.BcastBus
import QSync.Io.Channel
import QSync.Io.Cluster
import QSync.Io.ClusterPipes
import QSync.Io.ClusterPrograms
import QSync.Io.Delivery
import QSync.Io.FragmentNumbering
import QSync.Io.Frames
import QSync.Io.GapDetection
import QSync.Io.GapScan
import QSync.Io.Link
import QSync.Io.LostDatagram
import QSync.Io.MalformedFrames
import QSync.Io.NackDiscipline
import QSync.Io.NackRace
import QSync.Io.NackRecords
import QSync.Io.NetIOMP
import QSync.Io.Nonces
import QSync.Io.Reassembly
import QSync.Io.ReplyBound
import QSync.Io.Retention
import QSync.Io.Sync
import QSync.Io.ThirdParties
import QSync.Io.WitnessGaps
import QSync.Net.SharedMedium
import QSync.Net.SlotAccounting
import QSync.Net.SlotWaiting
import QSync.Net.TdmaScheduler
import QSync.Time.TimeSource
import QSync.Utils.Adders
import QSync.Utils.Auction
import QSync.Utils.BitPacking
import QSync.Utils.BuilderRules
import QSync.Utils.Circuit
import QSync.Utils.ConvolutionLayer
import QSync.Utils.DarkPool
import QSync.Utils.DarkPoolRules
import QSync.Utils.DarkPoolSafety
import QSync.Utils.GeneratorSpecs
import QSync.Utils.Generators
import QSync.Utils.Gridlock
import QSync.Utils.GridlockOptimal
import QSync.Utils.GridlockRuns
import QSync.Utils.LevelDepth
import QSync.Utils.LevelOrder
import QSync.Utils.LevelSchedule
import QSync.Utils.LiquidityMatching
import QSync.Utils.MnistNetworks
import QSync.Utils.Netting
import QSync.Utils.NetworkLayers
import QSync.Utils.NeuralNetwork
import QSync.Utils.Plaintext
import QSync.Utils.PrefixCircuits
import QSync.Utils.PrefixComparator
import QSync.Utils.SignTest
import QSync.Utils.TreeProduct
import QSync.Utils.Types
import QSync.Utils.VolumeMatching
