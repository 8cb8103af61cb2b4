import NrBaseband.Foundation.Checked
import NrBaseband.Foundation.Refinement
import NrBaseband.Foundation.Reactive
import NrBaseband.Types
import NrBaseband.Fapi.Session
import NrBaseband.Fapi.Runs
import NrBaseband.Foundation.QuotedText
import NrBaseband.Fapi.Json
import NrBaseband.Foundation.Numeral
import NrBaseband.Fapi.JsonReader
import NrBaseband.Fapi.JsonRoundTrip
import NrBaseband.Fapi.Fixtures
import NrBaseband.Foundation.MachineInt
import NrBaseband.Ldpc.Tables
import NrBaseband.Ldpc.Lifting
import NrBaseband.Ldpc.Graph
import NrBaseband.Ldpc.ParityCheck
import NrBaseband.Ldpc.Codewords
import NrBaseband.Ldpc.Elimination
import NrBaseband.Ldpc.Encode
import NrBaseband.Ldpc.Completeness
import NrBaseband.Ldpc.Arrays
import NrBaseband.Ldpc.Reference
import NrBaseband.Foundation.Extended
import NrBaseband.Foundation.Table
import NrBaseband.RateMatching
import NrBaseband.Llr
import NrBaseband.Harq
import NrBaseband.HarqCombining
import NrBaseband.HarqTable
import NrBaseband.Foundation.Packing
import NrBaseband.Foundation.StableSort
import NrBaseband.Foundation.BitReversal
import NrBaseband.Foundation.Fourier
import NrBaseband.Foundation.FastFourier
import NrBaseband.Foundation.UnitCircle
import NrBaseband.Fft
import NrBaseband.FftTransform
import NrBaseband.Ofdm
import NrBaseband.Scheduler
import NrBaseband.Foundation.WordMixing
import NrBaseband.ReplayHash
import NrBaseband.SchedulerPacking
import NrBaseband.SchedulerGuarantees
import NrBaseband.SchedulerSelection
import NrBaseband.SchedulerWeights
import NrBaseband.Foundation.ShiftRegister
import NrBaseband.Foundation.BitPolynomial
import NrBaseband.Foundation.CyclicRedundancy
import NrBaseband.Crc
import NrBaseband.CrcDivision
import NrBaseband.CrcDetection
import NrBaseband.Foundation.Pieces
import NrBaseband.Segmentation
import NrBaseband.SegmentationBalance
import NrBaseband.SegmentationLimits
import NrBaseband.Reassembly
import NrBaseband.Chain
import NrBaseband.Scrambling
import NrBaseband.ScramblingSeeds
import NrBaseband.Ldpc.Decode
import NrBaseband.Ldpc.Scaling
import NrBaseband.Ldpc.Symmetry
import NrBaseband.Foundation.GaussJordan
import NrBaseband.Foundation.RowMajor
import NrBaseband.Foundation.TannerGraph
import NrBaseband.Foundation.ExactComplex
import NrBaseband.Equalizer
import NrBaseband.EqualizerMatrices
import NrBaseband.EqualizerInverse
import NrBaseband.EqualizerShapes
import NrBaseband.EqualizerSolution
import NrBaseband.Foundation.GrayCode
import NrBaseband.Foundation.NearestPoint
import NrBaseband.Modulation
import NrBaseband.ModulationLabels
import NrBaseband.Demapping
import NrBaseband.HardDecisions
import NrBaseband.CudaReference
import NrBaseband.Foundation.ParallelStores
import NrBaseband.CudaKernels
import NrBaseband.Foundation.Bisection
import NrBaseband.ChannelEstimation
import NrBaseband.Foundation.Interleaving
import NrBaseband.LayerMapping
import NrBaseband.Fronthaul
import NrBaseband.Foundation.Records
import NrBaseband.PcapDump
import NrBaseband.Foundation.OrderStatistics
import NrBaseband.Deadline
import NrBaseband.Bits
import NrBaseband.Foundation.QuasiCyclic
import NrBaseband.EqualizerStream
import NrBaseband.GrayLabels
import NrBaseband.Foundation.TannerSymmetry
import NrBaseband.Ldpc.DecoderRotation
import NrBaseband.Ldpc.DecoderTranslation
import NrBaseband.Channel
import NrBaseband.MimoLink
import NrBaseband.BitLink
import NrBaseband.Foundation.SignedSums
import NrBaseband.SoftReception
import NrBaseband.Foundation.Cartesian
import NrBaseband.Dmrs
import NrBaseband.PilotLink
import NrBaseband.Foundation.GeneratorPeriod
import NrBaseband.CrcDistance
import NrBaseband.Foundation.LinearRecurrence
import NrBaseband.ScramblingPeriod
import NrBaseband.Fapi.Replay
import NrBaseband.Ldpc.Columns
import NrBaseband.Ldpc.WeakPositions
import NrBaseband.Ldpc.Erasures
