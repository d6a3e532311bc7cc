import HybridDifficulty.Engine
import HybridDifficulty.StoredForm
import HybridDifficulty.BlockTree
import HybridDifficulty.Proofs.TreeGrowth
import HybridDifficulty.Proofs.MemoTransparency
import HybridDifficulty.Proofs.MinedTree
import HybridDifficulty.Proofs.CeilingAgreement
import HybridDifficulty.Proofs.EngineTotality
import HybridDifficulty.Proofs.SeriesView
import HybridDifficulty.Proofs.SeriesIndependence
import HybridDifficulty.Proofs.AbsoluteSchedule
import HybridDifficulty.Proofs.SteadyTarget
import HybridDifficulty.Proofs.IntervalTarget
import HybridDifficulty.Proofs.CompactLaws
import HybridDifficulty.Proofs.TreeCalls
import HybridDifficulty.Proofs.ChainMemo
import HybridDifficulty.Proofs.RelaxedTarget
import HybridDifficulty.Proofs.AverageOnce
import HybridDifficulty.Proofs.WindowedAverage
import HybridDifficulty.Proofs.ScaleOrder
import HybridDifficulty.Proofs.LateTarget
import HybridDifficulty.Proofs.SolveTime
import HybridDifficulty.Proofs.SteadyAverage
import HybridDifficulty.Proofs.AverageBounds
import HybridDifficulty.Proofs.ForeignGenesis
import HybridDifficulty.Proofs.OpeningTarget
import HybridDifficulty.Proofs.IntervalStep
import HybridDifficulty.Proofs.NearestTarget
import HybridDifficulty.Proofs.CubicAccuracy
import HybridDifficulty.Proofs.ClosedAlgorithm
import HybridDifficulty.Proofs.ExpectedWork
import HybridDifficulty.Proofs.AncestorLookup
import HybridDifficulty.Proofs.SeriesWalk
import HybridDifficulty.Proofs.CallCounts
import HybridDifficulty.Proofs.HashText
