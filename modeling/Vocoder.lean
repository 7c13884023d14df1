import Vocoder.Analysis.Amplitudes
import Vocoder.Analysis.Pitch
import Vocoder.Analysis.Refinement
import Vocoder.Analysis.Voicing
import Vocoder.Binary64.Basic
import Vocoder.Binary64.Exponential
import Vocoder.Binary64.Logarithm
import Vocoder.Binary64.Scalar
import Vocoder.Binary64.Trigonometry
import Vocoder.Bits
import Vocoder.Codebook.Basic
import Vocoder.Codebook.Joint
import Vocoder.Codebook.Lines
import Vocoder.CommandLine.Command
import Vocoder.CommandLine.Flags
import Vocoder.CommandLine.Folder
import Vocoder.CommandLine.Script
import Vocoder.CommandLine.Tool
import Vocoder.CommandLine.Usage
import Vocoder.Decoder
import Vocoder.Encoder
import Vocoder.Engine
import Vocoder.Error
import Vocoder.Fault
import Vocoder.Frame.Content
import Vocoder.Frame.Decode
import Vocoder.Frame.Encode
import Vocoder.Header
import Vocoder.Layout
import Vocoder.Lines.Cascade
import Vocoder.Lines.Separation
import Vocoder.Lines.Series
import Vocoder.Log
import Vocoder.Main
import Vocoder.Mode
import Vocoder.Model
import Vocoder.Prediction.Recursion
import Vocoder.Quantiser.Joint
import Vocoder.Quantiser.Lines
import Vocoder.Quantiser.Scale
import Vocoder.Scalar
import Vocoder.Session.Basic
import Vocoder.Session.Report
import Vocoder.Session.Settings
import Vocoder.Stage
import Vocoder.Stream
import Vocoder.Synthesis.Background
import Vocoder.Synthesis.Envelope
import Vocoder.Synthesis.OverlapAdd
import Vocoder.Synthesis.Phase
import Vocoder.Text.Numeral
import Vocoder.Text.Quoted
import Vocoder.Text.Scientific
import Vocoder.Transform
import Vocoder.Window
import Vocoder.Proofs.Outcome
import Vocoder.Proofs.BitView
import Vocoder.Proofs.GrayCode
import Vocoder.Proofs.FieldCodec
import Vocoder.Proofs.IndexRange
import Vocoder.Proofs.FrameRoundTrip
import Vocoder.Proofs.LockStep
import Vocoder.Proofs.RealScalars
import Vocoder.Proofs.CodebookEntries
import Vocoder.Proofs.ModelRange
import Vocoder.Proofs.LinesTotal
import Vocoder.Proofs.SubframeRange
import Vocoder.Proofs.SynthesisTotal
import Vocoder.Proofs.AnalysisTotal
import Vocoder.Proofs.DecoderTotal
import Vocoder.Proofs.CodingTotal
import Vocoder.Proofs.PredictionTotal
import Vocoder.Proofs.FrameStages
import Vocoder.Proofs.SessionRuns
import Vocoder.Proofs.EncoderRange
import Vocoder.Proofs.LineSeparation
import Vocoder.Proofs.DecodedLines
import Vocoder.Proofs.Independence
import Vocoder.Proofs.Forgetting
import Vocoder.Proofs.FieldOrder
import Vocoder.Proofs.LayoutConsistency
import Vocoder.Proofs.MutedFrames
import Vocoder.Proofs.AnalysisFraming
import Vocoder.Proofs.FolderFiles
import Vocoder.Proofs.StreamCodec
import Vocoder.Proofs.ToolChain
import Vocoder.Proofs.JointPredictor
import Vocoder.Proofs.SessionRequests
import Vocoder.Proofs.StageWords
import Vocoder.Proofs.HeaderlessFiles
import Vocoder.Proofs.LineOrder
import Vocoder.Proofs.LineSpreading
import Vocoder.Proofs.ChebyshevSeries
import Vocoder.Proofs.LineFilter
import Vocoder.Proofs.RootSearch
import Vocoder.Proofs.ResidualFilters
import Vocoder.Proofs.NormalEquations
import Vocoder.Proofs.LeastError
import Vocoder.Proofs.SubMultiples
import Vocoder.Proofs.FirstNearest
import Vocoder.Proofs.LineCoding
import Vocoder.Proofs.ProductSearch
import Vocoder.Proofs.UniformScales
import Vocoder.Proofs.BitErrors
import Vocoder.Proofs.FourierSum
import Vocoder.Proofs.HarmonicSum
import Vocoder.Proofs.OverlapRuns
import Vocoder.Proofs.PitchChanges
import Vocoder.Proofs.OutputLevel
import Vocoder.Proofs.PostFiltering
import Vocoder.Proofs.HarmonicBands
import Vocoder.Proofs.VoicingEvidence
import Vocoder.Proofs.CodebookSearches
import Vocoder.Proofs.GeneratorPeriod
import Vocoder.Proofs.NoiseEstimate
import Vocoder.Proofs.SeedResidues
