import FinBert.Client.Chunks
import FinBert.Client.InputStreaming
import FinBert.Client.Request
import FinBert.Client.ResultReads
import FinBert.Custom.Echo
import FinBert.Custom.RunningTotals
import FinBert.DataEngineering.FilingParser
import FinBert.DataEngineering.MaskedFile
import FinBert.DynamicBatch.Memoryless
import FinBert.Ensemble.Progress
import FinBert.Prep.Chunks
import FinBert.Prep.Consistency
import FinBert.Prep.NextSentence
import FinBert.Prep.RepeatedPositions
import FinBert.Prep.WholeWord
import FinBert.Prep.Wordpiece
import FinBert.Repository.Drain
import FinBert.Repository.Partition
import FinBert.Repository.Paths
import FinBert.Repository.Readiness
import FinBert.Repository.Release
import FinBert.Repository.Statistics
import FinBert.Repository.Versions
import FinBert.Sequence.ActiveSlots
import FinBert.Sequence.Collect
import FinBert.Sequence.ControlTensors
import FinBert.Sequence.Deadlock
import FinBert.Sequence.Ownership
import FinBert.Sequence.Reaper
import FinBert.Sequence.Shapes
import FinBert.Serving.BaseBackend
import FinBert.Serving.EnsembleWorklist
import FinBert.Serving.FailedPayloads
import FinBert.Serving.FixedSized
import FinBert.Serving.InputMap
import FinBert.Serving.InputReading
import FinBert.Serving.Normalization
import FinBert.Serving.NullProvider
import FinBert.Serving.Parsers
import FinBert.Serving.Response
import FinBert.Serving.StringFormat
import FinBert.Squad.Answers
import FinBert.Squad.Reading
import FinBert.Streaming.Finish
import FinBert.Streaming.SessionProgress
