import Incudine.PourOnRtHeap
import Incudine.HeapPool
import Incudine.NodeStop
import Incudine.CrossThreadCall
import Incudine.ScoreLine
import Incudine.ParallelFunctions
import Incudine.CallReturn
import Incudine.ScoreInclusion
import Incudine.VoiceAssociation
import Incudine.MidifileQuantity
import Incudine.MidifileTracks
import Incudine.MidifileTempo
import Incudine.MidiReceiverRuns
import Incudine.OscPackets
import Incudine.CachedMidiOutputs
import Incudine.CachedAudioInputs
import Incudine.SimplifyVugVariable
import Incudine.SoundfileOutputFrames
import Incudine.DspInstanceRuns
import Incudine.BounceAgreement
import Incudine.PartConvolveSelection
import Incudine.HeapSizes
import Incudine.FlushOrder
import Incudine.PvFileRoundTrip
import Incudine.PvLossless
import Incudine.Tlist
import Incudine.MidiTuning
import Incudine.ScoreStartTime
import Incudine.VoiceSteal
import Incudine.QuantizeVector
import Incudine.PitchClass
import Incudine.TuningLaw
import Incudine.BulkTuningDump
import Incudine.ParseFloat
import Incudine.RingBufferCopy
import Incudine.ForeignShift
import Incudine.SetTuning
import Incudine.OscByteOrder
import Incudine.OscSlip
import Incudine.OscDescriptors
import Incudine.EnvelopeScale
import Incudine.EnvelopeSegment
import Incudine.EnvelopeInside
import Incudine.EnvelopeOnTime
import Incudine.RegofileBindings
import Incudine.PlayedMidiNote
import Incudine.SndfileShortReads
import Incudine.FillBuffer
import Incudine.BufferRead
import Incudine.DelayLine
import Incudine.ResponderRuns
import Incudine.StftCondition
import Incudine.SoundfileConcatenate
import Incudine.AnalysisBins
import Incudine.GenPolynomial
import Incudine.WrapMirror
import Incudine.UgenArguments
import Incudine.HeapDeletion
import Incudine.ProbeRepair
import Incudine.Gbuzz
import Incudine.PvFileLoader
import Incudine.NodeLookup
import Incudine.NodeTreeRuns
