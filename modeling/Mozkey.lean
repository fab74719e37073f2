import Mozkey.Lib.Relaxation
import Mozkey.Lib.BestFirst
import Mozkey.Lib.RankSelect
import Mozkey.Lib.LevelOrder
import Mozkey.Converter.Lattice
import Mozkey.Converter.Segments
import Mozkey.Converter.Viterbi
import Mozkey.Converter.ViterbiCorrect
import Mozkey.Converter.PredictionViterbi
import Mozkey.Converter.NBestGenerator
import Mozkey.Converter.NBestCorrect
import Mozkey.Converter.InsertCandidates
import Mozkey.Converter.InsertCorrect
import Mozkey.Storage.Louds.BitStream
import Mozkey.Storage.Louds.SimpleSuccinctBitVectorIndex
import Mozkey.Storage.Louds.Louds
import Mozkey.Lib.PrefixTree
import Mozkey.Storage.Louds.LoudsTrieBuilder
import Mozkey.Storage.Louds.LoudsTrie
import Mozkey.Storage.Louds.LoudsTrieCorrect
import Mozkey.Dictionary.System.PredictiveLookup
import Mozkey.Lib.LinkedList
import Mozkey.Storage.LruCache
import Mozkey.Storage.LruCacheLists
import Mozkey.Storage.LruCacheCorrect
import Mozkey.Storage.LruStorage
import Mozkey.Lib.KeyedList
import Mozkey.Storage.LruStorageItems
import Mozkey.Storage.LruStorageCorrect
import Mozkey.Base.Utf8
import Mozkey.Base.Container.Trie
import Mozkey.Base.Container.TrieCorrect
import Mozkey.Lib.Delimited
import Mozkey.Session.ZenzFeedbackStore
import Mozkey.Session.ZenzFeedbackStoreCorrect
import Mozkey.Lib.Runs
import Mozkey.Session.ZenzFeedbackProcesses
import Mozkey.Composer.Composer
import Mozkey.Engine.EngineConverter
import Mozkey.Session.KeyMap
import Mozkey.Session.State
import Mozkey.Session.ZenzLiveCorrection
import Mozkey.Session.LiveConversion
import Mozkey.Session.Commit
import Mozkey.Session.Editing
import Mozkey.Session.Session
import Mozkey.Session.LiveMachine
import Mozkey.Session.LiveHandlers
import Mozkey.Engine.CandidateList
import Mozkey.Engine.CandidateListCorrect
import Mozkey.Engine.CandidateListOrder
import Mozkey.Lib.Blocks
import Mozkey.Storage.ExistenceFilter
import Mozkey.Storage.ExistenceFilterCorrect
import Mozkey.Prediction.UserHistoryStorage
import Mozkey.Prediction.UserHistorySync
import Mozkey.Base.Util
import Mozkey.Composer.Table
import Mozkey.Composer.CharChunk
import Mozkey.Composer.CharChunkPending
import Mozkey.Session.SessionHandler
import Mozkey.Session.SessionHandlerRuns
import Mozkey.Converter.InnerSegment
import Mozkey.Prediction.UserHistoryClear
import Mozkey.Prediction.UserHistoryClearCorrect
import Mozkey.Prediction.UserHistoryLearning
import Mozkey.Prediction.UserHistoryRevert
import Mozkey.Prediction.UserHistoryLookup
import Mozkey.Prediction.UserHistoryLookupCorrect
import Mozkey.Engine.ConversionSegments
import Mozkey.Base.SubString
import Mozkey.Engine.CommitHead
import Mozkey.Engine.UpdateResult
import Mozkey.Engine.ResizeSegments
import Mozkey.Base.Container.TrieBytes
import Mozkey.Base.Utf8Text
import Mozkey.Lib.PrefixRewriting
import Mozkey.Composer.TableLooping
import Mozkey.Composer.Composition
import Mozkey.Composer.CompositionPositions
import Mozkey.Composer.CompositionDelete
import Mozkey.Composer.CursorBounds
import Mozkey.Composer.CharChunkInput
import Mozkey.Composer.CompositionRuns
import Mozkey.Composer.CompositionRaw
import Mozkey.Composer.InsertionEnds
import Mozkey.Base.Codepoint
import Mozkey.Dictionary.System.Codec
import Mozkey.Converter.InnerSegmentBoundary
import Mozkey.Engine.ResizeKeys
import Mozkey.Composer.CharacterKeys
import Mozkey.Engine.CommitSegments
import Mozkey.Engine.PostProcessing
import Mozkey.Converter.KeyCorrector
import Mozkey.Converter.KeyCorrectorRewrites
import Mozkey.Converter.KeyCorrectorAlignment
import Mozkey.Converter.KeyCorrectorPatterns
import Mozkey.Base.ScriptType
import Mozkey.Converter.Resegment
import Mozkey.Converter.ResegmentSpans
import Mozkey.Converter.ShortCompoundSplit
import Mozkey.Lib.PairMarking
import Mozkey.Converter.ShortCompoundSplitOrder
import Mozkey.Dictionary.System.KeyCodec
import Mozkey.Lib.Loop
import Mozkey.Dictionary.File.Codec
import Mozkey.Dictionary.File.CodecCorrect
import Mozkey.Dictionary.File.CodecRoundTrip
import Mozkey.Session.ZenzFeedbackAppend
import Mozkey.Lib.OrderedMap
import Mozkey.Session.ZenzFeedbackScores
import Mozkey.Session.ZenzFeedbackScoresCorrect
import Mozkey.Session.ZenzPromptBuilder
import Mozkey.Session.ZenzPromptFields
import Mozkey.Session.ZenzPromptCorrect
import Mozkey.Session.ZenzOutputValidator
import Mozkey.Dictionary.System.TokenCodec
import Mozkey.Dictionary.System.TokenCodecCorrect
import Mozkey.Dictionary.System.TokenIterators
import Mozkey.Dictionary.System.TokenIteratorsCorrect
import Mozkey.Lib.StableSort
import Mozkey.Storage.LruStorageMerge
import Mozkey.Config.CharacterFormGroups
import Mozkey.Lib.ConsecutiveRuns
import Mozkey.Session.ZenzContextSanitizer
import Mozkey.Session.ZenzSymbolStyle
import Mozkey.Session.ZenzLivePrivacy
import Mozkey.Session.Undo
import Mozkey.Session.CommandSequences
import Mozkey.Session.DirectCommit
import Mozkey.Session.FeedbackLog
import Mozkey.Session.FeedbackFrames
import Mozkey.Session.FeedbackEditing
import Mozkey.Session.FeedbackRuns
import Mozkey.Session.LiveEditing
import Mozkey.Session.LiveRuns
import Mozkey.Session.DelayedCallbacks
import Mozkey.Storage.ExistenceFilterRead
import Mozkey.Storage.LruCacheCapacity
import Mozkey.Lib.UnaryCode
import Mozkey.Storage.Louds.BitVectorBasedArray
import Mozkey.Storage.Louds.BitVectorBasedArrayCorrect
import Mozkey.Base.NumberReading
import Mozkey.Base.NumberWriting
import Mozkey.Base.Utf8Append
import Mozkey.Prediction.UserHistoryRedundancy
import Mozkey.Prediction.UserHistoryStamps
import Mozkey.Prediction.UserHistoryLinks
import Mozkey.Prediction.UserHistoryChaining
import Mozkey.Prediction.UserHistoryRedo
import Mozkey.Prediction.UserHistoryRedoCorrect
import Mozkey.Base.SeparatedArabic
import Mozkey.Rewriter.Calculator
import Mozkey.Rewriter.CalculatorGrammar
import Mozkey.Rewriter.CalculatorFinite
import Mozkey.Storage.LittleEndian
import Mozkey.Base.Container.SerializedStringArray
import Mozkey.Base.Container.SerializedStringArrayImage
import Mozkey.Base.Container.FlatConcurrentCache
import Mozkey.DataManager.DataSet
import Mozkey.Lib.BinarySearch
import Mozkey.DataManager.SerializedDictionary
import Mozkey.Base.Hash
import Mozkey.Rewriter.FeatureKey
import Mozkey.Rewriter.UserSegmentHistory
import Mozkey.Rewriter.UserSegmentHistoryClear
import Mozkey.Rewriter.UserSegmentHistoryLearning
import Mozkey.Rewriter.UserSegmentHistoryPromotion
import Mozkey.Base.SplitCsv
import Mozkey.Base.UnicodeChar
import Mozkey.Composer.CharChunkCache
import Mozkey.Converter.FunctionalReachability
import Mozkey.Dictionary.AsyncUserDictionaryImporter
import Mozkey.Dictionary.UserDictionary
import Mozkey.Dictionary.UserDictionaryImporter
import Mozkey.Session.ZenzLiveSystem
import Mozkey.Dictionary.System.KeyTokens
