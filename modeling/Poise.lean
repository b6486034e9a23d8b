import Poise.Foundations.DecimalText
import Poise.Foundations.PriorityWrites
import Poise.Foundations.ConsecutiveRuns
import Poise.Foundations.KeyedLookup
import Poise.Foundations.CellHistory
import Poise.Foundations.IndexPool
import Poise.Foundations.ByteBuffer
import Poise.Foundations.InternetChecksum
import Poise.Foundations.WireFormat
import Poise.Foundations.SecureHash
import Poise.Foundations.CyclicRedundancy
import Poise.Foundations.NextFit
import Poise.Foundations.TextReplacement
import Poise.Foundations.LongestMatch
import Poise.Foundations.ShiftReduce
import Poise.Foundations.ShiftReduceCorrectness
import Poise.Foundations.ShiftReduceSoundness
import Poise.PolicyAst
import Poise.PolicyParser
import Poise.PolicyGrammar
import Poise.PolicySpelling
import Poise.GeneratedParser
import Poise.ParserCertificate
import Poise.PolicyLexer
import Poise.LexicalLayout
import Poise.PolicyFrontEnd
import Poise.BackEndDecision
import Poise.PolicyMeaning
import Poise.RecirTemplate
import Poise.RecirTemplateRuns
import Poise.RecirTemplateDelivery
import Poise.CheckGeneration
import Poise.ParsedPolicies
import Poise.CheckMerging
import Poise.StageAllocation
import Poise.CodeGeneration
import Poise.ContextEvaluation
import Poise.AcceptedPolicies
import Poise.MergedVector
import Poise.OptimizedChecks
import Poise.GeneratedFields
import Poise.GeneratedTables
import Poise.InstalledEntries
import Poise.MembershipPolicy
import Poise.MergingCorrectness
import Poise.MergingDecision
import Poise.CompilerCorrectness
import Poise.PacketParser
import Poise.IngressPipeline
import Poise.PassSpecification
import Poise.CacheHash
import Poise.DefaultDeny
import Poise.CacheCoherence
import Poise.MonitorSemantics
import Poise.CacheKeyAgreement
import Poise.Recirculation
import Poise.PacketTermination
import Poise.PartialDecisions
import Poise.ControlPlane
import Poise.ControlThreads
import Poise.HandOver
import Poise.LearningBatches
import Poise.ContextCollection
import Poise.ContextReplies
import Poise.OptionInsertion
import Poise.SentPackets
import Poise.PacketChecksums
import Poise.CopyFailures
import Poise.StreamingSha1
import Poise.OneTimeCodes
import Poise.MessageServer
import Poise.MonitorMerging
import Poise.ActionAssociation
import Poise.SingleStatements
import Poise.StatementCoverage
import Poise.StagePacking
import Poise.CacheExpiry
import Poise.BloomRecall
import Poise.CacheIndexing
import Poise.StreamFraming
import Poise.StreamSending
import Poise.DatagramBuilding
import Poise.SegmentChecksum
import Poise.PolicyTexts
import Poise.MonitorTemplate
import Poise.TemplateDeclarations
