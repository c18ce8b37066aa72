import Knp.SmCode
import Knp.HashFile
import Knp.SmCache
import Knp.RegexpRule
import Knp.CaseMatch
import Knp.ParaMask
import Knp.ParaRetry
import Knp.SurfaceCase
import Knp.TreeExpand
import Knp.Attach
import Knp.TreePlain
import Knp.MrphTree
import Knp.CkyHeads
import Knp.CkyTotal
import Knp.DecideDpnd
import Knp.Viterbi
import Knp.TagTarget
import Knp.AltMrph
import Knp.TagCross
import Knp.CfCache
import Knp.Corefer
import Knp.CcString
import Knp.Annotation
import Knp.PrintTags
import Knp.PrintNumbers
import Knp.PrintBlocks
import Knp.PrintArcs
import Knp.PrintConsistent
import Knp.TagAgree
import Knp.ParaHeads
import Knp.ParaScore
import Knp.ParaPath
import Knp.ParaDetect
import Knp.ParaEnds
import Knp.ParaNorm
import Knp.PartialPara
import Knp.PreserveSentence
import Knp.TagCaseFrame
import Knp.FilledSlots
import Knp.EntityMention
import Knp.EntityLinks
import Knp.EntityRun
import Knp.AnaphoraCase
import Knp.AnaphoraBranch
import Knp.AnaphoraSearch
import Knp.AnaphoraSpace
import Knp.Ellipsis
import Knp.EllipsisSearch
import Knp.FeatureAssign
import Knp.TempFeature
import Knp.FeatureFunction
import Knp.FeaturePattern
import Knp.Quote
import Knp.QuoteScope
import Knp.Relax
import Knp.Koou
import Knp.KoouMatrix
import Knp.BestFirst
import Knp.ChartBeam
import Knp.Thesaurus
import Knp.SimilarCodes
import Knp.ParenSentences
import Knp.PostprocessUndo
import Knp.StrongPara
import Knp.ParaModifier
import Knp.ChiCky
import Knp.CaseBonus
import Knp.ThesaurusKey
import Knp.SmScan
import Knp.MatchScore
import Knp.AdjacentCheck
import Knp.RuleLoops
import Knp.MrphPreprocess
import Knp.TagDivision
import Knp.Homographs
import Knp.AltSwap
import Knp.AnnotationCheck
import Knp.BestFrame
import Knp.BasePhrase
import Knp.NamedEntity
import Knp.ScaseCode
import Knp.CpmCache
import Knp.TiedFrames
import Knp.ConditionalCase
import Knp.AffixStrip
import Knp.ElementBound
import Knp.NePlace
import Knp.SimilarityLaw
import Knp.CaseCandidates
import Knp.EllipsisChain
import Knp.FrameSlots
import Knp.TiedMatches
import Knp.LocationCells
import Knp.IpalFields
import Knp.AnswerString
import Knp.RelaxCompare
import Knp.ExpandParallel
import Knp.FlatSearch
import Knp.DemonstrativeRef
import Knp.ConvertCase
import Knp.HypoFeatures
import Knp.WriteWindow
import Knp.NounMerge
import Knp.BestDistinct
import Knp.ContextRank
import Knp.FirstMark
import Knp.LocationClasses
import Knp.LinkTrail
import Knp.FrameTrial
import Knp.ProbeTable
import Knp.Cdb
import Knp.CdbFind
import Knp.MakeDb
import Knp.Duplex
import Knp.Session
import Knp.ParseHeads
