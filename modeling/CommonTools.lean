import CommonTools.Lib.CString
import CommonTools.Lib.Layout
import CommonTools.Lib.PartialList
import CommonTools.Lib.Partition
import CommonTools.Lib.SortRange
import CommonTools.Lib.Window
import CommonTools.Lib.RangeStack
import CommonTools.Lib.PartitionOrder
import CommonTools.Lib.Bisect
import CommonTools.Lib.SuffixChain
import CommonTools.Lib.BitCount
import CommonTools.Lib.ListStore
import CommonTools.Lib.Newest
import CommonTools.Lib.DoubleBuffer
import CommonTools.Index.HashVector
import CommonTools.Index.HashVectorSound
import CommonTools.Index.CommonIndex
import CommonTools.Index.CommonIndexSound
import CommonTools.Index.CommonIndexSearch
import CommonTools.Index.DlgLogIndex
import CommonTools.Index.DlgLogIndexSound
import CommonTools.Index.AhoCorasick
import CommonTools.Index.AhoCorasickSound
import CommonTools.Index.IndexDa
import CommonTools.Index.IndexDaSound
import CommonTools.Lib.Spans
import CommonTools.Index.SevenColumn
import CommonTools.Index.SevenColumnSound
import CommonTools.Simhash.SimStruct
import CommonTools.Simhash.HashSign
import CommonTools.Simhash.RedisKey
import CommonTools.Simhash.Redis
import CommonTools.Simhash.RedisSound
import CommonTools.Simhash.Request
import CommonTools.Simhash.Trim
import CommonTools.Simhash.SimConf
import CommonTools.Simhash.SimConfSound
import CommonTools.Url.UrlCode
import CommonTools.Lib.Ring
import CommonTools.Http.WaitList
import CommonTools.Http.Handles
import CommonTools.Http.Service
import CommonTools.Http.ServiceSound
import CommonTools.Lib.Search
import CommonTools.Lib.Socket
import CommonTools.Lib.Scanf
import CommonTools.Http.RecvRequest
import CommonTools.Http.RecvRequestSound
import CommonTools.Http.Message
import CommonTools.Http.HttpClient
import CommonTools.Http.HttpClientSound
import CommonTools.Lib.Chain
import CommonTools.Http.ConfigMap
import CommonTools.Http.ConfigMapSound
import CommonTools.Lib.Writes
import CommonTools.QueryMatch.ComRule
import CommonTools.QueryMatch.ComRuleSound
import CommonTools.Lib.Placement
import CommonTools.QueryMatch.RuleSelect
import CommonTools.Index.AhoCorasickLessons
import CommonTools.Index.HashVectorOrder
import CommonTools.Lib.PathTree
import CommonTools.Gary.Dictionary
import CommonTools.Gary.DictionarySound
import CommonTools.Gary.DictionaryResume
import CommonTools.Lib.TopN
import CommonTools.Lib.Heap
import CommonTools.Gary.QuickSort
import CommonTools.Gary.QuickSortSound
import CommonTools.Gary.QuickSortStack
import CommonTools.Gary.PriorSort
import CommonTools.Gary.PriorSortSound
import CommonTools.Gary.IndexBuffer
import CommonTools.Gary.IndexBufferSound
import CommonTools.Lib.Runs
import CommonTools.Simhash.Interleave
import CommonTools.Lib.Text
import CommonTools.Lib.Buffer
import CommonTools.Http.Dump
import CommonTools.Http.HttpResponse
import CommonTools.Lib.ScanMatch
import CommonTools.Http.HttpRequest
import CommonTools.Http.HttpRequestSound
import CommonTools.Http.Pipelined
import CommonTools.Http.PipelinedSound
import CommonTools.Index.CommonIndexTruncated
import CommonTools.Gary.BitMap
import CommonTools.Lib.Weights
import CommonTools.Simhash.Signature
import CommonTools.Simhash.FailedDelete
import CommonTools.Lib.RunLength
import CommonTools.Simhash.Termrate
import CommonTools.Lib.Loop
import CommonTools.Lib.Subsequence
import CommonTools.Similarity.EditDist
import CommonTools.Lib.EditScript
import CommonTools.Similarity.EditMetric
import CommonTools.Common.EditDist
import CommonTools.Lib.Separator
import CommonTools.Gary.GaryString
import CommonTools.Similarity.EditSort
import CommonTools.Index.UnionRepeats
import CommonTools.Http.ConfigImport
import CommonTools.Segment.Validate
import CommonTools.Segment.ValidateSound
import CommonTools.Index.PostingOrder
import CommonTools.Lib.InPlace
import CommonTools.QueryMatch.PuncNormalize
import CommonTools.QueryMatch.PuncNormalizeSound
import CommonTools.QueryMatch.PuncNormalizeAgain
import CommonTools.Lib.Words
import CommonTools.QueryMatch.PhraseSep
import CommonTools.QueryMatch.FullWidth
import CommonTools.Http.DumpExact
import CommonTools.Http.WritenTimeout
import CommonTools.Http.ContentBuffer
import CommonTools.Http.Chunked
import CommonTools.Url.HostPort
import CommonTools.Url.UrlRecognise
import CommonTools.Lib.Fitting
import CommonTools.StringUtil.CutString
import CommonTools.Lib.StableInsert
import CommonTools.Locate.LocateGetresult
import CommonTools.Speech.Silence
import CommonTools.Speech.Wav
import CommonTools.Index.LongQuery
import CommonTools.Lib.WarpPath
import CommonTools.Speech.HeadDTW
import CommonTools.Speech.DtwReads
import CommonTools.Speech.DtwOptimal
import CommonTools.Lib.LastKey
import CommonTools.Index.QueryWriters
import CommonTools.Index.LogText
import CommonTools.Gary.Splitters
import CommonTools.StringUtil.TrimAll
import CommonTools.Lib.Best
import CommonTools.Classify.Knn
import CommonTools.Segment.ValidateBounds
import CommonTools.Classify.SingleWord
import CommonTools.Lib.Tally
import CommonTools.Classify.FeaChi
import CommonTools.Classify.WordGram
import CommonTools.Classify.NaiveBayes
import CommonTools.Lib.TakeOut
import CommonTools.Simhash.HtmlContent
import CommonTools.Cluster.Kmeans
import CommonTools.Index.AhoCorasickLinks
import CommonTools.Lib.BreadthFirst
import CommonTools.Lib.BitField
import CommonTools.Lib.Circle
import CommonTools.Lib.XorTable
import CommonTools.DartsClone.DoubleArray
import CommonTools.DartsClone.Builder
import CommonTools.DartsClone.Search
import CommonTools.Index.AhoCorasickCom
import CommonTools.Index.AhoCorasickComFail
import CommonTools.Index.AhoCorasickComSearch
import CommonTools.Index.HashVectorSort
import CommonTools.DartsClone.BuildSound
import CommonTools.DartsClone.EmptyKeys
import CommonTools.Index.IndexDaBuilt
import CommonTools.DartsClone.CommonPrefix
