import BpfVerify.DiffSeed
import BpfVerify.LocalStorageRuns
import BpfVerify.LruRuns
import BpfVerify.LpmRuns
import BpfVerify.BloomFilter
import BpfVerify.UnionFind
import BpfVerify.MinHeap
import BpfVerify.Ratelimit
import BpfVerify.LruFree
import BpfVerify.CacheIndex
import BpfVerify.DiffCompare
import BpfVerify.BitmapRange
import BpfVerify.SeqBufHex
import BpfVerify.Unescape
import BpfVerify.BaselineUpdate
import BpfVerify.Tristate
import BpfVerify.TnumSoundness
import BpfVerify.HexDump
import BpfVerify.FuncProto
import BpfVerify.PolynomialCalc
import BpfVerify.NameToInt
import BpfVerify.ObjName
import BpfVerify.ArrayMap
import BpfVerify.HashTab
import BpfVerify.WordMix
import BpfVerify.Regex
import BpfVerify.Fuzz
import BpfVerify.BitScan
import BpfVerify.CTokens
import BpfVerify.SeedMixer
import BpfVerify.Brackets
import BpfVerify.ShimDrift
import BpfVerify.DriftCode
import BpfVerify.DiffRun
import BpfVerify.Numeral
import BpfVerify.FuzzMain
import BpfVerify.LpmShape
import BpfVerify.LruDrain
import BpfVerify.ExchangeSort
import BpfVerify.MpiInternal
import BpfVerify.Arcs
import BpfVerify.Cnum
import BpfVerify.CnumSoundness
import BpfVerify.Templates
import BpfVerify.Targets
import BpfVerify.Marking
import BpfVerify.HashTable
import BpfVerify.LiveRegs
import BpfVerify.NumberScan
import BpfVerify.ProgAttach
import BpfVerify.Cpumask
import BpfVerify.DriftSummary
import BpfVerify.CopyLoops
import BpfVerify.Timecounter
import BpfVerify.MemMove
