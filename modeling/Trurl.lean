import Trurl.Oash.Murmur
import Trurl.Oash.Refusal
import Trurl.Oash.Room
import Trurl.Oash.Garbled
import Trurl.Oash.Saturation
import Trurl.Oash.Correspondence
import Trurl.Oash.FiniteMap
import Trurl.Oash.Loops
import Trurl.Oash.Capacity
import Trurl.Narray.Window
import Trurl.Narray.Deque
import Trurl.Narray.Shifted
import Trurl.Narray.Sorted
import Trurl.Narray.Search
import Trurl.Narray.Frozen
import Trurl.Nhash.FiniteMap
import Trurl.Nhash.Ledger
import Trurl.Nbuf.Stored
import Trurl.Nstore
import Trurl.Nbuf.Iterator
import Trurl.Nbuf.Fixed
import Trurl.Nbuf.Clean
import Trurl.Nstr.Escapes
import Trurl.Nstr.Bounds
import Trurl.Nlist.Sequence
import Trurl.Nlist.Uniqueness
import Trurl.Niobuf.Failing
import Trurl.Niobuf.Flush
import Trurl.Niobuf.Zstd
import Trurl.Nstream.Backends
import Trurl.Narray.Filtered
import Trurl.Narray.Truncated
import Trurl.Nstr.Tokens
import Trurl.Oash.KeyLength
import Trurl.Nhash.Enumeration
import Trurl.Duplicates
import Trurl.Releases
import Trurl.Nmalloc.Strings
import Trurl.Nmalloc.Lifetime
import Trurl.Narray.Construct
import Trurl.Narray.Growth
import Trurl.Narray.Lifespan
import Trurl.Narray.Concat
import Trurl.Narray.Uniq
import Trurl.Narray.Clone
import Trurl.Narray.FirstMatch
import Trurl.Ntuple.Sorting
import Trurl.Ntuple.Search
import Trurl.Nlist.Remove
import Trurl.Pointers
import Trurl.Nstr.Strip
import Trurl.Oash.ByteOrder
import Trurl.Oash.CellCount
import Trurl.Nmalloc.Lengths
import Trurl.Narray.Destructors
import Trurl.Narray.TimsortSorts
import Trurl.Narray.Minrun
import Trurl.Arena.Pool
import Trurl.Niobuf.Session
import Trurl.Nhash.Interchange
import Trurl.Nlist.Ledger
import Trurl.Nstr.Concat
import Trurl.Arena.Strings
import Trurl.Ntuple.FromArray
import Trurl.Nstream.Values
import Trurl.Lib.Program
import Trurl.Nstream.Files
import Trurl.Oash.Files
