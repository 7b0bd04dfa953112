import Safrn.Base.BitField
import Safrn.Base.Machine
import Safrn.Base.Parties
import Safrn.Freq.Protocol
import Safrn.Freq.Invariant
import Safrn.Freq.Result
import Safrn.Base.Loop
import Safrn.Base.SplitBuffer
import Safrn.Base.Xor
import Safrn.Base.BigEndian
import Safrn.Base.Grid
import Safrn.Base.Filling
import Safrn.Base.OrderedMap
import Safrn.Base.Triangle
import Safrn.Lookup.Table
import Safrn.Lookup.Protocol
import Safrn.Lookup.Invariant
import Safrn.Lookup.Opening
import Safrn.Lookup.Result
import Safrn.Net.Study
import Safrn.Net.QueryId
import Safrn.Net.Mesh
import Safrn.Net.Startup
import Safrn.Net.Framing
import Safrn.Net.Reader
import Safrn.Net.RoundTrip
import Safrn.Net.ConnectionHeader
import Safrn.Net.Completion
import Safrn.Net.UpdateCache
import Safrn.Java.Status
import Safrn.Ot.Cell
import Safrn.Ot.Buffers
import Safrn.Ot.Dealer
import Safrn.Ot.Invariant
import Safrn.Ot.Run
import Safrn.Garbled.Gate
import Safrn.Garbled.Circuit
import Safrn.Garbled.Correct
import Safrn.Cuckoo.Table
import Safrn.Cuckoo.Build
import Safrn.Cuckoo.Invariant
import Safrn.Cuckoo.Placement
import Safrn.Cuckoo.ResultSet
import Safrn.Cuckoo.Matches
import Safrn.Stats.Payload
import Safrn.Stats.Gram
import Safrn.Psi.Loops
import Safrn.Psi.Cells
import Safrn.Psi.Equality
import Safrn.Psi.Shares
import Safrn.Psi.BigArray
import Safrn.Psi.Protocol
import Safrn.Psi.Builds
import Safrn.Psi.Handlers
import Safrn.Psi.Result
import Safrn.Psi.Run
import Safrn.Stats.Peers
import Safrn.Stats.SharedLists
import Safrn.Stats.Exchange
import Safrn.Stats.Reconstruct
import Safrn.Stats.Statistics
import Safrn.Stats.Session
import Safrn.Stats.Ordering
import Safrn.Stats.Stages
import Safrn.Stats.Costs
import Safrn.Stats.Budget
import Safrn.Stats.PeerSet
import Safrn.Stats.House
import Safrn.Stats.Patron
import Safrn.Stats.Agreement
import Safrn.Ot.Layout
import Safrn.Base.Resume
import Safrn.Ot.Transfer
import Safrn.Ot.Delivered
import Safrn.Ot.Stored
import Safrn.Base.CrossJoin
import Safrn.Cuckoo.Groups
import Safrn.Psi.Mean
import Safrn.Http.Handler
import Safrn.Http.Pipeline
import Safrn.Base.Sharing
import Safrn.Stats.Solve
import Safrn.Stats.Solved
import Safrn.Stats.Division
import Safrn.Stats.ErrorTerms
import Safrn.Stats.Formulas
import Safrn.Base.Adjacent
import Safrn.Stats.Orientation
import Safrn.Stats.Joined
import Safrn.Stats.Totals
import Safrn.Base.LeastSquares
import Safrn.Stats.Headroom
import Safrn.Stats.Magnitude
import Safrn.Stats.OneVariable
import Safrn.Cuckoo.Encoding
import Safrn.Stats.FixedPoint
import Safrn.Stats.TableCell
import Safrn.Stats.MomentPowers
import Safrn.Stats.MomentsReceiver
import Safrn.Stats.MomentSums
import Safrn.Stats.TailTable
import Safrn.Setup.Columns
import Safrn.Base.Scatter
import Safrn.Setup.CsvLines
import Safrn.Setup.Csv
import Safrn.Setup.Places
import Safrn.Setup.Startup
import Safrn.Setup.Join
import Safrn.Base.Elimination
import Safrn.Stats.RowReduction
import Safrn.Base.Word
import Safrn.Stats.Lagrange
import Safrn.Stats.Share
import Safrn.Base.MessageCodec
import Safrn.Lookup.MessageCodec
import Safrn.Net.PeerCodec
import Safrn.Stats.PeerSetRuns
import Safrn.Base.TwosComplement
import Safrn.Base.Blocks
import Safrn.Java.BigInteger
import Safrn.Java.DotProductCell
import Safrn.Java.ByteBuf
import Safrn.Java.Charset
import Safrn.Java.RawUtil
import Safrn.Java.QueryCodec
import Safrn.Base.Euclid
import Safrn.Json.Value
import Safrn.Json.Fraction
import Safrn.Json.Lexicon
import Safrn.Json.ColumnSpec
import Safrn.Stats.TableFile
import Safrn.Stats.FtLookup
import Safrn.Cuckoo.Sizing
import Safrn.Base.MixedRadix
import Safrn.Http.RowLabels
import Safrn.Http.Parameters
import Safrn.Ot.Slots
import Safrn.Ot.Residue
import Safrn.Ot.Drawn
import Safrn.Ot.StoredResidues
import Safrn.Base.IntFormat
import Safrn.Generic.DataType
import Safrn.Generic.Order
import Safrn.Base.Extremes
import Safrn.Generic.Argmin
import Safrn.Generic.Literal
import Safrn.Base.Binary
import Safrn.Generic.ByteString
import Safrn.Generic.Bitwise
import Safrn.Generic.Arithmetic
import Safrn.Util.Sampling
import Safrn.Util.Packing
import Safrn.Util.Stoi
import Safrn.Util.Split
import Safrn.Util.ValueVector
import Safrn.Socket.StopCondition
import Safrn.Socket.Connections
import Safrn.Socket.Retry
import Safrn.Socket.Sending
import Safrn.Socket.Query
import Safrn.Base.Numerals
import Safrn.Util.SampleRows
import Safrn.Util.SampleData
import Safrn.Util.SampleAligned
import Safrn.Mpc.Mod2ToModp
import Safrn.Util.Terms
import Safrn.Util.Scientific
import Safrn.Util.Expression
import Safrn.Util.Printed
import Safrn.Base.Quotients
import Safrn.Util.Chains
import Safrn.Setup.Displayed
import Safrn.Base.Accumulate
import Safrn.Setup.RegressionReceiver
