import Bcb.Lib.CodeInterval
import Bcb.RangeCoder.RoundTrip
import Bcb.Api.StoredRows
import Bcb.Api.Integrity
import Bcb.Api.Reads
import Bcb.Api.Isolation
import Bcb.Codec.Arithmetic
import Bcb.Codec.Lockstep
import Bcb.Prior.Accepted
import Bcb.Prior.LandmarkIndex
import Bcb.Codec.Rows
import Bcb.Prior.SchemaImage
import Bcb.Bt.Plain
import Bcb.Codec.Uncached
import Bcb.Api.Reuse
import Bcb.Codec.Rotation
import Bcb.Api.Legacy
import Bcb.Bt.Exact
import Bcb.Bt.Usable
import Bcb.Bt.Overfull
import Bcb.Bt.Ample
import Bcb.Prior.Save
import Bcb.Prior.SavedImage
import Bcb.Bt.Agree
import Bcb.Bt.Accepts
import Bcb.Prior.ReadBack
import Bcb.Prior.SaveLoad
import Bcb.Lib.Bounded
import Bcb.Bt.Saturated
import Bcb.Bt.Beyond
import Bcb.Api.Framed
import Bcb.Lib.Lag
import Bcb.Codec.LagR
import Bcb.Words
import Bcb.Symdist.Normalize
import Bcb.AuxChannel.Codable
import Bcb.Prior.Close
import Bcb.RangeCoder.NoDiv
import Bcb.RangeCoder.Length
import Bcb.Prior.SameImage
import Bcb.Api.SameId
import Bcb.Api.Unhashed
import Bcb.Prior.Landmarks
import Bcb.V0.SameCounts
import Bcb.Api.Burst
import Bcb.Api.Varint
import Bcb.Prior.Padding
import Bcb.Lib.DigitSqrt
import Bcb.Bt.Isqrt
import Bcb.Lib.SquareLog
import Bcb.Lib.BitPower
import Bcb.Lib.WeightedMean
import Bcb.Bt.LutAccuracy
import Bcb.Bt.Formula
import Bcb.Bt.Grams
import Bcb.V0.Predict
import Bcb.V0.Terms
import Bcb.V0.Accuracy
import Bcb.Prior.Session
import Bcb.Lib.Foremost
import Bcb.Prior.LandmarkChoice
import Bcb.Bt.Footprint
import Bcb.Prior.WholeFile
import Bcb.Api.Shipped
import Bcb.Api.LandmarkTables
import Bcb.RangeCoder.Adaptive
import Bcb.Bt.Adaptive
import Bcb.AuxChannel.Coder
import Bcb.Lib.Histogram
import Bcb.Prior.SchemaCounts
import Bcb.Lib.SquareDigits
import Bcb.Prior.SchemaModes
import Bcb.Api.SchemaTables
import Bcb.Prior.Resumed
import Bcb.V0.Coder
import Bcb.Lib.PrefixCode
import Bcb.RangeCoder.Economy
import Bcb.Lib.Steps
import Bcb.AuxChannel.Statistics
