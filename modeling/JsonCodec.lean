import JsonCodec.Bytes
import JsonCodec.Decimal
import JsonCodec.Location
import JsonCodec.ErrorCode
import JsonCodec.Utf8
import JsonCodec.Binary64.Basic
import JsonCodec.Binary64.Reading
import JsonCodec.Binary64.Shortest
import JsonCodec.Binary64.Text
import JsonCodec.KeyHash
import JsonCodec.KeyCache
import JsonCodec.Object
import JsonCodec.Value.Basic
import JsonCodec.Value.Number
import JsonCodec.Value.Equality
import JsonCodec.Value.Access
import JsonCodec.Value.Edit
import JsonCodec.Shared
import JsonCodec.Dialect
import JsonCodec.Numeral
import JsonCodec.Decode.Fault
import JsonCodec.Decode.Options
import JsonCodec.Decode.Scanner
import JsonCodec.Decode.StringLiteral
import JsonCodec.Decode.NumberLiteral
import JsonCodec.Decode.Reader
import JsonCodec.Decode.Document
import JsonCodec.Encode.Options
import JsonCodec.Encode.Order
import JsonCodec.Encode.Output
import JsonCodec.Encode.StringLiteral
import JsonCodec.Encode.Writer
import JsonCodec.Proofs.Grammar.Token
import JsonCodec.Proofs.Grammar.Tree
import JsonCodec.Proofs.Runs
import JsonCodec.Proofs.Decode.StringLiteral
import JsonCodec.Proofs.Decimal.Digits
import JsonCodec.Proofs.Decimal.Writing
import JsonCodec.Proofs.Decode.NumberLiteral
import JsonCodec.Proofs.Binary64.Rounding
import JsonCodec.Proofs.Binary64.Nearest
import JsonCodec.Proofs.Binary64.Reading
import JsonCodec.Proofs.Numeral
import JsonCodec.Proofs.Decimal.Numerals
import JsonCodec.Proofs.Decode.NumberValue
import JsonCodec.Proofs.KeyCache
import JsonCodec.Proofs.Object
import JsonCodec.Proofs.Decode.Container
import JsonCodec.Proofs.Decode.Value
import JsonCodec.Proofs.Grammar.Ends
import JsonCodec.Proofs.Decode.Tree
import JsonCodec.Proofs.Utf8
import JsonCodec.Proofs.Validation
import JsonCodec.Proofs.Grammar.Spelling
import JsonCodec.Proofs.Decode.Document
import JsonCodec.Proofs.Decode.Acceptance
import JsonCodec.Proofs.Decode.Prefix
import JsonCodec.Proofs.Decode.LoneNumeral
import JsonCodec.Proofs.Decode.Conservation
import JsonCodec.Proofs.Decode.Series
import JsonCodec.Proofs.Decode.Blindness
import JsonCodec.Proofs.Grammar.Keys
import JsonCodec.Proofs.Decode.Passage
import JsonCodec.Proofs.Grammar.Walk
import JsonCodec.Proofs.Grammar.Layout
import JsonCodec.Proofs.Decode.KeysTaken
import JsonCodec.Proofs.Decode.Caching
import JsonCodec.Proofs.Decode.DepthLimit
import JsonCodec.Proofs.Decode.Growth.Token
import JsonCodec.Proofs.Decode.Growth.Number
import JsonCodec.Proofs.Decode.Growth.Value
import JsonCodec.Proofs.Decode.Finality
import JsonCodec.Proofs.Binary64.Shortest
import JsonCodec.Proofs.Binary64.Text
import JsonCodec.Proofs.Binary64.Length
import JsonCodec.Proofs.FloatText
import JsonCodec.Proofs.Encode.Output
import JsonCodec.Proofs.Encode.StringLiteral
import JsonCodec.Proofs.Value.Nested
import JsonCodec.Proofs.Encode.Scalar
import JsonCodec.Proofs.Encode.Alike
import JsonCodec.Proofs.Encode.Tree
import JsonCodec.Proofs.Encode.NonFinite
import JsonCodec.Proofs.Encode.Layout
import JsonCodec.Proofs.RoundTrip
import JsonCodec.Proofs.Stream
import JsonCodec.Proofs.TextClosure
import JsonCodec.Proofs.Value.Reordered
import JsonCodec.Proofs.Encode.Canonical
import JsonCodec.Proofs.Index
import JsonCodec.Proofs.Association
import JsonCodec.Proofs.Value.Built
import JsonCodec.Proofs.Action
import JsonCodec.Proofs.Registers
import JsonCodec.Proofs.Duplicates
import JsonCodec.Proofs.Binary64.Closest
import JsonCodec.Proofs.Narrowest
import JsonCodec.Proofs.Value.Integer
import JsonCodec.Proofs.Value.Equality
import JsonCodec.Proofs.Value.Path
import JsonCodec.Proofs.Decode.Characters
import JsonCodec.Proofs.KeyCounts
import JsonCodec.Proofs.KeyHash
import JsonCodec.Proofs.Encode.Buffer
import JsonCodec.Proofs.Decode.DigitLoops
import JsonCodec.Proofs.Binary64.Recognition
import JsonCodec.Proofs.Binary64.Leftover
