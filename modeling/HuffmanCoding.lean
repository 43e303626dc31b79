import HuffmanCoding.Binary
import HuffmanCoding.Binary.Codecs
import HuffmanCoding.Binary.Tables
import HuffmanCoding.Bits
import HuffmanCoding.Bits.ByteReader
import HuffmanCoding.Bits.ByteWriter
import HuffmanCoding.Bits.Cursor
import HuffmanCoding.Bits.Input
import HuffmanCoding.Bits.Lemmas
import HuffmanCoding.Bits.Number
import HuffmanCoding.Bits.Words
import HuffmanCoding.Codebook
import HuffmanCoding.Codebook.Encoding
import HuffmanCoding.Codec.AnyCodec
import HuffmanCoding.Codec.Characters
import HuffmanCoding.Codec.Lifecycle
import HuffmanCoding.Codec.Tables
import HuffmanCoding.Codec.TextLists
import HuffmanCoding.Codec.Texts
import HuffmanCoding.Codec.Update
import HuffmanCoding.CodecFile
import HuffmanCoding.CodecKind
import HuffmanCoding.Codeword
import HuffmanCoding.Digest
import HuffmanCoding.Error
import HuffmanCoding.Frequencies
import HuffmanCoding.Frequencies.Corpus
import HuffmanCoding.PackedStream
import HuffmanCoding.Proofs.Accepting
import HuffmanCoding.Proofs.Accounting
import HuffmanCoding.Proofs.Binary
import HuffmanCoding.Proofs.Binary.Codecs
import HuffmanCoding.Proofs.BitPlaces
import HuffmanCoding.Proofs.Bits
import HuffmanCoding.Proofs.ByteReader
import HuffmanCoding.Proofs.ByteWriter
import HuffmanCoding.Proofs.Bytewise
import HuffmanCoding.Proofs.Careful
import HuffmanCoding.Proofs.Codebook
import HuffmanCoding.Proofs.CodebookGrammar
import HuffmanCoding.Proofs.Codec.Built
import HuffmanCoding.Proofs.Codec.Decoding
import HuffmanCoding.Proofs.Codec.Failures
import HuffmanCoding.Proofs.Codec.Files
import HuffmanCoding.Proofs.Codec.Framing
import HuffmanCoding.Proofs.Codec.InUse
import HuffmanCoding.Proofs.Codec.Learning
import HuffmanCoding.Proofs.Codec.Lifecycle
import HuffmanCoding.Proofs.Codec.Padding
import HuffmanCoding.Proofs.Codec.Reachable
import HuffmanCoding.Proofs.Codec.RoundTrip
import HuffmanCoding.Proofs.Codec.Safety
import HuffmanCoding.Proofs.Codec.Saving
import HuffmanCoding.Proofs.Codec.Symbolwise
import HuffmanCoding.Proofs.Codec.Texts
import HuffmanCoding.Proofs.Codec.Update
import HuffmanCoding.Proofs.CodecFile
import HuffmanCoding.Proofs.CodecFile.Framing
import HuffmanCoding.Proofs.Codeword
import HuffmanCoding.Proofs.Encoding
import HuffmanCoding.Proofs.Grammar
import HuffmanCoding.Proofs.IntoBytes
import HuffmanCoding.Proofs.Kraft
import HuffmanCoding.Proofs.Literals
import HuffmanCoding.Proofs.Logged
import HuffmanCoding.Proofs.Lookups
import HuffmanCoding.Proofs.Mirroring
import HuffmanCoding.Proofs.Outcome
import HuffmanCoding.Proofs.PackedStream
import HuffmanCoding.Proofs.PrefixFree
import HuffmanCoding.Proofs.ReaderCalls
import HuffmanCoding.Proofs.Reading
import HuffmanCoding.Proofs.Registry.Building
import HuffmanCoding.Proofs.Registry.Consistent
import HuffmanCoding.Proofs.Registry.Growth
import HuffmanCoding.Proofs.Registry.Honouring
import HuffmanCoding.Proofs.Registry.Identifiers
import HuffmanCoding.Proofs.Registry.Manifest
import HuffmanCoding.Proofs.Registry.NextBlock
import HuffmanCoding.Proofs.Registry.StoredTypes
import HuffmanCoding.Proofs.RowOverlaps
import HuffmanCoding.Proofs.Scripts
import HuffmanCoding.Proofs.StoredRows
import HuffmanCoding.Proofs.StreamContent
import HuffmanCoding.Proofs.Tables
import HuffmanCoding.Proofs.TokenOrder
import HuffmanCoding.Proofs.Training
import HuffmanCoding.Proofs.Tree.Alphabet
import HuffmanCoding.Proofs.Tree.Arena
import HuffmanCoding.Proofs.Tree.Bounded
import HuffmanCoding.Proofs.Tree.Canonical
import HuffmanCoding.Proofs.Tree.ConsecutiveWays
import HuffmanCoding.Proofs.Tree.FullCodes
import HuffmanCoding.Proofs.Tree.GrownNodes
import HuffmanCoding.Proofs.Tree.Hanging
import HuffmanCoding.Proofs.Tree.HeavierHigher
import HuffmanCoding.Proofs.Tree.LengthCounts
import HuffmanCoding.Proofs.Tree.LengthLimit
import HuffmanCoding.Proofs.Tree.LimitInWords
import HuffmanCoding.Proofs.Tree.Merging
import HuffmanCoding.Proofs.Tree.NodeSums
import HuffmanCoding.Proofs.Tree.NodesFromLengths
import HuffmanCoding.Proofs.Tree.Numbering
import HuffmanCoding.Proofs.Tree.Optimality
import HuffmanCoding.Proofs.Tree.Paths
import HuffmanCoding.Proofs.Tree.Walk
import HuffmanCoding.Proofs.Warnings
import HuffmanCoding.Proofs.WeightedLength
import HuffmanCoding.Proofs.WindowCoverage
import HuffmanCoding.Proofs.WindowDecoder
import HuffmanCoding.Proofs.WindowTable
import HuffmanCoding.Proofs.WordNumbers
import HuffmanCoding.Registry
import HuffmanCoding.Registry.StoredTypes
import HuffmanCoding.Statistics
import HuffmanCoding.Symbol
import HuffmanCoding.TableConfig
import HuffmanCoding.Text.CharacterSet
import HuffmanCoding.Text.CharacterSet.Extending
import HuffmanCoding.Text.CharacterSet.Invisible
import HuffmanCoding.Text.CharacterSet.Unassigned
import HuffmanCoding.Text.Hexadecimal
import HuffmanCoding.Text.Quoted
import HuffmanCoding.Text.SpelledOut
import HuffmanCoding.Text.Utf8
import HuffmanCoding.Tree
import HuffmanCoding.Tree.Arena
import HuffmanCoding.Tree.Build
import HuffmanCoding.Tree.Canonical
import HuffmanCoding.Tree.LengthLimit
import HuffmanCoding.Tree.LimitInWords
import HuffmanCoding.Tree.Merge
import HuffmanCoding.Tree.NodesFromLengths
import HuffmanCoding.Warning
import HuffmanCoding.Weight
import HuffmanCoding.WindowDecoder
import HuffmanCoding.WindowTable
