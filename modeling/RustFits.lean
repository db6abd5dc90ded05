import RustFits.Lib.ByteFile
import RustFits.Lib.Ascii
import RustFits.Lib.Machine
import RustFits.Card
import RustFits.Parse
import RustFits.HeaderBytes
import RustFits.OpenSafety
import RustFits.Layout
import RustFits.Lib.Triple
import RustFits.Chain
import RustFits.TableHeader
import RustFits.Lib.BigEndian
import RustFits.Descriptor
import RustFits.CompressedTable.Chain
import RustFits.Lib.LruCache
import RustFits.CompressedTable.Read
import RustFits.AsciiTable.Append
import RustFits.AsciiTable.AppendRows
import RustFits.AsciiTable.AppendedFile
import RustFits.AsciiTable.AppendExact
import RustFits.AsciiTable.RowLayout
import RustFits.Reopen
import RustFits.Header.Model
import RustFits.Header.Free
import RustFits.Header.Steps
import RustFits.Header.Blocks
import RustFits.Header.Protected
import RustFits.Header.Edit
import RustFits.Header.Reopen
import RustFits.Header.Session
import RustFits.Header.Writers
import RustFits.Zimage.PlioGuards
import RustFits.Lib.BitStream
import RustFits.Lib.Binary64
import RustFits.Lib.Outcome
import RustFits.Lib.Moves
import RustFits.BinaryTable.RepackExact
import RustFits.Lib.Trace
import RustFits.GzipWriteBack
import RustFits.CompressedImage.RepackExact
import RustFits.CompressedTable.RepackExact
import RustFits.TailShift
import RustFits.Checksum.AddChecksum
import RustFits.MetaCache
import RustFits.Header.RoundTrip
import RustFits.Header.Quoted
import RustFits.CompressedImage.Decode
import RustFits.GrowFile
import RustFits.Checksum.OwnCard
import RustFits.CompressedImage.EquivalentHeader
import RustFits.Image.CreatedExtent
import RustFits.Header.NumberReaders
import RustFits.Header.TextReaders
import RustFits.Header.KeywordReaders
import RustFits.Header.ViewsAgree
import RustFits.Header.OneEntry
import RustFits.Header.NumberCards
import RustFits.Header.UpdateCopies
import RustFits.BinaryTable.HeapPass
import RustFits.Lib.Elements
import RustFits.BinaryTable.Cells
import RustFits.BinaryTable.RowLayout
import RustFits.BinaryTable.Write
import RustFits.BinaryTable.WriteCells
import RustFits.BinaryTable.Schema
import RustFits.BinaryTable.WriteRows
import RustFits.BinaryTable.WriteRoundTrip
import RustFits.Lib.PySlice
import RustFits.BinaryTable.VarWrite
import RustFits.BinaryTable.VarRuns
import RustFits.Image.Arrays
import RustFits.Image.Slice
import RustFits.Image.Strips
import RustFits.Image.ReadSlice
import RustFits.Image.WriteSlice
import RustFits.Image.WriteBox
import RustFits.ColumnEdit.Cards
import RustFits.ColumnEdit.InsertDelete
import RustFits.HeapBase
import RustFits.CompressedTable.SelectExact
import RustFits.TileCache
import RustFits.Zimage.Gzip
import RustFits.Zimage.QuantizeExact
import RustFits.Zimage.QuantizeRowZero
import RustFits.RemoteRangeExact
import RustFits.Lib.InPlace
import RustFits.Zimage.Hcompress.Bits
import RustFits.Zimage.Hcompress.Quadtree
import RustFits.Zimage.Hcompress.QuadtreeBlocks
import RustFits.Zimage.Hcompress.QuadtreeLevels
import RustFits.Zimage.Hcompress.QuadtreeExact
import RustFits.Zimage.Hcompress.Stream
import RustFits.Zimage.Hcompress.StreamExact
import RustFits.Zimage.Hcompress.TransformBlock
import RustFits.Zimage.Hcompress.TransformLevels
import RustFits.Zimage.Hcompress.Tile
