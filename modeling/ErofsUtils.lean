import ErofsUtils.Build.Addresses
import ErofsUtils.Build.BlobCalls
import ErofsUtils.Build.Enumeration
import ErofsUtils.Build.InlineTail
import ErofsUtils.Build.Represents
import ErofsUtils.Build.Reproducible
import ErofsUtils.Build.Slots
import ErofsUtils.Build.SourceRoot
import ErofsUtils.Fs.Arithmetic
import ErofsUtils.Fs.ChunkFiles
import ErofsUtils.Fs.HandleRuns
import ErofsUtils.Fs.InodeBounds
import ErofsUtils.Fs.Listing
import ErofsUtils.Fs.Logical
import ErofsUtils.Fs.WellFormedDir
import ErofsUtils.Fs.XattrSpans
import ErofsUtils.Roundtrip.Attributes
import ErofsUtils.Roundtrip.FileData
import ErofsUtils.Roundtrip.Holes
import ErofsUtils.Roundtrip.NameOrder
import ErofsUtils.Roundtrip.Service
import ErofsUtils.Roundtrip.Symlink
import ErofsUtils.Roundtrip.Tree
import ErofsUtils.Roundtrip.Xattrs
import ErofsUtils.Text.Utf8
