import LithiumTools.Path
import LithiumTools.FileSystem
import LithiumTools.Resolve
import LithiumTools.Gzip
import LithiumTools.Tar
import LithiumTools.WalkDir
import LithiumTools.Compressor
import LithiumTools.Base64
import LithiumTools.ImageBase64
import LithiumTools.Proof.Resolution
import LithiumTools.Proof.Calls
import LithiumTools.Proof.Compress
import LithiumTools.Proof.Batch
import LithiumTools.Proof.Walk
import LithiumTools.Proof.Unpack
import LithiumTools.Proof.RoundTrip
import LithiumTools.Proof.Archive
import LithiumTools.Proof.Extract
import LithiumTools.Proof.ImageFiles
import LithiumTools.Proof.Overwrite
import LithiumTools.Proof.Reextract
import LithiumTools.Proof.Alphabets
