import Hwdb.Command
import Hwdb.FileTree
import Hwdb.Main
import Hwdb.Proofs.Accounts
import Hwdb.Proofs.BlockRules
import Hwdb.Proofs.Builder
import Hwdb.Proofs.Catalogue
import Hwdb.Proofs.Command
import Hwdb.Proofs.CommentLines
import Hwdb.Proofs.Concatenation
import Hwdb.Proofs.Entries
import Hwdb.Proofs.EntryLines
import Hwdb.Proofs.ExactReaders
import Hwdb.Proofs.FileSequence
import Hwdb.Proofs.FirstFault
import Hwdb.Proofs.IndexHistory
import Hwdb.Proofs.InlineComments
import Hwdb.Proofs.LineEndings
import Hwdb.Proofs.LineKinds
import Hwdb.Proofs.Origin
import Hwdb.Proofs.PathLabels
import Hwdb.Proofs.PropertyCheck
import Hwdb.Proofs.Rereading
import Hwdb.Proofs.RoundTrip
import Hwdb.Proofs.SortAndScan
import Hwdb.Proofs.Verdict
