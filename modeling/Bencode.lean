import Bencode.Cli.Dispatch
import Bencode.Cli.Statistics
import Bencode.Cli.Traversal
import Bencode.Client.Borrowing
import Bencode.Client.Containers
import Bencode.Client.Failure
import Bencode.Client.Footprint
import Bencode.Client.Harness
import Bencode.Client.Ownership
import Bencode.Client.Requests
import Bencode.Client.Work
import Bencode.Dom.Lockstep
import Bencode.Sax.Abort
import Bencode.Sax.Acceptance
import Bencode.Sax.Continuation
import Bencode.Sax.Depth
import Bencode.Sax.Numerals
import Bencode.Sax.Safety
import Bencode.Sax.Trace
import Bencode.Sax.Transcript
import Bencode.Sax.Verdict
