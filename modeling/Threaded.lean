import Threaded.Main
import Threaded.Proofs.Codes
import Threaded.Proofs.Safety
import Threaded.Proofs.Ledger
import Threaded.Proofs.Unobservable
import Threaded.Proofs.Stretch
import Threaded.Proofs.Concatenation
import Threaded.Proofs.Calling
import Threaded.Proofs.Bytes
import Threaded.Proofs.Limits
import Threaded.Proofs.Overflow
import Threaded.Proofs.Nesting
import Threaded.Proofs.Slots
import Threaded.Proofs.Transcript
import Threaded.Proofs.Forward
import Threaded.Proofs.Beneath
import Threaded.Proofs.Lexing
import Threaded.Proofs.Malformed
import Threaded.Proofs.Shelf
import Threaded.Proofs.Spelling
import Threaded.Proofs.Naming
import Threaded.Proofs.Relisting
import Threaded.Proofs.Arithmetic
import Threaded.Proofs.WordList
