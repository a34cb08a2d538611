import TextCursor.Exact
import TextCursor.Inspect
import TextCursor.Retry
import TextCursor.Search
import TextCursor.Session
import TextCursor.Proofs.Tiling
import TextCursor.Proofs.Window
import TextCursor.Proofs.Characters
import TextCursor.Proofs.Literals
import TextCursor.Proofs.Lockstep
import TextCursor.Proofs.Exactness
import TextCursor.Proofs.Translation
import TextCursor.Proofs.Erasure
import TextCursor.Proofs.Occurrences
import TextCursor.Proofs.Sequencing
import TextCursor.Proofs.Alignment
import TextCursor.Proofs.Retrying
import TextCursor.Proofs.Replay
import TextCursor.Proofs.Extension
import TextCursor.Proofs.Size
import TextCursor.Proofs.Ending
import TextCursor.Proofs.Inspection
import TextCursor.Proofs.Rounding
