import CommentSweep.CommandLine.Capture
import CommentSweep.CommandLine.Sweep
import CommentSweep.Proofs.ControlDocument.RoundTrip
import CommentSweep.Proofs.Sweep.Preservation
import CommentSweep.Proofs.Sweep.Replay
import CommentSweep.Proofs.Sweep.Rehearsal
import CommentSweep.Proofs.Sweep.Selection
import CommentSweep.Proofs.Sweep.Tracing
import CommentSweep.Proofs.Sweep.Reach
import CommentSweep.Proofs.Sweep.Shortening
import CommentSweep.Proofs.ControlDocument.Grammar
import CommentSweep.Proofs.ControlDocument.Decoding
import CommentSweep.Proofs.ControlDocument.Appending
import CommentSweep.Proofs.ControlDocument.Lookahead
import CommentSweep.Proofs.Comment.Character
import CommentSweep.Proofs.Comment.Reading
import CommentSweep.Proofs.Comment.Pass
import CommentSweep.Proofs.Comment.Cursor
import CommentSweep.Proofs.FileTree.Change
import CommentSweep.Proofs.FileTree.Staging
import CommentSweep.Proofs.FileTree.Writing
import CommentSweep.Proofs.Job.Running
import CommentSweep.Proofs.Job.EndToEnd
import CommentSweep.Proofs.Sweep.LineEndings
import CommentSweep.Proofs.FileTree.Editing
import CommentSweep.Proofs.Job.Applying
import CommentSweep.Proofs.Job.Reordering
import CommentSweep.Proofs.Job.Accounting
import CommentSweep.Proofs.Job.DryRun
import CommentSweep.Proofs.Sweep.Shrinking
import CommentSweep.Proofs.Sweep.Untrimmed
import CommentSweep.Proofs.Job.InPlace
import CommentSweep.Proofs.Job.Disturbance
