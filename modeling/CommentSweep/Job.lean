import CommentSweep.FileTree.Update
import CommentSweep.Notice

/-!
# Jobs on files

A job states what it needs, one request at a time, and is carried out on a file tree.
-/

namespace CommentSweep

/-- A job that ends with a value. -/
inductive Job (α : Type) : Type where
  | done (value : α)
  | openPath (path : Text) (next : Except Fault Opened → Job α)
  | replace (path : Text) (bytes : Bytes) (next : Except Failure Unit → Job α)
  | notify (notice : Notice) (next : Job α)

namespace Job

variable {α β : Type}

/-- Go on with a second job when the first one has ended. -/
def andThen : Job α → (α → Job β) → Job β
  | .done value, k => k value
  | .openPath path next, k => .openPath path fun answer => (next answer).andThen k
  | .replace path bytes next, k => .replace path bytes fun answer => (next answer).andThen k
  | .notify notice next, k => .notify notice (next.andThen k)

instance : Monad Job where
  pure := .done
  bind := andThen

def access (path : Text) : Job (Except Fault Opened) := .openPath path .done

def readText (path : Text) : Job (Except Fault Text) :=
  .openPath path fun answer => .done (answer.bind Opened.readText)

/-- Write a text over a file. -/
def replaceText (path text : Text) : Job (Except Failure Unit) := .replace path (encode text) .done

def tell (notice : Notice) : Job Unit := .notify notice (.done ())

def tellAll (notices : List Notice) : Job Unit := notices.foldr .notify (.done ())

end Job

/-- What carrying out a job on a file tree gives. -/
structure Completion (α : Type) where
  value : α
  tree : FileTree
  notices : List Notice

/-- Carry out a job on a file tree. -/
def Job.runIn {α : Type} (around : Surroundings) : Job α → FileTree → Completion α
  | .done value, tree => ⟨value, tree, []⟩
  | .openPath path next, tree => (next (around.openPath tree path)).runIn around tree
  | .replace path bytes next, tree =>
    let replaced := around.replace tree path bytes
    (next replaced.1).runIn around replaced.2
  | .notify notice next, tree =>
    let rest := next.runIn around tree
    { rest with notices := notice :: rest.notices }

/-- Carry out a job where nothing but the tree prevents it. -/
def Job.run {α : Type} (job : Job α) (tree : FileTree) : Completion α :=
  job.runIn .undisturbed tree

namespace Job

variable {α β : Type}

@[simp] theorem runIn_pure (around : Surroundings) (value : α) (tree : FileTree) :
    (pure value : Job α).runIn around tree = ⟨value, tree, []⟩ := rfl

/-- Jobs in sequence work on the tree one after the other, and their notices follow each other. -/
theorem runIn_bind (around : Surroundings) (job : Job α) (k : α → Job β) (tree : FileTree) :
    (job >>= k).runIn around tree =
      let first := job.runIn around tree
      let second := (k first.value).runIn around first.tree
      ⟨second.value, second.tree, first.notices ++ second.notices⟩ := by
  change (job.andThen k).runIn around tree = _
  induction job generalizing tree with
  | done value => rfl
  | openPath path next ih => exact ih _ tree
  | replace path bytes next ih => exact ih _ _
  | notify notice next ih => simp [andThen, runIn, ih]

@[simp] theorem run_pure (value : α) (tree : FileTree) :
    (pure value : Job α).run tree = ⟨value, tree, []⟩ := rfl

theorem run_bind (job : Job α) (k : α → Job β) (tree : FileTree) :
    (job >>= k).run tree =
      let first := job.run tree
      let second := (k first.value).run first.tree
      ⟨second.value, second.tree, first.notices ++ second.notices⟩ :=
  runIn_bind .undisturbed job k tree

end Job

end CommentSweep
