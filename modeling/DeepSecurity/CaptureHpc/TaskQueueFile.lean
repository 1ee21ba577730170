import DeepSecurity.CaptureHpc.TaskManager
import DeepSecurity.Lib.Checked
import DeepSecurity.Lib.TextFile

/-!
# The saved task queue

`TaskManager::SaveTasks` writes a line for each task, with a tab before each argument, and
`TaskManager::LoadTasks` splits the lines again. The arguments of a task that is loaded are set by
`Task::SetArgs`, whose loop goes one beyond the end of the vector.
-/

namespace CaptureHpc

open TextFile

/-- The tab, which separates the arguments. -/
def tab : UInt16 := 0x09

namespace Task

/-- What `SaveTasks` writes for a task. -/
def line (t : Task) : List UInt16 := t.processImage ++ t.arguments.flatMap (tab :: ·)

/-- `Task::SetArgs`; the last round reads `args[args.size()]`. -/
def setArgs (args : List (List UInt16)) (t : Task) : Checked Task :=
  (List.range (args.length + 1)).foldlM
    (fun t i => do
      let arg ← Checked.get args i
      return { t with arguments := t.arguments ++ [arg] }) t

/-- The tasks that can be told apart in a file: neither tabs nor line feeds, and a name. -/
structure Storable (t : Task) : Prop where
  /-- There is a name. -/
  image_ne : t.processImage ≠ []
  /-- The name has no tab. -/
  image_no_tab : tab ∉ t.processImage
  /-- The name has no line feed. -/
  image_no_line : lineFeed ∉ t.processImage
  /-- The arguments have no tabs. -/
  args_no_tab : ∀ arg ∈ t.arguments, tab ∉ arg
  /-- The arguments have no line feeds. -/
  args_no_line : ∀ arg ∈ t.arguments, lineFeed ∉ arg

/-- No arguments, and only characters that come back from a text file. -/
def Loadable (t : Task) : Prop := t.arguments = [] ∧ ∀ c ∈ t.processImage, Kept c

instance (t : Task) : Decidable t.Loadable :=
  decidable_of_iff (t.arguments = [] ∧ t.processImage.all (fun c => decide (Kept c)) = true)
    (by rw [List.all_eq_true, Loadable]; simp only [decide_eq_true_eq])

end Task

namespace TaskQueue

/-- The file with a line for each task. -/
def saveTasks (deque : List Task) : List UInt8 :=
  write (deque.flatMap fun t => t.line ++ [lineFeed])

/-- One round of the loop of `LoadTasks`. -/
def loadLine (deque : List Task) (line : List UInt16) : Checked (List Task) :=
  if line.length > 0 then do
    let splitLine := line.splitOn tab
    let image ← Checked.get splitLine 0
    let args := splitLine.drop 1
    let task : Task := ⟨image, []⟩
    let task ← if args.length > 0 then task.setArgs args else pure task
    return deque ++ [task]
  else return deque

/-- The tasks of the lines are put behind those in the deque. -/
def loadTasks (deque : List Task) (file : List UInt8) : Checked (List Task) :=
  (lines (read file)).foldlM loadLine deque

end TaskQueue

end CaptureHpc
