import PocketShell.Command.Registry

/-!
# Commands on the tree
-/

namespace PocketShell.Command.Builtin

/-- A command's first argument, without which it fails. -/
def operand (invocation : Invocation) (description : String) : Change Machine Fault String :=
  match invocation.first? with
  | some word => pure word
  | none => throw (.missingOperand description)

/-- A change of the tree, with nothing to show. What went wrong is worded by `blame`. -/
def onTree (change : Filesystem.Change) (blame : Filesystem.Fault → Fault) : Action := do
  EStateM.adaptExcept blame <|
    Change.within Machine.filesystem ({ · with filesystem := · }) change
  pure (.text "")

/-! ## Listings -/

/-- What is shown of a directory without entries. -/
def emptyListing : String := "Directory is empty"

/-- The names of directories and then of files, on one line. -/
def shortListing (entries : List Node) : String :=
  let directories := (entries.filter Node.isDirectory).map (·.name ++ "/")
  let files := (entries.filter (!·.isDirectory)).map Node.name
  Text.join "  " (directories ++ files)

/-- What a long listing shows of an entry before its name. -/
def details (attributes : Attributes) : String :=
  attributes.permissions ++ " " ++ attributes.owner ++ " " ++ attributes.updated.listing

/-- The line of an entry in a long listing. -/
def longLine : Node → String
  | .directory name attributes _ => "d" ++ details attributes ++ " " ++ name ++ "/"
  | .file name attributes content =>
    "-" ++ details attributes ++ " " ++ name ++ " (" ++ Text.decimal content.utf8ByteSize ++
      " bytes)"

/-- One line for each entry, in order. -/
def longListing (entries : List Node) : String :=
  Text.join "\n" (entries.map longLine)

def ls : Command where
  page := ⟨"ls", "List directory contents", "ls [-l] [directory]"⟩
  policy := .flags [⟨'l', "long"⟩]
  run _ invocation := do
    match (← get).filesystem.list invocation.first? with
    | .error _ => throw (.cannotAccess (invocation.first?.getD "."))
    | .ok [] => pure (.text emptyListing)
    | .ok entries =>
      pure (.text (if invocation.flag "long" then longListing entries else shortListing entries))

/-! ## The working directory -/

def cd : Command where
  page := ⟨"cd", "Change the current directory", "cd [directory]"⟩
  policy := .flags []
  run _ invocation := do
    let target := invocation.first?.getD (← get).filesystem.homePath
    onTree (.changeDirectory target) fun _ => .noSuchDirectory target

def pwd : Command where
  page := ⟨"pwd", "Print name of current/working directory", "pwd"⟩
  policy := .flags []
  run _ _ := do pure (.text (← get).filesystem.currentPath)

/-! ## Entries -/

def mkdir : Command where
  page := ⟨"mkdir", "Create a directory", "mkdir directory"⟩
  policy := .flags []
  run around invocation := do
    let name ← operand invocation "operand"
    onTree (.createDirectory around.now name) (.cannotCreateDirectory name)

def touch : Command where
  page := ⟨"touch", "Create an empty file or update its timestamp", "touch file"⟩
  policy := .flags []
  run around invocation := do
    let name ← operand invocation "file operand"
    onTree (.touch around.now name) (.cannotTouch name)

def cat : Command where
  page := ⟨"cat", "Concatenate files and print on the standard output", "cat file"⟩
  policy := .flags []
  run _ invocation := do
    let path ← operand invocation "file operand"
    match (← get).filesystem.file path with
    | .ok file => pure (.text file.content)
    | .error _ => throw (.noSuchFile path)

def rm : Command where
  page := ⟨"rm", "Remove files or directories", "rm [-r] name"⟩
  policy := .flags [⟨'r', "recursive"⟩]
  run _ invocation := do
    let name ← operand invocation "operand"
    onTree (.remove name (invocation.flag "recursive")) (.cannotRemove name)

end PocketShell.Command.Builtin
