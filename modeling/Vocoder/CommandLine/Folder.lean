/-!
Files of a folder, and how names lead to them. A name is a path of components that is followed one
by one, from the folder or from the root of the system around it. A folder inside the folder is
there as soon as a file lies in it.
-/

namespace Vocoder.CommandLine

/-- Why a file cannot be used. -/
inductive FileCause where
  | missing
  | notFolder
  | isFolder
  | nameTooLong
  | noDevice
  /-- Another cause, in the words of the system. -/
  | other (text : String)
deriving DecidableEq, Repr

def FileCause.message : FileCause → String
  | .missing => "no such file or directory"
  | .notFolder => "not a directory"
  | .isFolder => "is a directory"
  | .nameTooLong => "file name too long"
  | .noDevice => "no such device or address"
  | .other text => text

/-- What was tried, on which file, and why it failed. -/
structure FileError where
  action : String
  name : String
  cause : FileCause
deriving DecidableEq, Repr

def FileError.message (error : FileError) : String :=
  error.action ++ " " ++ error.name ++ ": " ++ error.cause.message

/-- The files of a folder, each with its path. -/
structure Folder where
  files : List (String × List UInt8)
deriving DecidableEq, Repr

namespace Folder

/-- Where a walk along a name stands: in the folder or below it, or elsewhere in the system. -/
inductive Spot where
  | inside (path : List String)
  | outside (path : List String)
deriving DecidableEq, Repr

/-- What a name leads to. -/
inductive Target where
  | file (path : String)
  | folder
  /-- The device that is empty and takes everything. -/
  | null
  /-- The standard input as a device. What is written to it is lost. -/
  | input
  /-- The standard output as a device. There is nothing to be read from it. -/
  | output
  /-- The terminal, of which the tools have none. -/
  | terminal
  /-- A place for a new file. -/
  | vacant (path : String)
  /-- A place for a new file that is not below the folder. -/
  | elsewhere
  /-- A place where nothing is and no file can be made. -/
  | barred
deriving DecidableEq, Repr

def get? (folder : Folder) (path : String) : Option (List UInt8) := folder.files.lookup path

def put (folder : Folder) (path : String) (content : List UInt8) : Folder :=
  if (folder.get? path).isSome then
    ⟨folder.files.map fun file => if file.1 = path then (path, content) else file⟩
  else ⟨folder.files ++ [(path, content)]⟩

/-- Whether files lie below a path. -/
def hasFolder (folder : Folder) (path : String) : Bool :=
  folder.files.any fun file => file.1.startsWith (path ++ "/")

/-- The place of the folder in the system. -/
def home : List String := ["tmp", "work"]

/-- The paths in the system that lead to the folder. -/
def homePaths : List (List String) := [home, ["proc", "self", "cwd"]]

/-- The folders right below the root of the system. -/
def systemFolders : List String :=
  ["bin", "boot", "dev", "etc", "home", "lib", "media", "mnt", "opt", "proc", "root", "run", "sbin",
    "srv", "sys", "tmp", "usr", "var"]

/-- The folders further down in the system through which names lead. -/
def deepFolders : List (List String) :=
  [["dev", "fd"], ["dev", "pts"], ["dev", "shm"], ["proc", "self"], ["proc", "self", "fd"],
    ["usr", "bin"], ["usr", "lib"], ["usr", "local"], ["usr", "share"], ["var", "lib"],
    ["var", "log"], ["var", "tmp"]]

def inputPaths : List (List String) :=
  [["dev", "stdin"], ["dev", "fd", "0"], ["proc", "self", "fd", "0"]]

def outputPaths : List (List String) :=
  [["dev", "stdout"], ["dev", "fd", "1"], ["proc", "self", "fd", "1"]]

/-- The paths of the error stream, where the log goes. -/
def errorPaths : List (List String) :=
  [["dev", "stderr"], ["dev", "fd", "2"], ["proc", "self", "fd", "2"]]

/-- The bytes of the longest component of a name. -/
def maxComponentSize : Nat := 255

/-- The bytes of the longest name. -/
def maxNameSize : Nat := 4095

/-- The spot one level up. The root is its own parent. -/
def Spot.parent : Spot → Spot
  | .inside [] => .outside home.dropLast
  | .inside path => .inside path.dropLast
  | .outside path => .outside path.dropLast

def Spot.enter (step : String) : Spot → Spot
  | .inside path => .inside (path ++ [step])
  | .outside path =>
    if homePaths.contains (path ++ [step]) then .inside [] else .outside (path ++ [step])

/-- What is at a spot. Of the system there are the folders below the root and a few devices. -/
def targetAt (folder : Folder) : Spot → Target
  | .inside [] | .outside [] => .folder
  | .inside path =>
    let name := "/".intercalate path
    if (folder.get? name).isSome then .file name
    else if folder.hasFolder name then .folder
    else .vacant name
  | .outside [name] => if systemFolders.contains name then .folder else .elsewhere
  | .outside path =>
    if deepFolders.contains path then .folder
    else if path = ["dev", "null"] then .null
    else if path = ["dev", "tty"] then .terminal
    else if inputPaths.contains path then .input
    else if outputPaths.contains path then .output
    else if errorPaths.contains path then .elsewhere
    else if path.head? = some "proc" || path.take 2 = ["dev", "fd"] then .barred
    else .elsewhere

/-- Follows the components of a name. A file that is to be made cannot have a name that ends like
that of a folder, whatever is there. -/
def walk (folder : Folder) (making : Bool) : Spot → List String → Except FileCause Target
  | _, [] => .ok .folder
  | spot, step :: rest =>
    if step = "" ∨ step = "." then walk folder making spot rest
    else if step = ".." then walk folder making spot.parent rest
    else if making ∧ rest ≠ [] ∧ rest.all (· = "") then .error .isFolder
    else if maxComponentSize < step.utf8ByteSize then .error .nameTooLong
    else
      match folder.targetAt (spot.enter step) with
      | .folder => walk folder making (spot.enter step) rest
      | .vacant path => if rest.isEmpty then .ok (.vacant path) else .error .missing
      | .elsewhere => if rest.isEmpty then .ok .elsewhere else .error .missing
      | .barred => .error .missing
      | target => if rest.isEmpty then .ok target else .error .notFolder

/-- What a name leads to, for a file to be read or to be made. -/
def resolve (folder : Folder) (making : Bool) (name : String) : Except FileCause Target :=
  if name = "" then .error .missing
  else if maxNameSize < name.utf8ByteSize then .error .nameTooLong
  else
    let start : Spot := if name.startsWith "/" then .outside [] else .inside []
    folder.walk making start (name.splitOn "/")

/-- Whether a file can be opened to be read. A folder can, though it cannot be read. -/
def openFailure? (folder : Folder) (name : String) : Option FileError :=
  match folder.resolve false name with
  | .ok (.vacant _) | .ok .elsewhere => some ⟨"open", name, .missing⟩
  | .ok .terminal => some ⟨"open", name, .noDevice⟩
  | .ok _ => none
  | .error cause => some ⟨"open", name, cause⟩

def read (folder : Folder) (name : String) : Except FileError (List UInt8) :=
  match folder.resolve false name with
  | .ok (.file path) => .ok ((folder.get? path).getD [])
  | .ok .folder => .error ⟨"read", name, .isFolder⟩
  | .ok .null | .ok .input | .ok .output => .ok []
  | .ok (.vacant _) | .ok .elsewhere | .ok .barred => .error ⟨"open", name, .missing⟩
  | .ok .terminal => .error ⟨"open", name, .noDevice⟩
  | .error cause => .error ⟨"open", name, cause⟩

/-- The folder with an empty file of a name in place of what was there. -/
def create (folder : Folder) (name : String) : Except FileError Folder :=
  match folder.resolve true name with
  | .ok (.file path) | .ok (.vacant path) => .ok (folder.put path [])
  | .ok .folder => .error ⟨"open", name, .isFolder⟩
  | .ok .null | .ok .input | .ok .output | .ok .elsewhere => .ok folder
  | .ok .barred => .error ⟨"open", name, .missing⟩
  | .ok .terminal => .error ⟨"open", name, .noDevice⟩
  | .error cause => .error ⟨"open", name, cause⟩

/-- The folder with more bytes at the end of a file. -/
def append (folder : Folder) (name : String) (content : List UInt8) : Folder :=
  match folder.resolve true name with
  | .ok (.file path) => folder.put path ((folder.get? path).getD [] ++ content)
  | _ => folder

end Folder

end Vocoder.CommandLine
