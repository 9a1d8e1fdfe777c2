import RegisterAllocator.Command.Run
import RegisterAllocator.Text.Split

/-!
# Folders

A folder of files as a value, in which a command can be run without touching any real file.

A path is followed name by name from the folder, or from the top if it starts with a slash. Every name but the last has
to lead to a directory; a single dot leads back to where it stands and two dots lead up. Of the places outside of the
folder only the usual directories at the top and a few devices are known, and what is written elsewhere is not kept.
-/

namespace RegisterAllocator.Command

structure Path where
  /-- Whether it starts at the top. -/
  absolute : Bool
  /-- The names between the slashes. -/
  names : List String
  /-- Whether a slash follows the last name. -/
  trailing : Bool
deriving DecidableEq, Repr

namespace Path

/-- The length of the longest path, in bytes. -/
def maxLength : Nat := 4095

/-- The length of the longest name, in bytes. -/
def maxName : Nat := 255

def read (text : String) : Except FileError Path :=
  if text = "" then .error .missing
  else if maxLength < text.utf8ByteSize then .error .tooLong
  else
    let pieces := Text.splitAt '/' text.toList
    .ok {
      absolute := pieces.head? = some []
      names := (pieces.filter (· ≠ [])).map String.ofList
      trailing := pieces.getLast? = some [] }

end Path

/-- A file that is not kept in any directory. -/
inductive Device where
  /-- It is empty and takes whatever is written to it. -/
  | null
  | standardInput
  | standardOutput
  | standardError
deriving DecidableEq, Repr

inductive Place where
  /-- A directory of the folder; the folder itself has no names. -/
  | inside (names : List String)
  /-- A directory above the folder. -/
  | above
  /-- A directory by its names from the top. -/
  | system (names : List String)
deriving DecidableEq, Repr

namespace Place

/-- The directory that a directory is in; the topmost one is in itself. -/
def parent : Place → Place
  | inside [] | above => above
  | inside names => inside names.dropLast
  | system names => system names.dropLast

end Place

inductive Entry where
  | directory (place : Place)
  /-- A file of the folder. -/
  | file (names : List String)
  | device (known : Device)
  /-- Nothing yet. -/
  | vacant (place : Place)
deriving DecidableEq, Repr

def topDirectories : List String :=
  ["bin", "boot", "dev", "etc", "home", "lib", "media", "mnt", "opt", "proc", "root", "run", "sbin", "srv", "sys", "tmp",
    "usr", "var"]

namespace Device

def ofName? : String → Option Device
  | "null" => some null
  | "stdin" => some standardInput
  | "stdout" => some standardOutput
  | "stderr" => some standardError
  | _ => none

end Device

def Entry.ofSystem (names : List String) : Entry :=
  match names with
  | [name] => if name ∈ topDirectories then .directory (.system names) else .vacant (.system names)
  | ["dev", name] =>
    match Device.ofName? name with
    | some known => .device known
    | none => .vacant (.system names)
  | _ => .vacant (.system names)

/-- A folder and the standard streams of the command that is run in it. -/
structure Folder where
  /-- The files, by the names that lead to them. -/
  files : List (List String × ByteArray) := []
  standardInput : ByteArray := .empty
  /-- What was written to the standard output as a file. -/
  standardOutput : String := ""
  /-- What was written to the standard error as a file. -/
  standardError : String := ""

namespace Folder

def isDirectory (f : Folder) (names : List String) : Bool :=
  f.files.any fun (file, _) => names.length < file.length && names.isPrefixOf file

def find? (f : Folder) (names : List String) : Option ByteArray := f.files.lookup names

def look (f : Folder) (place : Place) (name : String) : Except FileError Entry :=
  if name = "." then .ok (.directory place)
  else if name = ".." then .ok (.directory place.parent)
  else if Path.maxName < name.utf8ByteSize then .error .tooLong
  else
    match place with
    | .inside names =>
      let names := names ++ [name]
      if f.isDirectory names then .ok (.directory (.inside names))
      else if (f.find? names).isSome then .ok (.file names)
      else .ok (.vacant (.inside names))
    | .above => .ok (.vacant .above)
    | .system names => .ok (.ofSystem (names ++ [name]))

def enter (f : Folder) (place : Place) (name : String) : Except FileError Place := do
  match ← f.look place name with
  | .directory place => return place
  | .vacant _ => throw .missing
  | .file _ | .device _ => throw .notDirectory

/-- The directory that all names of a path but the last lead to, and the last name. -/
def approach (f : Folder) (path : Path) : Except FileError (Place × Option String) := do
  let place ← path.names.dropLast.foldlM f.enter (if path.absolute then .system [] else .inside [])
  return (place, path.names.getLast?)

def read (f : Folder) (text : String) : Except FileError ByteArray := do
  let path ← Path.read text
  let (place, some name) ← f.approach path | throw .isDirectory
  match ← f.look place name with
  | .directory _ => throw .isDirectory
  | .vacant _ => throw .missing
  | .file names => if path.trailing then throw .notDirectory else return (f.find? names).getD .empty
  | .device known =>
    if path.trailing then throw .notDirectory
    else if known = .standardInput then return f.standardInput
    else return .empty

def put (f : Folder) (names : List String) (content : String) : Folder :=
  { f with files := f.files.filter (·.1 ≠ names) ++ [(names, content.toUTF8)] }

/-- Write a file. A path that ends in a slash cannot name one, whatever its last name is. -/
def write (f : Folder) (text content : String) : Except FileError Folder := do
  let path ← Path.read text
  let (place, some name) ← f.approach path | throw .isDirectory
  if path.trailing then throw .isDirectory
  match ← f.look place name with
  | .directory _ => throw .isDirectory
  | .file names | .vacant (.inside names) => return f.put names content
  | .device .standardOutput => return { f with standardOutput := f.standardOutput ++ content }
  | .device .standardError => return { f with standardError := f.standardError ++ content }
  | .device _ | .vacant _ => return f

def changes (f before : Folder) : List (String × ByteArray) :=
  (f.files.filter fun (names, content) => (before.find? names).map ByteArray.data ≠ some content.data).map
    fun (names, content) => ("/".intercalate names, content)

def ofFiles (files : List (String × ByteArray)) (standardInput : ByteArray) : Folder where
  files := files.map fun (text, content) =>
    (((Text.splitAt '/' text.toList).map String.ofList).filter fun name => name ≠ "" ∧ name ≠ ".", content)
  standardInput := standardInput

def surroundings : Files (StateM Folder) where
  standardInput := do return .ok (← get).standardInput
  read path := do return (← get).read path
  write path content := do
    match (← get).write path content with
    | .ok folder => set folder; return .ok ()
    | .error error => return .error error

def run (f : Folder) (arguments : List String) : Outcome × Folder :=
  let (outcome, after) := (Command.run surroundings arguments).run f
  ({ outcome with
      output := outcome.output ++ after.standardOutput
      report := outcome.report ++ after.standardError }, after)

end Folder

end RegisterAllocator.Command
