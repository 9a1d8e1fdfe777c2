/-!
# Files

What a command needs of its surroundings, and why a file cannot be read or written.
-/

namespace RegisterAllocator.Command

inductive FileError where
  | missing
  /-- A part of the way to the file is a file itself. -/
  | notDirectory
  | isDirectory
  /-- The path, or a name in it, is too long. -/
  | tooLong
  /-- The bytes of the file are no text. -/
  | notText
  /-- Any other reason, in words. -/
  | other (reason : String)
deriving DecidableEq, Repr

def FileError.message : FileError → String
  | missing => "No such file or directory (os error 2)"
  | notDirectory => "Not a directory (os error 20)"
  | isDirectory => "Is a directory (os error 21)"
  | tooLong => "File name too long (os error 36)"
  | notText => "stream did not contain valid UTF-8"
  | other reason => reason

def decode (bytes : ByteArray) : Except FileError String :=
  match String.fromUTF8? bytes with
  | some text => .ok text
  | none => .error .notText

/-- The surroundings of a command: files by name, and the standard input. -/
structure Files (m : Type → Type) where
  standardInput : m (Except FileError ByteArray)
  read : String → m (Except FileError ByteArray)
  write : String → String → m (Except FileError Unit)

end RegisterAllocator.Command
