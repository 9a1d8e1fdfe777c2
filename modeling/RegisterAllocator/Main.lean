import RegisterAllocator.Command.Run

/-!
# The command line
-/

namespace RegisterAllocator.Command

/-- The number of an error of the operating system, which may be given as its negative. -/
def errorNumber (code : UInt32) : Nat := if code < 0x80000000 then code.toNat else (0 - code).toNat

def FileError.ofNumber (number : Nat) (details : String) : FileError :=
  match number with
  | 2 => .missing
  | 20 => .notDirectory
  | 21 => .isDirectory
  | 36 => .tooLong
  | _ => .other (details ++ " (os error " ++ toString number ++ ")")

def FileError.ofSystem : IO.Error → FileError
  | .noFileOrDirectory _ code details | .inappropriateType _ code details | .invalidArgument _ code details
  | .permissionDenied _ code details | .resourceExhausted _ code details | .noSuchThing _ code details =>
    .ofNumber (errorNumber code) details
  | error => .other (toString error)

def guarded {α : Type} (action : IO α) : IO (Except FileError α) := do
  try return .ok (← action)
  catch error => return .error (.ofSystem error)

partial def readStream (stream : IO.FS.Stream) (before : ByteArray) : IO ByteArray := do
  let bytes ← stream.read 65536
  if bytes.isEmpty then return before
  readStream stream (before ++ bytes)

def systemFiles : Files IO where
  standardInput := guarded do readStream (← IO.getStdin) .empty
  read name := guarded (IO.FS.readBinFile name)
  write name content := guarded (IO.FS.writeBinFile name content.toUTF8)

end RegisterAllocator.Command

def main (arguments : List String) : IO UInt32 := do
  let outcome ← RegisterAllocator.Command.run RegisterAllocator.Command.systemFiles arguments
  IO.eprint outcome.report
  IO.print outcome.output
  return outcome.status.toUInt32
