import Cil.Command.Run

/-! The program: it opens the file that its arguments name and prints what the run
leaves behind. -/

/-- What became of a file. -/
def readInput (path : String) : IO (Except Cil.Error ByteArray) := do
  try
    return .ok (← IO.FS.readBinFile path)
  catch
    | .noFileOrDirectory .. => return .error .fileNotFound
    | .permissionDenied _ code details => return .error (.file code.toNat details)
    | .inappropriateType _ code details => return .error (.file code.toNat details)
    | e => return .error (.file 5 (toString e))

def main (args : List String) : IO UInt32 := do
  let request := Cil.Command.parse args
  let file ← match request.path? with
    | some path => readInput path
    | none => pure (.error .fileNotFound)
  let outcome := request.outcome file
  IO.print outcome.stdout
  IO.eprint outcome.stderr
  return outcome.exit.toUInt32
