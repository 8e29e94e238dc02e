import Tokenizer.Command

/-! The program: reads the file that the command names, and prints the outcome. -/
namespace Tokenizer

/-- The reason that a code of the operating system stands for. Codes may come negated. -/
def readErrorOfCode (code : UInt32) (details : String) : ReadError :=
  match if code.toInt32 < 0 then (-code).toNat else code.toNat with
  | 20 => .notDirectory
  | 21 => .isDirectory
  | 36 => .nameTooLong
  | n => .other (details ++ " (os error " ++ toString n ++ ")")

def readErrorOf : IO.Error → ReadError
  | .noFileOrDirectory .. => .notFound
  | .permissionDenied .. => .permissionDenied
  | .inappropriateType _ code details | .invalidArgument _ code details =>
    readErrorOfCode code details
  | e => .other (toString e)

def readBytes (path : String) : IO (Except ReadError (List UInt8)) := do
  try
    let bytes ← IO.FS.readBinFile path
    return .ok bytes.toList
  catch e =>
    return .error (readErrorOf e)

end Tokenizer

def main (args : List String) : IO UInt32 := do
  let logFilter? ← IO.getEnv "RUST_LOG"
  let path? := (Tokenizer.Command.parse args).toOption.bind Tokenizer.Command.path?
  let contents ← match path? with
    | some path => Tokenizer.readBytes path
    | none => pure (.ok [])
  let outcome := Tokenizer.run logFilter? (fun _ => contents) args
  IO.print outcome.stdout
  IO.eprint outcome.stderr
  return outcome.status.toUInt32
