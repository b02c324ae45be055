import Ese.Command
/-!
The program: it finds the arguments, the environment and the file, and prints the report.
-/

namespace Ese

def readSource (path : String) : IO (Except Error ByteArray) := do
  try
    return .ok (← IO.FS.readBinFile path)
  catch
    | .noFileOrDirectory .. => return .error (.io "No such file or directory (os error 2)")
    | e => return .error (.io e.toString)

end Ese

def main (args : List String) : IO UInt32 := do
  let trace ← IO.getEnv "ESEDUMP_TRACE"
  let quiet := (← IO.getEnv "RUST_LOG") == some "off"
  let source ← match args with
    | path :: _ :: _ => Ese.readSource path
    | _ => pure (.ok .empty)
  let report := Ese.Command.run (fun _ => source) trace args
  unless quiet do
    for event in Ese.Command.shown trace report.log do
      IO.eprintln event.line
  for line in report.stdout do
    IO.println line
  for line in report.stderr do
    IO.eprintln line
  return report.exitCode.toUInt32
