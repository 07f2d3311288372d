import HornClauses.Command

/-!
# The program
-/

namespace HornClauses

def readFile (path : String) : IO (Except FileFault String) := do
  try
    let bytes ← IO.FS.readBinFile path
    return match String.fromUTF8? bytes with
      | some text => .ok text
      | none => .error .notText
  catch e =>
    return match e with
      | .inappropriateType _ 21 _ => .error .isDirectory
      | .inappropriateType .. => .error .notDirectory
      | .invalidArgument .. => .error .nameTooLong
      | .permissionDenied .. => .error .denied
      | _ => .error .missing

end HornClauses

open HornClauses

/-- Read the files that the arguments name, run the command and show what it leaves behind. -/
def main (arguments : List String) : IO UInt32 := do
  let filter := ((← IO.getEnv "RUST_LOG").map Log.Filter.ofText).getD .standard
  let paths := ((Request.ofArguments? arguments).map Request.files).getD []
  let texts ← paths.mapM fun path => return (path, ← readFile path)
  let outcome := Command.run (fun path => (Bindings.get? path texts).getD (.error .missing))
    filter arguments
  IO.print outcome.output
  IO.eprint outcome.errors
  return outcome.exitCode
