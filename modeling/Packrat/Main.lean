import Packrat.CommandLine.Report
set_option autoImplicit false
set_option relaxedAutoImplicit false

/-!
# The command

The command reads the file that its command line names, prints what the command line comes to, and
exits accordingly. A file that cannot be read is reported and ends the command with code 1.
-/

namespace Packrat.CommandLine

/-- What a path leads to. -/
def targetOf (path : String) : IO Program.Target := do
  try return .file (← IO.FS.readBinFile path)
  catch
    | .inappropriateType _ 21 _ => return .directory
    | .inappropriateType .. => return .behindFile
    | .invalidArgument .. => return .tooLong
    | _ => return .nothing

/-- Prints a report and gives the code to exit with. -/
def Report.print (report : Report) : IO UInt32 := do
  IO.print report.stdout
  IO.eprint report.stderr
  match report.ending with
  | .exit code => return code.toUInt32
  | ending =>
    IO.eprintln (ending.message?.getD "")
    return 1

end Packrat.CommandLine

/-- Runs the command. -/
def main (args : List String) : IO UInt32 := do
  let target ← match Packrat.CommandLine.read args with
    | .ok (.parse path _) => Packrat.CommandLine.targetOf path
    | _ => pure .nothing
  (Packrat.CommandLine.run args fun _ => target).print
