import ZigCst.CommandLine

/-!
# The program

Reads the file that the arguments name and prints the report on it.
-/

namespace ZigCst
namespace CommandLine

/-- The text of a file, or why there is none. -/
def readSource (path : String) : IO (Except ReadError Text) := do
  try
    return .ok (← IO.FS.readFile path).toList
  catch
    | .noFileOrDirectory .. => return .error .missing
    | .inappropriateType .. => return .error .folder
    | e => return .error (.other (toString e).toList)

def usage : String := "usage: [--color auto|always|never] check|tokens|tree PATH"

end CommandLine
end ZigCst

open ZigCst.CommandLine

/-- Runs the program; the result is its exit code. -/
def main (args : List String) : IO UInt32 := do
  match Options.ofArgs? (args.map String.toList) with
  | none =>
      IO.eprintln usage
      return 2
  | some options =>
      let file ← readSource (String.ofList options.path)
      let isTerminal ← (← IO.getStderr).isTty
      match run isTerminal options file with
      | none => return 101
      | some report =>
          (← IO.getStdout).putStr (String.ofList report.out)
          (← IO.getStderr).putStr (String.ofList report.err)
          return report.code.toUInt32
