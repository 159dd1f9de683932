import EditableMarkup.CommandLine.Run
import Std.Time.DateTime.Timestamp

/-!
# The program

Reads the input file, prints the answer and exits with its code.
-/

open EditableMarkup CommandLine

/-- The bytes of a file, if it can be read. -/
def readInput (path : String) : IO (Option ByteArray) := do
  try
    return some (← IO.FS.readBinFile path)
  catch _ => return none

/-- What the program says when it ends without an answer. -/
def crashText : Crash → String
  | .missingFile => "The input file cannot be read"
  | .notText => "The input file is not text in UTF-8"
  | .literal _ => "A literal has no value"
  | .unwritable => "An integer has too many digits"

/-- A clock that shows the time at which the program started. -/
def startClock : IO Clock := do
  let now := (← Std.Time.Timestamp.now).toNanosecondsSinceUnixEpoch.toInt
  return { now := now.fdiv 1000, tick := 0 }

/-- The command line. -/
def main (arguments : List String) : IO UInt32 := do
  match optionsOf arguments with
  | .error refusal =>
    let answer := refusalAnswer refusal
    if answer.output.isEmpty then IO.eprintln usage else IO.print answer.output
    return answer.exit.toUInt32
  | .ok options =>
    let bytes ← readInput options.input
    let start ← IO.rand 0 (Nat.pow 36 9 - 1)
    match answer options bytes { supply := ⟨start⟩, clock := ← startClock } with
    | .ok answer =>
      IO.print answer.output
      return answer.exit.toUInt32
    | .error crash =>
      IO.eprintln (crashText crash)
      return 1
