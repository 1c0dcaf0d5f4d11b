import Lox.Console
import Std.Time.DateTime.Timestamp

/-!
# The program

Without arguments it holds a conversation, with one argument it runs a file.
-/

namespace Lox

/-- More turns and nested calls than a process can take. -/
def processFuel : Nat := Nat.pow 2 62

/-- The seconds since the beginning of 1970, by the clock of the system, and none before it. -/
def currentTime : IO Float := do
  let nanoseconds := (← Std.Time.Timestamp.now).toNanosecondsSinceUnixEpoch.val.toNat
  return (nanoseconds / 1000000000).toFloat + (nanoseconds % 1000000000).toFloat / 1000000000

/-- The clock for a source: it shows the current time, and goes on by a microsecond each time a
program looks at it. -/
def systemClock : IO Clock := do
  let now ← currentTime
  return fun n => now + n.toFloat / 1000000

/-- Whether the user asked for no colours. -/
def noColor : IO Bool := return (← IO.getEnv "NO_COLOR").isSome

/-- Reads the text of a file. -/
def readText (name : String) : IO FileText := do
  try
    match String.fromUTF8? (← IO.FS.readBinFile name) with
    | some source => return .text source
    | none => return .notText
  catch
    | .noFileOrDirectory .. => return .missing
    | .inappropriateType .. => return .directory
    | e => return .unreadable (toString e)

/-- Reads on until the bytes have a newline, or to the end of the input. -/
def readLine (input : IO.FS.Stream) (bytes : List UInt8) : IO (List UInt8) := do
  let mut bytes := bytes
  while !bytes.contains 10 do
    let more ← input.read 4096
    if more.isEmpty then break
    bytes := bytes ++ more.toList
  return bytes

/-- Holds a conversation. -/
def converse (colors : Bool) : IO UInt32 := do
  let stdin ← IO.getStdin
  let stdout ← IO.getStdout
  let stderr ← IO.getStderr
  let mut session := Session.start (← systemClock)
  let mut pending : List UInt8 := []
  repeat
    stdout.putStr Console.prompt
    stdout.flush
    pending ← readLine stdin pending
    match Console.nextLine pending with
    | none => break
    | some (line, rest) =>
      pending := rest
      match Console.decodeLine line with
      | none => break
      | some text =>
        match Console.respond processFuel colors (session.setClock (← systemClock)) text with
        | none => return 1
        | some r =>
          stdout.putStr r.stdout
          stderr.putStr r.stderr
          match r.next with
          | none => return 0
          | some next => session := next
  stdout.putStrLn ""
  return 0

/-- Writes what a run gives. -/
def write (c : Console) : IO UInt32 := do
  (← IO.getStdout).putStr c.stdout
  (← IO.getStderr).putStr c.stderr
  return c.exitCode.toUInt32

end Lox

open Lox in
/-- The program. -/
def main (args : List String) : IO UInt32 := do
  let colors := ColorMode.auto.isOn (← (← IO.getStderr).isTty) (← noColor)
  match args with
  | [] => Lox.converse colors
  | [name] =>
    match Console.runFile processFuel (← systemClock) colors name (← readText name) with
    | some c => write c
    | none => return 1
  | _ => write Console.usage
