import PdfFunctions.CommandLine.Run

namespace PdfFunctions.CommandLine

partial def readToEnd (stream : IO.FS.Stream) (found : ByteArray) : IO ByteArray := do
  let piece ← stream.read (USize.ofNat Delivery.readSize)
  if piece.isEmpty then return found else readToEnd stream (found ++ piece)

def reasonOf : IO.Error → String
  | .noFileOrDirectory _ code details | .inappropriateType _ code details
  | .permissionDenied _ code details | .invalidArgument _ code details =>
    s!"{details} (os error {code})"
  | e => toString e

def fetch (source : Source) : IO Content := do
  match source with
  | .stdin => return .bytes (← readToEnd (← IO.getStdin) .empty).toList
  | .file path =>
    let handle ← try IO.FS.Handle.mk path .read catch e => return .closed (reasonOf e)
    try
      return .bytes (← readToEnd (.ofHandle handle) .empty).toList
    catch e => return .broken (reasonOf e)

def invoke (args : List String) : IO Outcome := do
  match parse args with
  | .error stop => return stop.outcome
  | .ok (format, command) =>
    let content ← match command.source? with
      | some source => fetch source
      | none => pure (.bytes [])
    return command.outcome format fun _ => content

end PdfFunctions.CommandLine

def main (args : List String) : IO UInt32 := do
  let o ← PdfFunctions.CommandLine.invoke args
  (← IO.getStdout).putStr o.stdout
  unless o.stderr.isEmpty do (← IO.getStderr).putStrLn o.stderr
  return UInt32.ofNat o.exit
