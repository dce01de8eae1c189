import ChainScript.CommandLine

/-
The command line program.
-/

namespace ChainScript

/-- The number of a failure.  Some layers below negate it, in 32 bits. -/
def failureNumber (code : UInt32) : Nat :=
  if code < 0x80000000 then code.toNat else (-code).toNat

/-- The reason for a failure that the system gave a number. -/
def numberedReason (code : UInt32) (details : String) : String :=
  match PathFault.ofNumber? (failureNumber code) with
  | some fault => fault.reason
  | none => systemReason details (failureNumber code)

/-- The reason for a failure of the system. -/
def failureReason : IO.Error → String
  | .alreadyExists _ code details
  | .interrupted _ code details
  | .noFileOrDirectory _ code details
  | .invalidArgument _ code details
  | .permissionDenied _ code details
  | .resourceExhausted _ code details
  | .inappropriateType _ code details
  | .noSuchThing _ code details
  | .otherError code details
  | .resourceBusy code details
  | .resourceVanished code details
  | .unsupportedOperation code details
  | .hardwareFault code details
  | .unsatisfiedConstraints code details
  | .illegalOperation code details
  | .protocolError code details
  | .timeExpired code details =>
      numberedReason code details
  | .unexpectedEof => "unexpected end of file"
  | .userError details => details

/-- All bytes of a stream, read piece by piece. -/
partial def readAll (stream : IO.FS.Stream) (bytes : ByteArray) :
    IO ByteArray := do
  let piece ← stream.read 65536
  if piece.isEmpty then return bytes else readAll stream (bytes ++ piece)

/-- The content of the script that a command names. -/
def readScript (path : Option String) : IO (Except String ByteArray) := do
  try
    match path with
    | some path => return .ok (← IO.FS.readBinFile path)
    | none => return .ok (← readAll (← IO.getStdin) .empty)
  catch failure =>
    return .error (failureReason failure)

/-- The content of the script that some arguments name, if they name one. -/
def readNamedScript (arguments : List String) :
    IO (Except String ByteArray) :=
  match Command.ofArguments arguments with
  | .ok (.run options) => readScript options.path
  | _ => return .ok .empty

end ChainScript

open ChainScript in
def main (arguments : List String) : IO UInt32 := do
  let content ← readNamedScript arguments
  let errors ← IO.getStderr
  match respond arguments (fun _ => content) (← errors.isTty) with
  | .ok response =>
      (← IO.getStdout).putStr response.output
      errors.putStr response.errors
      return response.status.code
  | .error _ =>
      errors.putStr "error: the run was abandoned\n"
      return 4
