import FlateTrace.Deflate.Decoder
import FlateTrace.Output.Bytes
import FlateTrace.Output.Recorder
import FlateTrace.Settings
import FlateTrace.Zlib.Header

/-! # Decompressing and profiling

A stream is either decompressed to its bytes or profiled; the decoder is the same, only
its events go to another sink. A zlib stream is decoded behind its header. What follows
the last block is not looked at.
-/

namespace FlateTrace

open Zlib

/-- Why a zlib stream cannot be decoded. -/
inductive StreamError where
  | header (error : HeaderError)
  | decode (error : DecodeError)
  deriving DecidableEq, Repr

/-- The text of a stream error. -/
def StreamError.message : StreamError → String
  | .header error => "Invalid zlib header: " ++ error.message
  | .decode error => "Invalid DEFLATE stream: " ++ error.message

/-- The bytes that a stream decodes to. -/
def inflate (data : ByteArray) : Except DecodeError ByteArray :=
  let run := decodeInto {} data ByteArray.empty
  run.result.map fun _ => run.output

/-- The bytes that a zlib stream decodes to. -/
def inflateZlib (data : ByteArray) : Except StreamError ByteArray := do
  let deflated ← (stripHeader data).mapError .header
  (inflate deflated).mapError .decode

namespace Settings

/-- A recorder with the capacities of the settings. -/
def recorder (settings : Settings) : Recorder :=
  .withCapacity settings.windowCapacity settings.recordCapacity

/-- Profile a stream that is part of `deflatedSize` bytes. -/
def profilePart (settings : Settings) (data : ByteArray) (deflatedSize : Nat) :
    Except DecodeError Profile :=
  if 2 ^ 32 ≤ deflatedSize then .error (.inputTooLarge deflatedSize)
  else
    let run := decodeInto { padding := settings.padding } data settings.recorder
    run.result.map fun _ => run.output.finish deflatedSize.toUInt32

/-- Profile a stream. -/
def profile (settings : Settings) (data : ByteArray) : Except DecodeError Profile :=
  settings.profilePart data data.size

/-- Profile a zlib stream. Its header and what follows it count as compressed
data. -/
def profileZlib (settings : Settings) (data : ByteArray) : Except StreamError Profile := do
  let deflated ← (stripHeader data).mapError .header
  (settings.profilePart deflated data.size).mapError .decode

end Settings

end FlateTrace
