import FlateTrace.Bytes
import FlateTrace.Text.Hex

/-! # The header of a zlib stream

Two bytes precede the compressed data. The first names the method and the window
size, the second holds a check value, a flag for a preset dictionary, and a hint
about the effort of the compressor. Together they are a multiple of 31.
-/

namespace FlateTrace.Zlib

/-- Why two bytes are no header that can be used. -/
inductive HeaderError where
  | tooShort (bytes : Nat)
  | invalidMethod (method : Nat)
  | invalidWindowSize (sizeCode : Nat)
  | checksumFailed (method flags : UInt8)
  | presetDictionary
  deriving DecidableEq, Repr

/-- The text of a header error. -/
def HeaderError.message : HeaderError → String
  | .tooShort bytes => s!"zlib stream too short for a header: {bytes} bytes"
  | .invalidMethod method => s!"zlib compression method invalid. Expected 8, got {method}"
  | .invalidWindowSize sizeCode => s!"zlib window size invalid: CINFO = {sizeCode}"
  | .checksumFailed method flags =>
      "zlib header check failed: CMF = " ++ Text.hex 2 method.toNat ++ ", FLG = " ++
        Text.hex 2 flags.toNat
  | .presetDictionary => "zlib streams with a preset dictionary are not supported"

/-- How hard the compressor tried. -/
inductive CompressionLevel where
  | fastest
  | fast
  | default
  | maximum
  deriving DecidableEq, Repr

namespace CompressionLevel

/-- The level with a given number. -/
def ofCode? : Nat → Option CompressionLevel
  | 0 => some .fastest
  | 1 => some .fast
  | 2 => some .default
  | 3 => some .maximum
  | _ => none

/-- The word for a level. -/
def name : CompressionLevel → String
  | .fastest => "Fastest"
  | .fast => "Fast"
  | .default => "Default"
  | .maximum => "Maximum"

end CompressionLevel

/-- The second byte of a header. -/
structure Flags where
  bits : UInt8
  deriving DecidableEq, Repr

namespace Flags

/-- Whether a preset dictionary is needed. -/
def presetDictionary (flags : Flags) : Bool :=
  flags.bits.toNat.testBit 5

/-- The part that holds the level, in place. -/
def levelBits (flags : Flags) : UInt8 :=
  flags.bits &&& 0xc0

/-- The level. -/
def level (flags : Flags) : CompressionLevel :=
  (CompressionLevel.ofCode? (flags.levelBits >>> 6).toNat).getD .default

end Flags

/-- What a valid header says. -/
structure Header where
  windowSize : Nat
  level : CompressionLevel
  deriving DecidableEq, Repr

/-- Length of a header in bytes. -/
def headerLength : Nat := 2

/-- Read and check the header at the front of a stream. -/
def Header.parse (data : ByteArray) : Except HeaderError Header :=
  let method := byteAt data 0
  let flags := byteAt data 1
  let sizeCode := method.toNat / 16
  if data.size < headerLength then .error (.tooShort data.size)
  else if (method.toNat * 256 + flags.toNat) % 31 ≠ 0 then .error (.checksumFailed method flags)
  else if method.toNat % 16 ≠ 8 then .error (.invalidMethod (method.toNat % 16))
  else if 7 < sizeCode then .error (.invalidWindowSize sizeCode)
  else if Flags.presetDictionary { bits := flags } then .error .presetDictionary
  else .ok { windowSize := 2 ^ (sizeCode + 8), level := Flags.level { bits := flags } }

/-- The compressed data behind a valid header, with whatever follows it. -/
def stripHeader (data : ByteArray) : Except HeaderError ByteArray := do
  let _ ← Header.parse data
  pure (data.extract headerLength data.size)

end FlateTrace.Zlib
