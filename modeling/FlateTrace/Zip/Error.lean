import FlateTrace.Deflate.Error
import FlateTrace.Text.Hex

/-! # Why an archive or an entry cannot be read -/

namespace FlateTrace.Zip

/-- The cause of a failure. -/
inductive ArchiveError where
  /-- No end record lies near the end of the data. -/
  | missingEndRecord
  /-- A record does not start with its signature. -/
  | badSignature (offset expected found : Nat)
  /-- An offset or a payload lies outside the data. -/
  | truncated
  /-- The entry is compressed by a method that is not supported. -/
  | unsupportedMethod (method : Nat)
  /-- The entry is encrypted. -/
  | encrypted (path : String)
  /-- The contents are not those that the directory describes. -/
  | checksumMismatch (path : String) (expected actual : UInt32)
  /-- The payload cannot be decoded. -/
  | decode (error : DecodeError)
  /-- The data ends within a record. -/
  | recordCutShort
  deriving DecidableEq, Repr

/-- The text of an archive error. -/
def ArchiveError.message : ArchiveError → String
  | .missingEndRecord => "No end of central directory record found"
  | .badSignature offset expected found =>
      s!"Bad signature at offset {offset}: expected " ++ Text.hex 8 expected ++ ", got " ++
        Text.hex 8 found
  | .truncated => "Archive data ends before the entry it describes"
  | .unsupportedMethod method => s!"Unsupported compression method {method}"
  | .encrypted path => s!"Entry {path} is encrypted"
  | .checksumMismatch path expected actual =>
      s!"CRC-32 mismatch in {path}: directory says " ++ Text.hex 8 expected.toNat ++
        ", contents give " ++ Text.hex 8 actual.toNat
  | .decode error => "Failed to decode entry: " ++ error.message
  | .recordCutShort => "Archive read error: failed to fill whole buffer"

end FlateTrace.Zip
