/-! # Text from bytes that may not be text

UTF-8 writes a character as a leading byte, which tells how many continuation bytes
follow, and those bytes. A reader of damaged text keeps what is well formed and puts
the replacement character for each longest start of a character that does not go on
as it should; the byte that breaks it off is read anew.
-/

namespace FlateTrace.Text

/-- A character that has been begun: how many bytes are missing, between which bounds
the next one must lie, and the value so far. -/
structure BegunChar where
  missing : Nat
  low : UInt8
  high : UInt8
  value : Nat

/-- What a leading byte begins: a whole character, or the rest of one. Bytes that can
only begin an overlong, surrogate or excessive value begin nothing. -/
def leading? (byte : UInt8) : Option (Char ⊕ BegunChar) :=
  let begun (missing : Nat) (low high : UInt8) (bits : Nat) : Option (Char ⊕ BegunChar) :=
    some (.inr { missing, low, high, value := byte.toNat % bits })
  if byte < 0x80 then some (.inl (Char.ofNat byte.toNat))
  else if byte < 0xc2 then none
  else if byte < 0xe0 then begun 1 0x80 0xbf 32
  else if byte = 0xe0 then begun 2 0xa0 0xbf 16
  else if byte = 0xed then begun 2 0x80 0x9f 16
  else if byte < 0xf0 then begun 2 0x80 0xbf 16
  else if byte = 0xf0 then begun 3 0x90 0xbf 8
  else if byte < 0xf4 then begun 3 0x80 0xbf 8
  else if byte = 0xf4 then begun 3 0x80 0x8f 8
  else none

/-- The character put for what is not well formed. -/
def replacement : Char :=
  Char.ofNat 0xfffd

/-- The text read so far, and the character that has been begun, if any. -/
structure DamagedText where
  text : String := ""
  begun : Option BegunChar := none

namespace DamagedText

/-- Read a byte when no character has been begun. -/
def readLeading (damaged : DamagedText) (byte : UInt8) : DamagedText :=
  match leading? byte with
  | none => { text := damaged.text.push replacement }
  | some (.inl char) => { text := damaged.text.push char }
  | some (.inr part) => { damaged with begun := some part }

/-- Read a byte. -/
def read (damaged : DamagedText) (byte : UInt8) : DamagedText :=
  match damaged.begun with
  | none => damaged.readLeading byte
  | some part =>
      if part.low ≤ byte ∧ byte ≤ part.high then
        let value := part.value * 64 + byte.toNat % 64
        if part.missing = 1 then { text := damaged.text.push (Char.ofNat value) }
        else
          { damaged with
            begun := some { missing := part.missing - 1, low := 0x80, high := 0xbf, value } }
      else readLeading { text := damaged.text.push replacement } byte

/-- The text when no byte is left. -/
def finish (damaged : DamagedText) : String :=
  if damaged.begun.isSome then damaged.text.push replacement else damaged.text

end DamagedText

/-- The text of bytes that should be UTF-8, with replacements where they are not. -/
def ofDamagedUtf8 (bytes : ByteArray) : String :=
  (bytes.data.foldl DamagedText.read {}).finish

/-- The text in which every byte is the character with that number. -/
def ofLatin1 (bytes : ByteArray) : String :=
  bytes.data.foldl (fun text byte => text.push (Char.ofNat byte.toNat)) ""

end FlateTrace.Text
