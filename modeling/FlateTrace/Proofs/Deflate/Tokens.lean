import FlateTrace.Proofs.Deflate.Tables

/-! # The tokens of a coded block

A token is read exactly as it is written (`Token.reads_read`): a literal as its symbol,
a copy as two symbols with their extra bits, the end of the block as its own symbol.
-/

namespace FlateTrace

open Huffman

variable {σ : Type} [BitSource σ]

/-- The bits of a token, or of the end of the block. -/
def Token.HasBits (tables : LengthTables) (token : Token) (bits : List Bool) : Prop :=
  (∃ written : WrittenToken, written.token? = some token ∧ written.bits? tables = some bits) ∨
    (token = .endOfBlock ∧ canonicalCode? tables.literals Standard.endOfBlock = some bits)

/-- Extra bits can be written if they fit their width. -/
theorem NumberRange.bits?_eq_some_iff {range : NumberRange} {extra : Nat} {bits : List Bool} :
    range.bits? extra = some bits ↔
      extra < 2 ^ range.extraBits ∧ bits = fieldBits range.extraBits extra := by
  unfold bits?
  by_cases small : extra < 2 ^ range.extraBits
  · simp only [small, ↓reduceIte, Option.some.injEq, true_and, eq_comm]
  · simp only [small, ↓reduceIte, reduceCtorEq, false_and]

namespace WrittenToken

/-- A copy is said by two symbols that have ranges, and by the extra bits above their bases. -/
theorem token?_copy_eq_some_iff {lengthSymbol lengthExtra distanceSymbol distanceExtra : Nat}
    {token : Token} :
    (copy lengthSymbol lengthExtra distanceSymbol distanceExtra).token? = some token ↔
      ∃ lengths distances, lengthRange? lengthSymbol = some lengths ∧
        distanceRange? distanceSymbol = some distances ∧
        token = .copy (lengths.base + lengthExtra) (distances.base + distanceExtra) := by
  simp only [token?, ← lengthRange?_eq, ← distanceRange?_eq, Option.bind_eq_bind,
    Option.bind_eq_some_iff, Option.pure_def, Option.some.injEq]
  constructor
  · rintro ⟨lengths, found, distances, found', rfl⟩
    exact ⟨lengths, distances, found, found', rfl⟩
  · rintro ⟨lengths, distances, found, found', rfl⟩
    exact ⟨lengths, found, distances, found', rfl⟩

/-- A copy is written as the code of each symbol with its extra bits behind it. -/
theorem bits?_copy_eq_some_iff {tables : LengthTables}
    {lengthSymbol lengthExtra distanceSymbol distanceExtra : Nat} {bits : List Bool} :
    (copy lengthSymbol lengthExtra distanceSymbol distanceExtra).bits? tables = some bits ↔
      ∃ lengths distances lengthCode distanceCode, lengthRange? lengthSymbol = some lengths ∧
        distanceRange? distanceSymbol = some distances ∧
        canonicalCode? tables.literals lengthSymbol = some lengthCode ∧
        canonicalCode? tables.distances distanceSymbol = some distanceCode ∧
        lengthExtra < 2 ^ lengths.extraBits ∧ distanceExtra < 2 ^ distances.extraBits ∧
        bits = lengthCode ++ (fieldBits lengths.extraBits lengthExtra ++
          (distanceCode ++ fieldBits distances.extraBits distanceExtra)) := by
  simp only [bits?, ← lengthRange?_eq, ← distanceRange?_eq, Option.bind_eq_bind,
    Option.bind_eq_some_iff, Option.pure_def, Option.some.injEq, NumberRange.bits?_eq_some_iff]
  constructor
  · rintro ⟨lengthCode, coded, lengths, found, _, ⟨small, rfl⟩, distanceCode, coded', distances,
      found', _, ⟨small', rfl⟩, rfl⟩
    exact ⟨lengths, distances, lengthCode, distanceCode, found, found', coded, coded', small,
      small', List.append_assoc ..⟩
  · rintro ⟨lengths, distances, lengthCode, distanceCode, found, found', coded, coded', small,
      small', rfl⟩
    exact ⟨lengthCode, coded, lengths, found, _, ⟨small, rfl⟩, distanceCode, coded', distances,
      found', _, ⟨small', rfl⟩, List.append_assoc ..⟩

/-- No written token is the end of a block. -/
theorem token?_ne_endOfBlock (written : WrittenToken) : written.token? ≠ some .endOfBlock := by
  intro same
  cases written with
  | literal value => exact nomatch Option.some.inj same
  | copy lengthSymbol lengthExtra distanceSymbol distanceExtra =>
      obtain ⟨_, _, -, -, same⟩ := token?_copy_eq_some_iff.mp same
      exact nomatch same

end WrittenToken

/-- Symbols of lengths lie above the end of the block. -/
theorem lt_of_lengthRange?_eq_some {symbol : Nat} {range : NumberRange}
    (found : lengthRange? symbol = some range) : endOfBlockSymbol < symbol := by
  by_contra low
  have small : symbol < 257 := by
    unfold endOfBlockSymbol at low
    omega
  unfold lengthRange? at found
  simp only [small, ↓reduceIte, reduceCtorEq] at found

/-- All lengths are from 3 to 258, and have five extra bits at most. -/
theorem bounds_of_lengthRange? {symbol : Nat} {range : NumberRange}
    (found : lengthRange? symbol = some range) :
    3 ≤ range.base ∧ range.base + 2 ^ range.extraBits ≤ 259 ∧ range.extraBits ≤ 5 := by
  have each : ∀ symbol < 286, ∀ range ∈ lengthRange? symbol,
      3 ≤ range.base ∧ range.base + 2 ^ range.extraBits ≤ 259 ∧ range.extraBits ≤ 5 := by
    decide +kernel
  have few : symbol < 286 := by
    by_contra high
    unfold lengthRange? at found
    repeat rw [if_neg (by omega)] at found
    exact nomatch found
  exact each symbol few range found

/-- All distances are from 1 to 32768, and have thirteen extra bits at most. -/
theorem bounds_of_distanceRange? {symbol : Nat} {range : NumberRange}
    (found : distanceRange? symbol = some range) :
    1 ≤ range.base ∧ range.base + 2 ^ range.extraBits ≤ 32769 ∧ range.extraBits ≤ 13 := by
  have each : ∀ symbol < 30, ∀ range ∈ distanceRange? symbol,
      1 ≤ range.base ∧ range.base + 2 ^ range.extraBits ≤ 32769 ∧ range.extraBits ≤ 13 := by
    decide +kernel
  have few : symbol < 30 := by
    by_contra high
    unfold distanceRange? at found
    repeat rw [if_neg (by omega)] at found
    exact nomatch found
  exact each symbol few range found

/-- A canonical code has a length that codes can have. -/
theorem hasCode_of_canonicalCode? {lengths : List Nat} {symbol : Nat} {code : List Bool}
    (coded : canonicalCode? lengths symbol = some code) : HasCode code.length := by
  obtain ⟨length, -, coded⟩ := Option.bind_eq_some_iff.mp coded
  split at coded
  · rename_i possible
    obtain rfl := Option.some.inj coded
    rw [length_codeBits]
    exact possible
  · exact nomatch coded

namespace Token

/-- A number has the bits that are to be added to its base. -/
theorem reads_readNumber (range : NumberRange) :
    (readNumber range : Reading σ Nat).Reads fun value bits =>
      ∃ extra, extra < 2 ^ range.extraBits ∧ value = range.base + extra ∧
        bits = fieldBits range.extraBits extra := by
  refine ((Reading.reads_word range.extraBits).bind _ fun extra _ _ =>
    Reading.reads_pure (range.base + extra)).congr fun value bits => ?_
  constructor
  · rintro ⟨extra, _, _, ⟨small, rfl⟩, ⟨rfl, rfl⟩, rfl⟩
    exact ⟨extra, small, rfl, List.append_nil _⟩
  · rintro ⟨extra, small, rfl, rfl⟩
    exact ⟨extra, _, [], ⟨small, rfl⟩, ⟨rfl, rfl⟩, (List.append_nil _).symm⟩

/-- What may follow the symbol of a length: its extra bits, and a distance. -/
private def HasDistance (tables : LengthTables) (lengths : NumberRange) (token : Token)
    (bits : List Bool) : Prop :=
  ∃ lengthExtra distanceSymbol distances distanceExtra distanceCode,
    lengthExtra < 2 ^ lengths.extraBits ∧
    canonicalCode? tables.distances distanceSymbol = some distanceCode ∧
    distanceRange? distanceSymbol = some distances ∧ distanceExtra < 2 ^ distances.extraBits ∧
    token = .copy (lengths.base + lengthExtra) (distances.base + distanceExtra) ∧
    bits = fieldBits lengths.extraBits lengthExtra ++
      (distanceCode ++ fieldBits distances.extraBits distanceExtra)

/-- What may follow the symbol of a token. -/
private def HasRest (tables : LengthTables) (symbol : Nat) (token : Token) (bits : List Bool) :
    Prop :=
  (symbol < endOfBlockSymbol ∧ token = .literal symbol.toUInt8 ∧ bits = []) ∨
    (symbol = endOfBlockSymbol ∧ token = .endOfBlock ∧ bits = []) ∨
    ∃ lengths, lengthRange? symbol = some lengths ∧ HasDistance tables lengths token bits

/-- A token is a symbol and what may follow it. -/
private theorem hasBits_iff_hasRest {tables : LengthTables} {token : Token} {bits : List Bool} :
    HasBits tables token bits ↔
      ∃ symbol code rest, canonicalCode? tables.literals symbol = some code ∧
        HasRest tables symbol token rest ∧ bits = code ++ rest := by
  rw [HasBits, ← endOfBlockSymbol_eq]
  constructor
  · rintro (⟨written, said, shown⟩ | ⟨rfl, coded⟩)
    · cases written with
      | literal value =>
          obtain rfl := Option.some.inj said
          refine ⟨value.toNat, bits, [], shown, .inl ⟨value.toNat_lt, ?_, rfl⟩,
            (List.append_nil _).symm⟩
          rw [Nat.toUInt8_eq, UInt8.ofNat_toNat]
      | copy lengthSymbol lengthExtra distanceSymbol distanceExtra =>
          obtain ⟨lengths, distances, found, found', rfl⟩ :=
            WrittenToken.token?_copy_eq_some_iff.mp said
          obtain ⟨_, _, lengthCode, distanceCode, same, same', coded, coded', small, small', rfl⟩ :=
            WrittenToken.bits?_copy_eq_some_iff.mp shown
          obtain rfl := Option.some.inj (found.symm.trans same)
          obtain rfl := Option.some.inj (found'.symm.trans same')
          exact ⟨lengthSymbol, lengthCode, _, coded, .inr (.inr ⟨lengths, found, lengthExtra,
            distanceSymbol, distances, distanceExtra, distanceCode, small, coded', found', small',
            rfl, rfl⟩), rfl⟩
    · exact ⟨endOfBlockSymbol, bits, [], coded, .inr (.inl ⟨rfl, rfl, rfl⟩),
        (List.append_nil _).symm⟩
  · rintro ⟨symbol, code, _, coded, ⟨low, rfl, rfl⟩ | ⟨rfl, rfl, rfl⟩ | ⟨lengths, found,
      lengthExtra, distanceSymbol, distances, distanceExtra, distanceCode, small, coded', found',
      small', rfl, rfl⟩, rfl⟩
    · refine .inl ⟨.literal symbol.toUInt8, rfl, ?_⟩
      have whole : symbol.toUInt8.toNat = symbol := UInt8.toNat_ofNat_of_lt' low
      rw [WrittenToken.bits?, whole, List.append_nil]
      exact coded
    · rw [List.append_nil]
      exact .inr ⟨rfl, coded⟩
    · exact .inl ⟨.copy symbol lengthExtra distanceSymbol distanceExtra,
        WrittenToken.token?_copy_eq_some_iff.mpr ⟨lengths, distances, found, found', rfl⟩,
        WrittenToken.bits?_copy_eq_some_iff.mpr ⟨lengths, distances, code, distanceCode, found,
          found', coded, coded', small, small', rfl⟩⟩

/-- The rest of a copy is read exactly as it is written. -/
private theorem reads_distance {codes : BlockCodes} {tables : LengthTables}
    (decodes : codes.Decodes tables) (lengths : NumberRange) :
    (do
      let length ← readNumber lengths
      let distanceSymbol ← Reading.symbol codes.pool codes.distances
      match distanceRange? distanceSymbol with
      | none => throw (.distanceSymbolOutOfRange distanceSymbol)
      | some distances => do
          let distance ← readNumber distances
          pure (.copy length distance) : Reading σ Token).Reads (HasDistance tables lengths) := by
  refine ((reads_readNumber lengths).bind _ fun length _ _ =>
    (Reading.reads_symbol decodes.2).bind (fun distanceSymbol token bits =>
      ∃ distances distanceExtra, distanceRange? distanceSymbol = some distances ∧
        distanceExtra < 2 ^ distances.extraBits ∧
        token = Token.copy length (distances.base + distanceExtra) ∧
        bits = fieldBits distances.extraBits distanceExtra)
      fun distanceSymbol _ _ => ?_).congr fun token bits => ?_
  · split
    · rename_i none
      refine (Reading.reads_throw _).congr fun token bits => ?_
      simp only [none, reduceCtorEq, false_and, exists_false]
    · rename_i distances found
      refine ((reads_readNumber distances).bind _ fun distance _ _ =>
        Reading.reads_pure (Token.copy length distance)).congr fun token bits => ?_
      constructor
      · rintro ⟨_, _, _, ⟨distanceExtra, small, rfl, rfl⟩, ⟨rfl, rfl⟩, rfl⟩
        exact ⟨distances, distanceExtra, found, small, rfl, List.append_nil _⟩
      · rintro ⟨_, distanceExtra, same, small, rfl, rfl⟩
        obtain rfl := Option.some.inj (found.symm.trans same)
        exact ⟨_, _, [], ⟨distanceExtra, small, rfl, rfl⟩, ⟨rfl, rfl⟩, (List.append_nil _).symm⟩
  · constructor
    · rintro ⟨_, _, _, ⟨lengthExtra, small, rfl, rfl⟩, ⟨distanceSymbol, distanceCode, _, coded,
        ⟨distances, distanceExtra, found, small', rfl, rfl⟩, rfl⟩, rfl⟩
      exact ⟨lengthExtra, distanceSymbol, distances, distanceExtra, distanceCode, small, coded,
        found, small', rfl, rfl⟩
    · rintro ⟨lengthExtra, distanceSymbol, distances, distanceExtra, distanceCode, small, coded,
        found, small', rfl, rfl⟩
      exact ⟨_, _, _, ⟨lengthExtra, small, rfl, rfl⟩, ⟨distanceSymbol, distanceCode, _, coded,
        ⟨distances, distanceExtra, found, small', rfl, rfl⟩, rfl⟩, rfl⟩

/-- A token is read exactly as it is written. -/
theorem reads_read {codes : BlockCodes} {tables : LengthTables} (decodes : codes.Decodes tables) :
    (read codes : Reading σ Token).Reads (Token.HasBits tables) := by
  refine ((Reading.reads_symbol decodes.1).bind (HasRest tables)
    fun symbol _ _ => ?_).congr fun token bits => hasBits_iff_hasRest.symm
  -- Only one of the three kinds of symbols is possible in each branch.
  have high (lengths : NumberRange) (found : lengthRange? symbol = some lengths) :
      endOfBlockSymbol < symbol := lt_of_lengthRange?_eq_some found
  by_cases low : symbol < endOfBlockSymbol
  · rw [if_pos low]
    refine (Reading.reads_pure _).congr fun token bits => ?_
    constructor
    · intro same
      exact .inl ⟨low, same⟩
    · rintro (⟨-, same⟩ | ⟨same, -⟩ | ⟨lengths, found, -⟩)
      · exact same
      · exact absurd low (Nat.not_lt_of_ge (Nat.le_of_eq same.symm))
      · exact absurd low (Nat.lt_asymm (high lengths found))
  rw [if_neg low]
  by_cases same : symbol = endOfBlockSymbol
  · rw [if_pos same]
    refine (Reading.reads_pure _).congr fun token bits => ?_
    constructor
    · intro ended
      exact .inr (.inl ⟨same, ended⟩)
    · rintro (⟨low, -⟩ | ⟨-, ended⟩ | ⟨lengths, found, -⟩)
      · exact absurd same (Nat.ne_of_lt low)
      · exact ended
      · exact absurd same (Nat.ne_of_gt (high lengths found))
  rw [if_neg same]
  cases found : lengthRange? symbol with
  | none =>
      refine (Reading.reads_throw _).congr fun token bits => ?_
      simp only [HasRest, low, same, found, reduceCtorEq, false_and, exists_false, or_false]
  | some lengths =>
      refine (reads_distance decodes lengths).congr fun token bits => ?_
      simp only [HasRest, low, same, found, false_and, false_or, Option.some.injEq,
        exists_eq_left']

/-- The end of a block has the bits of its symbol. -/
theorem HasBits.endOfBlock {tables : LengthTables} {bits : List Bool}
    (taken : HasBits tables .endOfBlock bits) :
    canonicalCode? tables.literals Standard.endOfBlock = some bits := by
  rcases taken with ⟨written, said, -⟩ | ⟨-, coded⟩
  · exact absurd said written.token?_ne_endOfBlock
  · exact coded

/-- No two tokens stand at the same place. -/
theorem HasBits.unique {codes : BlockCodes} {tables : LengthTables}
    (decodes : codes.Decodes tables) {first second : Token} {front back : List Bool}
    (taken : HasBits tables first front) (taken' : HasBits tables second back)
    {reader : BitReader} (shown : reader.Shows front) (shown' : reader.Shows back) :
    first = second := by
  have result := (reads_read decodes reader first _).mpr ⟨front, taken, shown, rfl⟩
  have result' := (reads_read decodes reader second _).mpr ⟨back, taken', shown', rfl⟩
  rw [result] at result'
  exact (EStateM.Result.ok.inj result').1

/-- Whether a token writes one byte at least and reaches back by one at least, if it is a
copy. -/
def InOrder : Token → Prop
  | .copy length distance => 1 ≤ length ∧ 1 ≤ distance
  | .literal _ => True
  | .endOfBlock => True

/-- A number is no less than the base of its range. -/
theorem yields_readNumber (range : NumberRange) :
    (readNumber range : Reading σ Nat).Yields fun number => range.base ≤ number :=
  (Reading.yields_any _).bind fun _ _ => Reading.yields_pure (Nat.le_add_right _ _)

/-- Whatever the codes are, every token that is read is in order. -/
theorem yields_read (codes : BlockCodes) : (read codes : Reading σ Token).Yields InOrder := by
  refine (Reading.yields_any _).bind fun symbol _ => ?_
  split
  · exact Reading.yields_pure trivial
  split
  · exact Reading.yields_pure trivial
  split
  · exact Reading.yields_throw _ _
  rename_i lengths found
  refine (yields_readNumber lengths).bind fun length least => (Reading.yields_any _).bind
    fun distanceSymbol _ => ?_
  split
  · exact Reading.yields_throw _ _
  · rename_i distances found'
    refine (yields_readNumber distances).bind fun distance least' => Reading.yields_pure ?_
    have long := (bounds_of_lengthRange? found).1
    exact ⟨Nat.le_trans (Nat.le_of_succ_le (Nat.le_of_succ_le long)) least,
      Nat.le_trans (bounds_of_distanceRange? found').1 least'⟩

/-- Every token that stands somewhere is in order. -/
theorem HasBits.inOrder {codes : BlockCodes} {tables : LengthTables}
    (decodes : codes.Decodes tables) {token : Token} {bits : List Bool}
    (taken : HasBits tables token bits) {reader : BitReader} (shown : reader.Shows bits) :
    token.InOrder :=
  yields_read codes reader token _ ((reads_read decodes reader token _).mpr
    ⟨bits, taken, shown, rfl⟩)

/-- A literal takes one code. -/
theorem HasBits.literal_bounds {tables : LengthTables} {value : UInt8} {bits : List Bool}
    (taken : HasBits tables (.literal value) bits) : 1 ≤ bits.length ∧ bits.length ≤ 15 := by
  rcases taken with ⟨written, said, shown⟩ | ⟨same, -⟩
  · cases written with
    | literal value' => exact hasCode_of_canonicalCode? shown
    | copy lengthSymbol lengthExtra distanceSymbol distanceExtra =>
        obtain ⟨_, _, -, -, same⟩ := WrittenToken.token?_copy_eq_some_iff.mp said
        exact nomatch same
  · exact nomatch same

/-- A copy takes two codes, with their extra bits. -/
theorem HasBits.copy_bounds {tables : LengthTables} {length distance : Nat} {bits : List Bool}
    (taken : HasBits tables (.copy length distance) bits) :
    (3 ≤ length ∧ length ≤ 258) ∧ (1 ≤ distance ∧ distance ≤ 32768) ∧
      2 ≤ bits.length ∧ bits.length ≤ 48 := by
  rcases taken with ⟨written, said, shown⟩ | ⟨same, -⟩
  · cases written with
    | literal value => exact nomatch Option.some.inj said
    | copy lengthSymbol lengthExtra distanceSymbol distanceExtra =>
        obtain ⟨lengths, distances, lengthCode, distanceCode, found, found', coded, coded', small,
          small', rfl⟩ := WrittenToken.bits?_copy_eq_some_iff.mp shown
        obtain ⟨_, _, same, same', token⟩ := WrittenToken.token?_copy_eq_some_iff.mp said
        obtain rfl := Option.some.inj (found.symm.trans same)
        obtain rfl := Option.some.inj (found'.symm.trans same')
        obtain ⟨rfl, rfl⟩ := Token.copy.inj token
        have lengthBounds := bounds_of_lengthRange? found
        have distanceBounds := bounds_of_distanceRange? found'
        have lengthCoded : 1 ≤ lengthCode.length ∧ lengthCode.length ≤ 15 :=
          hasCode_of_canonicalCode? coded
        have distanceCoded : 1 ≤ distanceCode.length ∧ distanceCode.length ≤ 15 :=
          hasCode_of_canonicalCode? coded'
        simp only [List.length_append, length_fieldBits]
        omega
  · exact nomatch same

end Token

end FlateTrace
