import FlateTrace.Proofs.Deflate.Accounts
import FlateTrace.Proofs.Deflate.Blocks
import FlateTrace.Proofs.Output.Provenance

/-! # How many copies a stream has

The first byte of a copy bears the bits of the copy, and no other byte of it bears any, so the
bytes that are written say how many copies were made (`copiesIn`). A decode that succeeds
makes one copy for each copy that its stream is written with
(`Decoder.copiesIn_of_advances`).
-/

namespace FlateTrace

/-- Whether a byte is the first one of a copy. -/
def Provenance.StartsCopy (provenance : Provenance) : Prop :=
  provenance.distance ≠ 0 ∧ provenance.cost ≠ 0

instance (provenance : Provenance) : Decidable provenance.StartsCopy :=
  inferInstanceAs (Decidable (_ ∧ _))

/-- Number of copies that some bytes were written by. -/
def copiesIn (provenances : List Provenance) : Nat :=
  provenances.countP fun provenance => provenance.StartsCopy

/-- Whether a token is written as a copy. -/
def WrittenToken.isCopy : WrittenToken → Bool
  | .copy _ _ _ _ => true
  | .literal _ => false

/-- The tokens that a block is written with. -/
def WrittenBlock.tokens : WrittenBlock → List WrittenToken
  | .stored _ _ => []
  | .fixed tokens => tokens
  | .dynamic _ tokens => tokens

/-- Number of copies that some blocks are written with. -/
def WrittenBlock.copyCount (blocks : List WrittenBlock) : Nat :=
  (blocks.flatMap tokens).countP WrittenToken.isCopy

theorem copiesIn_append (front back : List Provenance) :
    copiesIn (front ++ back) = copiesIn front + copiesIn back :=
  List.countP_append

/-- Bytes that bear no bits start no copy. -/
theorem copiesIn_eq_zero {provenances : List Provenance}
    (none : ∀ provenance ∈ provenances, ¬ provenance.StartsCopy) : copiesIn provenances = 0 :=
  List.countP_eq_zero.mpr fun provenance member =>
    fun starts => none provenance member (of_decide_eq_true starts)

theorem copiesIn_storedEvents (bytes : List UInt8) :
    copiesIn (provenanceOf (storedEvents bytes)) = 0 := by
  refine copiesIn_eq_zero fun provenance member => ?_
  obtain ⟨event, inside, named⟩ := List.mem_filterMap.mp member
  obtain ⟨value, -, rfl⟩ := List.mem_map.mp inside
  obtain rfl := Option.some.inj named
  exact fun starts => starts.1 rfl

/-- The bytes of a copy are written by one copy. -/
theorem copiesIn_copyEvents {distance length : Nat} (serial : UInt32) {cost : UInt32}
    (long : 1 ≤ length) (back : 1 ≤ distance) (charged : cost ≠ 0) :
    copiesIn (provenanceOf (copyEvents distance serial length cost)) = 1 := by
  have free (length : Nat) : copiesIn (provenanceOf (copyEvents distance serial length 0)) = 0 := by
    induction length with
    | zero => rfl
    | succ length ih =>
        refine (List.countP_cons_of_neg ?_).trans ih
        exact fun starts => (of_decide_eq_true starts).2 rfl
  obtain ⟨more, rfl⟩ : ∃ more, length = more + 1 := ⟨length - 1, by omega⟩
  refine (List.countP_cons_of_pos ?_).trans (congrArg (· + 1) (free more))
  exact decide_eq_true ⟨Nat.ne_of_gt back, charged⟩

/-- Parts that may be in some block make as many copies as they number. -/
theorem copiesIn_provenanceOfParts {parts : List BodyPart}
    (fits : ∀ part ∈ parts, ∃ type, part.Fits type) :
    copiesIn (provenanceOfParts parts) = (serialsIn parts).length := by
  induction parts with
  | nil => rfl
  | cons part parts ih =>
      have rest := ih fun other member => fits other (List.mem_cons_of_mem _ member)
      rw [provenanceOfParts_cons, copiesIn_append, rest]
      cases part with
      | literal value cost => exact Nat.zero_add _
      | copy distance length serial cost =>
          obtain ⟨type, here⟩ := fits _ (List.mem_cons_self ..)
          obtain ⟨⟨long, -⟩, ⟨back, -⟩, charged⟩ := bounds_of_fits here
          rw [BodyPart.events, copiesIn_copyEvents serial (by omega) back charged, Nat.add_comm,
            serialsIn_copy, List.length_cons]

/-- Number of copies that a token makes. -/
def Token.copies : Token → Nat
  | .copy _ _ => 1
  | .literal _ => 0
  | .endOfBlock => 0

/-- Tokens at the same place take as many bits. -/
theorem Token.HasBits.length_eq {codes : BlockCodes} {tables : LengthTables}
    (decodes : codes.Decodes tables) {first second : Token} {front back : List Bool}
    (taken : HasBits tables first front) (taken' : HasBits tables second back)
    {reader : BitReader} (shown : reader.Shows front) (shown' : reader.Shows back) :
    front.length = back.length := by
  have result := (reads_read decodes reader first _).mpr ⟨front, taken, shown, rfl⟩
  have result' := (reads_read decodes reader second _).mpr ⟨back, taken', shown', rfl⟩
  rw [result] at result'
  have position := congrArg BitReader.position (EStateM.Result.ok.inj result').2
  exact Nat.add_left_cancel position

/-- A token that is written makes a copy if it is written as one. -/
theorem WrittenToken.exists_token {written : WrittenToken} {tables : LengthTables}
    {bits : List Bool} (coded : written.bits? tables = some bits) :
    ∃ token, Token.HasBits tables token bits ∧ token ≠ .endOfBlock ∧
      token.copies = if written.isCopy then 1 else 0 := by
  cases written with
  | literal value => exact ⟨.literal value, .inl ⟨_, rfl, coded⟩, nofun, rfl⟩
  | copy lengthSymbol lengthExtra distanceSymbol distanceExtra =>
      obtain ⟨lengths, distances, -, -, found, found', -⟩ := bits?_copy_eq_some_iff.mp coded
      refine ⟨.copy (lengths.base + lengthExtra) (distances.base + distanceExtra),
        .inl ⟨_, token?_copy_eq_some_iff.mpr ?_, coded⟩, nofun, rfl⟩
      exact ⟨lengths, distances, found, found', rfl⟩

namespace Decoder

variable {limits : Limits} {before middle after last : Decoder Transcript}
  {tables : LengthTables} {codes : BlockCodes} {isFinal : Bool} {limit : Nat}
  {progress : Progress}

/-- Where the bytes that were written so far come from. -/
def provenance (decoder : Decoder Transcript) : List Provenance :=
  provenanceOf decoder.events

/-- A decoder some bits after another one, with some copies more. -/
structure Makes (before : Decoder Transcript) (count copies : Nat) (after : Decoder Transcript) :
    Prop where
  rests : after.Rests
  reader : after.input.reader = before.input.reader.skip count
  copies : copiesIn after.provenance = copiesIn before.provenance + copies

theorem Makes.trans {first second copies copies' : Nat} (one : before.Makes first copies middle)
    (two : middle.Makes second copies' after) :
    before.Makes (first + second) (copies + copies') after :=
  ⟨two.rests, by rw [two.reader, one.reader, BitReader.skip_skip],
    by rw [two.copies, one.copies, Nat.add_assoc]⟩

theorem copiesIn_of_events {events : List Event} (added : after.events = before.events ++ events) :
    copiesIn after.provenance = copiesIn before.provenance + copiesIn (provenanceOf events) := by
  rw [provenance, added, provenanceOf_append, copiesIn_append]
  rfl

/-- A token that stands ahead makes a copy if it is one. -/
theorem Continued.makes {token : Token} {bits : List Bool}
    (continued : before.Continued limit tables isFinal progress after) (rests : before.Rests)
    (inside : before.phase = .inBlock codes isFinal) (decodes : codes.Decodes tables)
    (taken : Token.HasBits tables token bits) (shown : before.input.reader.Shows bits) :
    before.Makes bits.length token.copies after ∧
      (token ≠ .endOfBlock → progress = .more ∧ after.phase = before.phase) ∧
      (token = .endOfBlock → progress = .afterBlock isFinal ∧
        (isFinal = false → after.phase = .betweenBlocks)) := by
  have kept : after.Rests := Item.rests (.token inside decodes continued) rests
  obtain ⟨charge, charged⟩ := rests.charged
  cases continued with
  | @literal value bits' taken' shown' room =>
      obtain rfl := taken.unique decodes taken' shown shown'
      have same := taken.length_eq decodes taken' shown shown'
      refine ⟨⟨kept, congrArg before.input.reader.skip same.symm, ?_⟩, fun _ => ⟨rfl, rfl⟩, nofun⟩
      exact copiesIn_of_events (charged.events_write _ _)
  | @copy length distance bits' taken' shown' reached room =>
      obtain rfl := taken.unique decodes taken' shown shown'
      have same := taken.length_eq decodes taken' shown shown'
      obtain ⟨⟨long, -⟩, ⟨back, -⟩, least, most⟩ := taken'.copy_bounds
      refine ⟨⟨kept, congrArg before.input.reader.skip same.symm, ?_⟩, fun _ => ⟨rfl, rfl⟩, nofun⟩
      rw [copiesIn_of_events (charged.events_copy _ _ _),
        copiesIn_copyEvents before.copies (by omega) back ?_, Token.copies]
      intro free
      have cost := congrArg UInt32.toNat free
      rw [UInt32.toNat_ofNat_of_lt' (Nat.lt_of_le_of_lt most (by decide))] at cost
      exact absurd cost (by rw [UInt32.toNat_zero]; omega)
  | @endOfBlock bits' taken' shown' within =>
      obtain rfl := taken.unique decodes taken' shown shown'
      have same := taken.length_eq decodes taken' shown shown'
      refine ⟨⟨kept, congrArg before.input.reader.skip same.symm, ?_⟩,
        fun other => absurd rfl other, fun _ => ⟨rfl, ?_⟩⟩
      · exact copiesIn_of_events ((charged.settle _).events_closeBlock isFinal)
      · rintro rfl
        rfl

/-- What is left of a decode behind an item. -/
def Remains (limits : Limits) (progress : Progress) (middle last : Decoder Transcript) : Prop :=
  match progress with
  | .done => middle = last
  | .more => middle.Advances limits .done last

/-- A decode that succeeds has a first item. -/
theorem Advances.exists_first (advances : before.Advances limits .done last) :
    ∃ progress middle, Decoding.advance limits.maxWritten before = .ok progress middle ∧
      middle.Remains limits progress last := by
  generalize same : Progress.done = reached at advances
  cases advances with
  | item within advanced =>
      subst same
      exact ⟨_, _, advanced, rfl⟩
  | cons within advanced rest =>
      subst same
      exact ⟨_, _, advanced, rest⟩

/-- The tokens of a block make the copies that they are written with. -/
theorem makes_body {tokens : List WrittenToken} {bits : List Bool} (rests : before.Rests)
    (inside : before.phase = .inBlock codes isFinal) (decodes : codes.Decodes tables)
    (coded : WrittenToken.allBits? tables tokens = some bits)
    (shown : before.input.reader.Shows bits) (advances : before.Advances limits .done last) :
    ∃ middle, before.Makes bits.length (tokens.countP WrittenToken.isCopy) middle ∧
      (isFinal = false → middle.phase = .betweenBlocks) ∧
      middle.Remains limits (.afterBlock isFinal) last := by
  obtain ⟨progress, next, advanced, remains⟩ := advances.exists_first
  have continued := (Decoding.advance_inBlock_eq_ok_iff inside decodes).mp advanced
  induction tokens generalizing before bits next progress with
  | nil =>
      obtain ⟨makes, -, ends⟩ :=
        continued.makes rests inside decodes (.inr ⟨rfl, coded⟩) shown
      obtain ⟨rfl, between⟩ := ends rfl
      exact ⟨next, makes, between, remains⟩
  | cons token tokens ih =>
      unfold WrittenToken.allBits? at coded
      obtain ⟨first, codedFirst, coded⟩ := Option.bind_eq_some_iff.mp coded
      obtain ⟨others, codedOthers, coded⟩ := Option.bind_eq_some_iff.mp coded
      obtain rfl := Option.some.inj coded
      obtain ⟨shownFirst, shownOthers⟩ := BitReader.shows_append.mp shown
      -- What is written stands where the decoder reads, so it is the token that is read.
      obtain ⟨token', taken, goesOn, copies⟩ := WrittenToken.exists_token codedFirst
      obtain ⟨makes, more, -⟩ := continued.makes rests inside decodes taken shownFirst
      obtain ⟨rfl, phase⟩ := more goesOn
      rw [← makes.reader] at shownOthers
      obtain ⟨progress, after, advanced', remains'⟩ := Advances.exists_first remains
      have continued' :=
        (Decoding.advance_inBlock_eq_ok_iff (phase.trans inside) decodes).mp advanced'
      obtain ⟨middle, makes', between, rest⟩ := ih makes.rests (phase.trans inside) codedOthers
        shownOthers remains progress after advanced' remains' continued'
      refine ⟨middle, ?_, between, rest⟩
      rw [List.length_append, List.countP_cons, Nat.add_comm (tokens.countP _), ← copies]
      exact makes.trans makes'

/-- The tokens of a block stand behind its codes. -/
theorem Makes.body {entered : Decoder Transcript} {count : Nat} {tokens : List WrittenToken}
    {bits : List Bool} (makes : before.Makes count 0 entered)
    (inside : entered.phase = .inBlock codes isFinal) (decodes : codes.Decodes tables)
    (coded : WrittenToken.allBits? tables tokens = some bits)
    (shown : (before.input.reader.skip count).Shows bits)
    (advances : entered.Advances limits .done last) :
    ∃ middle, before.Makes (count + bits.length) (tokens.countP WrittenToken.isCopy) middle ∧
      (isFinal = false → middle.phase = .betweenBlocks) ∧
      middle.Remains limits (.afterBlock isFinal) last := by
  rw [← makes.reader] at shown
  obtain ⟨middle, makes', between, remains⟩ :=
    makes_body makes.rests inside decodes coded shown advances
  have both := makes.trans makes'
  rw [Nat.zero_add] at both
  exact ⟨middle, both, between, remains⟩

/-- A stored block that stands ahead makes no copies. -/
theorem Started.makes_stored {padding : Nat} {bytes : List UInt8}
    (started : before.Started limit progress after) (rests : before.Rests)
    (between : before.phase = .betweenBlocks) (few : bytes.length < 65536)
    (shown : before.input.reader.Shows (isFinal :: fieldBits 2 BlockType.stored.code ++
      storedBits (before.input.reader.position + 3) padding bytes)) :
    before.Makes (3 + (storedBits (before.input.reader.position + 3) padding bytes).length) 0
        after ∧
      (isFinal = false → after.phase = .betweenBlocks) ∧ progress = .afterBlock isFinal := by
  have kept : after.Rests := Item.rests (.block between started) rests
  obtain ⟨charge, charged⟩ := rests.charged
  cases started with
  | @stored isFinal' padding' bytes' shown' few' room within =>
      obtain ⟨rfl, -⟩ := header_unique shown shown'
      have same := stored_unique few few' (BitReader.shows_append.mp shown).2
        (BitReader.shows_append.mp shown').2
      refine ⟨⟨kept, ?_, ?_⟩, ?_, rfl⟩
      · change (Decoder.store _ bytes').input.reader = _
        rw [Decoding.reader_store, WrittenBlock.length_storedBits, same]
        change ((before.input.reader.skip 3).skip _).skip _ = _
        rw [BitReader.skip_skip, BitReader.skip_skip]
      · have opened : ((before.skip 3).openBlock .stored isFinal).Charged (charge + 3) :=
          charged.settle 3
        have stored := (opened.settle (storedHeaderBits (before.position + 3))).store bytes'
        have closed := stored.1.events_closeBlock isFinal
        rw [events_storeOpened charged, List.append_assoc] at closed
        refine (copiesIn_of_events closed).trans (congrArg (copiesIn _ + ·) ?_)
        rw [provenanceOf_append, copiesIn_append]
        exact copiesIn_storedEvents bytes'
      · rintro rfl
        rfl
  | fixed shown' built =>
      rw [← List.append_nil (_ :: _)] at shown'
      cases (header_unique shown shown').2
  | dynamic shown' said written built => cases (header_unique shown shown').2

/-- A block that stands ahead makes the copies that it is written with. -/
theorem makes_block {block : WrittenBlock} {bits : List Bool} (rests : before.Rests)
    (between : before.phase = .betweenBlocks)
    (coded : block.bits? before.input.reader.position isFinal = some bits)
    (shown : before.input.reader.Shows bits) (advances : before.Advances limits .done last) :
    ∃ middle, before.Makes bits.length (block.tokens.countP WrittenToken.isCopy) middle ∧
      (isFinal = false → middle.phase = .betweenBlocks) ∧
      middle.Remains limits (.afterBlock isFinal) last := by
  obtain ⟨progress, next, advanced, remains⟩ := advances.exists_first
  have kept : next.Rests := (item_of_advance rests.coded advanced).rests rests
  have block_iff {progress : Progress} {after : Decoder Transcript} :
      Decoding.advance limits.maxWritten before = .ok progress after ↔
        before.Started limits.maxWritten progress after :=
    Decoding.advance_betweenBlocks_eq_ok_iff between
  obtain ⟨body, codedBody, rfl⟩ := WrittenBlock.bits?_eq_some_iff.mp coded
  have total : (isFinal :: fieldBits 2 block.type.code ++ body).length = 3 + body.length := by
    rw [List.length_append, List.length_cons, length_fieldBits]
  have shownBody : (before.input.reader.skip 3).Shows body := by
    have parts := (BitReader.shows_append.mp shown).2
    rwa [List.length_cons, length_fieldBits] at parts
  have shownHeader := (BitReader.shows_append.mp shown).1
  rw [total]
  cases block with
  | stored padding bytes =>
      obtain ⟨few, rfl⟩ := WrittenBlock.bodyBits?_stored_eq_some_iff.mp codedBody
      obtain ⟨makes, rest, rfl⟩ := (block_iff.mp advanced).makes_stored rests between few shown
      exact ⟨next, makes, rest, remains⟩
  | fixed tokens =>
      obtain ⟨codes, built⟩ := BlockCodes.exists_fixed_eq_ok
      have started := block_iff.mpr (.fixed shownHeader built)
      rw [advanced] at started
      obtain ⟨rfl, rfl⟩ := EStateM.Result.ok.inj started
      refine Makes.body ⟨kept, rfl, ?_⟩ rfl (BlockCodes.decodes_fixed built) codedBody shownBody
        remains
      exact copiesIn_of_events (events_openBlock (before.skip 3) .fixed isFinal)
  | dynamic description tokens =>
      obtain ⟨tables, front, back, said, written, codedBack, rfl⟩ :=
        WrittenBlock.bodyBits?_dynamic_eq_some_iff.mp codedBody
      obtain ⟨codes, built⟩ := BlockCodes.exists_ofLengths_of_written said written
      rw [← List.append_assoc] at shown
      have started := block_iff.mpr
        (.dynamic (BitReader.shows_append.mp shown).1 said written built)
      rw [advanced] at started
      obtain ⟨rfl, rfl⟩ := EStateM.Result.ok.inj started
      have shownBack := (BitReader.shows_append.mp shownBody).2
      rw [BitReader.skip_skip] at shownBack
      rw [List.length_append, ← Nat.add_assoc]
      refine Makes.body ⟨kept, ?_, ?_⟩ rfl (BlockCodes.decodes_of_written said written built)
        codedBack shownBack remains
      · exact BitReader.skip_skip _ _ _
      · exact copiesIn_of_events (events_openBlock (before.skip 3) .dynamic isFinal)

/-- A decode that succeeds makes the copies that its stream is written with. -/
theorem copiesIn_of_advances {blocks : List WrittenBlock} {bits : List Bool} (rests : before.Rests)
    (between : before.phase = .betweenBlocks)
    (coded : WrittenBlock.streamBits? before.input.reader.position blocks = some bits)
    (shown : before.input.reader.Shows bits) (advances : before.Advances limits .done last) :
    copiesIn last.provenance = copiesIn before.provenance + WrittenBlock.copyCount blocks := by
  induction blocks generalizing before bits with
  | nil => cases coded
  | cons block rest ih =>
      rw [WrittenBlock.copyCount, List.flatMap_cons, List.countP_append, ← WrittenBlock.copyCount]
      cases rest with
      | nil =>
          obtain ⟨middle, makes, -, rfl⟩ := makes_block rests between coded shown advances
          exact makes.copies
      | cons next rest =>
          simp only [WrittenBlock.streamBits?, Option.bind_eq_bind, Option.bind_eq_some_iff,
            Option.pure_def, Option.some.injEq] at coded
          obtain ⟨first, codedFirst, others, codedOthers, rfl⟩ := coded
          obtain ⟨shownFirst, shownOthers⟩ := BitReader.shows_append.mp shown
          obtain ⟨middle, makes, between', remains⟩ :=
            makes_block rests between codedFirst shownFirst advances
          have position : before.input.reader.position + first.length =
              middle.input.reader.position := by
            rw [makes.reader, BitReader.skip_position]
          rw [position] at codedOthers
          rw [← makes.reader] at shownOthers
          rw [ih makes.rests (between' rfl) codedOthers shownOthers remains, makes.copies,
            Nat.add_assoc]

end Decoder

end FlateTrace
