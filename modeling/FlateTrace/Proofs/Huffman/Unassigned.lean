import Mathlib.Order.Bounds.Basic
import FlateTrace.Proofs.Huffman.Build

/-! # Bits that no code begins with

A place of a tree is vacant only beside a part of the tree that has a leaf
(`Shape.Grown`). So bits that lead to a vacant place agree with some code up to the bit
before, and with no code from there on: following them stops exactly behind the shortest
front that no code begins with (`Shape.Grown.stopsWhenLost`).
-/

namespace FlateTrace.Huffman

/-- Whether a code begins with the next `count` bits of a stream. -/
def BeginsWith (stream : Nat → Bool) (position count : Nat) (code : List Bool) : Prop :=
  count ≤ code.length ∧ StandsAt stream position (code.take count)

theorem beginsWith_zero (stream : Nat → Bool) (position : Nat) (code : List Bool) :
    BeginsWith stream position 0 code :=
  ⟨Nat.zero_le _, standsAt_nil stream position⟩

/-- A code begins with some bits if its first bit is the next one and the rest begins with those
behind it. -/
theorem beginsWith_cons {stream : Nat → Bool} {position count : Nat} {bit : Bool}
    {code : List Bool} : BeginsWith stream position (count + 1) (bit :: code) ↔
      stream position = bit ∧ BeginsWith stream (position + 1) count code := by
  simp only [BeginsWith, List.length_cons, Nat.add_le_add_iff_right, List.take_succ_cons,
    standsAt_cons, and_left_comm]

namespace Shape

variable {ahead : Nat → Bool} {position count : Nat}

/-- Whether some path to a leaf begins with the next `count` bits. -/
def Leads (shape : Shape) (ahead : Nat → Bool) (position count : Nat) : Prop :=
  ∃ path symbol, shape.symbolAt? path = some symbol ∧ BeginsWith ahead position count path

/-- No bits lead anywhere in a vacant shape. -/
theorem not_leads_vacant : ¬vacant.Leads ahead position count := by
  rintro ⟨path, symbol, found, -⟩
  cases found

/-- A step down a branch leads on into the side that the next bit chooses. -/
theorem leads_branch_iff {left right : Shape} :
    (branch left right).Leads ahead position (count + 1) ↔
      (if ahead position then right else left).Leads ahead (position + 1) count := by
  constructor
  · rintro ⟨path, symbol, found, begins⟩
    cases path with
    | nil => cases found
    | cons bit path =>
        obtain ⟨rfl, rest⟩ := beginsWith_cons.mp begins
        rw [symbolAt?_branch_cons] at found
        exact ⟨path, symbol, found, rest⟩
  · rintro ⟨path, symbol, found, begins⟩
    refine ⟨ahead position :: path, symbol, ?_, beginsWith_cons.mpr ⟨rfl, begins⟩⟩
    rw [symbolAt?_branch_cons]
    exact found

/-- Whether a shape has leaves, and no vacant place but on the right of a part that has
leaves. -/
inductive Grown : Shape → Prop where
  | leaf (symbol : Nat) : Grown (.leaf symbol)
  | branch {left right : Shape} (first : left.Grown) (second : right.Grown) :
      Grown (.branch left right)
  | half {left : Shape} (first : left.Grown) : Grown (.branch left .vacant)

/-- A shape that was grown has a symbol somewhere. -/
theorem Grown.exists_symbolAt? {shape : Shape} (grown : shape.Grown) :
    ∃ path symbol, shape.symbolAt? path = some symbol := by
  induction grown with
  | leaf symbol => exact ⟨[], symbol, rfl⟩
  | branch _ _ first _ =>
      obtain ⟨path, symbol, found⟩ := first
      exact ⟨false :: path, symbol, found⟩
  | half _ first =>
      obtain ⟨path, symbol, found⟩ := first
      exact ⟨false :: path, symbol, found⟩

/-- Before the first bit some code is still possible. -/
theorem Grown.leads_zero {shape : Shape} (grown : shape.Grown) : shape.Leads ahead position 0 := by
  obtain ⟨path, symbol, found⟩ := grown.exists_symbolAt?
  exact ⟨path, symbol, found, beginsWith_zero ahead position path⟩

/-- Whether following the bits ahead stops behind the shortest front that leads nowhere, if it
fails. -/
def StopsWhenLost (shape : Shape) (ahead : Nat → Bool) (position : Nat) : Prop :=
  ∀ {error total}, shape.follow ahead position = (.error error, total) →
    error = .unassigned ∧ ∃ count, total = position + count ∧
      IsLeast {less | ¬shape.Leads ahead position less} count

theorem stopsWhenLost_leaf (symbol : Nat) : (leaf symbol).StopsWhenLost ahead position := by
  intro error total failed
  cases failed

theorem stopsWhenLost_vacant : vacant.StopsWhenLost ahead position := by
  intro error total failed
  obtain ⟨named, rfl⟩ := Prod.mk.inj failed
  exact ⟨(Except.error.inj named).symm, 0, rfl, not_leads_vacant, fun _ _ => Nat.zero_le _⟩

/-- A step down a branch makes the shortest front that leads nowhere longer by one bit. -/
theorem stopsWhenLost_branch {left right : Shape} (grown : (branch left right).Grown)
    (first : left.StopsWhenLost ahead (position + 1))
    (second : right.StopsWhenLost ahead (position + 1)) :
    (branch left right).StopsWhenLost ahead position := by
  intro error total failed
  have turned : (if ahead position then right else left).StopsWhenLost ahead (position + 1) := by
    split
    · exact second
    · exact first
  rw [follow_branch] at failed
  obtain ⟨named, count, ended, lost, least⟩ := turned failed
  refine ⟨named, count + 1, by omega, fun leads => lost (leads_branch_iff.mp leads), ?_⟩
  intro less lost'
  cases less with
  | zero => exact absurd grown.leads_zero lost'
  | succ less => exact Nat.succ_le_succ (least fun leads => lost' (leads_branch_iff.mpr leads))

/-- In a shape that was grown the way ends with the first bit that no code goes on with. -/
theorem Grown.stopsWhenLost {shape : Shape} (grown : shape.Grown) :
    shape.StopsWhenLost ahead position := by
  induction grown generalizing position with
  | leaf symbol => exact stopsWhenLost_leaf symbol
  | branch first second firstIh secondIh =>
      exact stopsWhenLost_branch (.branch first second) firstIh secondIh
  | half first firstIh => exact stopsWhenLost_branch (.half first) firstIh stopsWhenLost_vacant

end Shape

open Shape

/-- Pairs of grown shapes are grown, and so is a last one with a vacant place beside it. -/
theorem grown_pairShapes {shapes : List Shape} (grown : ∀ shape ∈ shapes, shape.Grown) :
    ∀ shape ∈ pairShapes shapes, shape.Grown := by
  induction shapes using pairShapes.induct with
  | case1 =>
      intro shape member
      cases member
  | case2 last =>
      intro shape member
      obtain rfl := List.mem_singleton.mp member
      exact .half (grown last (List.mem_singleton_self last))
  | case3 left right rest ih =>
      intro shape member
      rcases List.mem_cons.mp member with rfl | later
      · exact .branch (grown left (by simp)) (grown right (by simp))
      · exact ih (fun other inside => grown other (by simp [inside])) shape later

/-- The shapes of a level are grown if those below are. -/
theorem grown_levelShapes (lengths : List Nat) (level : Nat) {below : List Shape}
    (grown : ∀ shape ∈ below, shape.Grown) :
    ∀ shape ∈ levelShapes lengths level below, shape.Grown := by
  intro shape member
  rcases List.mem_append.mp member with leaf | joined
  · obtain ⟨symbol, -, rfl⟩ := List.mem_map.mp leaf
    exact .leaf symbol
  · exact grown_pairShapes grown shape joined

/-- The shapes at the top are grown if those below are. -/
theorem grown_topShapes (lengths : List Nat) (level : Nat) {below : List Shape}
    (grown : ∀ shape ∈ below, shape.Grown) :
    ∀ shape ∈ topShapes lengths level below, shape.Grown := by
  induction level generalizing below with
  | zero => exact grown_levelShapes lengths 0 grown
  | succ level ih => exact ih (grown_levelShapes lengths (level + 1) grown)

theorem grown_codeShapes (lengths : List Nat) : ∀ shape ∈ codeShapes lengths, shape.Grown := by
  unfold codeShapes
  exact grown_topShapes lengths maxCodeLength fun _ member => by cases member

/-- No code space is asked for exactly when no symbol has a code. -/
theorem codeSpace_eq_zero_iff {lengths : List Nat} :
    codeSpace lengths = 0 ↔ ∀ length ∈ lengths, ¬HasCode length := by
  induction lengths with
  | nil => simp only [codeSpace, List.map_nil, List.sum_nil, List.not_mem_nil, false_implies,
      implies_true]
  | cons length lengths ih =>
      simp only [codeSpace, List.map_cons, List.sum_cons, List.forall_mem_cons] at ih ⊢
      rw [Nat.add_eq_zero_iff, ih, ite_eq_right_iff]
      simp only [Nat.ne_of_gt (Nat.two_pow_pos _), imp_false]

/-- Nothing is built exactly of a table in which no symbol has a code. -/
theorem codeShapes_eq_nil_iff {lengths : List Nat} :
    codeShapes lengths = [] ↔ ∀ length ∈ lengths, ¬HasCode length := by
  have least := (forest_codeShapes lengths).space_le
  have most := (forest_codeShapes lengths).lt_space
  rw [Nat.max_eq_right (Nat.zero_le 1), spaceFrom_one] at least most
  simp only [maxCodeLength, Nat.sub_zero] at least most
  rw [← codeSpace_eq_zero_iff, ← List.length_eq_zero_iff]
  omega

/-- What a walk down a built tree does: it has no tree to walk, or it follows the only shape that
the lengths build up to. -/
theorem Pool.exists_shape_of_build {pool longer : Pool} {lengths : List Nat} {tree : CodeTree}
    (built : pool.build lengths = (longer, .ok tree)) (room : longer.size ≤ 2 ^ 32) :
    ((∀ length ∈ lengths, ¬HasCode length) ∧
        ∀ ahead, longer.walk tree ahead = (.error .empty, 0)) ∨
      (∃ length ∈ lengths, HasCode length) ∧ ∃ shape, shape.Grown ∧
        codeShapes lengths = [shape] ∧ ∀ ahead, longer.walk tree ahead = shape.follow ahead 0 := by
  have held := holdsTree_of_build built room
  have walked := walk_eq_followFirst held
  rcases held with ⟨-, none⟩ | ⟨root, left, right, -, single, -, -⟩
  · rw [none] at walked
    exact .inl ⟨codeShapes_eq_nil_iff.mp none, walked⟩
  · rw [single] at walked
    refine .inr ⟨?_, _, ?_, single, walked⟩
    · by_contra unused
      simp only [not_exists, not_and] at unused
      rw [codeShapes_eq_nil_iff.mpr unused] at single
      cases single
    · exact grown_codeShapes lengths _ (single ▸ List.mem_singleton_self _)

/-- Why a tree that was built finds no symbol. -/
theorem Pool.reason_of_decode {pool longer : Pool} {lengths : List Nat} {tree : CodeTree}
    (built : pool.build lengths = (longer, .ok tree)) (room : longer.size ≤ 2 ^ 32) {σ : Type}
    [BitSource σ] {source rest : σ} {reason : CodeError}
    (failed : longer.decode tree source = (.error reason, rest)) :
    reason = .empty ∨ reason = .unassigned := by
  have ended := congrArg Prod.fst failed
  change (longer.walk tree (BitSource.reader source).ahead).1 = _ at ended
  rcases exists_shape_of_build built room with ⟨-, walked⟩ | ⟨-, shape, grown, -, walked⟩
  · rw [walked] at ended
    exact .inl (Except.error.inj ended).symm
  · rw [walked] at ended
    exact .inr (grown.stopsWhenLost (Prod.ext ended rfl)).1

end FlateTrace.Huffman
