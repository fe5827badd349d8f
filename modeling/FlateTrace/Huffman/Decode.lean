import FlateTrace.Bits.Reader
import FlateTrace.Huffman.Pool

/-! # Decoding symbols

A symbol is read by following the bits ahead from the root of a tree, zero to the
left and one to the right, down to a leaf. The root is a branch, so even a code
with a single symbol spends a bit on it; no code is longer than `maxCodeLength`.
What a tree makes of the bits is a function of those bits alone (`Pool.walk`);
decoding from a bit source then moves past the bits that were followed.
-/

namespace FlateTrace.Huffman

namespace Pool

/-- Follow the bits ahead from a node at most `depth` levels down. `used` bits
have been followed before. -/
def descend (pool : Pool) (ahead : Nat → Bool) : (depth node used : Nat) →
    Except CodeError Nat × Nat
  | 0, node, used =>
      match pool.nodes[node]? with
      | some (.leaf symbol) => (.ok symbol, used)
      | _ => (.error .unassigned, used)
  | depth + 1, node, used =>
      match pool.nodes[node]? with
      | some (.leaf symbol) => (.ok symbol, used)
      | some (.branch left right) =>
          pool.descend ahead depth (if ahead used then right else left) (used + 1)
      | _ => (.error .unassigned, used)

/-- The symbol that the bits ahead begin with, and how many bits were followed to
find it or to find that there is none. -/
def walk (pool : Pool) (tree : CodeTree) (ahead : Nat → Bool) : Except CodeError Nat × Nat :=
  match tree.root with
  | none => (.error .empty, 0)
  | some root =>
      match pool.nodes[root]? with
      | some (.branch left right) =>
          pool.descend ahead (maxCodeLength - 1) (if ahead 0 then right else left) 1
      | _ => (.error .unassigned, 0)

/-- Decode one symbol from a bit source. -/
def decode {σ : Type} [BitSource σ] (pool : Pool) (tree : CodeTree) (source : σ) :
    Except CodeError Nat × σ :=
  let (result, used) := pool.walk tree (BitSource.reader source).ahead
  (result, BitSource.skip source used)

/-- Going down a tree takes back none of the bits that were followed before. -/
theorem le_descend_snd (pool : Pool) (ahead : Nat → Bool) (depth node used : Nat) :
    used ≤ (pool.descend ahead depth node used).2 := by
  induction depth generalizing node used with
  | zero =>
      rw [descend]
      split <;> exact Nat.le_refl used
  | succ depth ih =>
      rw [descend]
      split
      · exact Nat.le_refl used
      · exact Nat.le_trans (Nat.le_succ used) (ih _ _)
      · exact Nat.le_refl used

/-- A symbol costs at least one bit. -/
theorem one_le_walk_snd {pool : Pool} {tree : CodeTree} {ahead : Nat → Bool} {symbol : Nat}
    (decoded : (pool.walk tree ahead).1 = .ok symbol) : 1 ≤ (pool.walk tree ahead).2 := by
  revert decoded
  rw [walk]
  split
  · exact fun decoded => nomatch decoded
  · split
    · exact fun _ => le_descend_snd pool ahead _ _ 1
    · exact fun decoded => nomatch decoded

end Pool

end FlateTrace.Huffman
