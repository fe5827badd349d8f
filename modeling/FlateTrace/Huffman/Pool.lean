import FlateTrace.Bytes

/-! # Code trees in a shared pool

A prefix code is given by one code length per symbol, zero for an unused symbol.
Its tree is built from the deepest level up: a level holds the leaves of the
symbols with that code length, in symbol order, followed by the branches that
join the roots of the level below in pairs. Leaves therefore stand to the left of
branches at the same depth, which makes the code canonical: shorter codes precede
longer ones, and codes of one length are in symbol order.

When a level below has an odd number of roots, the last of them is joined with a
vacant node: its half of the code space is assigned to no symbol. When more than
one root is left at the top the lengths ask for more code space than there is.

All nodes live in one pool and name their children by index. Building a tree only
appends to the pool, also when it fails. Indices have 32 bits, so in a pool of more than
`2 ^ 32` nodes the later nodes have no indices of their own.
-/

namespace FlateTrace.Huffman

/-- The longest code length of the format. Longer lengths mark unused symbols. -/
def maxCodeLength : Nat := 15

/-- A leaf with its symbol, a branch with the indices of its children, or the
unassigned part of a code. -/
inductive Node where
  | leaf (symbol : Nat)
  | branch (left right : Nat)
  | vacant
  deriving DecidableEq, Repr, Inhabited

/-- Why a code cannot be built, or cannot decode what it reads. -/
inductive CodeError where
  | oversubscribed
  | empty
  | unassigned
  deriving DecidableEq, Repr

/-- The text of a code error. -/
def CodeError.message : CodeError → String
  | .oversubscribed => "Code lengths describe an oversubscribed Huffman code"
  | .empty => "Attempted to decode a symbol from an empty Huffman code"
  | .unassigned => "Read a bit sequence that is not assigned in an incomplete Huffman code"

/-- The root of a tree in a pool; a code without symbols has no root. -/
structure CodeTree where
  root : Option Nat
  deriving DecidableEq, Repr

/-- The nodes of any number of trees. -/
structure Pool where
  nodes : Array Node
  deriving Repr

/-- The symbols that have a given code length, in order. Symbols have sixteen
bits. -/
def symbolsOfLength (lengths : List Nat) (length : Nat) : List Nat :=
  (lengths.zipIdx.filter fun entry => entry.1 == length).map fun entry => entry.2 % 65536

namespace Pool

/-- A pool without nodes. -/
def empty : Pool :=
  { nodes := #[] }

/-- Number of nodes of all trees. -/
def size (pool : Pool) : Nat :=
  pool.nodes.size

/-- The index of a place in a pool. -/
def indexOf (place : Nat) : Nat :=
  place % 2 ^ 32

/-- The index of the node that is appended next. -/
def nextIndex (pool : Pool) : Nat :=
  indexOf pool.size

/-- Append a node. -/
def add (pool : Pool) (node : Node) : Pool :=
  { nodes := pool.nodes.push node }

/-- Append the leaves of some symbols, and list their indices. -/
def addLeaves (pool : Pool) (symbols : List Nat) : Pool × List Nat :=
  let first := pool.size
  ({ nodes := pool.nodes ++ (symbols.map Node.leaf).toArray },
    (List.range' first symbols.length).map indexOf)

/-- Join the roots of a level in pairs, left to right, and put the indices of the
branches behind those of `level`. A root without a partner is joined with a
vacant node, which precedes its branch in the pool. -/
def joinPairs (pool : Pool) (level : Array Nat) : (roots : List Nat) → Pool × Array Nat
  | [] => (pool, level)
  | [last] =>
      let vacant := pool.nextIndex
      let pool := pool.add .vacant
      let branch := pool.nextIndex
      (pool.add (.branch last vacant), level.push branch)
  | left :: right :: rest =>
      let branch := pool.nextIndex
      joinPairs (pool.add (.branch left right)) (level.push branch) rest

/-- The roots of a level: the leaves of the symbols with codes of this length, and the branches
that join the roots of the level below. -/
def joinLevel (pool : Pool) (symbols roots : List Nat) : Pool × List Nat :=
  let (pool, leaves) := pool.addLeaves symbols
  let (pool, level) := pool.joinPairs leaves.toArray roots
  (pool, level.toList)

/-- Build all levels from `length` up to the top, given the roots of the level
below: the pool, and the roots at the top. -/
def buildLevels (lengths : List Nat) : (length : Nat) → (pool : Pool) → (roots : List Nat) →
    Pool × List Nat
  | 0, pool, roots => pool.joinLevel [] roots
  | length + 1, pool, roots =>
      let (pool, roots) := pool.joinLevel (symbolsOfLength lengths (length + 1)) roots
      buildLevels lengths length pool roots

/-- Build the canonical code tree for one code length per symbol. -/
@[irreducible]
def build (pool : Pool) (lengths : List Nat) : Pool × Except CodeError CodeTree :=
  let (pool, roots) := pool.buildLevels lengths maxCodeLength []
  match roots with
  | [] => (pool, .ok { root := none })
  | [root] => (pool, .ok { root := some root })
  | _ :: _ :: _ => (pool, .error .oversubscribed)

end Pool

end FlateTrace.Huffman
