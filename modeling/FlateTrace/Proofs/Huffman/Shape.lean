import FlateTrace.Proofs.Bits.Fields

/-! # The shapes of code trees

A pool is a table of nodes; what hangs from one of them is a tree. `Shape` is that
tree without the table, and `Pool.Holds` says that a node is the root of a shape. A
shape assigns symbols to paths (`Shape.symbolAt?`), and following the bits ahead
through a pool finds the symbol whose path they begin with
(`Pool.walk_eq_ok_iff`). Adding nodes changes nothing about the shapes that are
there (`Pool.Holds.extend`).
-/

namespace FlateTrace.Huffman

/-- A code tree apart from any pool. -/
inductive Shape where
  | leaf (symbol : Nat)
  | branch (left right : Shape)
  | vacant

namespace Shape

/-- The symbol at the end of a path, zero to the left and one to the right. -/
def symbolAt? : Shape → List Bool → Option Nat
  | leaf symbol, [] => some symbol
  | leaf _, _ :: _ => none
  | branch _ _, [] => none
  | branch left right, bit :: path => if bit then right.symbolAt? path else left.symbolAt? path
  | vacant, _ => none

/-- The length of the longest path. -/
def depth : Shape → Nat
  | leaf _ => 0
  | branch left right => max left.depth right.depth + 1
  | vacant => 0

/-- Follow the bits ahead down to a leaf or a vacant node. `used` bits have been
followed before. -/
def follow (ahead : Nat → Bool) : (shape : Shape) → (used : Nat) → Except CodeError Nat × Nat
  | leaf symbol, used => (.ok symbol, used)
  | branch left right, used =>
      if ahead used then right.follow ahead (used + 1) else left.follow ahead (used + 1)
  | vacant, used => (.error .unassigned, used)

/-- Follow the bits ahead down the first shape of a forest, if it has one. -/
def followFirst (ahead : Nat → Bool) : List Shape → Except CodeError Nat × Nat
  | [] => (.error .empty, 0)
  | shape :: _ => shape.follow ahead 0

/-- A path goes on in the side of a branch that its first step chooses. -/
theorem symbolAt?_branch_cons (left right : Shape) (bit : Bool) (path : List Bool) :
    (branch left right).symbolAt? (bit :: path) =
      (if bit then right else left).symbolAt? path := by
  rw [symbolAt?]
  split <;> rfl

/-- At a branch the next bit decides. -/
theorem follow_branch (ahead : Nat → Bool) (left right : Shape) (used : Nat) :
    (branch left right).follow ahead used =
      (if ahead used then right else left).follow ahead (used + 1) := by
  rw [follow]
  split <;> rfl

/-- Following the bits ahead ends at the symbol whose path they begin with. -/
theorem follow_eq_ok_iff {ahead : Nat → Bool} {shape : Shape} {used symbol total : Nat} :
    shape.follow ahead used = (.ok symbol, total) ↔
      ∃ path, shape.symbolAt? path = some symbol ∧ used + path.length = total ∧
        StandsAt ahead used path := by
  induction shape generalizing used with
  | leaf here =>
      simp only [follow, Prod.mk.injEq, Except.ok.injEq]
      constructor
      · rintro ⟨rfl, rfl⟩
        exact ⟨[], rfl, rfl, standsAt_nil ahead used⟩
      · rintro ⟨path, found, length, -⟩
        cases path with
        | nil => exact ⟨Option.some.inj found, length⟩
        | cons bit path => exact nomatch found
  | vacant =>
      simp only [follow, Prod.mk.injEq, reduceCtorEq, false_and, symbolAt?, exists_const]
  | branch left right leftIh rightIh =>
      have step : (branch left right).follow ahead used = (.ok symbol, total) ↔
          ∃ path, (if ahead used then right else left).symbolAt? path = some symbol ∧
            used + 1 + path.length = total ∧ StandsAt ahead (used + 1) path := by
        rw [follow_branch]
        split
        · exact rightIh
        · exact leftIh
      rw [step]
      constructor
      · rintro ⟨path, found, length, stands⟩
        refine ⟨ahead used :: path, ?_, ?_, standsAt_cons.mpr ⟨rfl, stands⟩⟩
        · rw [symbolAt?_branch_cons, found]
        · rw [List.length_cons, ← length]
          omega
      · rintro ⟨path, found, length, stands⟩
        cases path with
        | nil => exact nomatch found
        | cons bit path =>
            obtain ⟨rfl, rest⟩ := standsAt_cons.mp stands
            refine ⟨path, ?_, ?_, rest⟩
            · rw [← found, symbolAt?_branch_cons]
            · rw [← length, List.length_cons]
              omega

end Shape

namespace Pool

/-- Whether a node of a pool is the root of a shape. -/
inductive Holds (pool : Pool) : Nat → Shape → Prop where
  | leaf {node symbol : Nat} (here : pool.nodes[node]? = some (.leaf symbol)) :
      Holds pool node (.leaf symbol)
  | branch {node left right : Nat} {leftShape rightShape : Shape}
      (here : pool.nodes[node]? = some (.branch left right)) (first : Holds pool left leftShape)
      (second : Holds pool right rightShape) : Holds pool node (.branch leftShape rightShape)
  | vacant {node : Nat} (here : pool.nodes[node]? = some .vacant) : Holds pool node .vacant

/-- Whether a pool has all nodes of another one, at the same places. -/
def Extends (pool longer : Pool) : Prop :=
  ∀ (index : Nat) (node : Node), pool.nodes[index]? = some node → longer.nodes[index]? = some node

theorem Extends.refl (pool : Pool) : pool.Extends pool := fun _ _ here => here

theorem Extends.trans {first second third : Pool} (before : first.Extends second)
    (after : second.Extends third) : first.Extends third := fun index node here =>
  after index node (before index node here)

theorem extends_append (pool : Pool) (nodes : Array Node) :
    pool.Extends { nodes := pool.nodes ++ nodes } := by
  intro index node here
  obtain ⟨inside, -⟩ := Array.getElem?_eq_some_iff.mp here
  rw [Array.getElem?_append_left inside]
  exact here

theorem extends_add (pool : Pool) (node : Node) : pool.Extends (pool.add node) := by
  intro index other here
  obtain ⟨inside, -⟩ := Array.getElem?_eq_some_iff.mp here
  rw [add, Array.getElem?_push_lt inside]
  exact (Array.getElem?_eq_getElem inside).symm.trans here

/-- The shapes in a pool stay when nodes are added. -/
theorem Holds.extend {pool longer : Pool} {node : Nat} {shape : Shape}
    (held : pool.Holds node shape)
    (extension : pool.Extends longer) : longer.Holds node shape := by
  induction held with
  | leaf here => exact .leaf (extension _ _ here)
  | branch here _ _ first second => exact .branch (extension _ _ here) first second
  | vacant here => exact .vacant (extension _ _ here)

/-- Descending through a pool follows the shape that hangs from a node. -/
theorem descend_eq_follow {pool : Pool} {ahead : Nat → Bool} {depth node used : Nat}
    {shape : Shape} (held : pool.Holds node shape) (fits : shape.depth ≤ depth) :
    pool.descend ahead depth node used = shape.follow ahead used := by
  induction held generalizing depth used with
  | leaf here => cases depth <;> rw [descend, here, Shape.follow]
  | vacant here => cases depth <;> rw [descend, here, Shape.follow]
  | branch here _ _ first second =>
      cases depth with
      | zero => exact absurd fits (Nat.not_succ_le_zero _)
      | succ depth =>
          unfold Shape.depth at fits
          rw [descend, here, Shape.follow]
          by_cases bit : ahead used
          · simp only [bit, ↓reduceIte]
            exact second (by omega)
          · simp only [bit, Bool.false_eq_true, ↓reduceIte]
            exact first (by omega)

/-- Whether the trees at the top of a pool are those of a list of shapes with one
element at most: an empty code has no shape, any other code has a branching one that is
no deeper than the longest code. -/
def HoldsTree (pool : Pool) (tree : CodeTree) (shapes : List Shape) : Prop :=
  (tree.root = none ∧ shapes = []) ∨
    ∃ root left right, tree.root = some root ∧ shapes = [.branch left right] ∧
      (Shape.branch left right).depth ≤ maxCodeLength ∧ pool.Holds root (.branch left right)

/-- A tree stays held when nodes are added. -/
theorem HoldsTree.extend {pool longer : Pool} {tree : CodeTree} {shapes : List Shape}
    (held : pool.HoldsTree tree shapes) (extension : pool.Extends longer) :
    longer.HoldsTree tree shapes := by
  rcases held with empty | ⟨root, left, right, named, only, fits, hung⟩
  · exact .inl empty
  · exact .inr ⟨root, left, right, named, only, fits, hung.extend extension⟩

/-- Walking down a tree follows its shape. -/
theorem walk_eq_followFirst {pool : Pool} {tree : CodeTree} {shapes : List Shape}
    (held : pool.HoldsTree tree shapes) (ahead : Nat → Bool) :
    pool.walk tree ahead = Shape.followFirst ahead shapes := by
  rcases held with ⟨absent, rfl⟩ | ⟨root, left, right, named, rfl, fits, hung⟩
  · simp only [walk, absent, Shape.followFirst]
  · rw [Shape.followFirst, ← descend_eq_follow hung fits]
    cases hung with
    | branch here first second => simp only [walk, named, here, maxCodeLength, descend]

/-- Whether two trees, each in its pool, make the same of all bits. -/
structure DecodesAlike (pool : Pool) (tree : CodeTree) (other : Pool) (otherTree : CodeTree) :
    Prop where
  walk (ahead : Nat → Bool) : pool.walk tree ahead = other.walk otherTree ahead
  decode {σ : Type} [BitSource σ] (source : σ) :
    pool.decode tree source = other.decode otherTree source

/-- Trees of one shape decode alike. -/
theorem decodesAlike_of_holdsTree {pool other : Pool} {tree otherTree : CodeTree}
    {shapes : List Shape} (held : pool.HoldsTree tree shapes)
    (held' : other.HoldsTree otherTree shapes) : pool.DecodesAlike tree other otherTree := by
  have same (ahead : Nat → Bool) : pool.walk tree ahead = other.walk otherTree ahead := by
    rw [walk_eq_followFirst held, walk_eq_followFirst held']
  refine ⟨same, fun source => ?_⟩
  rw [Pool.decode, Pool.decode, same]

/-- Walking down a tree finds the symbol whose path the bits ahead begin with. -/
theorem walk_eq_ok_iff {pool : Pool} {tree : CodeTree} {shapes : List Shape}
    (held : pool.HoldsTree tree shapes) {ahead : Nat → Bool} {symbol used : Nat} :
    pool.walk tree ahead = (.ok symbol, used) ↔
      ∃ path, (∃ shape, shapes[0]? = some shape ∧ shape.symbolAt? path = some symbol) ∧
        path.length = used ∧ StandsAt ahead 0 path := by
  rw [walk_eq_followFirst held]
  cases shapes with
  | nil => simp only [Shape.followFirst, Prod.mk.injEq, reduceCtorEq, false_and, List.getElem?_nil,
      exists_false]
  | cons shape shapes =>
      rw [Shape.followFirst, Shape.follow_eq_ok_iff]
      simp only [List.getElem?_cons_zero, Option.some.injEq, exists_eq_left', Nat.zero_add]

end Pool

end FlateTrace.Huffman
