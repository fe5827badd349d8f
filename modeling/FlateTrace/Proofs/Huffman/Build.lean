import FlateTrace.Proofs.Huffman.Forest

/-! # Building a code

Building follows the forests level by level. There are as many roots at a level as there
are shapes, and as many nodes as the shapes need (`length_buildLevels`, `size_buildLevels`),
so a code is built exactly when its lengths fit the code space (`exists_build_eq_ok_iff`),
and then takes fewer than `2 ^ 16` nodes (`size_build_lt`).

The pool only grows. As long as all its nodes have indices of their own, the roots that are
passed from a level to the next are the roots of the shapes of that level
(`holds_buildLevels`), and the tree that is built decodes the canonical code
(`decodes_of_build`), also after more trees were built in the same pool.
-/

namespace FlateTrace.Huffman

/-- The number of nodes that a shape takes in a pool. -/
def Shape.size : Shape → Nat
  | leaf _ => 1
  | branch left right => left.size + right.size + 1
  | vacant => 1

/-- The number of nodes that some shapes take together. -/
def sizeOfShapes (shapes : List Shape) : Nat :=
  (shapes.map Shape.size).sum

/-- A shape has no more nodes than a full one of the same depth. -/
theorem Shape.size_lt (shape : Shape) : shape.size < 2 ^ (shape.depth + 1) := by
  induction shape with
  | leaf symbol => exact Nat.one_lt_two
  | vacant => exact Nat.one_lt_two
  | branch left right leftIh rightIh =>
      have first : 2 ^ (left.depth + 1) ≤ 2 ^ (branch left right).depth :=
        Nat.pow_le_pow_right Nat.two_pos (Nat.succ_le_succ (Nat.le_max_left _ _))
      have second : 2 ^ (right.depth + 1) ≤ 2 ^ (branch left right).depth :=
        Nat.pow_le_pow_right Nat.two_pos (Nat.succ_le_succ (Nat.le_max_right _ _))
      rw [size, Nat.pow_succ]
      omega

namespace Pool

/-- Whether a tree of a pool decodes the canonical code of some lengths. -/
def Decodes (pool : Pool) (tree : CodeTree) (lengths : List Nat) : Prop :=
  ∀ (ahead : Nat → Bool) (symbol used : Nat), pool.walk tree ahead = (.ok symbol, used) ↔
    ∃ code, canonicalCode? lengths symbol = some code ∧ code.length = used ∧ StandsAt ahead 0 code

/-! ### The nodes that are added -/

/-- A pool that has all nodes of another one is no smaller. -/
theorem Extends.size_le {pool longer : Pool} (extension : pool.Extends longer) :
    pool.size ≤ longer.size := by
  by_contra smaller
  have inside : longer.size < pool.nodes.size := Nat.lt_of_not_le smaller
  have kept := extension longer.size _ (Array.getElem?_eq_getElem inside)
  obtain ⟨beyond, -⟩ := Array.getElem?_eq_some_iff.mp kept
  exact Nat.lt_irrefl _ beyond

theorem size_add (pool : Pool) (node : Node) : (pool.add node).size = pool.size + 1 := by
  rw [size, add, Array.size_push, size]

theorem size_addLeaves (pool : Pool) (symbols : List Nat) :
    (pool.addLeaves symbols).1.size = pool.size + symbols.length := by
  simp only [addLeaves, size, Array.size_append, List.size_toArray, List.length_map]

theorem length_addLeaves (pool : Pool) (symbols : List Nat) :
    (pool.addLeaves symbols).2.length = symbols.length := by
  simp only [addLeaves, List.length_map, List.length_range']

/-- Leaves are added behind the nodes that are there. -/
theorem extends_addLeaves (pool : Pool) (symbols : List Nat) :
    pool.Extends (pool.addLeaves symbols).1 :=
  extends_append pool _

theorem extends_joinPairs (pool : Pool) (level : Array Nat) (roots : List Nat) :
    pool.Extends (pool.joinPairs level roots).1 := by
  fun_induction joinPairs pool level roots with
  | case1 pool level => exact .refl pool
  | case2 pool level last => exact (extends_add _ _).trans (extends_add _ _)
  | case3 pool level left right rest branch ih => exact (extends_add pool _).trans ih

/-- Joining roots in pairs leaves as many roots as there are shapes, and adds the nodes that the
shapes have more than before. -/
theorem counts_joinPairs (pool : Pool) (level : Array Nat) {roots : List Nat} {shapes : List Shape}
    (same : roots.length = shapes.length) :
    (pool.joinPairs level roots).2.size = level.size + (pairShapes shapes).length ∧
      (pool.joinPairs level roots).1.size + sizeOfShapes shapes =
        pool.size + sizeOfShapes (pairShapes shapes) := by
  induction shapes using pairShapes.induct generalizing pool level roots with
  | case1 =>
      obtain rfl := List.length_eq_zero_iff.mp same
      exact ⟨rfl, rfl⟩
  | case2 last =>
      obtain ⟨root, rfl⟩ := List.length_eq_one_iff.mp same
      refine ⟨Array.size_push _, ?_⟩
      simp only [joinPairs, size_add, sizeOfShapes, pairShapes, List.map_cons, List.map_nil,
        List.sum_cons, List.sum_nil, Shape.size]
      omega
  | case3 left right rest ih =>
      rcases roots with _ | ⟨leftRoot, _ | ⟨rightRoot, roots⟩⟩
      · cases same
      · cases same
      · have others : roots.length = rest.length := Nat.succ.inj (Nat.succ.inj same)
        obtain ⟨count, nodes⟩ := ih (pool.add (.branch leftRoot rightRoot))
          (level.push pool.nextIndex) others
        rw [size_add] at nodes
        simp only [joinPairs, sizeOfShapes, pairShapes, List.map_cons, List.sum_cons,
          List.length_cons, Shape.size] at count nodes ⊢
        rw [count, Array.size_push]
        omega

theorem extends_joinLevel (pool : Pool) (symbols roots : List Nat) :
    pool.Extends (pool.joinLevel symbols roots).1 :=
  (extends_addLeaves pool _).trans (extends_joinPairs _ _ _)

theorem extends_buildLevels (lengths : List Nat) (length : Nat) (pool : Pool) (roots : List Nat) :
    pool.Extends (buildLevels lengths length pool roots).1 := by
  induction length generalizing pool roots with
  | zero => exact extends_joinLevel pool [] roots
  | succ length ih => exact (extends_joinLevel pool _ roots).trans (ih _ _)

/-- A tree is built behind the nodes that are there, and a refused one leaves them as well. -/
theorem extends_build (pool : Pool) (lengths : List Nat) : pool.Extends (pool.build lengths).1 := by
  have grown := extends_buildLevels lengths maxCodeLength pool []
  simp only [build]
  generalize buildLevels lengths maxCodeLength pool [] = top at grown ⊢
  split <;> exact grown

/-- Below the top the symbols of a level are those with codes of that length. -/
theorem levelSymbols_succ {lengths : List Nat} {length : Nat} (short : length + 1 ≤ maxCodeLength) :
    levelSymbols lengths (length + 1) = symbolsOfLength lengths (length + 1) :=
  if_pos ⟨Nat.succ_pos length, short⟩

/-- A level is joined to what was built below it, and the next one to that. -/
theorem buildLevels_succ (lengths : List Nat) (length : Nat) (pool : Pool) (roots : List Nat) :
    buildLevels lengths (length + 1) pool roots =
      buildLevels lengths length (pool.joinLevel (symbolsOfLength lengths (length + 1)) roots).1
        (pool.joinLevel (symbolsOfLength lengths (length + 1)) roots).2 :=
  rfl

theorem sizeOfShapes_leaves (symbols : List Nat) :
    sizeOfShapes (symbols.map .leaf) = symbols.length := by
  rw [sizeOfShapes, List.map_map]
  exact (congrArg List.sum (List.map_const' ..)).trans
    ((List.sum_replicate_nat ..).trans (Nat.mul_one _))

/-- A level has as many roots as shapes, and adds the nodes that these have more than the shapes
below. -/
theorem counts_joinLevel (pool : Pool) (symbols : List Nat) {roots : List Nat}
    {shapes : List Shape} (same : roots.length = shapes.length) :
    (pool.joinLevel symbols roots).2.length =
        (symbols.map Shape.leaf ++ pairShapes shapes).length ∧
      (pool.joinLevel symbols roots).1.size + sizeOfShapes shapes =
        pool.size + sizeOfShapes (symbols.map Shape.leaf ++ pairShapes shapes) := by
  obtain ⟨count, nodes⟩ :=
    counts_joinPairs (pool.addLeaves symbols).1 (pool.addLeaves symbols).2.toArray same
  rw [size_addLeaves] at nodes
  constructor
  · rw [joinLevel, Array.length_toList, count, List.size_toArray, length_addLeaves,
      List.length_append, List.length_map]
  · have sizes : sizeOfShapes (symbols.map Shape.leaf ++ pairShapes shapes) =
        symbols.length + sizeOfShapes (pairShapes shapes) := by
      rw [sizeOfShapes, List.map_append, List.sum_append_nat, ← sizeOfShapes, ← sizeOfShapes,
        sizeOfShapes_leaves]
    rw [sizes, ← Nat.add_assoc, ← nodes]
    rfl

/-- The roots at the top are as many as the shapes at the top, and the nodes that were added are
those that these shapes have more than the shapes below. -/
theorem counts_buildLevels {lengths : List Nat} {length : Nat} (short : length ≤ maxCodeLength)
    (pool : Pool) {roots : List Nat} {shapes : List Shape} (same : roots.length = shapes.length) :
    (buildLevels lengths length pool roots).2.length =
        (topShapes lengths length shapes).length ∧
      (buildLevels lengths length pool roots).1.size + sizeOfShapes shapes =
        pool.size + sizeOfShapes (topShapes lengths length shapes) := by
  induction length generalizing pool roots shapes with
  | zero =>
      rw [topShapes, levelShapes_zero]
      exact counts_joinLevel pool [] same
  | succ length ih =>
      obtain ⟨count, nodes⟩ := counts_joinLevel pool (symbolsOfLength lengths (length + 1)) same
      obtain ⟨countAbove, nodesAbove⟩ := ih (Nat.le_of_succ_le short) _ count
      rw [buildLevels_succ, topShapes, levelShapes, levelSymbols_succ short]
      exact ⟨countAbove, by omega⟩

/-- There are as many roots at the top as there are shapes of a code. -/
theorem length_roots (pool : Pool) (lengths : List Nat) :
    (buildLevels lengths maxCodeLength pool []).2.length = (codeShapes lengths).length := by
  unfold codeShapes
  exact (counts_buildLevels (Nat.le_refl maxCodeLength) pool rfl).1

/-- Building adds the nodes of the shapes of a code, also when it fails. -/
theorem size_build (pool : Pool) (lengths : List Nat) :
    (pool.build lengths).1.size = pool.size + sizeOfShapes (codeShapes lengths) := by
  have counts := (@counts_buildLevels lengths _ (Nat.le_refl maxCodeLength) pool [] [] rfl).2
  unfold codeShapes
  simp only [build]
  generalize buildLevels lengths maxCodeLength pool [] = top at counts ⊢
  split <;> exact counts

/-- A code is built exactly when its lengths fit the code space. -/
theorem exists_build_eq_ok_iff {pool : Pool} {lengths : List Nat} :
    (∃ tree, (pool.build lengths).2 = .ok tree) ↔ FitsCodeSpace lengths := by
  rw [← length_codeShapes_le_one_iff, ← length_roots pool]
  simp only [build]
  generalize buildLevels lengths maxCodeLength pool [] = top
  split
  · rename_i none
    simp only [none, Except.ok.injEq, exists_eq', List.length_nil, Nat.zero_le]
  · rename_i root single
    simp only [single, Except.ok.injEq, exists_eq', List.length_singleton, Nat.le_refl]
  · rename_i several
    simp only [several, reduceCtorEq, exists_false, List.length_cons, false_iff]
    omega

/-- A code that is built takes fewer nodes than there are places in its code space twice. -/
theorem size_build_lt (pool : Pool) {lengths : List Nat} (fits : FitsCodeSpace lengths) :
    (pool.build lengths).1.size < pool.size + 2 ^ 16 := by
  rw [size_build, Nat.add_lt_add_iff_left]
  have single := length_codeShapes_le_one_iff.mpr fits
  have shallow := (forest_codeShapes lengths).depth_le
  generalize codeShapes lengths = shapes at single shallow ⊢
  rcases shapes with _ | ⟨shape, _ | ⟨other, shapes⟩⟩
  · exact Nat.two_pow_pos 16
  · have deep := shallow shape (List.mem_singleton_self shape)
    rw [Nat.zero_add] at deep
    have room : 2 ^ (shape.depth + 1) ≤ 2 ^ 16 :=
      Nat.pow_le_pow_right Nat.two_pos (Nat.succ_le_succ deep)
    rw [sizeOfShapes, List.map_singleton, List.sum_singleton]
    exact Nat.lt_of_lt_of_le shape.size_lt room
  · rw [List.length_cons, List.length_cons] at single
    omega

/-! ### The trees that are built -/

/-- Whether some nodes of a pool are the roots of some shapes. -/
def HoldsAll (pool : Pool) (roots : List Nat) (shapes : List Shape) : Prop :=
  List.Forall₂ pool.Holds roots shapes

/-- Shapes that are held in a pool stay held when nodes are added. -/
theorem HoldsAll.extend {pool longer : Pool} {roots : List Nat} {shapes : List Shape}
    (held : pool.HoldsAll roots shapes) (extension : pool.Extends longer) :
    longer.HoldsAll roots shapes :=
  held.imp fun _ _ hung => hung.extend extension

/-- A place that 32 bits can tell is its own index. -/
theorem indexOf_eq {place : Nat} (known : place < 2 ^ 32) : indexOf place = place :=
  Nat.mod_eq_of_lt known

/-- A node has an index of its own if the pool with this node is small enough. -/
theorem getElem?_nextIndex {pool : Pool} {node : Node} (room : (pool.add node).size ≤ 2 ^ 32) :
    (pool.add node).nodes[pool.nextIndex]? = some node := by
  rw [size_add] at room
  rw [nextIndex, indexOf_eq room, add, size, Array.getElem?_push_size]

/-- The leaves that are added are held where their indices say, as long as these have room in 32
bits. -/
theorem holds_addLeaves {pool : Pool} {symbols : List Nat}
    (room : (pool.addLeaves symbols).1.size ≤ 2 ^ 32) :
    (pool.addLeaves symbols).1.HoldsAll (pool.addLeaves symbols).2 (symbols.map .leaf) := by
  rw [size_addLeaves] at room
  rw [HoldsAll, List.forall₂_iff_get]
  refine ⟨by rw [length_addLeaves, List.length_map], ?_⟩
  intro index inside inside'
  have within : index < symbols.length := by simpa only [List.length_map] using inside'
  have known : pool.size + index < 2 ^ 32 := by omega
  simp only [List.get_eq_getElem, List.getElem_map, addLeaves, List.getElem_range', Nat.one_mul,
    indexOf_eq known]
  apply Holds.leaf
  simp only [size]
  rw [Array.getElem?_append_right (Nat.le_add_right _ _), Nat.add_sub_cancel_left]
  simp only [List.getElem?_toArray, List.getElem?_map, List.getElem?_eq_getElem within,
    Option.map_some]

/-- Joining roots in pairs joins their shapes in pairs. -/
theorem holds_joinPairs (level : Array Nat) {pool : Pool} {roots : List Nat} {shapes : List Shape}
    (held : pool.HoldsAll roots shapes) (room : (pool.joinPairs level roots).1.size ≤ 2 ^ 32) :
    ∃ added, (pool.joinPairs level roots).2.toList = level.toList ++ added ∧
      (pool.joinPairs level roots).1.HoldsAll added (pairShapes shapes) := by
  induction shapes using pairShapes.induct generalizing level pool roots with
  | case1 =>
      obtain rfl := List.forall₂_nil_right_iff.mp held
      exact ⟨[], (List.append_nil _).symm, .nil⟩
  | case2 last =>
      obtain ⟨root, others, hung, ended, rfl⟩ := List.forall₂_cons_right_iff.mp held
      obtain rfl := List.forall₂_nil_right_iff.mp ended
      let halved := pool.add .vacant
      have last : halved.Extends (halved.add (.branch root pool.nextIndex)) := extends_add _ _
      have grown := (extends_add pool .vacant).trans last
      refine ⟨[halved.nextIndex], Array.toList_push, .cons ?_ .nil⟩
      exact .branch (getElem?_nextIndex room) (hung.extend grown)
        (.vacant (last _ _ (getElem?_nextIndex (Nat.le_trans last.size_le room))))
  | case3 left right rest ih =>
      obtain ⟨leftRoot, behind, first, held', rfl⟩ := List.forall₂_cons_right_iff.mp held
      obtain ⟨rightRoot, roots, second, others, rfl⟩ := List.forall₂_cons_right_iff.mp held'
      have grown := extends_add pool (.branch leftRoot rightRoot)
      have held'' : pool.HoldsAll roots rest := others
      obtain ⟨added, list, hung⟩ := ih (level.push pool.nextIndex) (held''.extend grown) room
      have later := extends_joinPairs (pool.add (.branch leftRoot rightRoot))
        (level.push pool.nextIndex) roots
      refine ⟨pool.nextIndex :: added, ?_, .cons ?_ hung⟩
      · rw [joinPairs, list, Array.toList_push, List.append_assoc]
        rfl
      · exact Holds.extend (.branch (getElem?_nextIndex (Nat.le_trans later.size_le room))
          (first.extend grown) (second.extend grown)) later

/-- The roots of a level are those of its leaves and of the pairs below. -/
theorem holds_joinLevel {pool : Pool} {symbols roots : List Nat} {shapes : List Shape}
    (held : pool.HoldsAll roots shapes) (room : (pool.joinLevel symbols roots).1.size ≤ 2 ^ 32) :
    (pool.joinLevel symbols roots).1.HoldsAll (pool.joinLevel symbols roots).2
      (symbols.map Shape.leaf ++ pairShapes shapes) := by
  have joined := extends_joinPairs (pool.addLeaves symbols).1 (pool.addLeaves symbols).2.toArray
    roots
  have leaves := holds_addLeaves (Nat.le_trans joined.size_le room)
  obtain ⟨added, list, branches⟩ :=
    holds_joinPairs (pool.addLeaves symbols).2.toArray (held.extend (extends_addLeaves pool _)) room
  simp only [joinLevel, list]
  exact List.rel_append (leaves.extend joined) branches

/-- The roots at the top are those of the shapes at the top. -/
theorem holds_buildLevels {lengths : List Nat} {length : Nat} {pool : Pool} {roots : List Nat}
    {shapes : List Shape} (short : length ≤ maxCodeLength) (held : pool.HoldsAll roots shapes)
    (room : (buildLevels lengths length pool roots).1.size ≤ 2 ^ 32) :
    (buildLevels lengths length pool roots).1.HoldsAll (buildLevels lengths length pool roots).2
      (topShapes lengths length shapes) := by
  induction length generalizing pool roots shapes with
  | zero =>
      rw [topShapes, levelShapes_zero]
      exact holds_joinLevel held room
  | succ length ih =>
      have above := extends_buildLevels lengths length
        (pool.joinLevel (symbolsOfLength lengths (length + 1)) roots).1
        (pool.joinLevel (symbolsOfLength lengths (length + 1)) roots).2
      have level := holds_joinLevel held (Nat.le_trans above.size_le room)
      rw [buildLevels_succ, topShapes, levelShapes, levelSymbols_succ short]
      exact ih (Nat.le_of_succ_le short) level room

/-- What is built is the tree of the shapes of its lengths, unless the indices ran out. -/
theorem holdsTree_of_build {pool longer : Pool} {lengths : List Nat} {tree : CodeTree}
    (built : pool.build lengths = (longer, .ok tree)) (room : longer.size ≤ 2 ^ 32) :
    longer.HoldsTree tree (codeShapes lengths) := by
  have hung (room : (buildLevels lengths maxCodeLength pool []).1.size ≤ 2 ^ 32) :
      (buildLevels lengths maxCodeLength pool []).1.HoldsAll
        (buildLevels lengths maxCodeLength pool []).2 (codeShapes lengths) := by
    unfold codeShapes
    exact holds_buildLevels (Nat.le_refl maxCodeLength) .nil room
  have forest := forest_codeShapes lengths
  have branching := @branch_of_mem_codeShapes lengths
  simp only [build] at built
  generalize buildLevels lengths maxCodeLength pool [] = top at built hung
  generalize codeShapes lengths = shapes at hung forest branching ⊢
  split at built
  · rename_i none
    obtain ⟨rfl, tree_eq⟩ := Prod.mk.inj built
    obtain rfl := Except.ok.inj tree_eq
    have hung := hung room
    rw [none] at hung
    exact .inl ⟨rfl, List.forall₂_nil_left_iff.mp hung⟩
  · rename_i root single
    obtain ⟨rfl, tree_eq⟩ := Prod.mk.inj built
    obtain rfl := Except.ok.inj tree_eq
    have hung := hung room
    rw [single] at hung
    obtain ⟨shape, rest, first, ended, rfl⟩ := List.forall₂_cons_left_iff.mp hung
    obtain rfl := List.forall₂_nil_left_iff.mp ended
    obtain ⟨left, right, rfl⟩ := branching shape (List.mem_singleton_self shape)
    have shallow := forest.depth_le _ (List.mem_singleton_self (Shape.branch left right))
    exact .inr ⟨root, left, right, rfl, rfl, by omega, first⟩
  · exact nomatch built

/-- A tree that holds the shapes of some lengths decodes their code. -/
theorem decodes_of_holdsTree {pool : Pool} {tree : CodeTree} {lengths : List Nat}
    (few : lengths.length ≤ 65536) (fits : FitsCodeSpace lengths)
    (held : pool.HoldsTree tree (codeShapes lengths)) : pool.Decodes tree lengths := by
  intro ahead symbol used
  rw [walk_eq_ok_iff held]
  simp only [symbolAt?_codeShapes_iff few fits]

/-- Only lengths that fit into the code space are built. -/
theorem fits_of_build {pool longer : Pool} {lengths : List Nat} {tree : CodeTree}
    (built : pool.build lengths = (longer, .ok tree)) : FitsCodeSpace lengths :=
  exists_build_eq_ok_iff.mp ⟨tree, congrArg Prod.snd built⟩

/-- Whether some number of codes can be built in a pool before its indices run out. -/
def HasRoom (pool : Pool) (count : Nat) : Prop :=
  pool.size + count * 2 ^ 16 ≤ 2 ^ 32

/-- A pool with room has indices for the nodes it has. -/
theorem HasRoom.size_le {pool : Pool} {count : Nat} (room : pool.HasRoom count) :
    pool.size ≤ 2 ^ 32 :=
  Nat.le_trans (Nat.le_add_right _ _) room

/-- An empty pool has room for 65536 codes. -/
theorem hasRoom_empty {count : Nat} (few : count ≤ 65536) : empty.HasRoom count := by
  have fresh : empty.size = 0 := rfl
  rw [HasRoom, fresh]
  omega

/-- A code that can be built leaves room for the others. -/
theorem HasRoom.build_fits {pool : Pool} {lengths : List Nat} {count : Nat}
    (room : pool.HasRoom (count + 1)) (fits : FitsCodeSpace lengths) :
    (pool.build lengths).1.HasRoom count := by
  have grown := size_build_lt pool fits
  rw [HasRoom] at room ⊢
  omega

/-- Building a code uses up the room of one. -/
theorem HasRoom.build {pool longer : Pool} {lengths : List Nat} {tree : CodeTree} {count : Nat}
    (room : pool.HasRoom (count + 1)) (built : pool.build lengths = (longer, .ok tree)) :
    longer.HasRoom count := by
  have left := room.build_fits (fits_of_build built)
  rwa [built] at left

/-- The tree that is built from some lengths decodes their code. -/
theorem decodes_of_build {pool longer : Pool} {lengths : List Nat} {tree : CodeTree}
    (few : lengths.length ≤ 65536) (built : pool.build lengths = (longer, .ok tree))
    (room : longer.size ≤ 2 ^ 32) : longer.Decodes tree lengths :=
  decodes_of_holdsTree few (fits_of_build built) (holdsTree_of_build built room)

end Pool

end FlateTrace.Huffman
