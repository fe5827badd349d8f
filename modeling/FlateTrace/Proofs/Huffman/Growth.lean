import FlateTrace.Huffman.Decode
import FlateTrace.Proofs.Huffman.Build

/-! # Trees that share a pool

Any number of trees may be built in one pool, and builds that fail leave nodes in it as well.
Building joins only nodes that are there already, so that branches point back
(`Pool.Ordered`), and it only appends to the pool (`Pool.extends_buildAll`). Hence a tree
stays what it is, whatever is built after it.

A walk down a tree is bounded by the longest code. `Pool.WalksTo` is the walk without that
bound: it goes on for as long as it meets branches, and looks at no node that is not in the
pool. For every tree that was built both come to the same (`Pool.walksTo_iff`), so that the
bound is never what ends a walk.
-/

namespace FlateTrace.Huffman

namespace Shape

/-- A step down a branch takes a bit. -/
theorem lt_follow_snd_branch (ahead : Nat → Bool) (left right : Shape) (used : Nat) :
    used < ((branch left right).follow ahead used).2 := by
  have le (shape : Shape) (used : Nat) : used ≤ (shape.follow ahead used).2 := by
    induction shape generalizing used with
    | leaf symbol => exact Nat.le_refl used
    | vacant => exact Nat.le_refl used
    | branch left right leftIh rightIh =>
        rw [follow]
        split
        · exact Nat.le_of_succ_le (rightIh (used + 1))
        · exact Nat.le_of_succ_le (leftIh (used + 1))
  rw [follow_branch]
  exact le _ (used + 1)

/-- No more bits are followed than the longest path has steps. -/
theorem follow_snd_le (ahead : Nat → Bool) (shape : Shape) (used : Nat) :
    (shape.follow ahead used).2 ≤ used + shape.depth := by
  induction shape generalizing used with
  | leaf symbol => exact Nat.le_refl used
  | vacant => exact Nat.le_refl used
  | branch left right leftIh rightIh =>
      rw [follow, depth]
      split
      · have steps := rightIh (used + 1)
        omega
      · have steps := leftIh (used + 1)
        omega

end Shape

namespace Pool

/-- Whether every branch of a pool joins two nodes in front of it. -/
def Ordered (pool : Pool) : Prop :=
  ∀ index left right : Nat, pool.nodes[index]? = some (.branch left right) →
    left < index ∧ right < index

theorem ordered_empty : empty.Ordered := by
  intro index left right here
  cases here

/-- A pool stays in order when a branch is added behind both of its nodes. -/
theorem Ordered.add {pool : Pool} (ordered : pool.Ordered) {node : Node}
    (back : ∀ left right, node = .branch left right → left < pool.size ∧ right < pool.size) :
    (pool.add node).Ordered := by
  intro index left right here
  rw [Pool.add, Array.getElem?_push] at here
  by_cases last : index = pool.nodes.size
  · rw [if_pos last] at here
    rw [last]
    exact back left right (Option.some.inj here)
  · rw [if_neg last] at here
    exact ordered index left right here

theorem Ordered.addLeaves {pool : Pool} (ordered : pool.Ordered) (symbols : List Nat) :
    (pool.addLeaves symbols).1.Ordered := by
  intro index left right here
  simp only [Pool.addLeaves, Array.getElem?_append] at here
  split at here
  · exact ordered index left right here
  · rw [List.getElem?_toArray, List.getElem?_map, Option.map_eq_some_iff] at here
    obtain ⟨symbol, -, leaf⟩ := here
    cases leaf

/-- An index leads no further than the place that it is for. -/
theorem indexOf_le (place : Nat) : indexOf place ≤ place :=
  Nat.mod_le place _

/-- What building keeps to between two levels: all branches point back, and the roots that are
left are nodes of the pool. -/
structure Standing (pool : Pool) (roots : List Nat) : Prop where
  ordered : pool.Ordered
  inside : ∀ root ∈ roots, root < pool.size

/-- Leaves that are added stand beside the roots that are there. -/
theorem Standing.addLeaves {pool : Pool} {roots : List Nat} (standing : pool.Standing roots)
    (symbols : List Nat) :
    (pool.addLeaves symbols).1.Standing ((pool.addLeaves symbols).2 ++ roots) where
  ordered := standing.ordered.addLeaves symbols
  inside := by
    intro root member
    rw [size_addLeaves]
    rcases List.mem_append.mp member with leaf | earlier
    · obtain ⟨place, inside, rfl⟩ := List.mem_map.mp leaf
      exact Nat.lt_of_le_of_lt (indexOf_le place) (List.mem_range'_1.mp inside).2
    · exact Nat.lt_add_right _ (standing.inside root earlier)

/-- A branch over two of the roots takes their place. -/
theorem Standing.join {pool : Pool} {level rest : List Nat} {left right : Nat}
    (standing : pool.Standing (level ++ left :: right :: rest)) :
    (pool.add (.branch left right)).Standing (level ++ [pool.nextIndex] ++ rest) where
  ordered := by
    apply standing.ordered.add
    intro first second same
    obtain ⟨rfl, rfl⟩ := Node.branch.inj same
    exact ⟨standing.inside left (by simp), standing.inside right (by simp)⟩
  inside := by
    intro root member
    rw [size_add]
    simp only [List.mem_append, List.mem_singleton] at member
    rcases member with (upper | rfl) | lower
    · exact Nat.lt_succ_of_lt (standing.inside root (by simp [upper]))
    · exact Nat.lt_succ_of_le (indexOf_le pool.size)
    · exact Nat.lt_succ_of_lt (standing.inside root (by simp [lower]))

/-- A vacant place that is added stands as the last root. -/
theorem Standing.addVacant {pool : Pool} {roots : List Nat} (standing : pool.Standing roots) :
    (pool.add .vacant).Standing (roots ++ [pool.nextIndex]) where
  ordered := standing.ordered.add fun left right same => by cases same
  inside := by
    intro root member
    rw [size_add]
    rcases List.mem_append.mp member with earlier | last
    · exact Nat.lt_succ_of_lt (standing.inside root earlier)
    · rw [List.mem_singleton.mp last]
      exact Nat.lt_succ_of_le (indexOf_le pool.size)

/-- Joining pairs leaves the new branches as the only roots. -/
theorem Standing.joinPairs {pool : Pool} {level : Array Nat} {roots : List Nat}
    (standing : pool.Standing (level.toList ++ roots)) :
    (pool.joinPairs level roots).1.Standing (pool.joinPairs level roots).2.toList := by
  fun_induction Pool.joinPairs pool level roots with
  | case1 pool level => rwa [List.append_nil] at standing
  | case2 pool level last vacant halved branch =>
      have vacantAdded := standing.addVacant
      rw [List.append_assoc, List.singleton_append] at vacantAdded
      have joined := vacantAdded.join
      rwa [List.append_nil, ← Array.toList_push] at joined
  | case3 pool level left right rest branch ih =>
      have joined := standing.join
      rw [← Array.toList_push] at joined
      exact ih joined

/-- Building from roots that stand leaves the pool in order. -/
theorem Standing.buildLevels {pool : Pool} {roots : List Nat} (standing : pool.Standing roots)
    (lengths : List Nat) (length : Nat) :
    (Pool.buildLevels lengths length pool roots).1.Ordered := by
  induction length generalizing pool roots with
  | zero =>
      have top : pool.Standing (#[].toList ++ roots) := standing
      exact top.joinPairs.ordered
  | succ length ih =>
      let leaves := pool.addLeaves (symbolsOfLength lengths (length + 1))
      have level : leaves.1.Standing (leaves.2.toArray.toList ++ roots) := standing.addLeaves _
      exact ih level.joinPairs

/-- Building a code leaves the pool in order, whether the code is refused or not. -/
theorem Ordered.build {pool : Pool} (ordered : pool.Ordered) (lengths : List Nat) :
    (pool.build lengths).1.Ordered := by
  have start : pool.Standing [] := ⟨ordered, fun root member => by cases member⟩
  have top := start.buildLevels lengths maxCodeLength
  simp only [Pool.build]
  generalize Pool.buildLevels lengths maxCodeLength pool [] = levels at top ⊢
  split <;> exact top

/-- Build the codes of some tables one after the other: the pool, and what each of the builds
comes to. -/
def buildAll : (pool : Pool) → (tables : List (List Nat)) →
    Pool × List (Except CodeError CodeTree)
  | pool, [] => (pool, [])
  | pool, lengths :: rest =>
      let (pool, result) := pool.build lengths
      let (pool, results) := buildAll pool rest
      (pool, result :: results)

/-- Building many codes leaves the pool in order. -/
theorem Ordered.buildAll {pool : Pool} (ordered : pool.Ordered) (tables : List (List Nat)) :
    (pool.buildAll tables).1.Ordered := by
  induction tables generalizing pool with
  | nil => exact ordered
  | cons lengths rest ih => exact ih (ordered.build lengths)

theorem extends_buildAll (pool : Pool) (tables : List (List Nat)) :
    pool.Extends (pool.buildAll tables).1 := by
  induction tables generalizing pool with
  | nil => exact .refl pool
  | cons lengths rest ih => exact (extends_build pool lengths).trans (ih _)

/-- All trees that were built hang in the pool in the end. -/
theorem exists_holdsTree_of_buildAll {pool : Pool} {tables : List (List Nat)} {tree : CodeTree}
    (room : (pool.buildAll tables).1.size ≤ 2 ^ 32)
    (member : .ok tree ∈ (pool.buildAll tables).2) :
    ∃ shapes, (pool.buildAll tables).1.HoldsTree tree shapes := by
  induction tables generalizing pool with
  | nil => cases member
  | cons lengths rest ih =>
      rcases List.mem_cons.mp member with first | later
      · have built : pool.build lengths = (_, .ok tree) := Prod.ext rfl first.symm
        have later := extends_buildAll (pool.build lengths).1 rest
        have held := holdsTree_of_build built (Nat.le_trans later.size_le room)
        exact ⟨_, held.extend later⟩
      · exact ih room later

/-- A walk that follows the bits ahead from a node on for as long as it meets branches, and what
it comes to. Every node that it looks at is one of the pool. `used` bits have been followed
before. -/
inductive WalksTo (pool : Pool) (ahead : Nat → Bool) : (node used : Nat) →
    Except CodeError Nat × Nat → Prop where
  | leaf {node used symbol : Nat} (here : pool.nodes[node]? = some (.leaf symbol)) :
      WalksTo pool ahead node used (.ok symbol, used)
  | vacant {node used : Nat} (here : pool.nodes[node]? = some .vacant) :
      WalksTo pool ahead node used (.error .unassigned, used)
  | branch {node used left right : Nat} {ending : Except CodeError Nat × Nat}
      (here : pool.nodes[node]? = some (.branch left right))
      (onward : WalksTo pool ahead (if ahead used then right else left) (used + 1) ending) :
      WalksTo pool ahead node used ending

variable {pool : Pool} {ahead : Nat → Bool}

/-- A walk has one ending. -/
theorem WalksTo.unique {node used : Nat} {ending ending' : Except CodeError Nat × Nat}
    (one : pool.WalksTo ahead node used ending) (other : pool.WalksTo ahead node used ending') :
    ending = ending' := by
  induction one with
  | leaf here =>
      cases other with
      | leaf here' => cases here.symm.trans here'; rfl
      | vacant here' => cases here.symm.trans here'
      | branch here' onward => cases here.symm.trans here'
  | vacant here =>
      cases other with
      | leaf here' => cases here.symm.trans here'
      | vacant here' => rfl
      | branch here' onward => cases here.symm.trans here'
  | branch here onward ih =>
      cases other with
      | leaf here' => cases here.symm.trans here'
      | vacant here' => cases here.symm.trans here'
      | branch here' onward' =>
          cases here.symm.trans here'
          exact ih onward'

/-- A walk from the root of a shape follows that shape. -/
theorem walksTo_of_holds {node : Nat} {shape : Shape} (held : pool.Holds node shape)
    (used : Nat) : pool.WalksTo ahead node used (shape.follow ahead used) := by
  induction held generalizing used with
  | leaf here => exact .leaf here
  | vacant here => exact .vacant here
  | branch here _ _ first second =>
      apply WalksTo.branch here
      rw [Shape.follow]
      split
      · exact second (used + 1)
      · exact first (used + 1)

/-- The walk down a tree needs no bound. -/
theorem walksTo_iff {tree : CodeTree} {shapes : List Shape} {root : Nat}
    (held : pool.HoldsTree tree shapes) (rooted : tree.root = some root)
    (ending : Except CodeError Nat × Nat) :
    pool.WalksTo ahead root 0 ending ↔ pool.walk tree ahead = ending := by
  have walked := walk_eq_followFirst held ahead
  rcases held with ⟨rootless, -⟩ | ⟨_, left, right, named, rfl, -, hung⟩
  · cases rooted.symm.trans rootless
  · obtain rfl := Option.some.inj (rooted.symm.trans named)
    rw [Shape.followFirst] at walked
    have down : pool.WalksTo ahead root 0 (pool.walk tree ahead) :=
      walked ▸ walksTo_of_holds hung 0
    constructor
    · exact down.unique
    · intro same
      exact same ▸ down

/-- Looking for a symbol takes a bit at least, and no more than the longest code has. -/
theorem walk_snd_bounds {tree : CodeTree} {shapes : List Shape} {root : Nat}
    (held : pool.HoldsTree tree shapes) (rooted : tree.root = some root) :
    1 ≤ (pool.walk tree ahead).2 ∧ (pool.walk tree ahead).2 ≤ maxCodeLength := by
  rw [walk_eq_followFirst held ahead]
  rcases held with ⟨rootless, -⟩ | ⟨_, left, right, -, rfl, fits, -⟩
  · cases rooted.symm.trans rootless
  · have most := Shape.follow_snd_le ahead (.branch left right) 0
    rw [Nat.zero_add] at most
    exact ⟨Shape.lt_follow_snd_branch ahead left right 0, Nat.le_trans most fits⟩

/-- Builds in one pool do not disturb each other, whether they fail or not. Branches point
back, and nodes that are there stay as they are. A tree that was built before decodes the same
as ever, and takes the same bits for it, if every node so far has an index of its own. If it has
a root, then a walk down from there ends at a node of the pool after one bit at least and fifteen
at most. -/
theorem trees_stay_undisturbed {pool longer : Pool} {earlier later : List (List Nat)}
    {results results' : List (Except CodeError CodeTree)}
    (built : empty.buildAll earlier = (pool, results))
    (continued : pool.buildAll later = (longer, results')) :
    longer.Ordered ∧
    (pool.size ≤ longer.size ∧
      ∀ index, index < pool.size → longer.nodes[index]? = pool.nodes[index]?) ∧
    (pool.size ≤ 2 ^ 32 → ∀ tree, .ok tree ∈ results →
      (∀ ahead, longer.walk tree ahead = pool.walk tree ahead) ∧
      (∀ {σ : Type} [BitSource σ] (source : σ),
        longer.decode tree source = pool.decode tree source) ∧
      ∀ root, tree.root = some root → ∀ ahead,
        (∀ ending, longer.WalksTo ahead root 0 ending ↔ longer.walk tree ahead = ending) ∧
        1 ≤ (longer.walk tree ahead).2 ∧ (longer.walk tree ahead).2 ≤ 15) := by
  have ordered : pool.Ordered := by
    have all := ordered_empty.buildAll earlier
    rwa [built] at all
  have extension := extends_buildAll pool later
  have ordered' := ordered.buildAll later
  rw [continued] at extension ordered'
  refine ⟨ordered', ⟨extension.size_le, fun index inside => ?_⟩, fun room tree member => ?_⟩
  · have here := Array.getElem?_eq_getElem inside
    rw [here]
    exact extension index _ here
  · have member' : .ok tree ∈ (empty.buildAll earlier).2 := built ▸ member
    have room' : (empty.buildAll earlier).1.size ≤ 2 ^ 32 := by rwa [built]
    obtain ⟨shapes, held⟩ := exists_holdsTree_of_buildAll room' member'
    rw [built] at held
    have held' := held.extend extension
    have alike := decodesAlike_of_holdsTree held' held
    refine ⟨alike.walk, alike.decode, fun root rooted ahead => ?_⟩
    exact ⟨walksTo_iff held' rooted, walk_snd_bounds held' rooted⟩

/-- A tree is built after a table that was refused, and another table is refused after it. -/
theorem tree_between_refused_tables :
    ∃ pool longer results,
      empty.buildAll [[1, 1, 1], [2, 1, 2]] =
        (pool, [.error .oversubscribed, .ok { root := some 10 }]) ∧
      pool.buildAll [[1, 1, 1]] = (longer, results) ∧
      ∀ ahead, longer.walk { root := some 10 } ahead = pool.walk { root := some 10 } ahead ∧
        ∃ ending, longer.WalksTo ahead 10 0 ending ∧ 1 ≤ ending.2 ∧ ending.2 ≤ 15 := by
  have built : empty.buildAll [[1, 1, 1], [2, 1, 2]] =
      (_, [.error .oversubscribed, .ok { root := some 10 }]) :=
    Prod.ext rfl (by decide +kernel)
  have continued (pool : Pool) :
      pool.buildAll [[1, 1, 1]] = ((pool.buildAll [[1, 1, 1]]).1, (pool.buildAll [[1, 1, 1]]).2) :=
    rfl
  obtain ⟨-, -, trees⟩ := trees_stay_undisturbed built (continued _)
  have room : (empty.buildAll [[1, 1, 1], [2, 1, 2]]).1.size ≤ 2 ^ 32 := by decide +kernel
  obtain ⟨same, -, walks⟩ := trees room { root := some 10 } (by simp)
  refine ⟨_, _, _, built, continued _, fun ahead => ⟨same ahead, _, ?_, (walks 10 rfl ahead).2⟩⟩
  exact ((walks 10 rfl ahead).1 _).mpr rfl

end Pool

end FlateTrace.Huffman
