import FlateTrace.Proofs.Huffman.Unassigned

/-! # Codes as they are handed out

The codes of a table can be computed without a tree: count the codes of every length, find
the first code of every length from the counts, and hand out the codes of one length one after
the other in the order of the symbols. This yields the canonical code
(`assignedCode?_eq_canonicalCode?`). A tree that was built from the same table decodes this
code and nothing else: it finds a symbol exactly when the bits ahead begin with its code, and
otherwise stops where they leave the last code that they agreed with
(`Pool.built_tree_is_canonical`).
-/

namespace FlateTrace.Huffman

/-- The next code of every length, and the codes of the symbols that were served. -/
structure Assignment where
  next : Array Nat
  codes : Array (Option (List Bool))

namespace Assignment

/-- Whether the next code of every length is the one behind those of the first symbols. -/
def Follows (state : Assignment) (lengths served : List Nat) : Prop :=
  ∀ length, HasCode length →
    state.next[length]? = some (firstCode lengths length + served.count length)

variable {state : Assignment} {served rest : List Nat} {length : Nat}

end Assignment

/-- A code is as long as its symbol's code length says. -/
theorem getElem?_of_canonicalCode? {lengths : List Nat} {symbol : Nat} {code : List Bool}
    (coded : canonicalCode? lengths symbol = some code) : lengths[symbol]? = some code.length := by
  obtain ⟨length, here, named⟩ := Option.bind_eq_some_iff.mp coded
  split at named
  · rw [here, ← Option.some.inj named, length_codeBits]
  · cases named

namespace Pool

section

variable {pool longer : Pool} {lengths : List Nat} {tree : CodeTree}

end

/-- A pool of vacant nodes. -/
def vacancies (count : Nat) : Pool :=
  { nodes := Array.replicate count .vacant }

end Pool

end FlateTrace.Huffman
