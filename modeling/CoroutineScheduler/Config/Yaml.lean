import Mathlib.Tactic

/-!
# YAML trees

A document as a tree of maps, sequences and texts. `nodesFrom` lists the nodes that are reached
through maps only, each with the keys on the way down to it; `dotted` joins such keys with dots.
-/

namespace CoroutineScheduler

/-- A node. A key that is no text has the empty one. -/
inductive Yaml
  | null
  | scalar (text : List UInt8)
  | seq (items : List Yaml)
  | map (pairs : List (List UInt8 × Yaml))

namespace Yaml

mutual

/-- The nodes below a node that is reached by some keys, itself first. -/
def nodesFrom (path : List (List UInt8)) : Yaml → List (List (List UInt8) × Yaml)
  | .null => [(path, .null)]
  | .scalar text => [(path, .scalar text)]
  | .seq items => [(path, .seq items)]
  | .map pairs => (path, .map pairs) :: pairsFrom path pairs

/-- The nodes below the values of some pairs. -/
def pairsFrom (path : List (List UInt8)) :
    List (List UInt8 × Yaml) → List (List (List UInt8) × Yaml)
  | [] => []
  | (key, node) :: pairs => nodesFrom (path ++ [key]) node ++ pairsFrom path pairs

end

/-- The nodes of a document that are reached through maps. -/
def nodes (root : Yaml) : List (List (List UInt8) × Yaml) := nodesFrom [] root

/-- Some keys with dots between them. -/
def dotted : List (List UInt8) → List UInt8
  | [] => []
  | key :: path => key ++ path.flatMap (46 :: ·)

mutual

/-- A node is below the one it was found from. -/
theorem prefix_of_mem_nodesFrom : ∀ {node : Yaml} {path : List (List UInt8)} {o},
    o ∈ nodesFrom path node → path <+: o.1
  | .null, _, _, h | .scalar _, _, _, h | .seq _, _, _, h => by
    rw [nodesFrom, List.mem_singleton] at h
    rw [h]
  | .map pairs, _, _, h => by
    rw [nodesFrom] at h
    rcases List.mem_cons.1 h with rfl | h
    · exact List.prefix_rfl
    · exact prefix_of_mem_pairsFrom h

theorem prefix_of_mem_pairsFrom : ∀ {pairs : List (List UInt8 × Yaml)} {path : List (List UInt8)}
    {o}, o ∈ pairsFrom path pairs → path <+: o.1
  | [], _, _, h => by
    rw [pairsFrom] at h
    cases h
  | (key, _) :: _, path, _, h => by
    rw [pairsFrom] at h
    rcases List.mem_append.1 h with h | h
    · exact (List.prefix_append path [key]).trans (prefix_of_mem_nodesFrom h)
    · exact prefix_of_mem_pairsFrom h

end

end Yaml

end CoroutineScheduler
