import EagerLambda.Tree

/-!
# Places in a tree

A subtree is referred to by the way to it from the root, since the same tree can occur in several
places.

## Main definitions

- `Site` — a place
- `Tree.at?` — the subtree at a place
-/

namespace EagerLambda

/-- The place of a subtree: which child is taken at each node above it, the innermost first. -/
abbrev Site := List Nat

namespace Tree

/-- The subtree at a place. -/
def at? (root : Tree) : Site → Option Tree
  | [] => some root
  | index :: outer => (root.at? outer).bind fun tree => tree.children[index]?

variable {root tree child : Tree} {site : Site} {index : Nat}

/-- The places of the children of a node. -/
theorem at?_cons (h : root.at? site = some tree) (hchild : tree.children[index]? = some child) :
    root.at? (index :: site) = some child := by
  rw [at?, h, Option.bind_some, hchild]

end Tree

end EagerLambda
