import EagerLambda.Proofs.Tree.Core
import EagerLambda.Proofs.Tree.Site

/-!
# Static scopes

Which binder an identifier refers to can be read off the program tree. The scope of a place lists
the binders around it, the innermost first, and an identifier refers to the first binder of its
name. What stands in a binding position has no scope: it refers to nothing.

## Main definitions

- `Tree.boundAt` — the binders of a definition
- `Tree.childScope` — the scope of a child, given the scope of its parent
- `Tree.scopeAt` — the scope of a place

## Main statements

- `Tree.scopeAt_located` — the binders in a scope stand where the scope says
-/

namespace EagerLambda

/-- Binders, each with its name and its place. -/
abbrev Binders := List (Name × Site)

namespace Tree

/-- The binder that an identifier is. -/
def binderAt (site : Site) (tree : Tree) : Binders :=
  match tree.name? with
  | some name => [(name, site)]
  | none => []

/-- The binders among the children of the node at `site`, from the one with this index on. -/
def bindersFrom (site : Site) (index : Nat) : List Tree → Binders
  | [] => []
  | tree :: rest => tree.binderAt (index :: site) ++ bindersFrom site (index + 1) rest

/-- The binders in what a function or a definition binds: an identifier or a list of them. -/
def patternAt (site : Site) : Tree → Binders
  | node (.construct .comma) children => bindersFrom site 0 children
  | tree => tree.binderAt site

/-- The binders in several patterns, the children of the node at `site` from an index on. -/
def patternsFrom (site : Site) (index : Nat) : List Tree → Binders
  | [] => []
  | tree :: rest => tree.patternAt (index :: site) ++ patternsFrom site (index + 1) rest

mutual

/-- The binders of the definition at `site`. -/
def boundAt (site : Site) : Tree → Binders
  | node (.construct .definition) (binder :: _) => binder.patternAt (0 :: site)
  | node (.construct .functionForm) (name :: _) => name.patternAt (0 :: site)
  | node (.construct .simultaneous) definitions => boundFrom site 0 definitions
  | node (.construct .within) [_, inner] => inner.boundAt (1 :: site)
  | node (.construct .recursive) [equation] => equation.boundAt (0 :: site)
  | _ => []

/-- The binders of several definitions, the children of the node at `site` from an index on. -/
def boundFrom (site : Site) (index : Nat) : List Tree → Binders
  | [] => []
  | tree :: rest => tree.boundAt (index :: site) ++ boundFrom site (index + 1) rest

end

/-- The scope inside further binders, of which the last is the innermost. -/
def extendScope (scope : Option Binders) (binders : Binders) : Option Binders :=
  scope.map (binders.reverse ++ ·)

/-- The scope of a child of the node at `site`, given the scope of the node. -/
def childScope (site : Site) (scope : Option Binders) : Tree → Nat → Option Binders
  | node (.construct .lambda) children, index =>
    if index + 1 = children.length then
      extendScope scope (patternsFrom site 0 children.dropLast)
    else none
  | node (.construct .functionForm) (_ :: rest), index =>
    if index = rest.length then extendScope scope (patternsFrom site 1 rest.dropLast) else none
  | node (.construct .definition) _, 0 => none
  | node (.construct .letIn) [equation, _], 1 => extendScope scope (equation.boundAt (0 :: site))
  | node (.construct .whereIn) [_, equation], 0 => extendScope scope (equation.boundAt (1 :: site))
  | node (.construct .within) [outer, _], 1 => extendScope scope (outer.boundAt (0 :: site))
  | node (.construct .recursive) [equation], 0 =>
    extendScope scope (equation.boundAt (0 :: site))
  | _, _ => scope

/-- The scope of a place, if what stands there refers to binders. -/
def scopeAt (root : Tree) : Site → Option Binders
  | [] => some []
  | index :: outer =>
    (root.at? outer).bind fun tree => tree.childScope outer (root.scopeAt outer) index

variable {root tree : Tree} {site : Site}

theorem childScope_none (index : Nat) : tree.childScope site none index = none := by
  unfold childScope
  split
  case h_1 | h_2 => split <;> rfl
  all_goals rfl

theorem scopeAt_cons (h : root.at? site = some tree) (index : Nat) :
    root.scopeAt (index :: site) = tree.childScope site (root.scopeAt site) index := by
  rw [scopeAt, h, Option.bind_some]

/-- The binders stand where they say. -/
def Located (root : Tree) (binders : Binders) : Prop :=
  ∀ name place, (name, place) ∈ binders → root.at? place = some (identifier name)

theorem Located.append {first second : Binders} (h : root.Located first)
    (h' : root.Located second) : root.Located (first ++ second) := by
  intro name place hmem
  rcases List.mem_append.1 hmem with hmem | hmem
  · exact h name place hmem
  · exact h' name place hmem

theorem located_nil : root.Located [] := fun _ _ hmem => absurd hmem List.not_mem_nil

/-- The children of the node at a place, from one of them on. -/
def HasChildren (root : Tree) (site : Site) (index : Nat) (trees : List Tree) : Prop :=
  ∀ i t, trees[i]? = some t → root.at? ((index + i) :: site) = some t

theorem hasChildren (h : root.at? site = some tree) : root.HasChildren site 0 tree.children := by
  intro i t ht
  rw [Nat.zero_add]
  exact at?_cons h ht

theorem HasChildren.head {index : Nat} {rest : List Tree}
    (h : root.HasChildren site index (tree :: rest)) : root.at? (index :: site) = some tree :=
  h 0 tree rfl

theorem HasChildren.tail {index : Nat} {rest : List Tree}
    (h : root.HasChildren site index (tree :: rest)) : root.HasChildren site (index + 1) rest := by
  intro i t ht
  have htail := h (i + 1) t (by simpa using ht)
  rwa [show index + 1 + i = index + (i + 1) by omega]

theorem binderAt_located (h : root.at? site = some tree) : root.Located (tree.binderAt site) := by
  rw [binderAt]
  cases hname : tree.name? with
  | none => exact located_nil
  | some name =>
    intro name' place hmem
    simp only [List.mem_singleton, Prod.mk.injEq] at hmem
    obtain ⟨rfl, rfl⟩ := hmem
    rw [h, name?_eq_some.1 hname]

theorem bindersFrom_located {trees : List Tree} {index : Nat}
    (h : root.HasChildren site index trees) : root.Located (bindersFrom site index trees) := by
  induction trees generalizing index with
  | nil => exact located_nil
  | cons tree rest ih => exact (binderAt_located h.head).append (ih h.tail)

theorem patternAt_located (h : root.at? site = some tree) : root.Located (tree.patternAt site) := by
  unfold patternAt
  split
  · exact bindersFrom_located (hasChildren h)
  · exact binderAt_located h

theorem patternsFrom_located {trees : List Tree} {index : Nat}
    (h : root.HasChildren site index trees) : root.Located (patternsFrom site index trees) := by
  induction trees generalizing index with
  | nil => exact located_nil
  | cons tree rest ih => exact (patternAt_located h.head).append (ih h.tail)

theorem boundFrom_located {trees : List Tree} {index : Nat}
    (h : root.HasChildren site index trees)
    (ih : ∀ t ∈ trees, ∀ {site : Site}, root.at? site = some t → root.Located (t.boundAt site)) :
    root.Located (boundFrom site index trees) := by
  induction trees generalizing index with
  | nil => exact located_nil
  | cons tree rest ihRest =>
    exact (ih tree (by simp) h.head).append (ihRest h.tail fun t ht => ih t (by simp [ht]))

theorem boundAt_located (h : root.at? site = some tree) : root.Located (tree.boundAt site) := by
  induction tree using children_induction generalizing site with
  | node label children ih =>
    have hchildren := hasChildren h
    rw [boundAt.eq_def]
    split
    case h_1 binder rest heq =>
      cases heq
      exact patternAt_located hchildren.head
    case h_2 name rest heq =>
      cases heq
      exact patternAt_located hchildren.head
    case h_3 definitions heq =>
      cases heq
      exact boundFrom_located hchildren fun t ht _ hat => ih t ht hat
    case h_4 outer inner heq =>
      cases heq
      exact ih inner (by simp) hchildren.tail.head
    case h_5 equation heq =>
      cases heq
      exact ih equation (by simp) hchildren.head
    case h_6 => exact located_nil

theorem HasChildren.dropLast {trees : List Tree} {index : Nat}
    (h : root.HasChildren site index trees) : root.HasChildren site index trees.dropLast := by
  intro i t ht
  refine h i t ?_
  rw [List.getElem?_dropLast] at ht
  split at ht
  · exact ht
  · cases ht

theorem located_extendScope {scope : Option Binders} {binders : Binders}
    (hscope : ∀ outer, scope = some outer → root.Located outer) (hbinders : root.Located binders)
    {inner : Binders} (h : extendScope scope binders = some inner) : root.Located inner := by
  obtain ⟨outer, houter, rfl⟩ := Option.map_eq_some_iff.1 h
  refine Located.append (fun name place hmem => ?_) (hscope outer houter)
  exact hbinders name place (List.mem_reverse.1 hmem)

theorem childScope_located (h : root.at? site = some tree) {scope : Option Binders}
    (hscope : ∀ outer, scope = some outer → root.Located outer) {index : Nat} {inner : Binders}
    (hinner : tree.childScope site scope index = some inner) : root.Located inner := by
  have hchildren := hasChildren h
  unfold childScope at hinner
  split at hinner
  case h_1 =>
    split at hinner
    · exact located_extendScope hscope (patternsFrom_located hchildren.dropLast) hinner
    · cases hinner
  case h_2 =>
    split at hinner
    · exact located_extendScope hscope (patternsFrom_located hchildren.tail.dropLast) hinner
    · cases hinner
  case h_3 => cases hinner
  case h_4 => exact located_extendScope hscope (boundAt_located hchildren.head) hinner
  case h_5 => exact located_extendScope hscope (boundAt_located hchildren.tail.head) hinner
  case h_6 => exact located_extendScope hscope (boundAt_located hchildren.head) hinner
  case h_7 => exact located_extendScope hscope (boundAt_located hchildren.head) hinner
  case h_8 => exact hscope inner hinner

/-- The binders in the scope of a place stand where the scope says. -/
theorem scopeAt_located {scope : Binders} (h : root.scopeAt site = some scope) :
    root.Located scope := by
  induction site generalizing scope with
  | nil =>
    cases h
    exact located_nil
  | cons index outer ih =>
    rw [scopeAt] at h
    obtain ⟨tree, htree, hinner⟩ := Option.bind_eq_some_iff.1 h
    exact childScope_located htree (fun _ houter => ih houter) hinner

end Tree

end EagerLambda
