import EagerLambda.Proofs.Tree.Alpha
import EagerLambda.Proofs.Tree.Desugar
import EagerLambda.Proofs.Tree.Scope

/-!
# Renaming a binder

A binder is renamed together with the identifiers that refer to it. If the new name does not occur
in the program, every identifier refers to the same binder as before. This is not so for the
identifier that a recursive definition is expanded with: it does not occur in the program, so the
renamed binder can be the one it refers to, before or after the renaming.

## Main definitions

- `Tree.mapNames` — a tree with its identifiers replaced, place by place
- `Tree.rename` — a tree with one binder renamed
- `Tree.FixpointStable` — renaming does not change what recursive definitions refer to
- `Binders.pairing` — the names that are bound around a place before and after the renaming

## Main statements

- `Binders.relates_of_lookup` — names that refer to the same binder correspond
- `Tree.relates_renamedName` — an identifier and its renamed form correspond
- `Tree.relates_fixpoint_iff` — when the identifier of a recursive definition does so
- `Tree.fixpointStable_of_ne` — a renaming that has nothing to do with that identifier
-/

namespace EagerLambda

/-- A label with its identifier replaced, if it is one. -/
def Label.mapName (f : Name → Name) : Label → Label
  | .atom (.identifier x) => .atom (.identifier (f x))
  | label => label

namespace Binders

/-- The binders after the one at `binder` has got the name `name`. -/
def rename (binder : Site) (name : Name) (scope : Binders) : Binders :=
  scope.map fun (x, place) => (if place = binder then name else x, place)

/-- The names of the binders before and after the renaming. -/
def pairing (binder : Site) (name : Name) (scope : Binders) : Pairing :=
  scope.map fun (x, place) => (x, if place = binder then name else x)

end Binders

namespace Tree

mutual

/-- The names of all identifiers in a tree. -/
def names : Tree → List Name
  | node (.atom (.identifier x)) children => x :: namesAll children
  | node _ children => namesAll children

/-- The names of all identifiers in the trees of a list. -/
def namesAll : List Tree → List Name
  | [] => []
  | tree :: rest => tree.names ++ namesAll rest

end

mutual

/-- The tree at `site` with every identifier replaced, given the place where it stands. -/
def mapNames (f : Site → Name → Name) (site : Site) : Tree → Tree
  | node label children => node (label.mapName (f site)) (mapNamesFrom f site 0 children)

/-- The children of the node at `site`, from an index on, with every identifier replaced. -/
def mapNamesFrom (f : Site → Name → Name) (site : Site) (index : Nat) : List Tree → List Tree
  | [] => []
  | tree :: rest => tree.mapNames f (index :: site) :: mapNamesFrom f site (index + 1) rest

end

/-- The name of an identifier after the binder at `binder` was renamed: the binder itself and the
identifiers that refer to it get the new name. -/
def renamedName (root : Tree) (binder : Site) (name : Name) (site : Site) (x : Name) : Name :=
  match root.scopeAt site with
  | none => if site = binder then name else x
  | some scope => if scope.lookup x = some binder then name else x

/-- The tree in which the binder at `binder`, and what refers to it, has got the name `name`. -/
def rename (root : Tree) (binder : Site) (name : Name) : Tree :=
  root.mapNames (root.renamedName binder name) []

/-- If there is a recursive definition at a place, the identifier it is expanded with refers to the
same binder before and after the renaming, or to none. -/
def FixpointStableAt (root : Tree) (binder : Site) (name : Name) (site : Site) : Prop :=
  ∀ equation scope, root.at? site = some (of .recursive [equation]) →
    root.scopeAt site = some scope →
    (Binders.rename binder name scope).lookup .fixpoint = scope.lookup .fixpoint

/-- The identifiers that recursive definitions are expanded with refer to the same binders before
and after the renaming. -/
def FixpointStable (root : Tree) (binder : Site) (name : Name) : Prop :=
  ∀ site, root.FixpointStableAt binder name site

variable {root tree : Tree} {site binder : Site} {x name : Name}

theorem mem_namesAll {trees : List Tree} : x ∈ namesAll trees ↔ ∃ t ∈ trees, x ∈ t.names := by
  induction trees with
  | nil => simp [namesAll]
  | cons tree rest ih => simp [namesAll, ih]

theorem namesAll_subset (label : Label) (children : List Tree) :
    namesAll children ⊆ (node label children).names := by
  rw [names.eq_def]
  split
  case h_1 heq =>
    cases heq
    exact List.subset_cons_self _ _
  case h_2 heq =>
    cases heq
    exact List.Subset.refl _

/-- What occurs in a subtree occurs in the tree. -/
theorem names_of_at? (h : root.at? site = some tree) : tree.names ⊆ root.names := by
  induction site generalizing tree with
  | nil =>
    cases h
    exact List.Subset.refl _
  | cons index outer ih =>
    obtain ⟨parent, hparent, hchild⟩ := Option.bind_eq_some_iff.1 h
    obtain ⟨label, children⟩ := parent
    intro x hx
    refine ih hparent (namesAll_subset label children ?_)
    exact mem_namesAll.2 ⟨tree, List.mem_of_getElem? hchild, hx⟩

theorem Located.mem_names {binders : Binders} (h : root.Located binders) {place : Site}
    (hmem : (x, place) ∈ binders) : x ∈ root.names :=
  names_of_at? (h x place hmem) (by simp [identifier, leaf, names])

end Tree

namespace Binders

variable {scope : Binders} {binder : Site} {x y name : Name} {bound : Name → Name → Prop}

/-- No two binders stand in the same place. -/
def Functional (scope : Binders) : Prop :=
  ∀ a a' place, (a, place) ∈ scope → (a', place) ∈ scope → a = a'

theorem mem_of_lookup {place : Site} (h : scope.lookup x = some place) : (x, place) ∈ scope := by
  obtain ⟨before, after, rfl, -⟩ := List.lookup_eq_some_iff.1 h
  simp

theorem lookup_cons_ne {a : Name} {place : Site} (h : x ≠ a) :
    List.lookup x ((a, place) :: scope) = scope.lookup x := by
  rw [List.lookup_cons, beq_false_of_ne h]

theorem rename_cons (a : Name) (place : Site) :
    rename binder name ((a, place) :: scope) =
      (if place = binder then name else a, place) :: rename binder name scope := rfl

theorem mem_of_mem_rename {place : Site} (h : (y, place) ∈ rename binder name scope) :
    ∃ a, (a, place) ∈ scope ∧ y = if place = binder then name else a := by
  obtain ⟨⟨a, place'⟩, hmem, heq⟩ := List.mem_map.1 h
  obtain ⟨rfl, rfl⟩ := Prod.mk.inj heq
  exact ⟨a, hmem, rfl⟩

/-- Names that correspond refer to the same binder. -/
theorem lookup_of_relates (h : (pairing binder name scope).Relates ⟨Eq, bound⟩ x y) :
    (rename binder name scope).lookup y = scope.lookup x := by
  induction scope with
  | nil => rfl
  | cons entry rest ih =>
    obtain ⟨a, place⟩ := entry
    rw [rename_cons]
    rcases h with ⟨rfl, rfl⟩ | ⟨hx, hy, hrest⟩
    · rw [List.lookup_cons_self, List.lookup_cons_self]
    · rw [lookup_cons_ne hx, lookup_cons_ne hy, ih hrest]

/-- Names that refer to the same binder, or to none and are the same, correspond. -/
theorem relates_of_lookup (hplaces : scope.Functional)
    (hlookup : (rename binder name scope).lookup y = scope.lookup x)
    (hfree : scope.lookup x = none → x = y) :
    (pairing binder name scope).Relates ⟨Eq, bound⟩ x y := by
  induction scope with
  | nil => exact hfree rfl
  | cons entry rest ih =>
    obtain ⟨a, place⟩ := entry
    have hrest : Functional rest := fun b b' p hb hb' =>
      hplaces b b' p (List.mem_cons_of_mem _ hb) (List.mem_cons_of_mem _ hb')
    -- A place has one name, so no entry further out can give the renamed name to this one.
    have hsame : ∀ b, (b, place) ∈ rest → b = a := fun b hb =>
      hplaces b a place (List.mem_cons_of_mem _ hb) List.mem_cons_self
    rw [rename_cons] at hlookup
    by_cases hx : x = a
    · subst hx
      rw [List.lookup_cons_self] at hlookup
      refine .inl ⟨rfl, ?_⟩
      by_contra hy
      rw [lookup_cons_ne hy] at hlookup
      obtain ⟨b, hb, hyb⟩ := mem_of_mem_rename (mem_of_lookup hlookup)
      rw [hsame b hb] at hyb
      exact hy hyb
    · rw [lookup_cons_ne hx] at hlookup hfree
      have hy : y ≠ if place = binder then name else a := by
        rintro rfl
        rw [List.lookup_cons_self] at hlookup
        exact hx (hsame x (mem_of_lookup hlookup.symm))
      rw [lookup_cons_ne hy] at hlookup
      exact .inr ⟨hx, hy, ih hrest hlookup hfree⟩

/-- An identifier refers to the same binder before and after the renaming. -/
theorem lookup_rename (hscope : ∀ a place, (a, place) ∈ scope → a ≠ name) (hx : x ≠ name) :
    (rename binder name scope).lookup (if scope.lookup x = some binder then name else x) =
      scope.lookup x := by
  induction scope with
  | nil => rfl
  | cons entry rest ih =>
    obtain ⟨a, place⟩ := entry
    have ha : a ≠ name := hscope a place List.mem_cons_self
    have ihRest := ih fun b p hb => hscope b p (List.mem_cons_of_mem _ hb)
    rw [rename_cons]
    -- The innermost binder of the name decides; an entry of another name, renamed or not, is passed
    -- over on both sides because the new name is fresh.
    by_cases hxa : x = a
    · subst hxa
      rw [List.lookup_cons_self]
      by_cases hplace : place = binder
      · simp [hplace]
      · simp [hplace]
    · rw [lookup_cons_ne hxa]
      by_cases hrefers : rest.lookup x = some binder
      · rw [if_pos hrefers] at ihRest ⊢
        by_cases hplace : place = binder
        · rw [if_pos hplace, List.lookup_cons_self, hplace, hrefers]
        · rw [if_neg hplace, lookup_cons_ne ha.symm, ihRest]
      · rw [if_neg hrefers] at ihRest ⊢
        by_cases hplace : place = binder
        · rw [if_pos hplace, lookup_cons_ne hx, ihRest]
        · rw [if_neg hplace, lookup_cons_ne hxa, ihRest]

end Binders

/-- Free names stay the same; a binder keeps its name or gets the new one. -/
def Naming.renaming (name : Name) : Naming := ⟨Eq, fun x y => y = x ∨ y = name⟩

namespace Tree

variable {root : Tree} {binder site : Site} {name x : Name} {scope binders : Binders}

theorem functional_scopeAt (h : root.scopeAt site = some scope) : scope.Functional := by
  intro a a' place ha ha'
  have hat := scopeAt_located h a place ha
  rw [scopeAt_located h a' place ha'] at hat
  cases hat
  rfl

/-- An identifier and its renamed form correspond. -/
theorem relates_renamedName (hfresh : name ∉ root.names)
    (hat : root.at? site = some (identifier x)) (hscope : root.scopeAt site = some scope) :
    (scope.pairing binder name).Relates (.renaming name) x
      (root.renamedName binder name site x) := by
  have hlocated := scopeAt_located hscope
  have hx : x ≠ name := by
    rintro rfl
    exact hfresh (names_of_at? hat (by simp [identifier, leaf, names]))
  have hnames : ∀ a place, (a, place) ∈ scope → a ≠ name := by
    rintro a place hmem rfl
    exact hfresh (hlocated.mem_names hmem)
  have hname : root.renamedName binder name site x =
      if scope.lookup x = some binder then name else x := by
    rw [renamedName, hscope]
  rw [hname]
  refine Binders.relates_of_lookup (functional_scopeAt hscope) (Binders.lookup_rename hnames hx) ?_
  intro hnone
  rw [hnone, if_neg (Option.some_ne_none binder).symm]

/-- Recursive definitions are not affected if neither the old nor the new name of the binder is the
one they are expanded with. -/
theorem fixpointStable_of_ne (hbinder : root.at? binder ≠ some (identifier .fixpoint))
    (hname : name ≠ .fixpoint) : root.FixpointStable binder name := by
  intro site equation scope _ hscope
  have hlocated := scopeAt_located hscope
  clear hscope
  induction scope with
  | nil => rfl
  | cons entry rest ih =>
    obtain ⟨a, place⟩ := entry
    have hrest := ih fun b p hmem => hlocated b p (List.mem_cons_of_mem _ hmem)
    rw [Binders.rename_cons]
    by_cases hplace : place = binder
    · subst hplace
      have ha : Name.fixpoint ≠ a := by
        rintro rfl
        exact hbinder (hlocated _ _ List.mem_cons_self)
      rw [if_pos rfl, Binders.lookup_cons_ne hname.symm, Binders.lookup_cons_ne ha, hrest]
    · rw [if_neg hplace, List.lookup_cons, List.lookup_cons, hrest]

/-- The identifier that a recursive definition is expanded with corresponds to itself exactly if it
refers to the same binder before and after the renaming. -/
theorem relates_fixpoint_iff {equation : Tree}
    (hat : root.at? site = some (of .recursive [equation]))
    (hscope : root.scopeAt site = some scope) :
    (scope.pairing binder name).Relates (.renaming name) .fixpoint .fixpoint ↔
      root.FixpointStableAt binder name site := by
  constructor
  · intro h equation' scope' _ hscope'
    obtain rfl : scope = scope' := Option.some.inj (hscope.symm.trans hscope')
    exact Binders.lookup_of_relates h
  · intro h
    exact Binders.relates_of_lookup (functional_scopeAt hscope) (h equation scope hat hscope)
      fun _ => rfl

/-- The recursive definitions at a place and below it are stable. -/
def StableBelow (root : Tree) (binder : Site) (name : Name) (site : Site) : Prop :=
  ∀ path, root.FixpointStableAt binder name (path ++ site)

/-- The recursive definitions in the children of the node at `site`, from one of them on, are
stable. -/
def StableFrom (root : Tree) (binder : Site) (name : Name) (site : Site) (index : Nat) :
    List Tree → Prop
  | [] => True
  | _ :: rest => root.StableBelow binder name (index :: site) ∧
      root.StableFrom binder name site (index + 1) rest

theorem stableBelow_iff : root.StableBelow binder name site ↔
    root.FixpointStableAt binder name site ∧ ∀ i, root.StableBelow binder name (i :: site) := by
  constructor
  · intro h
    refine ⟨h [], fun i path => ?_⟩
    have hpath := h (path ++ [i])
    rwa [List.append_assoc] at hpath
  · rintro ⟨hsite, hbelow⟩ path
    rcases List.eq_nil_or_concat path with rfl | ⟨path, i, rfl⟩
    · exact hsite
    · rw [List.concat_eq_append, List.append_assoc]
      exact hbelow i path

/-- Nothing is looked up in a binding position. -/
theorem stableBelow_of_scopeAt (h : root.scopeAt site = none) :
    root.StableBelow binder name site := by
  intro path equation scope hat hscope
  have hnone : root.scopeAt (path ++ site) = none := by
    clear hat hscope
    induction path with
    | nil => exact h
    | cons i path ih =>
      rw [List.cons_append, scopeAt, ih]
      cases root.at? (path ++ site) with
      | none => rfl
      | some tree => exact childScope_none i
  rw [hnone] at hscope
  cases hscope

theorem stableBelow_of_at? (h : root.at? site = none) : root.StableBelow binder name site := by
  intro path equation scope hat hscope
  have hnone : root.at? (path ++ site) = none := by
    clear hat hscope
    induction path with
    | nil => exact h
    | cons i path ih => rw [List.cons_append, at?, ih, Option.bind_none]
  rw [hnone] at hat
  cases hat

theorem stableFrom_iff {index : Nat} {trees : List Tree} :
    root.StableFrom binder name site index trees ↔
      ∀ i < trees.length, root.StableBelow binder name ((index + i) :: site) := by
  induction trees generalizing index with
  | nil => exact ⟨fun _ i hi => absurd hi (Nat.not_lt_zero i), fun _ => trivial⟩
  | cons tree rest ih =>
    rw [StableFrom, ih]
    constructor
    · rintro ⟨hfirst, hrest⟩ i hi
      cases i with
      | zero => exact hfirst
      | succ i =>
        have htail := hrest i (by simpa using hi)
        rwa [show index + (i + 1) = index + 1 + i by omega]
    · intro h
      refine ⟨h 0 (by simp), fun i hi => ?_⟩
      have htail := h (i + 1) (by simpa using hi)
      rwa [show index + 1 + i = index + (i + 1) by omega]

theorem stableFrom_one {first : Tree} : root.StableFrom binder name site 0 [first] ↔
    root.StableBelow binder name (0 :: site) := by
  rw [StableFrom, StableFrom, and_true]

theorem stableFrom_two {first second : Tree} :
    root.StableFrom binder name site 0 [first, second] ↔
      root.StableBelow binder name (0 :: site) ∧ root.StableBelow binder name (1 :: site) := by
  rw [StableFrom, StableFrom, StableFrom, and_true]

theorem stableFrom_three {first second third : Tree} :
    root.StableFrom binder name site 0 [first, second, third] ↔
      root.StableBelow binder name (0 :: site) ∧ root.StableBelow binder name (1 :: site) ∧
        root.StableBelow binder name (2 :: site) := by
  rw [StableFrom, StableFrom, StableFrom, StableFrom, and_true]

theorem stableBelow_children {label : Label} {children : List Tree}
    (hat : root.at? site = some (node label children)) :
    (∀ i, root.StableBelow binder name (i :: site)) ↔
      root.StableFrom binder name site 0 children := by
  rw [stableFrom_iff]
  constructor
  · exact fun h i _ => h (0 + i)
  · intro h i
    by_cases hi : i < children.length
    · have hchild := h i hi
      rwa [Nat.zero_add] at hchild
    · refine stableBelow_of_at? ?_
      rw [at?, hat, Option.bind_some]
      exact List.getElem?_eq_none (Nat.le_of_not_lt hi)

/-- The recursive definitions at a node that is none itself are those in its children. -/
theorem stableBelow_node {label : Label} {children : List Tree}
    (hat : root.at? site = some (node label children)) (hlabel : label ≠ .construct .recursive) :
    root.StableBelow binder name site ↔ root.StableFrom binder name site 0 children := by
  rw [stableBelow_iff, stableBelow_children hat, and_iff_right]
  intro equation scope hrecursive _
  rw [hat] at hrecursive
  cases hrecursive
  exact absurd rfl hlabel

theorem stableBelow_recursive {equation : Tree}
    (hat : root.at? site = some (of .recursive [equation])) :
    root.StableBelow binder name site ↔
      root.FixpointStableAt binder name site ∧ root.StableBelow binder name (0 :: site) := by
  rw [stableBelow_iff, stableBelow_children hat, StableFrom, StableFrom, and_true]

theorem stableBelow_root : root.StableBelow binder name [] ↔ root.FixpointStable binder name := by
  constructor
  · intro h site
    have hsite := h site
    rwa [List.append_nil] at hsite
  · intro h path
    rw [List.append_nil]
    exact h path

/-- The binding tree `bound` has the binders `binders`, and `bound'` is the same after the
renaming. -/
structure BinderRenamed (binder : Site) (name : Name) (binders : Binders) (bound bound' : Tree) :
    Prop where
  names : bound.boundNames = .ok (binders.map Prod.fst)
  names' : bound'.boundNames = .ok ((binders.rename binder name).map Prod.fst)
  single {x : Name} : bound.name? = some x → ∃ y, bound'.name? = some y

/-- Functions whose binders are renamed are the same up to names exactly if their bodies are. -/
theorem BinderRenamed.alpha_lambda_iff {bound bound' body body' : Tree}
    (h : BinderRenamed binder name binders bound bound') :
    Alpha (.renaming name) (scope.pairing binder name) (Tree.lambda bound body)
        (Tree.lambda bound' body') ↔
      Alpha (.renaming name) (Binders.pairing binder name (binders.reverse ++ scope)) body
        body' := by
  have hbind : Pairing.bind (scope.pairing binder name) (binders.map Prod.fst)
      ((binders.rename binder name).map Prod.fst) =
        Binders.pairing binder name (binders.reverse ++ scope) := by
    rw [Pairing.bind, Binders.rename, List.map_map, List.zip_map', Binders.pairing,
      Binders.pairing, List.map_append, List.map_reverse]
    rfl
  have hbound : List.Forall₂ (Naming.renaming name).bound (binders.map Prod.fst)
      ((binders.rename binder name).map Prod.fst) := by
    rw [Binders.rename, List.map_map, List.forall₂_map_left_iff, List.forall₂_map_right_iff,
      List.forall₂_same]
    rintro ⟨x, place⟩ -
    by_cases hplace : place = binder
    · exact .inr (if_pos hplace)
    · exact .inl (if_neg hplace)
  rw [Tree.alpha_lambda_iff h.names h.names' hbound, hbind]

/-- A binder keeps its name unless it is the one that is renamed. -/
theorem mapNames_binder (hscope : root.scopeAt site = none) :
    (identifier x).mapNames (root.renamedName binder name) site =
      identifier (if site = binder then name else x) := by
  have hname : root.renamedName binder name site x = if site = binder then name else x := by
    rw [renamedName, hscope]
  rw [← hname]
  rfl

/-- The identifiers in a list of binders get their names. -/
theorem parameterNames_renamed {trees : List Tree} {index : Nat} {xs : List Name}
    (hchildren : root.HasChildren site index trees)
    (hscope : ∀ i, root.scopeAt (i :: site) = none) (hxs : parameterNames trees = .ok xs) :
    xs = (bindersFrom site index trees).map Prod.fst ∧
      parameterNames (mapNamesFrom (root.renamedName binder name) site index trees) =
        .ok ((Binders.rename binder name (bindersFrom site index trees)).map Prod.fst) ∧
      List.Forall₂ Desugars (mapNamesFrom (root.renamedName binder name) site index trees)
        (mapNamesFrom (root.renamedName binder name) site index trees) := by
  induction trees generalizing index xs with
  | nil =>
    cases hxs
    exact ⟨rfl, rfl, .nil⟩
  | cons tree rest ih =>
    rw [parameterNames] at hxs
    cases hx : tree.name? with
    | none =>
      rw [hx] at hxs
      cases hxs
    | some x =>
      rw [hx] at hxs
      obtain ⟨ys, hys, hxs⟩ := bind_eq_ok.1 hxs
      cases hxs
      obtain ⟨hnames, hnames', hdesugars⟩ := ih hchildren.tail hys
      obtain rfl := name?_eq_some.1 hx
      rw [mapNamesFrom, mapNames_binder (hscope index)]
      refine ⟨by rw [hnames]; rfl, ?_, .cons (desugars_identifier _) hdesugars⟩
      exact bind_eq_ok.2 ⟨_, hnames', rfl⟩

/-- A binding tree and what becomes of it are their own core forms. -/
theorem pattern_renamed (binder : Site) (name : Name) {tree : Tree} {xs : List Name}
    (hat : root.at? site = some tree) (hscope : root.scopeAt site = none)
    (hxs : tree.boundNames = .ok xs) :
    BinderRenamed binder name (tree.patternAt site) tree
        (tree.mapNames (root.renamedName binder name) site) ∧
      (tree.mapNames (root.renamedName binder name) site).Desugars
        (tree.mapNames (root.renamedName binder name) site) := by
  unfold boundNames at hxs
  split at hxs
  case h_1 first rest =>
    have hchild : ∀ i, root.scopeAt (i :: site) = none := fun i => by
      rw [scopeAt_cons hat, hscope]
      rfl
    obtain ⟨hnames, hnames', hdesugars⟩ := parameterNames_renamed (hasChildren hat) hchild hxs
    subst hnames
    exact ⟨⟨hxs, hnames', nofun⟩, .core hdesugars rfl⟩
  case h_2 =>
    cases hx : tree.name? with
    | none =>
      rw [hx] at hxs
      cases hxs
    | some x =>
      obtain rfl := name?_eq_some.1 hx
      rw [mapNames_binder hscope]
      exact ⟨⟨rfl, rfl, fun _ => ⟨_, rfl⟩⟩, desugars_identifier _⟩

end Tree

end EagerLambda
