import JsonQuery.Proofs.Compilation
import JsonQuery.Proofs.Nodes

/-!
# The shape of what compiles

Not every expression is the expression of a query. Chains are built from the left, one step at
a time, so no chain stands in a chain of its own kind where a longer chain would do; and some
expressions come about in one place only. A position or a slice is made for the chain that it
is a step of, a flattened array for the projection onto its items, a chain that ends in a slice
for the projection onto the slice, and the value at hand without an at sign stands where
something is not written. What all this amounts to is `JsonQuery.Expr.IsCanonical`, which
speaks of the nodes of an expression and of the **places** where they stand.

The invariant is about one node and its children (`JsonQuery.Expr.Fits`). Most children have to
**stand alone**: they are of none of the special forms, so they could as well be the whole
query. This is what every reader of expressions yields, and the readers of right sides yield it
or nothing (`JsonQuery.Grammar.Derivable.isCanonical`). The exception is a step behind a dot,
which is in addition no path. That is a matter of powers: it is read with the power of a dot, so
a dot behind it is not part of it (`JsonQuery.Grammar.Derivable.isPath_eq_false`).
-/

namespace JsonQuery

open Token (Lexeme)

namespace Expr

/-! ### Forms -/

/-- Whether an expression is a path. -/
def isPath : Expr → Bool
  | path _ => true
  | _ => false

/-- Whether an expression is a chain of indices. -/
def isIndexing : Expr → Bool
  | indexing _ => true
  | _ => false

/-- Whether an expression is a position. -/
def isIndex : Expr → Bool
  | index _ => true
  | _ => false

/-- Whether an expression is a slice. -/
def isSlice : Expr → Bool
  | slice .. => true
  | _ => false

/-- Whether an expression is a flattened array. -/
def isFlatten : Expr → Bool
  | flatten _ => true
  | _ => false

/-- Whether an expression is a chain of indices with a slice at its end. -/
def endsInSlice : Expr → Bool
  | indexing steps => steps.getLast?.any isSlice
  | _ => false

/-- Whether an expression **stands alone**: it is of none of the forms that come about in one
place only. -/
def standsAlone : Expr → Bool
  | identity | index _ | slice .. | flatten _ => false
  | e => !endsInSlice e

/-- That an expression stands alone or was not written. -/
def IsOptional (e : Expr) : Prop :=
  e = identity ∨ e.standsAlone = true

/-! ### Canonical expressions -/

/-- A **place** in an expression. -/
inductive Place where
  /-- The place of the whole expression. -/
  | top
  /-- The place of a child of a node, by the number of children before it. -/
  | below (parent : Expr) (index : Nat)

/-- That an expression **stands at** a place in another one. -/
def StandsAt (e c : Expr) : Place → Prop
  | .top => c = e
  | .below parent i => parent ∈ e.nodes ∧ parent.children[i]? = some c

/-- Whether a child of an expression may be left out: a side of a projection, what is flattened,
and what a chain of indices is applied to. -/
def leavesOut : Expr → Nat → Bool
  | project .., _ | projectValues .., _ | projectWhere .., _ | flatten _, _ => true
  | indexing _, 0 => true
  | _, _ => false

/-- **The canonical shape** of an expression. -/
structure IsCanonical (e : Expr) : Prop where
  /-- A path has two steps at least, and no step is a path. -/
  paths {steps : List Expr} (h : path steps ∈ e.nodes) :
    2 ≤ steps.length ∧ ∀ c ∈ steps, c.isPath = false
  /-- A chain of indices has a base, which is no chain of indices and no index, and then at
  least one index; only the last one can be a slice. -/
  chains {steps : List Expr} (h : indexing steps ∈ e.nodes) :
    ∃ base inner last, steps = base :: (inner ++ [last]) ∧
      base.isIndexing = false ∧ base.isIndex = false ∧ base.isSlice = false ∧
      (∀ c ∈ inner, c.isIndex = true) ∧ (last.isIndex = true ∨ last.isSlice = true)
  /-- Positions and slices stand behind the base of a chain of indices. -/
  indices {c : Expr} {place : Place} (h : e.StandsAt c place)
    (hc : c.isIndex = true ∨ c.isSlice = true) :
    ∃ steps i, place = .below (indexing steps) (i + 1)
  /-- A chain that ends in a slice is the left side of a projection. -/
  slices {c : Expr} {place : Place} (h : e.StandsAt c place) (hc : c.endsInSlice = true) :
    ∃ left right, place = .below (project left right) 0
  /-- A flattened array is the left side of a projection. -/
  flattenings {c : Expr} {place : Place} (h : e.StandsAt c place) (hc : c.isFlatten = true) :
    ∃ left right, place = .below (project left right) 0
  /-- What is not written stands where something can be left out. -/
  identities {place : Place} (h : e.StandsAt identity place) :
    ∃ parent i, place = .below parent i ∧ parent.leavesOut i = true
  /-- Lists are not empty. -/
  lists {items : List Expr} (h : list items ∈ e.nodes) : items ≠ []
  /-- Keyed lists are not empty. -/
  hashes {entries : List (String × Expr)} (h : hash entries ∈ e.nodes) : entries ≠ []

/-! ### One node and its children -/

/-- That the children of an expression **fit** in their places. -/
def Fits : Expr → Prop
  | path steps => 2 ≤ steps.length ∧ ∀ c ∈ steps, c.standsAlone = true ∧ c.isPath = false
  | indexing steps => ∃ base inner last, steps = base :: (inner ++ [last]) ∧
      (base.IsOptional ∧ base.isIndexing = false) ∧ (∀ c ∈ inner, c.isIndex = true) ∧
      (last.isIndex = true ∨ last.isSlice = true)
  | project l r => (l.IsOptional ∨ l.isFlatten = true ∨ l.endsInSlice = true) ∧ r.IsOptional
  | projectValues l r => l.IsOptional ∧ r.IsOptional
  | projectWhere l r c => l.IsOptional ∧ r.IsOptional ∧ c.standsAlone = true
  | flatten e => e.IsOptional
  | list items => items ≠ [] ∧ ∀ c ∈ items, c.standsAlone = true
  | hash entries => entries ≠ [] ∧ ∀ c ∈ entries.map Prod.snd, c.standsAlone = true
  | e => ∀ c ∈ e.children, c.standsAlone = true

/-- That the children of every node of an expression fit. -/
def IsShaped (e : Expr) : Prop :=
  ∀ x ∈ e.nodes, x.Fits

theorem isShaped_iff {e : Expr} : e.IsShaped ↔ e.Fits ∧ ∀ c ∈ e.children, c.IsShaped := by
  simp only [IsShaped, nodes_eq e, List.forall_mem_cons, List.forall_mem_flatMap]

/-- That an expression stands alone and the children of its nodes fit. -/
structure IsSound (e : Expr) : Prop where
  standsAlone : e.standsAlone = true
  isShaped : e.IsShaped

/-- That an expression was not written, or stands alone, and the children of its nodes fit. -/
structure IsSoundOrMissing (e : Expr) : Prop where
  isOptional : e.IsOptional
  isShaped : e.IsShaped

theorem IsSound.orMissing {e : Expr} (h : e.IsSound) : e.IsSoundOrMissing :=
  ⟨Or.inr h.standsAlone, h.isShaped⟩

theorem isSoundOrMissing_identity : identity.IsSoundOrMissing :=
  ⟨Or.inl rfl, isShaped_iff.mpr ⟨List.forall_mem_nil _, List.forall_mem_nil _⟩⟩

/-- Sound children fit wherever it is enough that they stand alone. -/
theorem isSound_of_children {e : Expr} (halone : e.standsAlone = true)
    (hfits : (∀ c ∈ e.children, c.standsAlone = true) → e.Fits)
    (h : ∀ c ∈ e.children, c.IsSound) : e.IsSound :=
  ⟨halone, isShaped_iff.mpr ⟨hfits fun c hc => (h c hc).standsAlone, fun c hc => (h c hc).isShaped⟩⟩

theorem isShaped_flatten {e : Expr} (h : e.IsSoundOrMissing) : (flatten e).IsShaped :=
  isShaped_iff.mpr ⟨h.isOptional, List.forall_mem_singleton.mpr h.isShaped⟩

/-! ### Projections -/

section Projections

variable {l r : Expr}

theorem isSound_project (hl : l.IsShaped)
    (hplace : l.IsOptional ∨ l.isFlatten = true ∨ l.endsInSlice = true)
    (hr : r.IsSoundOrMissing) : (project l r).IsSound := by
  refine ⟨rfl, isShaped_iff.mpr ⟨⟨hplace, hr.isOptional⟩, ?_⟩⟩
  rw [children, List.forall_mem_cons, List.forall_mem_singleton]
  exact ⟨hl, hr.isShaped⟩

theorem isSound_projectValues (hl : l.IsSoundOrMissing) (hr : r.IsSoundOrMissing) :
    (projectValues l r).IsSound := by
  refine ⟨rfl, isShaped_iff.mpr ⟨⟨hl.isOptional, hr.isOptional⟩, ?_⟩⟩
  rw [children, List.forall_mem_cons, List.forall_mem_singleton]
  exact ⟨hl.isShaped, hr.isShaped⟩

theorem isSound_projectWhere {c : Expr} (hl : l.IsSoundOrMissing) (hr : r.IsSoundOrMissing)
    (hc : c.IsSound) : (projectWhere l r c).IsSound := by
  refine ⟨rfl, isShaped_iff.mpr ⟨⟨hl.isOptional, hr.isOptional, hc.standsAlone⟩, ?_⟩⟩
  rw [children, List.forall_mem_cons, List.forall_mem_cons, List.forall_mem_singleton]
  exact ⟨hl.isShaped, hr.isShaped, hc.isShaped⟩

end Projections

/-! ### Chains -/

/-- A step that is no path, behind a dot. -/
theorem isSound_dotted {left right : Expr} (hleft : left.IsSound) (hright : right.IsSound)
    (hpath : right.isPath = false) : (left.dotted right).IsSound := by
  unfold dotted
  split
  · next steps =>
    obtain ⟨⟨hlength, hsteps⟩, hchildren⟩ := isShaped_iff.mp hleft.isShaped
    refine ⟨rfl, isShaped_iff.mpr ⟨⟨?_, ?_⟩, ?_⟩⟩
    · rw [List.length_append]
      exact Nat.le_add_right_of_le hlength
    · rw [List.forall_mem_append, List.forall_mem_singleton]
      exact ⟨hsteps, hright.standsAlone, hpath⟩
    · rw [children, List.forall_mem_append, List.forall_mem_singleton]
      exact ⟨hchildren, hright.isShaped⟩
  · next hleft' =>
    have hnot : left.isPath = false := by
      cases left with
      | path steps => exact absurd rfl (hleft' steps)
      | _ => rfl
    refine ⟨rfl, isShaped_iff.mpr ⟨⟨Nat.le_refl 2, ?_⟩, ?_⟩⟩
    · rw [List.forall_mem_cons, List.forall_mem_singleton]
      exact ⟨⟨hleft.standsAlone, hnot⟩, hright.standsAlone, hpath⟩
    · rw [children, List.forall_mem_cons, List.forall_mem_singleton]
      exact ⟨hleft.isShaped, hright.isShaped⟩

/-- A chain of indices stands alone unless it ends in a slice. -/
theorem standsAlone_eq {e : Expr} (h : e.isIndexing = true) : e.standsAlone = !e.endsInSlice := by
  cases e with
  | indexing => rfl
  | _ => exact absurd h Bool.false_ne_true

theorem endsInSlice_concat (steps : List Expr) (last : Expr) :
    (indexing (steps ++ [last])).endsInSlice = last.isSlice := by
  simp [endsInSlice]

/-- An index behind something that is not written or stands alone: the chain fits, and it ends
in a slice if the index is one. -/
theorem isShaped_indexed {left : Expr} (hleft : left.IsSoundOrMissing) (right : Expr)
    (hindex : right.isIndex = true ∨ right.isSlice = true) :
    (left.indexed right).IsShaped ∧ (left.indexed right).endsInSlice = right.isSlice ∧
      (left.indexed right).isIndexing = true := by
  have hright : right.IsShaped := by
    cases right with
    | index | slice => exact isShaped_iff.mpr ⟨List.forall_mem_nil _, List.forall_mem_nil _⟩
    | _ => simp [isIndex, isSlice] at hindex
  unfold indexed
  split
  · next steps =>
    obtain ⟨hfits, hchildren⟩ := isShaped_iff.mp hleft.isShaped
    obtain ⟨base, inner, last, rfl, hbase, hinner, hlast⟩ := hfits
    -- the chain on the left stands alone, so it does not end in a slice
    have hposition : last.isIndex = true := by
      refine hlast.resolve_right fun hslice => ?_
      have halone := hleft.isOptional.resolve_left nofun
      rw [standsAlone_eq rfl, ← List.cons_append, endsInSlice_concat, hslice] at halone
      exact absurd halone (by decide)
    refine ⟨isShaped_iff.mpr ⟨⟨base, inner ++ [last], right, rfl, hbase, ?_, hindex⟩, ?_⟩,
      endsInSlice_concat _ right, rfl⟩
    · rw [List.forall_mem_append, List.forall_mem_singleton]
      exact ⟨hinner, hposition⟩
    · rw [children, List.forall_mem_append, List.forall_mem_singleton]
      exact ⟨hchildren, hright⟩
  · next hleft' =>
    have hnot : left.isIndexing = false := by
      cases left with
      | indexing steps => exact absurd rfl (hleft' steps)
      | _ => rfl
    refine ⟨isShaped_iff.mpr ⟨⟨left, [], right, rfl, ⟨hleft.isOptional, hnot⟩,
      List.forall_mem_nil _, hindex⟩, ?_⟩, endsInSlice_concat [left] right, rfl⟩
    rw [children, List.forall_mem_cons, List.forall_mem_singleton]
    exact ⟨hleft.isShaped, hright⟩

end Expr

namespace Grammar

open JsonQuery.Expr (IsSound IsSoundOrMissing isShaped_iff)

/-! ### Readings -/

/-- That an operand may become a path by a symbol behind it only if the symbol is a dot. -/
theorem Derivable.isPath_of_step {L : Nat} {s : Symbol} {left e : Expr} {ls rest : List Lexeme}
    (h : Derivable ⟨L, .step s left e, ls, rest⟩) (hs : s ≠ .dot) : e.isPath = false := by
  obtain ⟨hr, hpremises⟩ := h
  cases hr with
  | dot | dotStar => exact absurd rfl hs
  | filterOf =>
    obtain ⟨hr, -⟩ := hpremises _ (List.mem_singleton_self _)
    cases hr
    rfl
  | positionOf =>
    obtain ⟨hr, -⟩ := hpremises _ (List.mem_singleton_self _)
    cases hr with
    | index =>
      unfold Expr.indexed
      split <;> rfl
    | slice => rfl
  | _ => rfl

/-- **A step behind a dot is no path.** -/
theorem Derivable.isPath_eq_false {L : Nat} {e : Expr} {ls rest : List Lexeme}
    (h : Derivable ⟨L, .afterDot Symbol.dot.power e, ls, rest⟩) : e.isPath = false := by
  obtain ⟨hr, hpremises⟩ := h
  cases hr with
  | listAfterDot | hashAfterDot => rfl
  | afterDot hfront =>
    obtain ⟨K, left, mid, -, ⟨hr, -⟩, hclimb⟩ :=
      (hpremises _ (List.mem_singleton_self _)).expression_cases
    have hleft : left.isPath = false := by
      cases hr with
      | name | quoted | values => rfl
      | _ => simp [front, Lexeme.kind] at hfront
    refine hclimb.climb_induction (P := fun _ left _ => left.isPath = false → e.isPath = false)
      (fun _ h => h) (fun {L s left larger ls mid} hp hstep _ ih _ => ?_) hleft
    -- a dot does not bind more tightly than a dot
    refine ih (hstep.isPath_of_step ?_)
    rintro rfl
    exact Nat.lt_irrefl _ hp

/-- That what a part yields has the canonical shape if the operand on its left has. -/
def Part.IsCanonical : Part → Prop
  | .expression _ e | .operand e | .afterDot _ e => e.IsSound
  | .climb _ left e | .step _ left e => left.IsSound → e.IsSound
  | .filtered left e | .bracketed left e => left.IsSoundOrMissing → e.IsSound
  | .projected _ e => e.IsSoundOrMissing
  | .items es => es ≠ [] ∧ ∀ e ∈ es, e.IsSound
  | .entries es => es ≠ [] ∧ ∀ e ∈ es.map Prod.snd, e.IsSound
  | .arguments es => ∀ e ∈ es, e.IsSound

/-- **What is read has the canonical shape.** -/
theorem Derivable.isCanonical {r : Reading} (h : Derivable r) : r.part.IsCanonical := by
  induction h with
  | rule hr hpremises ih =>
    cases hr with
    | literal | name | quoted | current =>
      exact Expr.isSound_of_children rfl id (List.forall_mem_nil _)
    | expression =>
      rw [List.forall_mem_cons, List.forall_mem_singleton] at ih
      exact ih.2 ih.1
    | values =>
      rw [List.forall_mem_singleton] at ih
      exact Expr.isSound_projectValues Expr.isSoundOrMissing_identity ih
    | filter | position =>
      rw [List.forall_mem_singleton] at ih
      exact ih Expr.isSoundOrMissing_identity
    | group | afterDot =>
      rw [List.forall_mem_singleton] at ih
      exact ih
    | flatten =>
      rw [List.forall_mem_singleton] at ih
      exact Expr.isSound_project (Expr.isShaped_flatten Expr.isSoundOrMissing_identity)
        (Or.inr (Or.inl rfl)) ih
    | not | reference =>
      rw [List.forall_mem_singleton] at ih
      exact Expr.isSound_of_children rfl id (List.forall_mem_singleton.mpr ih)
    | everyItem =>
      rw [List.forall_mem_singleton] at ih
      exact Expr.isSound_project Expr.isSoundOrMissing_identity.isShaped (Or.inl (Or.inl rfl)) ih
    | list | listAfterDot | hash | hashAfterDot =>
      obtain ⟨hne, hes⟩ := List.forall_mem_singleton.mp ih
      exact Expr.isSound_of_children rfl (fun h => ⟨hne, h⟩) hes
    | stop => exact id
    | climb =>
      rw [List.forall_mem_cons, List.forall_mem_singleton] at ih
      exact fun hleft => ih.2 (ih.1 hleft)
    | dotStar =>
      rw [List.forall_mem_singleton] at ih
      exact fun hleft => Expr.isSound_projectValues hleft.orMissing ih
    | dot =>
      rw [List.forall_mem_singleton] at ih hpremises
      exact fun hleft => Expr.isSound_dotted hleft ih hpremises.isPath_eq_false
    | pipe | or | and | compare =>
      rw [List.forall_mem_singleton] at ih
      intro hleft
      refine Expr.isSound_of_children rfl id ?_
      rw [Expr.children, List.forall_mem_cons, List.forall_mem_singleton]
      exact ⟨hleft, ih⟩
    | call =>
      rw [List.forall_mem_singleton] at ih
      exact fun _ => Expr.isSound_of_children rfl id ih
    | filterOf | positionOf =>
      rw [List.forall_mem_singleton] at ih
      exact fun hleft => ih hleft.orMissing
    | flattenOf =>
      rw [List.forall_mem_singleton] at ih
      exact fun hleft => Expr.isSound_project (Expr.isShaped_flatten hleft.orMissing)
        (Or.inr (Or.inl rfl)) ih
    | everyItemOf =>
      rw [List.forall_mem_singleton] at ih
      exact fun hleft => Expr.isSound_project hleft.isShaped
        (Or.inl (Or.inr hleft.standsAlone)) ih
    | unprojected => exact Expr.isSoundOrMissing_identity
    | projectedBracket | projectedFilter | projectedDot =>
      rw [List.forall_mem_singleton] at ih
      exact ih.orMissing
    | filtered =>
      rw [List.forall_mem_cons, List.forall_mem_singleton] at ih
      exact fun hleft => Expr.isSound_projectWhere hleft ih.2 ih.1
    | @index _ _ n =>
      intro hleft
      obtain ⟨hshaped, hends, hchain⟩ := Expr.isShaped_indexed hleft (.index n) (Or.inl rfl)
      exact ⟨by rw [Expr.standsAlone_eq hchain, hends]; rfl, hshaped⟩
    | @slice _ _ _ start stop step =>
      rw [List.forall_mem_singleton] at ih
      intro hleft
      obtain ⟨hshaped, hends, -⟩ :=
        Expr.isShaped_indexed hleft (.slice start stop step.join) (Or.inr rfl)
      exact Expr.isSound_project hshaped (Or.inr (Or.inr hends)) ih
    | lastItem | lastEntry =>
      rw [List.forall_mem_singleton] at ih
      exact ⟨List.cons_ne_nil _ _, List.forall_mem_singleton.mpr ih⟩
    | item | entry =>
      rw [List.forall_mem_cons, List.forall_mem_singleton] at ih
      exact ⟨List.cons_ne_nil _ _, List.forall_mem_cons.mpr ⟨ih.1, ih.2.2⟩⟩
    | noArgument => exact List.forall_mem_nil _
    | lastArgument =>
      rw [List.forall_mem_singleton] at ih
      exact List.forall_mem_singleton.mpr ih
    | argument =>
      rw [List.forall_mem_cons, List.forall_mem_singleton] at ih
      exact List.forall_mem_cons.mpr ih

end Grammar

/-! ### Places -/

namespace Expr

theorem IsOptional.eq_identity {e : Expr} (h : e.IsOptional) (hnot : e.standsAlone = false) :
    e = identity :=
  h.resolve_right (Bool.eq_false_iff.mp hnot)

/-- The places of the forms that do not stand alone, as children of one node. -/
inductive Special (c : Expr) : Expr → Nat → Prop
  /-- What is not written. -/
  | identity {parent : Expr} {i : Nat} (hc : c = .identity) (hparent : parent.leavesOut i = true) :
      Special c parent i
  /-- What is projected onto. -/
  | projected {l r : Expr} (hc : c.isFlatten = true ∨ c.endsInSlice = true) :
      Special c (project l r) 0
  /-- An index of a chain. -/
  | index {steps : List Expr} {i : Nat} (hc : c.isIndex = true ∨ c.isSlice = true) :
      Special c (indexing steps) (i + 1)

/-- A child that fits stands alone or is at one of the special places. -/
theorem Fits.special {parent c : Expr} {i : Nat} (h : parent.Fits)
    (hchild : parent.children[i]? = some c) (hc : c.standsAlone = false) : Special c parent i := by
  have hmem : c ∈ parent.children := List.mem_of_getElem? hchild
  have hplain : ¬∀ d ∈ parent.children, d.standsAlone = true := fun hall =>
    Bool.eq_false_iff.mp hc (hall c hmem)
  cases parent with
  | path steps => exact absurd (fun d hd => (h.2 d hd).1) hplain
  | list items | hash entries => exact absurd h.2 hplain
  | indexing steps =>
    obtain ⟨base, inner, last, rfl, ⟨hbase, -⟩, hinner, hlast⟩ := h
    cases i with
    | zero =>
      obtain rfl : base = c := Option.some.inj hchild
      exact .identity (hbase.eq_identity hc) rfl
    | succ i =>
      refine .index ?_
      rcases List.mem_append.mp (List.mem_of_getElem? hchild) with hmem | hmem
      · exact Or.inl (hinner c hmem)
      · exact List.mem_singleton.mp hmem ▸ hlast
  | project l r =>
    obtain ⟨hl, hr⟩ := h
    match i with
    | 0 =>
      obtain rfl : l = c := Option.some.inj hchild
      exact hl.elim (fun hl => .identity (hl.eq_identity hc) rfl) .projected
    | 1 =>
      obtain rfl : r = c := Option.some.inj hchild
      exact .identity (hr.eq_identity hc) rfl
  | projectValues l r =>
    obtain ⟨hl, hr⟩ := h
    simp only [children, List.mem_cons, List.not_mem_nil, or_false] at hmem
    rcases hmem with rfl | rfl
    · exact .identity (hl.eq_identity hc) rfl
    · exact .identity (hr.eq_identity hc) rfl
  | projectWhere l r d =>
    obtain ⟨hl, hr, hd⟩ := h
    simp only [children, List.mem_cons, List.not_mem_nil, or_false] at hmem
    rcases hmem with rfl | rfl | rfl
    · exact .identity (hl.eq_identity hc) rfl
    · exact .identity (hr.eq_identity hc) rfl
    · exact absurd hd (Bool.eq_false_iff.mp hc)
  | flatten body =>
    obtain rfl := List.mem_singleton.mp hmem
    exact .identity (IsOptional.eq_identity h hc) rfl
  | _ => exact absurd h hplain

/-- In a sound expression whatever does not stand alone is at one of the special places. -/
theorem IsSound.special {e c : Expr} {place : Place} (h : e.IsSound) (hplace : e.StandsAt c place)
    (hc : c.standsAlone = false) : ∃ parent i, place = .below parent i ∧ Special c parent i := by
  cases place with
  | top =>
    obtain rfl : c = e := hplace
    exact absurd h.standsAlone (Bool.eq_false_iff.mp hc)
  | below parent i => exact ⟨parent, i, rfl, (h.isShaped parent hplace.1).special hplace.2 hc⟩

/-- Positions and slices are not found where other special forms are. -/
theorem Special.eq_below_indexing {parent c : Expr} {i : Nat} (h : Special c parent i)
    (hc : c.isIndex = true ∨ c.isSlice = true) :
    ∃ steps k, Place.below parent i = .below (indexing steps) (k + 1) := by
  cases h with
  | index => exact ⟨_, _, rfl⟩
  | identity heq => simp [heq, isIndex, isSlice] at hc
  | projected hleft => cases c <;> simp [isIndex, isSlice, isFlatten, endsInSlice] at hc hleft

/-- What is projected onto is not found where other special forms are. -/
theorem Special.eq_below_project {parent c : Expr} {i : Nat} (h : Special c parent i)
    (hc : c.isFlatten = true ∨ c.endsInSlice = true) :
    ∃ left right, Place.below parent i = .below (project left right) 0 := by
  cases h with
  | projected => exact ⟨_, _, rfl⟩
  | identity heq => simp [heq, isFlatten, endsInSlice] at hc
  | index hindex => cases c <;> simp [isIndex, isSlice, isFlatten, endsInSlice] at hc hindex

theorem Special.leavesOut {parent : Expr} {i : Nat} (h : Special .identity parent i) :
    parent.leavesOut i = true := by
  cases h with
  | identity _ hparent => exact hparent
  | projected hleft => simp [isFlatten, endsInSlice] at hleft
  | index hindex => simp [isIndex, isSlice] at hindex

/-- **A sound expression has the canonical shape.** -/
theorem IsSound.isCanonical {e : Expr} (h : e.IsSound) : e.IsCanonical where
  paths hnode := by
    obtain ⟨hlength, hsteps⟩ := h.isShaped _ hnode
    exact ⟨hlength, fun c hc => (hsteps c hc).2⟩
  chains hnode := by
    obtain ⟨base, inner, last, rfl, ⟨hbase, hchain⟩, hinner, hlast⟩ := h.isShaped _ hnode
    refine ⟨base, inner, last, rfl, hchain, ?_, ?_, hinner, hlast⟩
    · cases base with
      | index => exact absurd (hbase.eq_identity rfl) nofun
      | _ => rfl
    · cases base with
      | slice => exact absurd (hbase.eq_identity rfl) nofun
      | _ => rfl
  indices {c place} hplace hc := by
    have halone : c.standsAlone = false := by
      cases c <;> simp [isIndex, isSlice] at hc <;> rfl
    obtain ⟨parent, i, rfl, hspecial⟩ := h.special hplace halone
    exact hspecial.eq_below_indexing hc
  slices {c place} hplace hc := by
    have halone : c.standsAlone = false := by
      cases c with
      | indexing => rw [standsAlone_eq rfl, hc]; rfl
      | _ => exact absurd hc Bool.false_ne_true
    obtain ⟨parent, i, rfl, hspecial⟩ := h.special hplace halone
    exact hspecial.eq_below_project (Or.inr hc)
  flattenings {c place} hplace hc := by
    have halone : c.standsAlone = false := by
      cases c <;> first
        | rfl
        | exact absurd hc Bool.false_ne_true
    obtain ⟨parent, i, rfl, hspecial⟩ := h.special hplace halone
    exact hspecial.eq_below_project (Or.inl hc)
  identities hplace := by
    obtain ⟨parent, i, rfl, hspecial⟩ := h.special hplace rfl
    exact ⟨parent, i, rfl, hspecial.leavesOut⟩
  lists hnode := (h.isShaped _ hnode).1
  hashes hnode := (h.isShaped _ hnode).1

end Expr

namespace Query

/-- **The expression of a query has the canonical shape.** -/
theorem isCanonical_of_compile {text : String} {q : Query} (h : compile text = .ok q) :
    q.expr.IsCanonical :=
  (derivable_reading h).2.isCanonical.isCanonical

/-- A query with a path between parentheses, a chain of indices that ends in a slice, and an
empty pair of brackets. -/
theorem isCanonical_of_chains : ∃ q, compile "(a.b).c[0][1:2].d[] | [e]" = .ok q ∧
    q.expr.outline = "pipe(projection(flatten(subexpression(field,field,projection(" ++
      "index_expression(field,index,slice),field))),identity),multi_select_list(field))" ∧
    q.expr.IsCanonical := by
  obtain ⟨q, hq⟩ : ∃ q, compile "(a.b).c[0][1:2].d[] | [e]" = .ok q :=
    exists_of_isOk (by decide +kernel)
  have houtline : (match compile "(a.b).c[0][1:2].d[] | [e]" with
      | .ok q => q.expr.outline
      | .error _ => "") =
      "pipe(projection(flatten(subexpression(field,field,projection(" ++
        "index_expression(field,index,slice),field))),identity),multi_select_list(field))" := by
    decide +kernel
  rw [hq] at houtline
  exact ⟨q, hq, houtline, isCanonical_of_compile hq⟩

end Query

end JsonQuery
