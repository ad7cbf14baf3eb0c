import JsonQuery.Expr.Drawing
import JsonQuery.Proofs.Nodes
import Mathlib.Data.List.Nodup
import Mathlib.Data.List.Perm.Basic

/-!
# Numbered trees

What there is to know of a tree when its nodes are told apart by numbers. The nodes are numbered
in preorder (`JsonQuery.Tree.numbered`), each together with what it carries already, and the
edges between them are listed in an order of their own: an edge comes behind all the edges that
lie below it (`JsonQuery.Tree.edges`).

As long as no two nodes look the same the edges hold the whole tree. From a node they lead to its
children, in their order (`JsonQuery.Tree.targets_edges`), for no edge from another node gets in
between; and to each node but the root there is exactly one, from its parent
(`JsonQuery.Tree.filter_edges`). Numbers see to it that no two nodes look the same.
-/

namespace JsonQuery

namespace Tree

variable {α β : Type}

/-! ### Trees inside a tree -/

mutual

/-- **The trees inside a tree**, itself included, in the preorder of their roots. -/
def subtrees : Tree α → List (Tree α)
  | node a cs => node a cs :: subtreesAll cs

/-- The trees inside some trees. -/
def subtreesAll : List (Tree α) → List (Tree α)
  | [] => []
  | c :: cs => subtrees c ++ subtreesAll cs

end

mutual

theorem map_label_subtrees (t : Tree α) : t.subtrees.map label = t.preorder := by
  match t with
  | node a cs =>
    rw [subtrees, preorder, List.map_cons, map_label_subtreesAll cs]
    rfl

theorem map_label_subtreesAll (cs : List (Tree α)) :
    (subtreesAll cs).map label = preorderAll cs := by
  match cs with
  | [] => rfl
  | c :: cs =>
    rw [subtreesAll, preorderAll, List.map_append, map_label_subtrees c,
      map_label_subtreesAll cs]

end

mutual

theorem subtrees_map (f : α → β) (t : Tree α) :
    (t.map f).subtrees = t.subtrees.map (map f) := by
  match t with
  | node a cs => rw [map, subtrees, subtrees, subtreesAll_mapAll f cs, List.map_cons, map]

theorem subtreesAll_mapAll (f : α → β) (cs : List (Tree α)) :
    subtreesAll (mapAll f cs) = (subtreesAll cs).map (map f) := by
  match cs with
  | [] => rfl
  | c :: cs =>
    rw [mapAll, subtreesAll, subtreesAll, subtrees_map f c, subtreesAll_mapAll f cs,
      List.map_append]

end

mutual

theorem preorder_map (f : α → β) (t : Tree α) : (t.map f).preorder = t.preorder.map f := by
  match t with
  | node a cs => rw [map, preorder, preorder, preorderAll_mapAll f cs, List.map_cons]

theorem preorderAll_mapAll (f : α → β) (cs : List (Tree α)) :
    preorderAll (mapAll f cs) = (preorderAll cs).map f := by
  match cs with
  | [] => rfl
  | c :: cs =>
    rw [mapAll, preorderAll, preorderAll, preorder_map f c, preorderAll_mapAll f cs,
      List.map_append]

end

/-! ### Edges -/

mutual

/-- **The edges of a tree**, from every node to each of its children: what is below a child
comes before the edge to it. -/
def edges : Tree α → List (α × α)
  | node a cs => edgesFrom a cs

/-- The edges from a node to its children, and those below the children. -/
def edgesFrom (a : α) : List (Tree α) → List (α × α)
  | [] => []
  | c :: cs => edges c ++ (a, c.label) :: edgesFrom a cs

end

mutual

/-- Every edge is one from a tree inside to a child of it. -/
theorem exists_of_mem_edges {t : Tree α} {e : α × α} (h : e ∈ t.edges) :
    ∃ s ∈ t.subtrees, ∃ c ∈ s.children, e = (s.label, c.label) := by
  match t with
  | node a cs =>
    rcases exists_of_mem_edgesFrom h with ⟨c, hc, he⟩ | ⟨s, hs, he⟩
    · exact ⟨node a cs, List.mem_cons_self, c, hc, he⟩
    · exact ⟨s, List.mem_cons_of_mem _ hs, he⟩

theorem exists_of_mem_edgesFrom {a : α} {cs : List (Tree α)} {e : α × α}
    (h : e ∈ edgesFrom a cs) : (∃ c ∈ cs, e = (a, c.label)) ∨
      ∃ s ∈ subtreesAll cs, ∃ c ∈ s.children, e = (s.label, c.label) := by
  match cs with
  | c :: cs =>
    rcases List.mem_append.mp h with h | h
    · obtain ⟨s, hs, he⟩ := exists_of_mem_edges h
      exact Or.inr ⟨s, List.mem_append_left _ hs, he⟩
    rcases List.mem_cons.mp h with he | h
    · exact Or.inl ⟨c, List.mem_cons_self, he⟩
    rcases exists_of_mem_edgesFrom h with ⟨c', hc', he⟩ | ⟨s, hs, he⟩
    · exact Or.inl ⟨c', List.mem_cons_of_mem _ hc', he⟩
    · exact Or.inr ⟨s, List.mem_append_right _ hs, he⟩

end

theorem label_mem_preorder {s t : Tree α} (h : s ∈ t.subtrees) : s.label ∈ t.preorder :=
  map_label_subtrees t ▸ List.mem_map_of_mem h

theorem label_mem_preorderAll {s : Tree α} {cs : List (Tree α)} (h : s ∈ subtreesAll cs) :
    s.label ∈ preorderAll cs :=
  map_label_subtreesAll cs ▸ List.mem_map_of_mem h

theorem source_mem_preorder {t : Tree α} {e : α × α} (h : e ∈ t.edges) : e.1 ∈ t.preorder := by
  obtain ⟨s, hs, c, -, rfl⟩ := exists_of_mem_edges h
  exact label_mem_preorder hs

theorem source_mem_cons {a : α} {cs : List (Tree α)} {e : α × α} (h : e ∈ edgesFrom a cs) :
    e.1 = a ∨ e.1 ∈ preorderAll cs := by
  rcases exists_of_mem_edgesFrom h with ⟨c, -, rfl⟩ | ⟨s, hs, c, -, rfl⟩
  · exact Or.inl rfl
  · exact Or.inr (label_mem_preorderAll hs)

theorem preorder_eq_cons (t : Tree α) : t.preorder = t.label :: t.preorder.tail := by
  cases t
  rfl

mutual

/-- **Every node but the root is the target of an edge**, as often as it is there. -/
theorem perm_map_snd_edges (t : Tree α) : (t.edges.map Prod.snd).Perm t.preorder.tail := by
  match t with
  | node a cs => exact perm_map_snd_edgesFrom a cs

theorem perm_map_snd_edgesFrom (a : α) (cs : List (Tree α)) :
    ((edgesFrom a cs).map Prod.snd).Perm (preorderAll cs) := by
  match cs with
  | [] => exact .refl _
  | c :: cs =>
    have hbelow := perm_map_snd_edges c
    have hrest := perm_map_snd_edgesFrom a cs
    rw [edgesFrom, preorderAll, List.map_append, List.map_cons, preorder_eq_cons c]
    exact (hbelow.append (hrest.cons c.label)).trans List.perm_middle

end

section Targets

variable [DecidableEq α]

/-- Where the edges from a node lead, in their order. -/
def targets (es : List (α × α)) (a : α) : List α :=
  (es.filter fun e => e.1 = a).map Prod.snd

theorem targets_append (es es' : List (α × α)) (a : α) :
    targets (es ++ es') a = targets es a ++ targets es' a := by
  rw [targets, List.filter_append, List.map_append]
  rfl

theorem targets_cons_self (a b : α) (es : List (α × α)) :
    targets ((a, b) :: es) a = b :: targets es a := by
  simp [targets]

theorem targets_cons_of_ne {a a' : α} (h : a ≠ a') (b : α) (es : List (α × α)) :
    targets ((a, b) :: es) a' = targets es a' := by
  simp [targets, h]

theorem targets_eq_nil {es : List (α × α)} {a : α} (h : ∀ e ∈ es, e.1 ≠ a) :
    targets es a = [] := by
  rw [targets, List.map_eq_nil_iff, List.filter_eq_nil_iff]
  exact fun e he hea => h e he (of_decide_eq_true hea)

/-- From a node that is not there again below, the edges lead to its children. -/
theorem targets_edgesFrom_self {a : α} {cs : List (Tree α)} (ha : a ∉ preorderAll cs) :
    targets (edgesFrom a cs) a = cs.map label := by
  induction cs with
  | nil => rfl
  | cons c cs ih =>
    obtain ⟨hc, hcs⟩ := not_or.mp (mt List.mem_append.mpr ha)
    have hbelow : targets c.edges a = [] := targets_eq_nil fun e he hea =>
      hc (hea ▸ source_mem_preorder he)
    rw [edgesFrom, targets_append, hbelow, targets_cons_self, ih hcs]
    rfl

mutual

/-- **From every node the edges lead to its children**, in their order, if no two nodes have the
same label. -/
theorem targets_edges {s t : Tree α} (ht : t.preorder.Nodup) (hs : s ∈ t.subtrees) :
    targets t.edges s.label = s.children.map label := by
  match t with
  | node a cs =>
    obtain ⟨ha, hcs⟩ := List.nodup_cons.mp ht
    rcases List.mem_cons.mp hs with rfl | hs
    · exact targets_edgesFrom_self ha
    · exact targets_edgesFrom ha hcs hs

theorem targets_edgesFrom {a : α} {s : Tree α} {cs : List (Tree α)} (ha : a ∉ preorderAll cs)
    (hcs : (preorderAll cs).Nodup) (hs : s ∈ subtreesAll cs) :
    targets (edgesFrom a cs) s.label = s.children.map label := by
  match cs with
  | c :: cs =>
    obtain ⟨hac, hacs⟩ := not_or.mp (mt List.mem_append.mpr ha)
    obtain ⟨hc, hcs, hapart⟩ := List.nodup_append.mp hcs
    have hne : a ≠ s.label := fun he => ha (he ▸ label_mem_preorderAll hs)
    rw [edgesFrom, targets_append, targets_cons_of_ne hne]
    rcases List.mem_append.mp hs with hs | hs
    · have hmem := label_mem_preorder hs
      have hrest : targets (edgesFrom a cs) s.label = [] := by
        refine targets_eq_nil fun e he hes => ?_
        rcases source_mem_cons he with hea | hmem'
        · exact hne (hea.symm.trans hes)
        · exact hapart _ hmem _ (hes ▸ hmem') rfl
      rw [targets_edges hc hs, hrest, List.append_nil]
    · have hmem := label_mem_preorderAll hs
      have hbelow : targets c.edges s.label = [] :=
        targets_eq_nil fun e he hes => hapart _ (hes ▸ source_mem_preorder he) _ hmem rfl
      rw [targets_edgesFrom hacs hcs hs, hbelow, List.nil_append]

end

/-- **To every child exactly one edge leads**, the one from its parent, if no two nodes have the
same label. -/
theorem filter_edges {c s t : Tree α} (ht : t.preorder.Nodup) (hs : s ∈ t.subtrees)
    (hc : c ∈ s.children) :
    t.edges.filter (fun e => e.2 = c.label) = [(s.label, c.label)] := by
  have hmem : c.label ∈ targets t.edges s.label :=
    targets_edges ht hs ▸ List.mem_map_of_mem hc
  obtain ⟨e, he, hec⟩ := List.mem_map.mp hmem
  obtain ⟨he, hes⟩ := List.mem_filter.mp he
  obtain rfl : e = (s.label, c.label) := Prod.ext (of_decide_eq_true hes) hec
  have hnodup : (t.edges.map Prod.snd).Nodup :=
    (perm_map_snd_edges t).nodup_iff.mpr ht.tail
  have honly : t.edges.filter (fun e => e.2 = c.label) =
      t.edges.filter (fun e => e = (s.label, c.label)) := by
    refine List.filter_congr fun e' he' => decide_eq_decide.mpr ⟨fun h => ?_, fun h => h ▸ rfl⟩
    exact List.inj_on_of_nodup_map hnodup he' he h
  rw [honly, List.filter_eq, List.count_eq_one_of_mem hnodup.of_map he]
  rfl

end Targets

/-! ### Edges between what the nodes carry -/

theorem label_map (f : α → β) (t : Tree α) : (t.map f).label = f t.label := by
  cases t
  rfl

theorem children_map (f : α → β) (t : Tree α) :
    (t.map f).children = t.children.map (map f) := by
  cases t
  exact mapAll_eq_map f _

section Carried

variable [DecidableEq β] {f : α → β} {t : Tree α} (ht : (t.map f).preorder.Nodup)
include ht

/-- The edges from a node lead to its children, said of the tree before it is relabelled. -/
theorem targets_edges_map {s : Tree α} (hs : s ∈ t.subtrees) :
    targets (t.map f).edges (f s.label) = s.children.map fun c => f c.label := by
  have hmem : s.map f ∈ (t.map f).subtrees := subtrees_map f t ▸ List.mem_map_of_mem hs
  have h := targets_edges ht hmem
  rw [label_map, children_map, List.map_map] at h
  exact h.trans (List.map_congr_left fun c _ => label_map f c)

/-- To every node but the root leads one edge, and it comes from the parent. -/
theorem exists_filter_edges_map {b : β} (hb : b ∈ (t.map f).preorder.tail) :
    ∃ s ∈ t.subtrees, ∃ c ∈ s.children, f c.label = b ∧
      (t.map f).edges.filter (fun e => e.2 = b) = [(f s.label, b)] := by
  obtain ⟨e, he, rfl⟩ := List.mem_map.mp ((perm_map_snd_edges (t.map f)).mem_iff.mpr hb)
  obtain ⟨_, hparent, _, hchild, rfl⟩ := exists_of_mem_edges he
  have honly := filter_edges ht hparent hchild
  obtain ⟨s, hs, rfl⟩ := List.mem_map.mp (subtrees_map f t ▸ hparent)
  obtain ⟨c, hc, rfl⟩ := List.mem_map.mp (children_map f s ▸ hchild)
  rw [label_map, label_map] at honly
  exact ⟨s, hs, c, hc, (label_map f c).symm, (label_map f c).symm ▸ honly⟩

end Carried

/-! ### Numbers -/

mutual

/-- **The tree of the same shape with its nodes numbered** in preorder, from a given number
on. -/
def numbered (next : Nat) : Tree α → Tree (Nat × α)
  | node a cs => node (next, a) (numberedAll (next + 1) cs)

/-- Some trees with their nodes numbered, one after the other. -/
def numberedAll (next : Nat) : List (Tree α) → List (Tree (Nat × α))
  | [] => []
  | c :: cs => numbered next c :: numberedAll (next + c.size) cs

end

mutual

theorem map_snd_numbered (next : Nat) (t : Tree α) : (t.numbered next).map Prod.snd = t := by
  match t with
  | node a cs => rw [numbered, map, mapAll_snd_numberedAll (next + 1) cs]

theorem mapAll_snd_numberedAll (next : Nat) (cs : List (Tree α)) :
    mapAll Prod.snd (numberedAll next cs) = cs := by
  match cs with
  | [] => rfl
  | c :: cs => rw [numberedAll, mapAll, map_snd_numbered next c, mapAll_snd_numberedAll _ cs]

end

mutual

/-- The numbers in preorder are those from the first one on. -/
theorem map_fst_preorder_numbered (next : Nat) (t : Tree α) :
    (t.numbered next).preorder.map Prod.fst = List.range' next t.size := by
  match t with
  | node a cs =>
    rw [numbered, preorder, size, List.map_cons, map_fst_preorderAll_numberedAll (next + 1) cs,
      List.range'_succ]

theorem map_fst_preorderAll_numberedAll (next : Nat) (cs : List (Tree α)) :
    (preorderAll (numberedAll next cs)).map Prod.fst = List.range' next (sizeAll cs) := by
  match cs with
  | [] => rfl
  | c :: cs =>
    rw [numberedAll, preorderAll, sizeAll, List.map_append, map_fst_preorder_numbered next c,
      map_fst_preorderAll_numberedAll _ cs, List.range'_append_1]

end

theorem length_preorder (t : Tree α) : t.preorder.length = t.size := by
  have h := congrArg List.length (map_fst_preorder_numbered 0 t)
  rwa [List.length_map, List.length_range', ← List.length_map (f := Prod.snd), ← preorder_map,
    map_snd_numbered] at h

/-- There is an edge less than there are nodes. -/
theorem length_edges (t : Tree α) : t.edges.length = t.size - 1 := by
  have h := (perm_map_snd_edges t).length_eq
  rwa [List.length_map, List.length_tail, length_preorder] at h

/-- The first numbers, in their order, are the nodes of the tree that has nothing but its numbers
left. -/
theorem preorder_numbers (t : Tree α) :
    ((t.numbered 0).map Prod.fst).preorder = List.range t.size := by
  rw [preorder_map, map_fst_preorder_numbered, List.range_eq_range']

theorem nodup_numbers (t : Tree α) : ((t.numbered 0).map Prod.fst).preorder.Nodup :=
  preorder_numbers t ▸ List.nodup_range

end Tree

end JsonQuery
