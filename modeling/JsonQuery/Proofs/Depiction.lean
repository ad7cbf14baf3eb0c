import JsonQuery.Proofs.Numbering
import JsonQuery.Proofs.ReadingBack

/-!
# Drawings are faithful

A drawing is written in one go: every node takes the next number, hands the counter on to its
children and gets it back behind them, and the edge to a child is written behind all that is
below the child. So the numbers and the edges of a drawing come out of a recursion that mixes
the two. Taken apart again, the statements for nodes are those of the nodes in preorder, with
the numbers in order, and those for edges are the edges of the numbered tree
(`JsonQuery.Drawing.nodes_ofTreeAt`, `JsonQuery.Drawing.edges_ofTreeAt`). What is to be known
about the counter for that is one thing: behind a tree it stands as many numbers further as
the tree has nodes (`JsonQuery.Drawing.snd_ofTreeAt`). As all numbers are different, the edges
show which node is a child of which, and in what place.

Labels are escaped in two passes, backslashes first. Together they put a backslash before every
backslash and every quotation mark (`JsonQuery.Drawing.escape_cons`), and reading a label
undoes that, whatever characters are in it.

Nothing of this would be worth much if a label could pass for the end of its line. A quotation
has one end only (`JsonQuery.Drawing.Quotable.append_inj`), so each line tells its statement, with
anything behind it, and the text of a drawing has no other statements than those it was made of
(`JsonQuery.Drawing.text_injective`).
-/

namespace JsonQuery

namespace Drawing

/-! ### Statements for nodes and for edges -/

/-- The number and the label of a node, if it is a node that is stated. -/
def Statement.node? : Statement → Option (Nat × String)
  | node id label => some (id, label)
  | edge .. => none

/-- The two ends of an edge, if it is an edge that is stated. -/
def Statement.edge? : Statement → Option (Nat × Nat)
  | node .. => none
  | edge source target => some (source, target)

section Statements

variable {α : Type} (f : α → String)

mutual

/-- **The counter** moves on by the number of nodes. -/
theorem snd_ofTreeAt (next : Nat) (t : Tree α) : (ofTreeAt next (t.map f)).2 = next + t.size := by
  match t with
  | .node a cs =>
    have hbelow := snd_ofChildrenAt next (next + 1) cs
    rw [Tree.map, Tree.size, Nat.add_comm (Tree.sizeAll cs), ← Nat.add_assoc]
    exact hbelow

theorem snd_ofChildrenAt (parent next : Nat) (cs : List (Tree α)) :
    (ofChildrenAt parent next (Tree.mapAll f cs)).2 = next + Tree.sizeAll cs := by
  match cs with
  | [] => rfl
  | c :: cs =>
    have hchild := snd_ofTreeAt next c
    have hrest := snd_ofChildrenAt parent (next + c.size) cs
    rw [Tree.mapAll, Tree.sizeAll, ← Nat.add_assoc, ← hrest, ← hchild]
    rfl

end

/-- What is drawn of a child comes first, then the edge to it, and then the other children. -/
theorem fst_ofChildrenAt_cons (parent next : Nat) (c : Tree α) (cs : List (Tree α)) :
    (ofChildrenAt parent next (Tree.mapAll f (c :: cs))).1 =
      (ofTreeAt next (c.map f)).1 ++ .edge parent next ::
        (ofChildrenAt parent (next + c.size) (Tree.mapAll f cs)).1 := by
  rw [← snd_ofTreeAt f next c]
  rfl

mutual

/-- **The nodes that are stated** are those of the tree, in preorder and with their numbers. -/
theorem nodes_ofTreeAt (next : Nat) (t : Tree α) :
    (ofTreeAt next (t.map f)).1.filterMap Statement.node? =
      (t.numbered next).preorder.map fun p => (p.1, f p.2) := by
  match t with
  | .node a cs =>
    have hbelow := nodes_ofChildrenAt next (next + 1) cs
    rw [Tree.numbered, Tree.preorder, List.map_cons, ← hbelow]
    rfl

theorem nodes_ofChildrenAt (parent next : Nat) (cs : List (Tree α)) :
    (ofChildrenAt parent next (Tree.mapAll f cs)).1.filterMap Statement.node? =
      (Tree.preorderAll (Tree.numberedAll next cs)).map fun p => (p.1, f p.2) := by
  match cs with
  | [] => rfl
  | c :: cs =>
    rw [fst_ofChildrenAt_cons, Tree.numberedAll, Tree.preorderAll, List.map_append,
      List.filterMap_append, nodes_ofTreeAt next c,
      ← nodes_ofChildrenAt parent (next + c.size) cs]
    rfl

end

mutual

/-- **The edges that are stated** are those of the numbered tree. -/
theorem edges_ofTreeAt (next : Nat) (t : Tree α) :
    (ofTreeAt next (t.map f)).1.filterMap Statement.edge? =
      ((t.numbered next).map Prod.fst).edges := by
  match t with
  | .node a cs => exact edges_ofChildrenAt next (next + 1) cs

theorem edges_ofChildrenAt (parent next : Nat) (cs : List (Tree α)) :
    (ofChildrenAt parent next (Tree.mapAll f cs)).1.filterMap Statement.edge? =
      Tree.edgesFrom parent (Tree.mapAll Prod.fst (Tree.numberedAll next cs)) := by
  match cs with
  | [] => rfl
  | c :: cs =>
    have hlabel : ((c.numbered next).map Prod.fst).label = next := by
      cases c
      rfl
    rw [fst_ofChildrenAt_cons, Tree.numberedAll, Tree.mapAll, Tree.edgesFrom, hlabel,
      List.filterMap_append, edges_ofTreeAt next c,
      ← edges_ofChildrenAt parent (next + c.size) cs]
    rfl

end

end Statements

/-- A statement is one for a node or one for an edge. -/
theorem length_eq_add (statements : List Statement) : statements.length =
    (statements.filterMap Statement.node?).length +
      (statements.filterMap Statement.edge?).length := by
  induction statements with
  | nil => rfl
  | cons s statements ih =>
    cases s with
    | node =>
      simp only [List.filterMap_cons, Statement.node?, Statement.edge?, List.length_cons]
      omega
    | edge =>
      simp only [List.filterMap_cons, Statement.node?, Statement.edge?, List.length_cons]
      omega

section Whole

variable {α : Type} (f : α → String) (t : Tree α)

/-- The nodes of a whole drawing are numbered from the first number on. -/
theorem nodes_ofTree : (ofTree (t.map f)).filterMap Statement.node? =
    (List.range t.size).zip (t.preorder.map f) := by
  have hcarried : (t.numbered 0).preorder.map Prod.snd = t.preorder := by
    rw [← Tree.preorder_map, Tree.map_snd_numbered]
  rw [ofTree, nodes_ofTreeAt, ← Tree.preorder_numbers, Tree.preorder_map, ← hcarried,
    List.map_map, List.zip_map']
  rfl

theorem length_edges_ofTree :
    ((ofTree (t.map f)).filterMap Statement.edge?).length = t.size - 1 := by
  rw [ofTree, edges_ofTreeAt, Tree.length_edges, ← Tree.length_preorder, Tree.preorder_numbers,
    List.length_range]

theorem length_ofTree : (ofTree (t.map f)).length = t.size + (t.size - 1) := by
  rw [length_eq_add, nodes_ofTree, length_edges_ofTree, List.length_zip, List.length_range,
    List.length_map, Tree.length_preorder, Nat.min_self]

end Whole

/-! ### Labels -/

/-- What a text between quotation marks stands for: a backslash is taken out, and whatever is
behind it stays. -/
def unescape : List Char → List Char
  | '\\' :: c :: cs => c :: unescape cs
  | c :: cs => c :: unescape cs
  | [] => []

/-- That a text **can be quoted**: no quotation mark in it closes the quotation, and no backslash
at its end takes the closing mark along. -/
inductive Quotable : List Char → Prop
  /-- Nothing is left. -/
  | nil : Quotable []
  /-- A character that is neither a quotation mark nor a backslash. -/
  | plain {c : Char} {cs : List Char} (hquote : c ≠ '"') (hbackslash : c ≠ '\\')
      (h : Quotable cs) : Quotable (c :: cs)
  /-- A backslash with the character that it takes along. -/
  | escaped {c : Char} {cs : List Char} (h : Quotable cs) : Quotable ('\\' :: c :: cs)

theorem unescape_cons {c : Char} (h : c ≠ '\\') (cs : List Char) :
    unescape (c :: cs) = c :: unescape cs := by
  rw [unescape]
  rintro d ds rfl
  exact absurd rfl h

/-- **The two passes are one**: a backslash is put before every quotation mark and every
backslash, and nowhere else. -/
theorem escape_cons (c : Char) (cs : List Char) : escape (c :: cs) =
    if c = '"' ∨ c = '\\' then '\\' :: c :: escape cs else c :: escape cs := by
  have hpasses : escape (c :: cs) = escapeAll '"' (if c = '\\' then ['\\', c] else [c]) ++
      escape cs := by
    rw [escape, escapeAll.eq_def '\\', List.flatMap_cons, escapeAll, List.flatMap_append]
    rfl
  rw [hpasses]
  by_cases hbackslash : c = '\\'
  · rw [hbackslash]
    rfl
  by_cases hquote : c = '"'
  · rw [hquote]
    rfl
  · rw [if_neg hbackslash, if_neg (not_or.mpr ⟨hquote, hbackslash⟩), escapeAll,
      List.flatMap_singleton, if_neg hquote]
    rfl

/-- **An escaped label** is read back. -/
theorem unescape_escape (cs : List Char) : unescape (escape cs) = cs := by
  induction cs with
  | nil => rfl
  | cons c cs ih =>
    rw [escape_cons]
    split
    · rw [unescape, ih]
    · next hspecial => rw [unescape_cons (not_or.mp hspecial).2, ih]

theorem quotable_escape (cs : List Char) : Quotable (escape cs) := by
  induction cs with
  | nil => exact .nil
  | cons c cs ih =>
    rw [escape_cons]
    split
    · exact .escaped ih
    · next hspecial => exact .plain (not_or.mp hspecial).1 (not_or.mp hspecial).2 ih

/-- **A quotation has one end**: the first quotation mark that no backslash takes along. -/
theorem Quotable.append_inj {cs ds rest others : List Char} (hcs : Quotable cs)
    (hds : Quotable ds) (h : cs ++ '"' :: rest = ds ++ '"' :: others) :
    cs = ds ∧ rest = others := by
  induction hcs generalizing ds with
  | nil =>
    cases hds with
    | nil => exact ⟨rfl, (List.cons.inj h).2⟩
    | plain hquote => exact absurd (List.cons.inj h).1.symm hquote
    | escaped => exact absurd (List.cons.inj h).1 (by decide)
  | plain hquote hbackslash _ ih =>
    cases hds with
    | nil => exact absurd (List.cons.inj h).1 hquote
    | plain _ _ hds =>
      obtain ⟨rfl, htail⟩ := List.cons.inj h
      obtain ⟨rfl, hrest⟩ := ih hds htail
      exact ⟨rfl, hrest⟩
    | escaped => exact absurd (List.cons.inj h).1 hbackslash
  | escaped _ ih =>
    cases hds with
    | nil => exact absurd (List.cons.inj h).1 (by decide)
    | plain _ hbackslash => exact absurd (List.cons.inj h).1.symm hbackslash
    | escaped hds =>
      obtain ⟨rfl, htail⟩ := List.cons.inj (List.cons.inj h).2
      obtain ⟨rfl, hrest⟩ := ih hds htail
      exact ⟨rfl, hrest⟩

/-! ### Lines in a text -/

/-- The line of a node goes on behind the number of the node, and then behind its label. -/
theorem Statement.toList_node_append (id : Nat) (label : String) (rest : List Char) :
    (node id label).text.toList ++ rest = "  node".toList ++ (Nat.toDigits 10 id ++
      ' ' :: '[' :: ("label=\"".toList ++
        (escape label.toList ++ '"' :: ("];\n".toList ++ rest)))) := by
  simp [Statement.text, toString]

/-- The line of an edge goes on behind both its numbers. -/
theorem Statement.toList_edge_append (source target : Nat) (rest : List Char) :
    (edge source target).text.toList ++ rest = "  node".toList ++ (Nat.toDigits 10 source ++
      ' ' :: '-' :: ("> node".toList ++ (Nat.toDigits 10 target ++ ';' :: '\n' :: rest))) := by
  simp [Statement.text, toString]

section Lines

variable {rest others : List Char}

/-- Behind the first number a line for a node and a line for an edge differ. -/
theorem Statement.toList_node_append_ne {id source target : Nat} {label : String} :
    (node id label).text.toList ++ rest ≠ (edge source target).text.toList ++ others := by
  rw [toList_node_append, toList_edge_append]
  intro h
  obtain ⟨-, hbehind⟩ := Scan.toDigits_append_inj (stops_cons rfl _) (stops_cons rfl _)
    (List.append_cancel_left h)
  exact absurd (List.cons.inj (List.cons.inj hbehind).2).1 (by decide)

/-- **A line tells its statement** and where it ends, whatever comes behind it. -/
theorem Statement.text_append_inj {s t : Statement}
    (h : s.text.toList ++ rest = t.text.toList ++ others) : s = t ∧ rest = others := by
  cases s with
  | node id label =>
    cases t with
    | node id' label' =>
      rw [toList_node_append, toList_node_append] at h
      obtain ⟨rfl, hbehind⟩ := Scan.toDigits_append_inj (stops_cons rfl _) (stops_cons rfl _)
        (List.append_cancel_left h)
      obtain ⟨hescaped, hrest⟩ := (quotable_escape _).append_inj (quotable_escape _)
        (List.append_cancel_left (List.cons.inj (List.cons.inj hbehind).2).2)
      have hlabel : label.toList = label'.toList := by
        rw [← unescape_escape label.toList, hescaped, unescape_escape]
      rw [String.toList_inj.mp hlabel]
      exact ⟨rfl, List.append_cancel_left hrest⟩
    | edge => exact absurd h toList_node_append_ne
  | edge source target =>
    cases t with
    | node => exact absurd h.symm toList_node_append_ne
    | edge source' target' =>
      rw [toList_edge_append, toList_edge_append] at h
      obtain ⟨rfl, hbehind⟩ := Scan.toDigits_append_inj (stops_cons rfl _) (stops_cons rfl _)
        (List.append_cancel_left h)
      obtain ⟨rfl, hrest⟩ := Scan.toDigits_append_inj (stops_cons rfl _) (stops_cons rfl _)
        (List.append_cancel_left (List.cons.inj (List.cons.inj hbehind).2).2)
      exact ⟨rfl, (List.cons.inj (List.cons.inj hrest).2).2⟩

end Lines

/-- No line begins like the last one of a drawing. -/
theorem Statement.text_append_ne {s : Statement} {cs : List Char} :
    s.text.toList ++ cs ≠ "\x7d\n".toList := by
  intro h
  cases s with
  | node =>
    rw [toList_node_append] at h
    exact absurd (List.cons.inj h).1 (by decide)
  | edge =>
    rw [toList_edge_append] at h
    exact absurd (List.cons.inj h).1 (by decide)

/-- **The statements are read back** from the lines of a drawing. -/
theorem lines_injective {statements others : List Statement}
    (h : statements.flatMap (fun s => s.text.toList) ++ "\x7d\n".toList =
      others.flatMap (fun s => s.text.toList) ++ "\x7d\n".toList) : statements = others := by
  induction statements generalizing others with
  | nil =>
    cases others with
    | nil => rfl
    | cons s others =>
      rw [List.flatMap_cons, List.append_assoc] at h
      exact absurd h.symm Statement.text_append_ne
  | cons s statements ih =>
    cases others with
    | nil =>
      rw [List.flatMap_cons, List.append_assoc] at h
      exact absurd h Statement.text_append_ne
    | cons t others =>
      rw [List.flatMap_cons, List.flatMap_cons, List.append_assoc, List.append_assoc] at h
      obtain ⟨rfl, hbehind⟩ := Statement.text_append_inj h
      rw [ih hbehind]

/-- The lines of a drawing stand between its first and its last one. -/
theorem toList_text (statements : List Statement) : (text statements).toList =
    "digraph AST \x7b\n".toList ++
      (statements.flatMap (fun s => s.text.toList) ++ "\x7d\n".toList) := by
  show ("digraph AST \x7b\n" ++ String.join (statements.map Statement.text) ++ "\x7d\n").toList = _
  rw [String.toList_append, String.toList_append, String.toList_join, List.flatMap_map,
    List.append_assoc]

/-- **The text of a drawing tells its statements.** -/
theorem text_injective {statements others : List Statement}
    (h : text statements = text others) : statements = others := by
  have hlines := congrArg String.toList h
  rw [toList_text, toList_text] at hlines
  exact lines_injective (List.append_cancel_left hlines)

/-! ### What a drawing shows -/

/-- That statements **depict** an expression, of which the tree `t` has the nodes with their
numbers. -/
structure Depicts (statements : List Statement) (t : Tree (Nat × Expr)) (e : Expr) : Prop where
  /-- The tree is that of the expression. -/
  tree : t.map Prod.snd = e.tree
  /-- Its nodes are numbered in preorder. -/
  numbers : t.preorder.map Prod.fst = List.range e.nodes.length
  /-- The nodes that are stated are those of the expression, in preorder and with the numbers in
  order. -/
  nodes : statements.filterMap Statement.node? =
    (List.range e.nodes.length).zip (e.nodes.map Expr.label)
  /-- There is an edge less than there are nodes, and there are no other statements. -/
  length : (statements.filterMap Statement.edge?).length = e.nodes.length - 1 ∧
    statements.length = e.nodes.length + (e.nodes.length - 1)
  /-- The edges from a node lead to its children, in their order. -/
  outgoing : ∀ s ∈ t.subtrees, Tree.targets (statements.filterMap Statement.edge?) s.label.1 =
    s.children.map fun c => c.label.1
  /-- To every node but the first one exactly one edge leads, and that is from its parent. -/
  incoming : ∀ id, 0 < id → id < e.nodes.length → ∃ s ∈ t.subtrees, ∃ c ∈ s.children,
    c.label.1 = id ∧ (statements.filterMap Statement.edge?).filter (fun edge => edge.2 = id) =
      [(s.label.1, id)]
  /-- The line of an edge names its two ends. -/
  ends : ∀ source target, Statement.edge source target ∈ statements →
    (Statement.edge source target).text = s!"  node{source} -> node{target};\n"
  /-- Between its quotation marks every label is written so that it is read back. -/
  labels : ∀ id label, Statement.node id label ∈ statements → ∃ written : String,
    (Statement.node id label).text = s!"  node{id} [label=\"{written}\"];\n" ∧
      unescape written.toList = label.toList ∧ Quotable written.toList

/-- **A drawing is a faithful picture of an expression**, whatever characters its names and
literals are made of, and its text is that of no other statements. -/
theorem drawing_depicts (e : Expr) : ∃ statements t,
    e.drawing = text statements ∧ Depicts statements t e ∧
      ∀ others, e.drawing = text others → others = statements := by
  have hsize : e.tree.size = e.nodes.length := (Tree.length_preorder e.tree).symm
  have hnumbers := Tree.preorder_numbers e.tree
  have hnodup := Tree.nodup_numbers e.tree
  have hedges := edges_ofTreeAt Expr.label 0 e.tree
  refine ⟨ofTree (e.tree.map Expr.label), e.tree.numbered 0, rfl, ?_, fun others hothers =>
    text_injective hothers.symm⟩
  constructor
  case tree => exact Tree.map_snd_numbered 0 e.tree
  case numbers => rw [← Tree.preorder_map, hnumbers, hsize]
  case nodes => exact hsize ▸ nodes_ofTree Expr.label e.tree
  case length =>
    rw [← hsize]
    exact ⟨length_edges_ofTree Expr.label e.tree, length_ofTree Expr.label e.tree⟩
  case outgoing =>
    intro s hs
    rw [ofTree, hedges]
    exact Tree.targets_edges_map hnodup hs
  case incoming =>
    intro id hpos hlt
    have hid : id ∈ ((e.tree.numbered 0).map Prod.fst).preorder.tail := by
      rw [hnumbers, hsize, List.range_eq_range', List.tail_range', List.mem_range'_1]
      omega
    rw [ofTree, hedges]
    exact Tree.exists_filter_edges_map hnodup hid
  case ends => exact fun _ _ _ => rfl
  case labels =>
    intro id label _
    refine ⟨String.ofList (escape label.toList), rfl, ?_, ?_⟩
    · rw [String.toList_ofList, unescape_escape]
    · rw [String.toList_ofList]
      exact quotable_escape label.toList

/-- A name with a backslash and a quotation mark in it. -/
example : (Expr.dotted (.field "a\\\"") (.field "b")).drawing =
    "digraph AST \x7b\n" ++
      "  node0 [label=\"subexpression\"];\n" ++
      "  node1 [label=\"field(a\\\\\\\")\"];\n" ++
      "  node0 -> node1;\n" ++
      "  node2 [label=\"field(b)\"];\n" ++
      "  node0 -> node2;\n" ++
      "\x7d\n" := by
  decide +kernel

end Drawing

end JsonQuery
