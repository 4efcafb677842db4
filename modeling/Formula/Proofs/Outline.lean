import Formula.Proofs.Outline.Names
import Formula.Proofs.ParsedNames

/-!
# What outlines show

The outline of a tree has a line for each node, in preorder. The node of a row is reached from the
root along operands of which each is the last one of its parent or is not (`Expr.NodeAt`), and the
line of the node shows all of these marks in front of its name: below a node, `below` is what is
drawn for the levels above, and each level adds a unit to it (`Expr.NodeAt.outlineLines`).

What is drawn has no letters and names begin with one, so the names can be read off the lines, and
they tell trees apart already.
-/

namespace Formula.Expr

/-! ## Rows -/

/-- The node of a row, if each node stands in front of its operands. There is a mark for each node on
the way from the root down to it, the root excepted: whether this node is the last operand of its
parent. -/
inductive NodeAt : Expr → Nat → List Bool → Expr → Prop where
  | root {e : Expr} : NodeAt e 0 [] e
  | operand {e child node : Expr} {before after : List Expr} {row : Nat} {marks : List Bool}
    (hChildren : e.children = before ++ child :: after) (hNode : NodeAt child row marks node) :
    NodeAt e (1 + sizeList before + row) (after.isEmpty :: marks) node

theorem size_eq (e : Expr) : e.size = 1 + sizeList e.children := by
  cases e <;> simp [size, children, sizeList]

theorem sizeList_eq_sum (es : List Expr) : sizeList es = (es.map size).sum := by
  induction es with
  | nil => rfl
  | cons e es ih => rw [sizeList, ih, List.map_cons, List.sum_cons]

/-- Where a part of a list is, behind a first element and other parts. -/
theorem getElem?_part {α : Type} {first : α} {front part back : List α} {row : Nat}
    (h : row < part.length) :
    (first :: (front ++ (part ++ back)))[1 + front.length + row]? = part[row]? := by
  rw [Nat.add_assoc, Nat.add_comm, List.getElem?_cons_succ,
    List.getElem?_append_right (Nat.le_add_right ..), Nat.add_sub_cancel_left,
    List.getElem?_append_left h]

section Rows

variable {e node : Expr} {row : Nat} {marks : List Bool}

theorem size_eq_of_children {child : Expr} {before after : List Expr}
    (h : e.children = before ++ child :: after) :
    e.size = 1 + (sizeList before + (child.size + sizeList after)) := by
  rw [size_eq, h, sizeList_eq_sum, sizeList_eq_sum, sizeList_eq_sum, List.map_append,
    List.sum_append, List.map_cons, List.sum_cons]

theorem NodeAt.row_lt (h : NodeAt e row marks node) : row < e.size := by
  induction h with
  | @root e =>
    rw [size_eq]
    omega
  | operand hChildren _ ih =>
    rw [size_eq_of_children hChildren]
    omega

/-- One of several trees has the node of a row. -/
theorem exists_split {es : List Expr} (h : row < sizeList es) :
    ∃ before child after row', es = before ++ child :: after ∧ row = sizeList before + row' ∧
      row' < child.size := by
  induction es generalizing row with
  | nil => cases h
  | cons e es ih =>
    rw [sizeList] at h
    rcases Nat.lt_or_ge row e.size with hFirst | hLater
    · exact ⟨[], e, es, row, rfl, (Nat.zero_add _).symm, hFirst⟩
    · obtain ⟨before, child, after, row', rfl, hRow, hLess⟩ :=
        ih (show row - e.size < sizeList es by omega)
      refine ⟨e :: before, child, after, row', rfl, ?_, hLess⟩
      rw [sizeList]
      omega

theorem exists_nodeAt (e : Expr) {row : Nat} (h : row < e.size) :
    ∃ marks node, NodeAt e row marks node := by
  induction e using children_induction generalizing row with
  | node e ih =>
    rw [size_eq] at h
    rcases Nat.eq_zero_or_pos row with rfl | hPos
    · exact ⟨[], e, .root⟩
    · obtain ⟨before, child, after, row', hChildren, hRow, hLess⟩ :=
        exists_split (show row - 1 < sizeList e.children by omega)
      obtain ⟨marks, node, hNode⟩ := ih child (by simp [hChildren]) hLess
      obtain rfl : row = 1 + sizeList before + row' := by omega
      exact ⟨_, node, .operand hChildren hNode⟩

/-- Only one of several trees has the node of a row. -/
theorem split_unique {before before' after after' : List Expr} {child child' : Expr}
    {row row' : Nat} (h : before ++ child :: after = before' ++ child' :: after')
    (hRow : sizeList before + row = sizeList before' + row') (hLess : row < child.size)
    (hLess' : row' < child'.size) : child = child' ∧ after = after' ∧ row = row' := by
  induction before generalizing before' with
  | nil =>
    cases before' with
    | nil =>
      cases h
      exact ⟨rfl, rfl, by omega⟩
    | cons e before' =>
      cases h
      rw [sizeList, sizeList] at hRow
      omega
  | cons e before ih =>
    cases before' with
    | nil =>
      cases h
      rw [sizeList, sizeList] at hRow
      omega
    | cons e' before' =>
      obtain ⟨rfl, hOthers⟩ := List.cons.inj h
      rw [sizeList, sizeList] at hRow
      exact ih hOthers (by omega)

theorem NodeAt.unique {marks' : List Bool} {node' : Expr} (h : NodeAt e row marks node)
    (h' : NodeAt e row marks' node') : marks = marks' ∧ node = node' := by
  -- the row of `h'` is not a variable, so the cases are of a row that is equal to it
  induction h generalizing marks' node' with
  | root =>
    generalize hRow : 0 = row' at h'
    cases h' with
    | root => exact ⟨rfl, rfl⟩
    | operand => omega
  | @operand e child node before after row marks hChildren hNode ih =>
    generalize hRow : 1 + sizeList before + row = row' at h'
    cases h' with
    | root => omega
    | operand hChildren' hNode' =>
      obtain ⟨rfl, rfl, rfl⟩ := split_unique (hChildren.symm.trans hChildren') (by omega)
        hNode.row_lt hNode'.row_lt
      obtain ⟨rfl, rfl⟩ := ih hNode'
      exact ⟨rfl, rfl⟩

theorem length_preorder (e : Expr) : e.preorder.length = e.size := by
  induction e using children_induction with
  | node e ih =>
    rw [preorder_eq, List.length_cons, List.length_flatMap, List.map_congr_left ih, size_eq,
      sizeList_eq_sum, Nat.add_comm]

theorem length_flatMap_preorder (es : List Expr) :
    (es.flatMap preorder).length = sizeList es := by
  rw [List.length_flatMap, List.map_congr_left fun e _ => e.length_preorder, sizeList_eq_sum]

theorem NodeAt.preorder (h : NodeAt e row marks node) : e.preorder[row]? = some node := by
  induction h with
  | root => rw [preorder_eq, List.getElem?_cons_zero]
  | @operand e child node before after row marks hChildren hNode ih =>
    rw [preorder_eq, hChildren, List.flatMap_append, List.flatMap_cons, ← length_flatMap_preorder,
      getElem?_part (child.length_preorder ▸ hNode.row_lt), ih]

end Rows

/-! ## Units -/

/-- What stands in front of a node: a unit for each level, the last one for the node itself. -/
def units (marks : List Bool) : List String :=
  marks.mapIdx fun level mark => if level + 1 = marks.length then branch mark else trunk mark

/-- What units consist of. -/
def isDrawing (c : Char) : Bool :=
  ['└', '├', '─', '│', ' '].contains c

theorem isAlpha_of_isDrawing {c : Char} (h : isDrawing c = true) : c.isAlpha = false := by
  simp only [isDrawing, List.contains_iff_mem, List.mem_cons, List.not_mem_nil, or_false] at h
  rcases h with rfl | rfl | rfl | rfl | rfl <;> rfl

theorem drawn_branch (mark : Bool) :
    (branch mark).length = 4 ∧ ∀ c ∈ (branch mark).toList, isDrawing c = true := by
  cases mark <;> exact ⟨rfl, by simp [branch, isDrawing]⟩

theorem drawn_trunk (mark : Bool) :
    (trunk mark).length = 4 ∧ ∀ c ∈ (trunk mark).toList, isDrawing c = true := by
  cases mark <;> exact ⟨rfl, by simp [trunk, isDrawing]⟩

theorem branch_injective : Function.Injective branch := by
  intro mark mark' h
  cases mark <;> cases mark' <;> simp [branch] at h ⊢

theorem trunk_injective : Function.Injective trunk := by
  intro mark mark' h
  cases mark <;> cases mark' <;> simp [trunk] at h ⊢

theorem length_units (marks : List Bool) : (units marks).length = marks.length :=
  List.length_mapIdx

theorem drawn_of_mem_units {marks : List Bool} {unit : String} (h : unit ∈ units marks) :
    unit.length = 4 ∧ ∀ c ∈ unit.toList, isDrawing c = true := by
  obtain ⟨level, hLevel, rfl⟩ := List.mem_mapIdx.mp h
  split_ifs
  · exact drawn_branch _
  · exact drawn_trunk _

theorem units_injective : Function.Injective units := by
  intro marks marks' h
  have hLength : marks.length = marks'.length := by
    rw [← length_units, h, length_units]
  refine List.ext_getElem hLength fun level hLevel hLevel' => ?_
  have hUnit : (units marks)[level]? = (units marks')[level]? := by rw [h]
  simp only [units, List.getElem?_mapIdx, List.getElem?_eq_getElem hLevel,
    List.getElem?_eq_getElem hLevel', Option.map_some, Option.some.injEq, hLength] at hUnit
  split_ifs at hUnit
  · exact branch_injective hUnit
  · exact trunk_injective hUnit

theorem units_cons_cons (mark next : Bool) (marks : List Bool) :
    units (mark :: next :: marks) = trunk mark :: units (next :: marks) := by
  simp [units, List.mapIdx_cons]

/-- What `outlineLines` puts in front of a node below the node that it draws. -/
def indent (lead below : String) : List Bool → String
  | [] => lead
  | mark :: marks => indent (below ++ branch mark) (below ++ trunk mark) marks

theorem indent_cons (lead below : String) (mark : Bool) (marks : List Bool) :
    indent lead below (mark :: marks) = below ++ String.join (units (mark :: marks)) := by
  induction marks generalizing lead below mark with
  | nil => simp [indent, units]
  | cons next marks ih =>
    rw [indent, ih, units_cons_cons, String.join_cons, String.append_assoc]

theorem indent_eq (marks : List Bool) : indent "" "" marks = String.join (units marks) := by
  cases marks with
  | nil => rfl
  | cons mark marks => rw [indent_cons, String.empty_append]

theorem outlineLines_eq (lead below : String) (e : Expr) :
    outlineLines lead below e = (lead ++ e.label) :: operandLines below e.children := by
  cases e <;> simp [outlineLines, operandLines, children]

theorem length_operandLines {es : List Expr}
    (hEach : ∀ e ∈ es, ∀ lead below, (outlineLines lead below e).length = e.size)
    (below : String) : (operandLines below es).length = sizeList es := by
  induction es with
  | nil => rfl
  | cons e es ih =>
    obtain ⟨hFirst, hLater⟩ := List.forall_mem_cons.mp hEach
    rw [operandLines, List.length_append, hFirst, ih hLater, sizeList]

theorem length_outlineLines (e : Expr) (lead below : String) :
    (outlineLines lead below e).length = e.size := by
  induction e using children_induction generalizing lead below with
  | node e ih =>
    rw [outlineLines_eq, List.length_cons, length_operandLines ih, size_eq, Nat.add_comm]

/-- The lines of one of several operands follow those of the operands before it. -/
theorem operandLines_append (below : String) (before after : List Expr) (child : Expr) :
    ∃ front, front.length = sizeList before ∧ operandLines below (before ++ child :: after) =
      front ++ (outlineLines (below ++ branch after.isEmpty) (below ++ trunk after.isEmpty) child ++
        operandLines below after) := by
  induction before with
  | nil => exact ⟨[], rfl, rfl⟩
  | cons e before ih =>
    obtain ⟨front, hLength, hLines⟩ := ih
    rw [List.cons_append, operandLines, hLines, ← List.append_assoc]
    refine ⟨_, ?_, rfl⟩
    rw [List.length_append, length_outlineLines, hLength, sizeList]

theorem NodeAt.outlineLines {e node : Expr} {row : Nat} {marks : List Bool}
    (h : NodeAt e row marks node) (lead below : String) :
    (outlineLines lead below e)[row]? = some (indent lead below marks ++ node.label) := by
  induction h generalizing lead below with
  | root => rw [outlineLines_eq, List.getElem?_cons_zero, indent]
  | @operand e child node before after row marks hChildren hNode ih =>
    obtain ⟨front, hLength, hLines⟩ := operandLines_append below before after child
    rw [outlineLines_eq, hChildren, hLines, ← hLength,
      getElem?_part ((length_outlineLines ..).symm ▸ hNode.row_lt), ih, indent]

theorem operandLines_map {es : List Expr}
    (hEach : ∀ e ∈ es, ∀ lead below,
      outlineLines lead below e.withoutSpans = outlineLines lead below e) (below : String) :
    operandLines below (es.map withoutSpans) = operandLines below es := by
  induction es with
  | nil => rfl
  | cons e es ih =>
    obtain ⟨hFirst, hLater⟩ := List.forall_mem_cons.mp hEach
    rw [List.map_cons, operandLines, hFirst, ih hLater, List.isEmpty_map, operandLines]

theorem outlineLines_withoutSpans (e : Expr) (lead below : String) :
    outlineLines lead below e.withoutSpans = outlineLines lead below e := by
  induction e using children_induction generalizing lead below with
  | node e ih =>
    rw [outlineLines_eq, label_eq, shape_withoutSpans, ← label_eq, children_withoutSpans,
      operandLines_map ih, outlineLines_eq]

/-! ## Outlines of texts -/

/-- What stands in each row. -/
theorem exists_line (e : Expr) {row : Nat} (h : row < e.size) :
    ∃ marks node, e.NodeAt row marks node ∧
      (outlineLines "" "" e)[row]? = some (String.join (units marks) ++ node.label) := by
  obtain ⟨marks, node, hNode⟩ := e.exists_nodeAt h
  refine ⟨marks, node, hNode, ?_⟩
  rw [hNode.outlineLines, indent_eq]

theorem legible_of_ofString? {text : String} {tree : Expr} (h : ofString? text = .ok tree) :
    ∀ node ∈ tree.preorder, node.shape.Legible := by
  intro node hMem
  obtain ⟨part, -, -, hReads⟩ := ((fits_of_ofString? h).1 node hMem).written
  exact legible_of_reads hReads

theorem isDrawing_of_mem_join {marks : List Bool} {c : Char}
    (h : c ∈ (String.join (units marks)).toList) : isDrawing c = true := by
  rw [String.toList_join] at h
  obtain ⟨unit, hUnit, hMem⟩ := List.mem_flatMap.mp h
  exact (drawn_of_mem_units hUnit).2 c hMem

/-- A line shows the name of its node, for the name begins behind the drawing. -/
theorem label_of_line {marks marks' : List Bool} {node node' : Expr}
    (h : String.join (units marks) ++ node.label = String.join (units marks') ++ node'.label) :
    node.label = node'.label := by
  have hStart (node : Expr) : ∀ c ∈ node.label.toList.head?, isDrawing c = false := by
    obtain ⟨first, rest, hLabel, hFirst⟩ := node.exists_letter
    rw [hLabel]
    rintro c ⟨⟩
    refine Bool.eq_false_iff.mpr fun hDrawing => ?_
    rw [isAlpha_of_isDrawing hDrawing] at hFirst
    cases hFirst
  rw [← String.toList_inj, String.toList_append, String.toList_append] at h
  obtain ⟨-, hLabel⟩ := Token.front_inj (fun c => isDrawing_of_mem_join)
    (fun c => isDrawing_of_mem_join) (hStart node) (hStart node') h
  exact String.toList_inj.mp hLabel

section Legible

variable {e e' : Expr} (he : ∀ node ∈ e.preorder, node.shape.Legible)
  (he' : ∀ node ∈ e'.preorder, node.shape.Legible)

include he

theorem oneLine_of_mem {line : String} (h : line ∈ outlineLines "" "" e) : Text.OneLine line := by
  obtain ⟨row, hRow, rfl⟩ := List.mem_iff_getElem.mp h
  obtain ⟨marks, node, hNode, hLine⟩ := e.exists_line (by rwa [length_outlineLines] at hRow)
  rw [List.getElem?_eq_getElem hRow, Option.some.injEq] at hLine
  rw [hLine]
  exact Text.oneLine_append (fun hMem => nomatch isDrawing_of_mem_join hMem)
    (oneLine_label (he node (List.mem_of_getElem? hNode.preorder)))

include he'

theorem shapes_eq (h : outlineLines "" "" e = outlineLines "" "" e') :
    e.preorder.map shape = e'.preorder.map shape := by
  have hSize : e.size = e'.size := by
    rw [← length_outlineLines e "" "", h, length_outlineLines]
  refine List.ext_getElem? fun row => ?_
  rcases Nat.lt_or_ge row e.size with hRow | hRow
  · obtain ⟨marks, node, hNode, hLine⟩ := e.exists_line hRow
    obtain ⟨marks', node', hNode', hLine'⟩ := e'.exists_line (hSize ▸ hRow)
    rw [h, hLine', Option.some.injEq] at hLine
    have hShape := shape_of_label (he node (List.mem_of_getElem? hNode.preorder))
      (he' node' (List.mem_of_getElem? hNode'.preorder)) (label_of_line hLine.symm)
    rw [List.getElem?_map, hNode.preorder, List.getElem?_map, hNode'.preorder, Option.map_some,
      Option.map_some, hShape]
  · rw [List.getElem?_eq_none (by rwa [List.length_map, length_preorder]),
      List.getElem?_eq_none (by rwa [List.length_map, length_preorder, ← hSize])]

end Legible

/-- Two texts have the same outline only if their trees are the same up to the spans of the nodes. An
outline has a line for each node, in preorder. The line of a node begins with a unit of four
characters for each level below the root, which tells whether the node on this level is the last
operand of its parent. Behind the units is the name of the node, which begins with a letter. -/
theorem outlines_tell_trees_apart {text : String} {tree : Expr} (h : ofString? text = .ok tree) :
    (∀ text' tree', ofString? text' = .ok tree' →
      (tree.outline = tree'.outline ↔ tree.withoutSpans = tree'.withoutSpans)) ∧
    Function.Injective units ∧
    ∃ lines : List String, tree.outline = String.join (lines.map (· ++ "\n")) ∧
      (∀ line ∈ lines, Text.OneLine line) ∧ lines.length = tree.size ∧
      ∀ row line, lines[row]? = some line → ∃ marks node, tree.NodeAt row marks node ∧
        tree.preorder[row]? = some node ∧
        (∀ marks' node', tree.NodeAt row marks' node' → marks = marks' ∧ node = node') ∧
        line = String.join (units marks) ++ node.label ∧ (units marks).length = marks.length ∧
        (∀ unit ∈ units marks, unit.length = 4 ∧ ∀ c ∈ unit.toList, isDrawing c = true) ∧
        ∃ first rest, node.label.toList = first :: rest ∧ first.isAlpha = true := by
  have hLegible := legible_of_ofString? h
  refine ⟨fun text' tree' h' => ⟨fun hSame => ?_, fun hSame => ?_⟩, units_injective,
    outlineLines "" "" tree, rfl, fun line => oneLine_of_mem hLegible, length_outlineLines ..,
    fun row line hLine => ?_⟩
  · have hLegible' := legible_of_ofString? h'
    have hLines := Text.lines_inj (fun line => oneLine_of_mem hLegible)
      (fun line => oneLine_of_mem hLegible') hSame
    exact withoutSpans_of_shapes (shapes_eq hLegible hLegible' hLines)
  · rw [outline, ← outlineLines_withoutSpans, hSame, outlineLines_withoutSpans, outline]
  · have hRow := (List.getElem?_eq_some_iff.mp hLine).1
    rw [length_outlineLines] at hRow
    obtain ⟨marks, node, hNode, hSame⟩ := tree.exists_line hRow
    rw [hSame, Option.some.injEq] at hLine
    exact ⟨marks, node, hNode, hNode.preorder, fun _ _ => hNode.unique, hLine.symm,
      length_units marks, fun _ => drawn_of_mem_units, node.exists_letter⟩

/-- The second line of the outline of `-x` has one unit, and no other tree has this outline. -/
theorem outlines_tell_trees_apart_negX :
    ofString? "-x" = .ok negX ∧ negX.outline = "Neg\n└── Variable x\n" ∧
      negX.NodeAt 1 [true] (.var ⟨1, 2⟩ "x") ∧
      (∃ lines : List String, negX.outline = String.join (lines.map (· ++ "\n")) ∧
        lines.length = 2 ∧ lines[1]? = some (String.join (units [true]) ++ "Variable x")) ∧
      ∀ text tree, ofString? text = .ok tree →
        tree.outline = "Neg\n└── Variable x\n" → tree.withoutSpans = negX.withoutSpans := by
  have hOutline : negX.outline = "Neg\n└── Variable x\n" := by rfl
  have hNode : negX.NodeAt 1 [true] (.var ⟨1, 2⟩ "x") :=
    .operand (show negX.children = [] ++ .var ⟨1, 2⟩ "x" :: [] from rfl) .root
  obtain ⟨hSame, -, lines, hJoin, -, hLength, hLines⟩ := outlines_tell_trees_apart ofString?_negX
  have hSecond : 1 < lines.length := by rw [hLength]; decide
  obtain ⟨marks, node, -, -, hUnique, hLine, -⟩ :=
    hLines 1 lines[1] (List.getElem?_eq_getElem hSecond)
  obtain ⟨rfl, rfl⟩ := hUnique _ _ hNode
  refine ⟨ofString?_negX, hOutline, hNode, ⟨lines, hJoin, hLength, ?_⟩,
    fun text tree h hTree => ?_⟩
  · rw [List.getElem?_eq_getElem hSecond, hLine]
    rfl
  · exact ((hSame text tree h).mp (hOutline.trans hTree.symm)).symm

end Formula.Expr
