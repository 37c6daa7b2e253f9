import Calculator.Expr.Drawing
import Calculator.Proofs.Expr.Rescaling
import Calculator.Proofs.Session.Answers

/-!
# Drawings are faithful

The drawing of a tree has one line for each node (`Expr.outline` lists them, with the turns that lead
there), and in front of what is written at the node stands one cell for each turn (`Expr.cells`).
The indent of a node is made from the one above it by taking off the branch at its end: it always
ends in the branch to the node, so that there is one to take off (`Expr.continued_cells`).

Drawings can be told apart, also when more text follows them (`Expr.drawing_append_inj`): the first
line ends at its line break, and whether it belongs to a unary or a binary operator shows in the
branch on the next line.
-/

namespace Calculator.Expr

variable {e e' : Expr} {path : List Turn} {turn : Turn}

/-! ## Nodes in pre-order -/

/-- The node to which the turns lead. -/
def at? : Expr → List Turn → Option Expr
  | e, [] => some e
  | unary _ operand, .operand :: path => operand.at? path
  | binary _ left _, .left :: path => left.at? path
  | binary _ _ right, .right :: path => right.at? path
  | _, _ => none

/-- A node comes before its operands, and a left operand with all its nodes before the right one. -/
def Precedes : List Turn → List Turn → Prop :=
  List.Lex fun turn turn' => turn = .left ∧ turn' = .right

/-- One turn earlier. -/
def behind (turn : Turn) (node : List Turn × Expr) : List Turn × Expr := (turn :: node.1, node.2)

/-- All nodes, each with the turns that lead to it. -/
def outline : Expr → List (List Turn × Expr)
  | number value => [([], number value)]
  | unary op operand => ([], unary op operand) :: operand.outline.map (behind .operand)
  | binary op left right => ([], binary op left right) ::
      (left.outline.map (behind .left) ++ right.outline.map (behind .right))

theorem mem_map_behind {turn' : Turn} {nodes : List (List Turn × Expr)} :
    (turn :: path, e) ∈ nodes.map (behind turn') ↔ turn = turn' ∧ (path, e) ∈ nodes := by
  simp only [List.mem_map, behind, Prod.mk.injEq, List.cons.injEq]
  constructor
  · rintro ⟨⟨path', e'⟩, hmem, ⟨rfl, rfl⟩, rfl⟩
    exact ⟨rfl, hmem⟩
  · rintro ⟨rfl, hmem⟩
    exact ⟨(path, e), hmem, ⟨rfl, rfl⟩, rfl⟩

theorem nil_not_mem_map_behind {nodes : List (List Turn × Expr)} :
    ([], e) ∉ nodes.map (behind turn) := by
  simp [behind]

/-- Each node is listed, and nothing else. -/
theorem mem_outline : (path, e') ∈ e.outline ↔ e.at? path = some e' := by
  induction e generalizing path with
  | number value =>
    cases path with
    | nil => simp [outline, at?, eq_comm]
    | cons turn path => simp [outline, at?]
  | unary op operand ih =>
    cases path with
    | nil => simp [outline, at?, nil_not_mem_map_behind, eq_comm]
    | cons turn path =>
      cases turn <;> simp [outline, at?, mem_map_behind, ih]
  | binary op left right ihl ihr =>
    cases path with
    | nil => simp [outline, at?, nil_not_mem_map_behind, eq_comm]
    | cons turn path =>
      cases turn <;> simp [outline, at?, mem_map_behind, ihl, ihr]

theorem pairwise_map_behind {nodes : List (List Turn × Expr)}
    (h : nodes.Pairwise fun m n => Precedes m.1 n.1) (turn : Turn) :
    (nodes.map (behind turn)).Pairwise fun m n => Precedes m.1 n.1 := by
  rw [List.pairwise_map]
  exact h.imp List.Lex.cons

/-- The nodes are listed in pre-order, and so none is listed twice. -/
theorem pairwise_outline (e : Expr) : e.outline.Pairwise fun m n => Precedes m.1 n.1 := by
  induction e with
  | number value => exact List.pairwise_singleton _ _
  | unary op operand ih =>
    refine List.pairwise_cons.mpr ⟨?_, pairwise_map_behind ih _⟩
    intro node hnode
    obtain ⟨m, -, rfl⟩ := List.mem_map.mp hnode
    exact .nil
  | binary op left right ihl ihr =>
    refine List.pairwise_cons.mpr ⟨?_, List.pairwise_append.mpr
      ⟨pairwise_map_behind ihl _, pairwise_map_behind ihr _, ?_⟩⟩
    · intro node hnode
      rcases List.mem_append.mp hnode with hnode | hnode <;>
        obtain ⟨m, -, rfl⟩ := List.mem_map.mp hnode <;> exact .nil
    · intro m hm n hn
      obtain ⟨m, -, rfl⟩ := List.mem_map.mp hm
      obtain ⟨n, -, rfl⟩ := List.mem_map.mp hn
      exact .rel ⟨rfl, rfl⟩

/-! ## Lines -/

/-- What is written at a node: the number, or the symbol of the operator. -/
def label : Expr → List Char
  | number value => value.text
  | unary op _ => op.symbol.toList
  | binary op _ _ => op.symbol.toList

/-- The cell of the last turn, which leads to the node itself. -/
def branchCell : Turn → List Char
  | .left => ['├', '─', ' ']
  | .operand | .right => ['└', '─', ' ']

/-- The cell of a turn further up: a pipe while the right operand is still to come. -/
def passedCell : Turn → List Char
  | .left => ['│', ' ', ' ']
  | .operand | .right => [' ', ' ', ' ']

/-- What stands in front of a node: a cell for each turn. -/
def cells : List Turn → List Char
  | [] => []
  | [turn] => branchCell turn
  | turn :: path => passedCell turn ++ cells path

/-- The line of a node, without the line break at its end. -/
def line (node : List Turn × Expr) : List Char := cells node.1 ++ node.2.label

theorem newline_not_mem_label (e : Expr) : '\n' ∉ e.label := by
  cases e with
  | number value => exact unbroken_ofList.mp value.unbroken_toString
  | unary op operand => exact op.unbroken_symbol
  | binary op left right => exact op.unbroken_symbol

theorem newline_not_mem_cells (path : List Turn) : '\n' ∉ cells path := by
  fun_induction cells path with
  | case1 => exact List.not_mem_nil
  | case2 turn => cases turn <;> decide
  | case3 turn path _ ih =>
    have hpassed : '\n' ∉ passedCell turn := by cases turn <;> decide
    rw [List.mem_append, not_or]
    exact ⟨hpassed, ih⟩

theorem newline_not_mem_line (node : List Turn × Expr) : '\n' ∉ line node := by
  rw [line, List.mem_append, not_or]
  exact ⟨newline_not_mem_cells _, newline_not_mem_label _⟩

/-! ## Indents -/

/-- Whether no other operand comes after this one. -/
def Turn.isLast : Turn → Bool
  | left => false
  | operand | right => true

theorem branch_isLast (turn : Turn) : branch turn.isLast = branchCell turn := by
  cases turn <;> rfl

theorem continuation_isLast (turn : Turn) : continuation turn.isLast = passedCell turn := by
  cases turn <;> rfl

/-- The cells below a node: all its turns are further up. -/
def pipes (path : List Turn) : List Char := path.flatMap passedCell

/-- Whether the node is drawn as a last operand; the root is not. -/
def endsLast (path : List Turn) : Bool := path.getLast?.any Turn.isLast

theorem cells_append (path : List Turn) (turn : Turn) :
    cells (path ++ [turn]) = pipes path ++ branchCell turn := by
  induction path with
  | nil => rfl
  | cons first path ih =>
    have hcells : cells (first :: (path ++ [turn])) = passedCell first ++ cells (path ++ [turn]) := by
      cases path <;> rfl
    rw [List.cons_append, hcells, ih, pipes, pipes, List.flatMap_cons, List.append_assoc]

theorem endsLast_append (path : List Turn) (turn : Turn) :
    endsLast (path ++ [turn]) = turn.isLast := by
  simp [endsLast]

/-- Below a node its branch is taken off and continued. -/
theorem continued_cells (path : List Turn) : continued (cells path) (endsLast path) = pipes path := by
  rcases List.eq_nil_or_concat' path with rfl | ⟨above, turn, rfl⟩
  · rfl
  · have hsuffix : (branchCell turn).isSuffixOf (pipes above ++ branchCell turn) := by simp
    rw [continued, cells_append, endsLast_append, branch_isLast, continuation_isLast, if_pos hsuffix]
    simp [pipes]

theorem continued_cells_append (path : List Turn) (turn : Turn) :
    continued (cells path) (endsLast path) ++ branch turn.isLast = cells (path ++ [turn]) := by
  rw [continued_cells, cells_append, branch_isLast]

/-- The lines of nodes of a tree that hangs below the turns. -/
def linesBelow (path : List Turn) (nodes : List (List Turn × Expr)) : List Char :=
  nodes.flatMap fun node => line (path ++ node.1, node.2) ++ ['\n']

theorem linesBelow_map_behind (path : List Turn) (turn : Turn) (nodes : List (List Turn × Expr)) :
    linesBelow path (nodes.map (behind turn)) = linesBelow (path ++ [turn]) nodes := by
  simp [linesBelow, behind, List.flatMap_map]

theorem linesBelow_cons (path path' : List Turn) (e : Expr) (nodes : List (List Turn × Expr)) :
    linesBelow path ((path', e) :: nodes) =
      line (path ++ path', e) ++ '\n' :: linesBelow path nodes := by
  simp [linesBelow]

theorem linesBelow_append (path : List Turn) (nodes nodes' : List (List Turn × Expr)) :
    linesBelow path (nodes ++ nodes') = linesBelow path nodes ++ linesBelow path nodes' :=
  List.flatMap_append

/-- An operand is drawn with the indent that its node makes for it. -/
theorem drawing_operand (h : ∀ path, e.drawing (cells path) (endsLast path) =
      linesBelow path e.outline) (path : List Turn) (turn : Turn) :
    e.drawing (continued (cells path) (endsLast path) ++ branch turn.isLast) turn.isLast =
      linesBelow path (e.outline.map (behind turn)) := by
  rw [linesBelow_map_behind, ← h, continued_cells_append, endsLast_append]

/-- A tree that hangs below the turns is drawn node by node. -/
theorem drawing_cells (e : Expr) (path : List Turn) :
    e.drawing (cells path) (endsLast path) = linesBelow path e.outline := by
  induction e generalizing path with
  | number value => simp [drawing, outline, linesBelow, line, label]
  | unary op operand ih =>
    have hoperand := drawing_operand ih path .operand
    rw [drawing, outline, linesBelow_cons, ← hoperand, line, label, List.append_nil]
    rfl
  | binary op left right ihl ihr =>
    have hleft := drawing_operand ihl path .left
    have hright := drawing_operand ihr path .right
    rw [drawing, outline, linesBelow_cons, linesBelow_append, ← hleft, ← hright, line, label,
      List.append_nil]
    rfl

/-! ## Reading a drawing -/

theorem append_cons_inj {c : Char} {u v x y : List Char} (hu : c ∉ u) (hv : c ∉ v) :
    u ++ c :: x = v ++ c :: y ↔ u = v ∧ x = y := by
  constructor
  · intro h
    induction u generalizing v with
    | nil =>
      cases v with
      | nil => exact ⟨rfl, (List.cons.inj h).2⟩
      | cons d v => exact absurd (by simp [(List.cons.inj h).1]) hv
    | cons d u ih =>
      cases v with
      | nil => exact absurd (by simp [(List.cons.inj h).1]) hu
      | cons d' v =>
        obtain ⟨hhead, htail⟩ := List.cons.inj h
        have hrest := ih (fun hmem => hu (.tail _ hmem)) (fun hmem => hv (.tail _ hmem)) htail
        exact ⟨by rw [hhead, hrest.1], hrest.2⟩
  · rintro ⟨rfl, rfl⟩
    rfl

/-- What is drawn below the first line. -/
def operands (indent : List Char) (isLast : Bool) : Expr → List Char
  | number _ => []
  | unary _ operand => operand.drawing (continued indent isLast ++ branch true) true
  | binary _ left right => left.drawing (continued indent isLast ++ branch false) false ++
      right.drawing (continued indent isLast ++ branch true) true

theorem drawing_eq_label (e : Expr) (indent : List Char) (isLast : Bool) :
    e.drawing indent isLast = indent ++ e.label ++ '\n' :: e.operands indent isLast := by
  cases e <;> rfl

/-- The first line ends at its line break. -/
theorem drawing_append_iff {indent x y : List Char} {isLast : Bool} :
    e.drawing indent isLast ++ x = e'.drawing indent isLast ++ y ↔
      e.label = e'.label ∧ e.operands indent isLast ++ x = e'.operands indent isLast ++ y := by
  simp only [drawing_eq_label, List.append_assoc, List.append_cancel_left_eq, List.cons_append,
    append_cons_inj e.newline_not_mem_label e'.newline_not_mem_label]

theorem unary_symbol_inj {op op' : UnaryOp} :
    op.symbol.toList = op'.symbol.toList ↔ op = op' := by
  cases op <;> cases op' <;> decide

theorem binary_symbol_inj {op op' : BinaryOp} :
    op.symbol.toList = op'.symbol.toList ↔ op = op' := by
  cases op <;> cases op' <;> decide

/-- No symbol is a numeral. -/
theorem text_ne_symbol (a : Decimal) (op : Operator) : a.text ≠ op.symbol.toList := by
  have hsymbol : Decimal.ofNumeral? op.symbol.toList = none := by
    cases op with
    | unary op => cases op <;> rfl
    | binary op => cases op <;> rfl
  intro h
  have hread := a.ofNumeral?_text
  rw [h, hsymbol] at hread
  cases hread

/-- The branch on its first line tells a left operand from a last one. -/
theorem drawing_last_ne_left (e e' : Expr) (below x y : List Char) :
    e.drawing (below ++ branch true) true ++ x ≠ e'.drawing (below ++ branch false) false ++ y := by
  rw [drawing_eq_label, drawing_eq_label]
  simp [branch]

/-- Where two drawings begin alike, the trees are the same, and so is what follows. -/
theorem drawing_append_inj {indent x y : List Char} {isLast : Bool} :
    e.drawing indent isLast ++ x = e'.drawing indent isLast ++ y ↔ e = e' ∧ x = y := by
  constructor
  · intro h
    induction e generalizing e' indent x y isLast with
    | number a =>
      obtain ⟨hlabel, hrest⟩ := drawing_append_iff.mp h
      cases e' with
      | number b => exact ⟨congrArg number (Decimal.text_inj.mp hlabel), hrest⟩
      | unary op' operand' => exact absurd hlabel (text_ne_symbol a (.unary op'))
      | binary op' left' right' => exact absurd hlabel (text_ne_symbol a (.binary op'))
    | unary op operand ih =>
      obtain ⟨hlabel, hrest⟩ := drawing_append_iff.mp h
      cases e' with
      | number b => exact absurd hlabel.symm (text_ne_symbol b (.unary op))
      | unary op' operand' =>
        obtain rfl := unary_symbol_inj.mp hlabel
        obtain ⟨rfl, rfl⟩ := ih hrest
        exact ⟨rfl, rfl⟩
      | binary op' left' right' =>
        rw [operands, operands, List.append_assoc] at hrest
        exact absurd hrest (drawing_last_ne_left _ _ _ _ _)
    | binary op left right ihl ihr =>
      obtain ⟨hlabel, hrest⟩ := drawing_append_iff.mp h
      cases e' with
      | number b => exact absurd hlabel.symm (text_ne_symbol b (.binary op))
      | unary op' operand' =>
        rw [operands, operands, List.append_assoc] at hrest
        exact absurd hrest.symm (drawing_last_ne_left _ _ _ _ _)
      | binary op' left' right' =>
        obtain rfl := binary_symbol_inj.mp hlabel
        rw [operands, operands, List.append_assoc, List.append_assoc] at hrest
        obtain ⟨rfl, hright⟩ := ihl hrest
        obtain ⟨rfl, rfl⟩ := ihr hright
        exact ⟨rfl, rfl⟩
  · rintro ⟨rfl, rfl⟩
    rfl

theorem drawing_inj : e.drawing [] false = e'.drawing [] false ↔ e = e' := by
  have h : e.drawing [] false ++ [] = e'.drawing [] false ++ [] ↔ e = e' ∧ [] = [] :=
    drawing_append_inj
  simpa using h

/-! ## Whole drawings -/

/-- A drawing has one line for each node of the tree, in pre-order, with a cell for each turn in
front of what is written at the node.  Different trees have different drawings. -/
theorem drawing_faithful (e : Expr) :
    e.drawing [] false = (e.outline.flatMap fun node => line node ++ ['\n']) ∧
      (∀ node ∈ e.outline, '\n' ∉ line node) ∧
      (∀ path node, (path, node) ∈ e.outline ↔ e.at? path = some node) ∧
      (e.outline.Pairwise fun m n => Precedes m.1 n.1) ∧
      ∀ e', e.drawing [] false = e'.drawing [] false ↔ e = e' :=
  ⟨e.drawing_cells [], fun node _ => newline_not_mem_line node, fun _ _ => mem_outline,
    e.pairwise_outline, fun _ => drawing_inj⟩

/-- The minus of one stands on two lines, and minus one on one line.  A pipe is drawn below the left operand
and blanks below the right one. -/
theorem drawing_faithful_signs :
    (binary .subtract (unary .minus (number ⟨⟨1, 0⟩, false, by decide⟩))
        (unary .squareRoot (number ⟨⟨10, 1⟩, true, by decide⟩))).drawing [] false =
          "-\n├─ -\n│  └─ 1\n└─ sqrt\n   └─ -1.0\n".toList ∧
      '\n' ∉ line ([.left, .operand], number ⟨⟨1, 0⟩, false, by decide⟩) ∧
      (unary .minus (number ⟨⟨1, 0⟩, false, by decide⟩)).drawing [] false ≠
        (number ⟨⟨1, 0⟩, true, by decide⟩).drawing [] false := by
  refine ⟨?_, ?_, ?_⟩
  · exact (drawing_faithful _).1.trans (by decide +kernel)
  · refine (drawing_faithful (binary .subtract (unary .minus (number ⟨⟨1, 0⟩, false, by decide⟩))
      (unary .squareRoot (number ⟨⟨10, 1⟩, true, by decide⟩)))).2.1 _ (by decide +kernel)
  · intro h
    have heq := ((drawing_faithful _).2.2.2.2 _).mp h
    cases heq

end Calculator.Expr
