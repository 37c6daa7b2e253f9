import Calculator.Expr.PostOrder
import Calculator.Proofs.Expr.Rescaling

/-!
# Evaluation in post-order

Carried out on a stack of values, the instructions of a tree leave its value, and they stop with the
failure that evaluation stops with (`Expr.execute?_postOrder`).  So a tree has a value if every
operator has one for the values of its operands, and otherwise fails as the first node in post-order
does that has none (`Expr.evaluate_nodes`).

What comes after a node that fails is never carried out: the induction that finds the node is over
trees, for any stack and for any instructions behind the tree (`Expr.exists_stop`).
-/

namespace Calculator

/-! ## Stacks of values -/

/-- Carries the instructions out on a stack of values, up to the first operator that has no value;
there is no outcome if an operator does not find its operands. -/
def execute? : List Instruction → List Decimal → Option (Except EvalError (List Decimal))
  | [], stack => some (.ok stack)
  | .push value :: rest, stack => execute? rest (value :: stack)
  | .unary op :: rest, a :: stack =>
    match op.apply a .unary with
    | .ok value => execute? rest (value :: stack)
    | .error err => some (.error err)
  | .binary op :: rest, b :: a :: stack =>
    match op.apply a b with
    | .ok value => execute? rest (value :: stack)
    | .error err => some (.error err)
  | _, _ => none

variable {rest : List Instruction} {stack : List Decimal} {a b c : Decimal} {err : EvalError}

theorem execute?_unary {op : UnaryOp} (h : op.apply a .unary = .ok c) :
    execute? (.unary op :: rest) (a :: stack) = execute? rest (c :: stack) := by
  rw [execute?, h]

theorem execute?_unary_error {op : UnaryOp} (h : op.apply a .unary = .error err) :
    execute? (.unary op :: rest) (a :: stack) = some (.error err) := by
  rw [execute?, h]

theorem execute?_binary {op : BinaryOp} (h : op.apply a b = .ok c) :
    execute? (.binary op :: rest) (b :: a :: stack) = execute? rest (c :: stack) := by
  rw [execute?, h]

theorem execute?_binary_error {op : BinaryOp} (h : op.apply a b = .error err) :
    execute? (.binary op :: rest) (b :: a :: stack) = some (.error err) := by
  rw [execute?, h]

/-! ## Failures of operators -/

theorem ofBinary64_eq_error {operator : Operator} {x : Float}
    (h : ofBinary64 operator x = .error err) : err = .notRepresentable operator x := by
  unfold ofBinary64 at h
  split at h
  next => cases h
  next => exact (Except.error.inj h).symm

theorem UnaryOp.apply_eq_error {op : UnaryOp} {node : Shape} (h : op.apply a node = .error err) :
    op = squareRoot ∧ (a.signed < 0 ∧ err = .unsupportedOperation squareRoot node a ∨
      err = .notRepresentable (.unary squareRoot) (Binary64.ofDecimal a).sqrt) := by
  cases op with
  | plus => cases h
  | minus => cases h
  | squareRoot =>
    simp only [apply] at h
    split at h
    next hneg => exact ⟨rfl, .inl ⟨hneg, (Except.error.inj h).symm⟩⟩
    next => exact ⟨rfl, .inr (ofBinary64_eq_error h)⟩

namespace BinaryOp

theorem ofResult?_eq_error {op : BinaryOp} {result : Option Decimal}
    (h : op.ofResult? a b result = .error err) :
    err = .notRepresentable (.binary op) (op.approximate a b) := by
  cases result with
  | none => exact (Except.error.inj h).symm
  | some value => cases h

theorem apply_eq_error {op : BinaryOp} (h : op.apply a b = .error err) :
    op = divide ∧ b.isZero ∧ err = .divideByZero divide a b ∨
      err = .notRepresentable (.binary op) (op.approximate a b) := by
  cases op with
  | add | subtract | multiply => exact .inr (ofResult?_eq_error h)
  | divide =>
    simp only [apply] at h
    split at h
    next hzero => exact .inl ⟨rfl, hzero, (Except.error.inj h).symm⟩
    next => exact .inr (ofResult?_eq_error h)
  | power =>
    simp only [apply] at h
    split at h
    next => exact .inr (ofResult?_eq_error h)
    next => exact .inr (ofBinary64_eq_error h)

end BinaryOp

namespace Expr

variable {e e' l r : Expr} {o o' : Except EvalError Decimal}

/-! ## The outcome of an evaluation -/

theorem evaluate_unary_eq_ok {op : UnaryOp} :
    (unary op e).evaluate = .ok c ↔ ∃ a, e.evaluate = .ok a ∧ op.apply a .unary = .ok c := by
  cases he : e.evaluate with
  | ok a => simp [evaluate_unary he]
  | error err =>
    rw [evaluate, he]
    simp [bind, Except.bind]

theorem evaluate_unary_eq_error {op : UnaryOp} : (unary op e).evaluate = .error err ↔
    e.evaluate = .error err ∨ ∃ a, e.evaluate = .ok a ∧ op.apply a .unary = .error err := by
  cases he : e.evaluate with
  | ok a => simp [evaluate_unary he]
  | error err' =>
    rw [evaluate, he]
    simp [bind, Except.bind]

theorem evaluate_binary_eq_ok {op : BinaryOp} : (binary op l r).evaluate = .ok c ↔
    ∃ a b, l.evaluate = .ok a ∧ r.evaluate = .ok b ∧ op.apply a b = .ok c := by
  cases hl : l.evaluate with
  | error err =>
    rw [evaluate, hl]
    simp [bind, Except.bind]
  | ok a =>
    cases hr : r.evaluate with
    | ok b => simp [evaluate_binary hl hr]
    | error err =>
      rw [evaluate, hl, hr]
      simp [bind, Except.bind]

theorem evaluate_binary_eq_error {op : BinaryOp} : (binary op l r).evaluate = .error err ↔
    l.evaluate = .error err ∨ (∃ a, l.evaluate = .ok a ∧ r.evaluate = .error err) ∨
      ∃ a b, l.evaluate = .ok a ∧ r.evaluate = .ok b ∧ op.apply a b = .error err := by
  cases hl : l.evaluate with
  | error err' =>
    rw [evaluate, hl]
    simp [bind, Except.bind]
  | ok a =>
    cases hr : r.evaluate with
    | ok b => simp [evaluate_binary hl hr]
    | error err' =>
      rw [evaluate, hl, hr]
      simp [bind, Except.bind]

/-! ## What a node answers -/

/-- What the operator of a node answers to the values of its operands, if they have values. -/
inductive Yields : Expr → Except EvalError Decimal → Prop
  | number (value : Decimal) : Yields (.number value) (.ok value)
  | unary {e : Expr} {a : Decimal} (op : UnaryOp) : e.evaluate = .ok a →
    Yields (.unary op e) (op.apply a .unary)
  | binary {l r : Expr} {a b : Decimal} (op : BinaryOp) : l.evaluate = .ok a → r.evaluate = .ok b →
    Yields (.binary op l r) (op.apply a b)

theorem Yields.evaluate (h : e.Yields o) : e.evaluate = o := by
  cases h with
  | number value => rfl
  | unary op ha => exact evaluate_unary ha op
  | binary op ha hb => exact evaluate_binary ha hb op

theorem yields_of_evaluate (h : e.evaluate = .ok a) : e.Yields (.ok a) := by
  cases e with
  | number value =>
    cases h
    exact .number a
  | unary op e =>
    obtain ⟨b, hb, happly⟩ := evaluate_unary_eq_ok.mp h
    exact happly ▸ .unary op hb
  | binary op l r =>
    obtain ⟨b, c, hb, hc, happly⟩ := evaluate_binary_eq_ok.mp h
    exact happly ▸ .binary op hb hc

/-- A failure tells the operator of the node, what kind of node it is and the values of its operands;
or the operator and its result in binary64. -/
inductive Blames : Expr → EvalError → Prop
  | divideByZero {l r : Expr} {a b : Decimal} : l.evaluate = .ok a → r.evaluate = .ok b → b.isZero →
    Blames (.binary .divide l r) (.divideByZero .divide a b)
  | unsupportedOperation {e : Expr} {a : Decimal} : e.evaluate = .ok a → a.signed < 0 →
    Blames (.unary .squareRoot e) (.unsupportedOperation .squareRoot (Expr.unary .squareRoot e).shape a)
  | squareRoot {e : Expr} {a : Decimal} : e.evaluate = .ok a →
    Blames (.unary .squareRoot e) (.notRepresentable (.unary .squareRoot) (Binary64.ofDecimal a).sqrt)
  | binary {l r : Expr} {a b : Decimal} (op : BinaryOp) : l.evaluate = .ok a → r.evaluate = .ok b →
    Blames (.binary op l r) (.notRepresentable (.binary op) (op.approximate a b))

theorem Yields.blames (h : e.Yields (.error err)) : e.Blames err := by
  generalize ho : Except.error err = o at h
  cases h with
  | number value => cases ho
  | unary op ha =>
    obtain ⟨rfl, ⟨hneg, rfl⟩ | rfl⟩ := UnaryOp.apply_eq_error ho.symm
    · exact .unsupportedOperation ha hneg
    · exact .squareRoot ha
  | binary op ha hb =>
    rcases BinaryOp.apply_eq_error ho.symm with ⟨rfl, hzero, rfl⟩ | rfl
    · exact .divideByZero ha hb hzero
    · exact .binary op ha hb

/-! ## Nodes in post-order -/

/-- All nodes, operands before their operator, left before right. -/
def nodes : Expr → List Expr
  | number value => [number value]
  | unary op operand => operand.nodes ++ [unary op operand]
  | binary op left right => left.nodes ++ (right.nodes ++ [binary op left right])

/-- What is done at the root. -/
def instruction : Expr → Instruction
  | number value => .push value
  | unary op _ => .unary op
  | binary op _ _ => .binary op

theorem map_instruction_nodes (e : Expr) : e.nodes.map instruction = e.postOrder := by
  induction e with
  | number value => rfl
  | unary op operand ih => simp [nodes, postOrder, ih, instruction]
  | binary op left right ihl ihr => simp [nodes, postOrder, ihl, ihr, instruction]

/-- In a tree with a value all nodes have values. -/
theorem yields_of_mem_nodes (h : e.evaluate = .ok a) : ∀ node ∈ e.nodes, ∃ c, node.Yields (.ok c) := by
  have hroot := yields_of_evaluate h
  induction e generalizing a with
  | number value =>
    intro node hnode
    rw [List.mem_singleton.mp hnode]
    exact ⟨a, hroot⟩
  | unary op e ih =>
    obtain ⟨b, hb, -⟩ := evaluate_unary_eq_ok.mp h
    intro node hnode
    rcases List.mem_append.mp hnode with hnode | hnode
    · exact ih hb (yields_of_evaluate hb) node hnode
    · rw [List.mem_singleton.mp hnode]
      exact ⟨a, hroot⟩
  | binary op l r ihl ihr =>
    obtain ⟨b, c, hb, hc, -⟩ := evaluate_binary_eq_ok.mp h
    intro node hnode
    rcases List.mem_append.mp hnode with hnode | hnode
    · exact ihl hb (yields_of_evaluate hb) node hnode
    rcases List.mem_append.mp hnode with hnode | hnode
    · exact ihr hc (yields_of_evaluate hc) node hnode
    · rw [List.mem_singleton.mp hnode]
      exact ⟨a, hroot⟩

/-- A tree with a value leaves it on the stack. -/
theorem execute?_of_ok (h : e.evaluate = .ok a) (rest : List Instruction) (stack : List Decimal) :
    execute? (e.postOrder ++ rest) stack = execute? rest (a :: stack) := by
  induction e generalizing a rest stack with
  | number value =>
    cases h
    rfl
  | unary op e ih =>
    obtain ⟨b, hb, happly⟩ := evaluate_unary_eq_ok.mp h
    rw [postOrder, List.append_assoc, ih hb, List.singleton_append, execute?_unary happly]
  | binary op l r ihl ihr =>
    obtain ⟨b, c, hb, hc, happly⟩ := evaluate_binary_eq_ok.mp h
    rw [postOrder, List.append_assoc, ihl hb, List.append_assoc, ihr hc, List.singleton_append,
      execute?_binary happly]

/-! ## The node that fails -/

/-- The first node in post-order whose operator has no value for those of its operands. -/
structure StopsAt (e : Expr) (before : List Expr) (node : Expr) (err : EvalError) : Prop where
  listed : before ++ [node] <+: e.nodes
  defined : ∀ e' ∈ before, ∃ a, e'.Yields (.ok a)
  fails : node.Yields (.error err)

variable {before before' : List Expr} {node node' : Expr} {err' : EvalError}

theorem Yields.not_error (h : e.Yields (.ok a)) : ¬ e.Yields (.error err) := by
  intro herr
  have heq := h.evaluate.symm.trans herr.evaluate
  cases heq

theorem StopsAt.eq_of_prefix (h : e.StopsAt before node err) (h' : e.StopsAt before' node' err')
    (hle : before ++ [node] <+: before' ++ [node']) : before ++ [node] = before' ++ [node'] := by
  rcases List.prefix_concat_iff.mp hle with heq | hlt
  · exact heq
  · obtain ⟨a, ha⟩ := h'.defined node (hlt.subset (by simp))
    exact absurd h.fails ha.not_error

/-- There is one such node at most. -/
theorem StopsAt.unique (h : e.StopsAt before node err) (h' : e.StopsAt before' node' err') :
    before ++ [node] = before' ++ [node'] := by
  rcases List.prefix_or_prefix_of_prefix h.listed h'.listed with hle | hle
  · exact h.eq_of_prefix h' hle
  · exact (h'.eq_of_prefix h hle).symm

/-- A tree that fails has a first node that fails, and there the instructions stop, on any stack and
whatever comes after them. -/
theorem exists_stop (h : e.evaluate = .error err) : ∃ before node, e.StopsAt before node err ∧
    ∀ rest stack, execute? ((before ++ [node]).map instruction ++ rest) stack =
      some (.error err) := by
  induction e generalizing err with
  | number value => cases h
  | unary op e ih =>
    rcases evaluate_unary_eq_error.mp h with h | ⟨a, ha, happly⟩
    · obtain ⟨before, node, hstop, hexecute⟩ := ih h
      have hlisted := hstop.listed.trans (List.prefix_append _ [unary op e])
      exact ⟨before, node, ⟨hlisted, hstop.defined, hstop.fails⟩, hexecute⟩
    · refine ⟨e.nodes, unary op e, ⟨List.prefix_rfl, yields_of_mem_nodes ha, ?_⟩, ?_⟩
      · exact happly ▸ .unary op ha
      · intro rest stack
        rw [List.map_append, map_instruction_nodes, List.append_assoc, execute?_of_ok ha]
        exact execute?_unary_error happly
  | binary op l r ihl ihr =>
    rcases evaluate_binary_eq_error.mp h with h | ⟨a, ha, h⟩ | ⟨a, b, ha, hb, happly⟩
    · obtain ⟨before, node, hstop, hexecute⟩ := ihl h
      have hlisted := hstop.listed.trans (List.prefix_append _ (r.nodes ++ [binary op l r]))
      exact ⟨before, node, ⟨hlisted, hstop.defined, hstop.fails⟩, hexecute⟩
    · obtain ⟨before, node, hstop, hexecute⟩ := ihr h
      refine ⟨l.nodes ++ before, node, ⟨?_, ?_, hstop.fails⟩, ?_⟩
      · rw [List.append_assoc, nodes, List.prefix_append_right_inj]
        exact hstop.listed.trans (List.prefix_append _ _)
      · intro e' he'
        rcases List.mem_append.mp he' with he' | he'
        · exact yields_of_mem_nodes ha e' he'
        · exact hstop.defined e' he'
      · intro rest stack
        rw [List.append_assoc, List.map_append, map_instruction_nodes, List.append_assoc,
          execute?_of_ok ha]
        exact hexecute rest _
    · refine ⟨l.nodes ++ r.nodes, binary op l r, ⟨?_, ?_, happly ▸ .binary op ha hb⟩, ?_⟩
      · rw [nodes, List.append_assoc]
      · intro e' he'
        rcases List.mem_append.mp he' with he' | he'
        · exact yields_of_mem_nodes ha e' he'
        · exact yields_of_mem_nodes hb e' he'
      · intro rest stack
        rw [List.map_append, List.map_append, map_instruction_nodes, map_instruction_nodes,
          List.append_assoc, List.append_assoc, execute?_of_ok ha, execute?_of_ok hb]
        exact execute?_binary_error happly

theorem StopsAt.evaluate (h : e.StopsAt before node err) : e.evaluate = .error err := by
  cases he : e.evaluate with
  | ok a =>
    obtain ⟨b, hb⟩ := yields_of_mem_nodes he node (h.listed.subset (by simp))
    exact absurd h.fails hb.not_error
  | error err' =>
    obtain ⟨before', node', hstop, -⟩ := exists_stop he
    obtain ⟨-, hnode⟩ := List.append_inj' (h.unique hstop) rfl
    rw [List.singleton_inj.mp hnode] at h
    exact hstop.fails.evaluate.symm.trans h.fails.evaluate

/-- Where the instructions of a tree begin like those of one that fails, up to the node that fails,
the tree fails in the same way. -/
theorem StopsAt.evaluate_of_prefix (h : e.StopsAt before node err)
    (hbegin : (before ++ [node]).map instruction <+: e'.postOrder) : e'.evaluate = .error err := by
  obtain ⟨before', node', hstop, hexecute⟩ := exists_stop h.evaluate
  rw [← h.unique hstop] at hexecute
  obtain ⟨rest, hrest⟩ := hbegin
  cases he : e'.evaluate with
  | ok a =>
    have hvalue := execute?_of_ok he [] []
    rw [List.append_nil, ← hrest, hexecute] at hvalue
    cases hvalue
  | error err' =>
    obtain ⟨before'', node'', hstop', hexecute'⟩ := exists_stop he
    obtain ⟨rest', hrest'⟩ := hstop'.listed
    have hsame := hexecute rest []
    rw [hrest, ← map_instruction_nodes, ← hrest', List.map_append, hexecute'] at hsame
    cases hsame
    rfl

/-- The instructions have the outcome of the tree. -/
theorem execute?_postOrder (e : Expr) :
    execute? e.postOrder [] = some (e.evaluate.map fun value => [value]) := by
  cases he : e.evaluate with
  | ok a =>
    have hexecute := execute?_of_ok he [] []
    rwa [List.append_nil] at hexecute
  | error err =>
    obtain ⟨before, node, hstop, hexecute⟩ := exists_stop he
    obtain ⟨rest, hrest⟩ := hstop.listed
    rw [← map_instruction_nodes, ← hrest, List.map_append, hexecute]
    rfl

/-- Evaluation carries the nodes out in post-order on a stack, up to the first that fails.  A tree has
a value exactly if every node has one, given those of its operands; and otherwise the failure is that
of the first node without a value, and tells the values of its operands.  No node after it makes a
difference. -/
theorem evaluate_nodes (e : Expr) :
    execute? e.postOrder [] = some (e.evaluate.map fun value => [value]) ∧
      (∀ a, e.evaluate = .ok a ↔
        e.Yields (.ok a) ∧ ∀ node ∈ e.nodes, ∃ c, node.Yields (.ok c)) ∧
      (∀ err, e.evaluate = .error err ↔
        ∃ before node, e.StopsAt before node err ∧ node.Blames err) ∧
      ∀ before node err, e.StopsAt before node err →
        ∀ e' : Expr, (before ++ [node]).map instruction <+: e'.postOrder →
          e'.evaluate = .error err := by
  refine ⟨e.execute?_postOrder, fun a => ⟨fun h => ?_, fun h => h.1.evaluate⟩,
    fun err => ⟨fun h => ?_, ?_⟩, fun before node err h e' hbegin => h.evaluate_of_prefix hbegin⟩
  · exact ⟨yields_of_evaluate h, yields_of_mem_nodes h⟩
  · obtain ⟨before, node, hstop, -⟩ := exists_stop h
    exact ⟨before, node, hstop, hstop.fails.blames⟩
  · rintro ⟨before, node, hstop, -⟩
    exact hstop.evaluate

/-- In `0 * (1 / 0) + sqrt(-1)` the quotient fails first, and so it does in `0 * (1 / 0)`. -/
theorem evaluate_nodes_quotient :
    (binary .add (binary .multiply (number .zero) (binary .divide (number .one) (number .zero)))
        (unary .squareRoot (unary .minus (number .one)))).evaluate =
          .error (.divideByZero .divide .one .zero) ∧
      (binary .multiply (number .zero) (binary .divide (number .one) (number .zero))).evaluate =
        .error (.divideByZero .divide .one .zero) := by
  have hstop : (binary .add
      (binary .multiply (number .zero) (binary .divide (number .one) (number .zero)))
        (unary .squareRoot (unary .minus (number .one)))).StopsAt
      [number .zero, number .one, number .zero] (binary .divide (number .one) (number .zero))
      (.divideByZero .divide .one .zero) := by
    have hone : (number .one).evaluate = .ok .one := rfl
    have hzero : (number .zero).evaluate = .ok .zero := rfl
    refine ⟨⟨_, rfl⟩, ?_, Yields.binary .divide hone hzero⟩
    simp only [List.forall_mem_cons]
    exact ⟨⟨_, .number _⟩, ⟨_, .number _⟩, ⟨_, .number _⟩, nofun⟩
  refine ⟨?_, ?_⟩
  · exact ((evaluate_nodes _).2.2.1 _).mpr ⟨_, _, hstop, .divideByZero rfl rfl rfl⟩
  · exact (evaluate_nodes _).2.2.2 _ _ _ hstop _ ⟨[.binary .multiply], rfl⟩

end Expr

end Calculator
