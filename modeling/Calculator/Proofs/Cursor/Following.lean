import Calculator.Proofs.Cursor.Tokens

/-!
# Routines follow the rules

A routine that is entered at the depth `depth`, with room for `maxNesting - depth` factors and
exponents, comes to an end, and it answers what the rule of the grammar answers there (`Follows`).
The cursor is then where the rule has stopped, at the depth at which it was before; the highest depth
on the way is told by the derivation of what has been read (`Reads`).

Sums and products follow their rules if the powers in them do.
-/

namespace Calculator

open Grammar (Level Rule maxNesting)

/-- The call is made between two characters of the text and within the bound on nesting. -/
def Call.IsEntered (text : List Char) (call : Call) : Prop :=
  Text.IsBoundary text call.position ∧ call.depth ≤ maxNesting

/-! ## The rules of a layer -/

namespace Layer

variable {σ : Type} [TokenSource σ]

def level : Layer → Level
  | sum => .sum
  | product => .product

/-- The rule of the operands. -/
def inner : Layer → Level
  | sum => .product
  | product => .power

def operator? : Layer → σ → Option (BinaryOp × σ)
  | sum => Grammar.sumOperator?
  | product => Grammar.productOperator?

/-- Operands joined by the operators of the layer. -/
def rule (l : Layer) (operand : Rule σ) : Rule σ := fun s =>
  operand s >>= Grammar.chain l.operator? operand

theorem stops_level_iff (l : Layer) (ts : List Token) :
    l.level.Stops ts ↔ l.inner.Stops ts ∧ l.operator? ts = none := by
  cases l <;> exact Iff.rfl

theorem ends_inner (l : Layer) (read rest : List Token) : l.inner.Ends read rest ↔ l.inner.Stops rest := by
  cases l <;> exact Iff.rfl

theorem ends_level (l : Layer) (read rest : List Token) : l.level.Ends read rest ↔ l.level.Stops rest := by
  cases l <;> exact Iff.rfl

theorem rank_inner_le (l : Layer) : l.inner.rank ≤ l.level.rank := by
  cases l <;> decide

theorem joins (l : Layer) : Grammar.Joins l.level l.inner l.operator? := by
  cases l with
  | sum => exact Grammar.joins_sum
  | product => exact Grammar.joins_product

/-- The same operator is found in a text and in its tokens. -/
theorem operatorsAgree (l : Layer) : Grammar.OperatorsAgree (fun s ts => Token.scanAll s = ts)
    (fun s ts => Token.scanAll s = ts) l.operator? l.operator? := by
  cases l with
  | sum => exact Grammar.operatorsAgree_sum Grammar.simulates_scanAll.matches
  | product => exact Grammar.operatorsAgree_product Grammar.simulates_scanAll.matches

variable {s r : List Char} {op : BinaryOp}

theorem operator?_scanAll_none {l : Layer} (h : l.operator? s = none) :
    l.operator? (Token.scanAll s) = none := by
  rcases l.operatorsAgree rfl with ⟨-, ht⟩ | ⟨op, r, t, hs, -⟩
  · exact ht
  · exact absurd (h.symm.trans hs) (by simp)

theorem operator?_scanAll_some {l : Layer} (h : l.operator? s = some (op, r)) :
    l.operator? (Token.scanAll s) = some (op, Token.scanAll r) := by
  rcases l.operatorsAgree rfl with ⟨hs, -⟩ | ⟨op', r', t, hs, ht, rfl⟩
  · exact absurd (h.symm.trans hs) (by simp)
  · obtain ⟨rfl, rfl⟩ := Prod.mk.inj (Option.some.inj (h.symm.trans hs))
    exact ht

end Layer

namespace Routine

variable {σ : Type} [TokenSource σ]

def level : Routine → Level
  | expression => .sum
  | layer l => l.level
  | power => .power
  | factor => .factor

/-- The rule that a routine carries out, with room for `room` factors and exponents inside each
other. -/
def rule (room : Nat) : Routine → Rule σ
  | expression => Grammar.sum (Grammar.power room)
  | layer .sum => Grammar.sum (Grammar.power room)
  | layer .product => Grammar.product (Grammar.power room)
  | power => Grammar.power room
  | factor => Grammar.factor room

end Routine

namespace Cursor

open Grammar (Cause Parsed Failure Derives maxHeight)
open Text (byteLength dropBlanks)
open TokenSource (next? settle)

abbrev Answer := Except (Failure (List Char)) (Parsed (List Char))

abbrev Outcome := Option (Except ParseError Subtree × Cursor)

/-- The cursor has not gone back, its depth is the same again, and all calls on the way were entered
properly. -/
structure Since (text : List Char) (c c' : Cursor) : Prop where
  position_le : c.position ≤ c'.position
  depth_eq : c'.depth = c.depth
  isEntered : (∀ call ∈ c.calls, call.IsEntered text) → ∀ call ∈ c'.calls, call.IsEntered text

/-- What has begun at `c` comes to what the rules answer: the same tree with the same place behind it,
such that `Q` holds, or a refusal for the same cause at the same place, not before `c`. -/
inductive Follows (text : List Char) (c : Cursor) (Q : Parsed (List Char) → Cursor → Prop) :
    Answer → Outcome → Prop
  | read {p : Parsed (List Char)} {c' : Cursor} : Since text c c' → Stands text c' p.rest →
    Q p c' → Follows text c Q (.ok p) (some (.ok ⟨p.tree, p.height⟩, c'))
  | refused {f : Failure (List Char)} {c' d : Cursor} : Since text c c' → Stands text d f.rest →
    c.position ≤ d.position →
    Follows text c Q (.error f) (some (.error (ParseError.ofFailure text f), c'))

/-- The tokens from `s` to the end of `p` are derived with its tree, and `c'` has been as deep as
they are nested from `c` on. -/
def Reads (level : Level) (c : Cursor) (s : List Char) (p : Parsed (List Char)) (c' : Cursor) : Prop :=
  ∃ read n, Token.scanAll s = read ++ Token.scanAll p.rest ∧ Derives level read p.tree n ∧
    level.Ends read (Token.scanAll p.rest) ∧ c'.deepest = max c.deepest (c.depth + n)

/-- The routine follows the rule from every place at the depth. -/
def FollowsRule (text : List Char) (level : Level) (depth : Nat) (routine : Step Subtree)
    (rule : Rule (List Char)) : Prop :=
  ∀ c s, Stands text c s → c.depth = depth →
    Follows text c (Reads level c s) (rule s) (routine c)

variable {text s r : List Char} {c c₀ c' : Cursor} {depth : Nat}

/-! ## Parts of a routine -/

theorem Since.refl (text : List Char) (c : Cursor) : Since text c c := ⟨le_rfl, rfl, id⟩

theorem Since.trans {c'' : Cursor} (h : Since text c c') (h' : Since text c' c'') :
    Since text c c'' :=
  ⟨h.position_le.trans h'.position_le, h'.depth_eq.trans h.depth_eq,
    fun hc => h'.isEntered (h.isEntered hc)⟩

theorem Since.advanced (h : Since text c c') (n : Nat) : Since text c (c'.advanced n) :=
  h.trans ⟨Nat.le_add_right _ n, rfl, id⟩

theorem since_called (h : Stands text c s) (hdepth : c.depth ≤ maxNesting) (routine : Routine) :
    Since text c (c.called routine) := by
  refine ⟨le_rfl, rfl, fun hc call hcall => ?_⟩
  rcases List.mem_cons.mp hcall with rfl | hcall
  · exact ⟨h.isBoundary, hdepth⟩
  · exact hc call hcall

theorem Since.closed (h : Since text c.opened c') : Since text c c'.closed := by
  refine ⟨h.position_le, ?_, h.isEntered⟩
  show c'.depth - 1 = c.depth
  rw [h.depth_eq]
  exact Nat.add_sub_cancel _ _

section

variable {Q Q' : Parsed (List Char) → Cursor → Prop} {a : Answer}

theorem follows_refuse (hc : Since text c₀ c) (h : Stands text c s) (cause : Cause) :
    Follows text c₀ Q (.error ⟨cause, s⟩) (refuse text cause c) := by
  rw [refuse_apply h]
  exact .refused hc h hc.position_le

/-- The refusal tells where the cursor was, and not where it is. -/
theorem follows_refuseAt (hc : Since text c₀ c) (h : Stands text c s) (cause : Cause) (n : Nat) :
    Follows text c₀ Q (.error ⟨cause, s⟩) (refuseAt text c.position cause (c.advanced n)) := by
  rw [refuseAt_apply h]
  exact .refused (hc.advanced n) h hc.position_le

theorem Follows.trans {y : Outcome} (h : Follows text c Q a y) (hc : Since text c₀ c) :
    Follows text c₀ Q a y := by
  cases h with
  | read hc' hs hQ => exact .read (hc.trans hc') hs hQ
  | refused hc' hs hle => exact .refused (hc.trans hc') hs (hc.position_le.trans hle)

theorem Follows.bind {routine : Step Subtree} {f : Subtree → Step Subtree}
    {g : Parsed (List Char) → Answer} (h : Follows text c Q a (routine c)) (hc : Since text c₀ c)
    (hf : ∀ p c', Since text c₀ c' → Stands text c' p.rest → Q p c' →
      Follows text c₀ Q' (g p) (f ⟨p.tree, p.height⟩ c')) :
    Follows text c₀ Q' (a >>= g) ((routine >>= f) c) := by
  generalize hy : routine c = y at h
  cases h.trans hc with
  | read hc' hs hQ =>
    rw [bind_ok hy]
    exact hf _ _ hc' hs hQ
  | refused hc' hs hle =>
    rw [bind_error hy]
    exact .refused hc' hs hle

theorem follows_wrap (op : UnaryOp) {p : Parsed (List Char)} (hc : Since text c₀ c)
    (h : Stands text c p.rest) (hQ : Q ⟨.unary op p.tree, p.height + 1, p.rest⟩ c) :
    Follows text c₀ Q (p.wrap op) (wrap text op ⟨p.tree, p.height⟩ c) := by
  rw [Parsed.wrap]
  split
  next hlt =>
    rw [wrap, if_neg (Nat.not_lt.mpr hlt)]
    exact .read hc h hQ
  next hle =>
    rw [wrap, if_pos (Nat.lt_succ_of_le (Nat.le_of_not_lt hle))]
    exact follows_refuse hc h .nestingTooDeep

theorem follows_join (op : BinaryOp) {l p : Parsed (List Char)} (hc : Since text c₀ c)
    (h : Stands text c p.rest)
    (hQ : Q ⟨.binary op l.tree p.tree, max l.height p.height + 1, p.rest⟩ c) :
    Follows text c₀ Q (l.join op p) (join text op ⟨l.tree, l.height⟩ ⟨p.tree, p.height⟩ c) := by
  rw [Parsed.join]
  split
  next hlt =>
    rw [join, if_neg (Nat.not_lt.mpr hlt)]
    exact .read hc h hQ
  next hle =>
    rw [join, if_pos (Nat.lt_succ_of_le (Nat.le_of_not_lt hle))]
    exact follows_refuse hc h .nestingTooDeep

/-- What is open inside is closed again, in either case. -/
theorem Follows.nested {inside : Step Subtree} (hlt : c.depth < maxNesting)
    (h : Follows text c.opened Q a (inside c.opened)) (hQ : ∀ p c', Q p c' → Q' p c'.closed) :
    Follows text c Q' a (nested text inside c) := by
  rw [Cursor.nested, if_neg (Nat.not_le.mpr hlt)]
  generalize inside c.opened = y at h
  cases h with
  | read hc hs hp => exact .read hc.closed (hs.congr rfl) (hQ _ _ hp)
  | refused hc hs hle => exact .refused hc.closed hs hle

theorem nested_of_le (hle : maxNesting ≤ c.depth) (inside : Step Subtree) :
    nested text inside c = refuse text .nestingTooDeep c := by
  rw [nested, if_pos hle]

end

/-! ## Sums and products -/

/-- No operator is found, or the cursor moves behind the one that the rule finds; between factors it may
be left out, and the cursor stays. -/
def Finds (text : List Char) (c : Cursor) (found : Option (BinaryOp × List Char))
    (y : Option (Except ParseError (Option BinaryOp) × Cursor)) : Prop :=
  (found = none ∧ y = some (.ok none, c)) ∨
    ∃ op r n, found = some (op, r) ∧ Stands text (c.advanced n) r ∧
      y = some (.ok (some op), c.advanced n)

theorem finds_symbol {d : Char} {op : BinaryOp} {found : Option (BinaryOp × List Char)}
    {otherwise : Step (Option BinaryOp)} (hd : Token.IsPlain d) (h : Stands text c (dropBlanks s))
    (hfound : ∀ r, next? s = some (.symbol d, r) → found = some (op, r))
    (hother : (∀ r, next? s ≠ some (.symbol d, r)) → Finds text c found (otherwise c)) :
    Finds text c found ((do if ← matchChar text d then return some op else otherwise) c) := by
  rcases matchChar_cases hd h with ⟨r, hs, hr, hmatch⟩ | ⟨hne, hmatch⟩
  · rw [bind_ok hmatch, if_pos rfl]
    exact .inr ⟨op, r, _, hfound r hs, hr, rfl⟩
  · rw [bind_ok hmatch, if_neg Bool.false_ne_true]
    exact hother hne

theorem finds_operator (l : Layer) (h : Stands text c (dropBlanks s)) :
    Finds text c (l.operator? s) (operator text l c) := by
  cases l with
  | sum =>
    refine finds_symbol (d := '+') (by decide) h (fun r hs => Grammar.sumOperator?_of_next? hs)
      fun hplus => ?_
    refine finds_symbol (d := '-') (by decide) h (fun r hs => Grammar.sumOperator?_of_next? hs)
      fun hminus => .inl ⟨?_, rfl⟩
    rw [Layer.operator?, Grammar.sumOperator?]
    split
    next hs => exact absurd hs (hplus _)
    next hs => exact absurd hs (hminus _)
    next => rfl
  | product =>
    refine finds_symbol (d := '*') (by decide) h (fun r hs => Grammar.productOperator?_of_next? hs)
      fun hstar => ?_
    refine finds_symbol (d := '/') (by decide) h (fun r hs => Grammar.productOperator?_of_next? hs)
      fun hslash => ?_
    rw [Layer.operator?]
    rcases startsFactor_cases h with ⟨hs, hstarts⟩ | ⟨t, r, hs, hstarts⟩
    · exact .inl ⟨by rw [Grammar.productOperator?, hs], bind_ok hstarts _⟩
    · have hstar' : t ≠ .symbol '*' := fun ht => hstar r (ht ▸ hs)
      have hslash' : t ≠ .symbol '/' := fun ht => hslash r (ht ▸ hs)
      rw [bind_ok hstarts, Grammar.productOperator?_of_next? hs, if_neg hstar', if_neg hslash']
      by_cases hbegins : t.beginsFactor
      · rw [if_pos hbegins, if_pos hbegins]
        exact .inr ⟨.multiply, _, 0, rfl, h, rfl⟩
      · rw [if_neg hbegins, if_neg hbegins]
        exact .inl ⟨rfl, rfl⟩

/-- The loop follows the chain: in hand it has what has been read from `s` on. -/
theorem follows_continued (l : Layer) {operand : Step Subtree} {rule : Rule (List Char)}
    (hoperand : FollowsRule text l.inner depth operand rule) {left : Parsed (List Char)}
    {read : List Token} {m : Nat} (hdepth : c₀.depth = depth) (hc : Since text c₀ c)
    (h : Stands text c left.rest) (hread : Token.scanAll s = read ++ Token.scanAll left.rest)
    (hd : Derives l.level read left.tree m) (hstop : l.inner.Stops (Token.scanAll left.rest))
    (hdeep : c.deepest = max c₀.deepest (c₀.depth + m)) :
    Follows text c₀ (Reads l.level c₀ s) (Grammar.chain l.operator? rule left)
      (continued text l operand ⟨left.tree, left.height⟩ c) := by
  -- each round makes the tree higher, up to the bound
  induction hk : maxHeight - left.height using Nat.strongRecOn generalizing left c read m with
  | ind k ih =>
    rw [continued, bind_ok (skipBlanks_apply h)]
    rcases finds_operator l h.settled with ⟨hnone, hop⟩ | ⟨op, r, n, hsome, hr, hop⟩
    · rw [bind_ok hop, Grammar.chain_none hnone]
      have hrest : Token.scanAll (settle left.rest) = Token.scanAll left.rest :=
        Token.scanAll_settle left.rest
      refine .read (hc.advanced _) h.settled ⟨read, m, by rw [hread, hrest], hd, ?_, hdeep⟩
      rw [l.ends_level, l.stops_level_iff, hrest]
      exact ⟨hstop, Layer.operator?_scanAll_none hnone⟩
    · rw [bind_ok hop, Grammar.chain_some hsome]
      have hbehind := (hc.advanced (byteLength (left.rest.takeWhile Text.isBlank))).advanced n
      refine (hoperand _ r hr (hc.depth_eq.trans hdepth)).bind hbehind fun right c' hc' h' => ?_
      rintro ⟨us, n', hus, hd', hends, hdeep'⟩
      change c'.deepest = max c.deepest (c.depth + n') at hdeep'
      by_cases hlt : max left.height right.height < maxHeight
      · rw [if_pos hlt, if_neg (Nat.not_lt.mpr hlt)]
        obtain ⟨read', hread', hderives⟩ := l.joins (Layer.operator?_scanAll_some hsome) hus hd hd'
        refine ih _ ?_ hc' h' (hread.trans hread') hderives ((l.ends_inner _ _).mp hends) ?_ rfl
        · simp only []
          omega
        · rw [hdeep', hdeep, hc.depth_eq]
          omega
      · rw [if_neg hlt, if_pos (Nat.lt_succ_of_le (Nat.le_of_not_lt hlt))]
        exact follows_refuse hc' h' .nestingTooDeep

theorem follows_layer (l : Layer) {operand : Step Subtree} {rule : Rule (List Char)}
    (hle : depth ≤ maxNesting) (hoperand : FollowsRule text l.inner depth operand rule) :
    FollowsRule text l.level depth (layer text l operand) (l.rule rule) := by
  intro c s h hdepth
  rw [layer, modify_bind]
  have hcalled := since_called h (hdepth.trans_le hle) (.layer l)
  refine (hoperand (c.called _) s (h.congr rfl) hdepth).bind hcalled fun p c' hc' h' => ?_
  rintro ⟨read, n, hread, hd, hends, hdeep⟩
  exact follows_continued l hoperand hdepth hc' h' hread (hd.raise l.rank_inner_le)
    ((l.ends_inner _ _).mp hends) hdeep

section

variable {power : Step Subtree} {rule : Rule (List Char)} (hle : depth ≤ maxNesting)
  (hpower : FollowsRule text .power depth power rule)

include hle hpower

theorem follows_product : FollowsRule text .product depth (product text power) (Grammar.product rule) :=
  follows_layer .product hle hpower

theorem follows_sum : FollowsRule text .sum depth (sum text power) (Grammar.sum rule) :=
  follows_layer .sum hle (follows_product hle hpower)

theorem follows_expression :
    FollowsRule text .sum depth (expression text power) (Grammar.sum rule) := by
  intro c s h hdepth
  rw [expression, modify_bind]
  exact (follows_sum hle hpower (c.called _) s (h.congr rfl) hdepth).trans
    (since_called h (hdepth.trans_le hle) .expression)

end

end Cursor

end Calculator
