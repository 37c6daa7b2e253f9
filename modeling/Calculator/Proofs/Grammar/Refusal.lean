import Calculator.Proofs.Grammar.Breaking

/-!
# Refusals

A rule that fails, but for too deep nesting, has come to where it breaks off: `rule_error_iff` says
that the failures of the rules and `Breaks` are the same, and `expression_error_iff` that those of
a whole text and `Refused` are.

The two directions are shown like those for trees that are read: `Breaks.refused` by induction on
how the rule breaks off, `refuses_factor_power` by induction on the room, with the rules inverted.
-/

namespace Calculator.Grammar

open TokenSource (next? settle)

/-- The rule of a level, with room for `room` factors and exponents inside each other. -/
def Level.rule : Level → Nat → Rule (List Token)
  | factor, room => Grammar.factor room
  | power, room => Grammar.power room
  | product, room => Grammar.product (Grammar.power room)
  | sum, room => Grammar.sum (Grammar.power room)

theorem sound_rule (level : Level) (room : Nat) : Sound level room (level.rule room) := by
  obtain ⟨hfactor, hpower⟩ := sound_factor_power room
  cases level with
  | factor => exact hfactor
  | power => exact hpower
  | product => exact sound_product hpower
  | sum => exact sound_sum hpower

/-! ## Where a rule breaks off it fails -/

variable {level inner : Level} {ts us rest : List Token} {e : Expr} {cause : Cause} {m n : Nat}

theorem Breaks.nesting_pos (h : Breaks level ts rest cause n) : 0 < n := by
  induction h <;> omega

theorem stops_power_of_beginsFactor {t : Token} (hhead : ts.head? = some t)
    (ht : t.beginsFactor) : Level.Stops .power ts := by
  intro hpower
  rw [hhead] at hpower
  obtain rfl := Option.some.inj hpower
  exact absurd ht (by decide)

theorem group_unclosed {power : Rule (List Token)} {p : Parsed (List Token)}
    (h : sum power ts = .ok p) (hclose : p.rest.head? ≠ some (.symbol ')')) :
    group power ts = .error ⟨.missingClosingParenthesis, p.rest⟩ := by
  simp only [group, h, bind, Except.bind]
  split
  next us heq => exact absurd (by rw [next?_eq_some heq]; rfl) hclose
  next => rfl

theorem chain_error {operator? : List Token → Option (BinaryOp × List Token)}
    {operand : Rule (List Token)} {left : Parsed (List Token)} {op : BinaryOp} {s : List Token}
    {f : Failure (List Token)} (hop : operator? left.rest = some (op, s))
    (h : operand s = .error f) : chain operator? operand left = .error f := by
  rw [chain_some hop, h]
  rfl

/-- The rule fails at `rest`, given room for `n` factors and exponents. -/
def Fails (level : Level) (ts rest : List Token) (cause : Cause) (n : Nat) : Prop :=
  ∀ room, n ≤ room → level.rule room (ts ++ rest) = .error ⟨cause, rest⟩

/-- A factor that is opened takes one of the room. -/
theorem Fails.of_succ (h : ∀ room, n ≤ room →
      level.rule (room + 1) (ts ++ rest) = .error ⟨cause, rest⟩) :
    Fails level ts rest cause (n + 1) := by
  intro room hroom
  cases room with
  | zero => omega
  | succ room => exact h room (Nat.le_of_succ_le_succ hroom)

theorem Fails.obstacle (h : Obstacle rest cause) : Fails .factor [] rest cause 1 :=
  .of_succ fun room _ => factor_obstacle h room

theorem Fails.root (h : Fails .factor ts rest cause n) :
    Fails .factor (UnaryOp.squareRoot.token :: ts) rest cause (n + 1) := by
  refine .of_succ fun room hroom => ?_
  have hfactor : factor room (ts ++ rest) = _ := h room hroom
  show factor (room + 1) (UnaryOp.squareRoot.token :: (ts ++ rest)) = _
  rw [factor_root, hfactor]
  rfl

theorem Fails.sign {op : UnaryOp} (hop : op ≠ .squareRoot) (h : Fails .power ts rest cause n) :
    Fails .factor (op.token :: ts) rest cause (n + 1) := by
  refine .of_succ fun room hroom => ?_
  have hpower : power room (ts ++ rest) = _ := h room hroom
  show factor (room + 1) (op.token :: (ts ++ rest)) = _
  rw [factor_sign hop, hpower]
  rfl

theorem Fails.group (h : Fails .sum ts rest cause n) :
    Fails .factor (.symbol '(' :: ts) rest cause (n + 1) := by
  refine .of_succ fun room hroom => ?_
  have hsum : sum (power room) (ts ++ rest) = _ := h room hroom
  show factor (room + 1) (.symbol '(' :: (ts ++ rest)) = _
  rw [factor_group, Grammar.group, hsum]
  rfl

theorem Fails.unclosed (hd : Derives .sum ts e n) (hheight : e.height ≤ maxHeight)
    (hstop : Level.Stops .sum rest) (hclose : rest.head? ≠ some (.symbol ')')) :
    Fails .factor (.symbol '(' :: ts) rest .missingClosingParenthesis (n + 1) := by
  refine .of_succ fun room hroom => ?_
  have hsum := (hd.readable.sum_ok hstop).1 ⟨hheight, hroom⟩
  exact group_unclosed hsum hclose

theorem Fails.base (hn : 0 < n) (h : Fails .factor ts rest cause n) :
    Fails .power ts rest cause n := by
  intro room hroom
  cases room with
  | zero => omega
  | succ room => exact powerStep_error (h (room + 1) hroom)

theorem Fails.exponent (hd : Derives .factor ts e m) (hheight : e.height ≤ maxHeight)
    (hs : signLed ts = false) (h : Fails .power us rest cause n) :
    Fails .power (ts ++ BinaryOp.power.token :: us) rest cause (max m (n + 1)) := by
  intro room hroom
  cases room with
  | zero => omega
  | succ room =>
    have hbase := (hd.readable (room + 1) (BinaryOp.power.token :: (us ++ rest)) (by simp [hs])).1
      ⟨hheight, by omega⟩
    have hpower : power room (us ++ rest) = _ := h room (by omega)
    rw [List.append_assoc, List.cons_append]
    show power (room + 1) _ = _
    rw [power_succ, powerStep_power hbase rfl, hpower]
    rfl

theorem Fails.ofPower (h : Fails .power ts rest cause n) : Fails .product ts rest cause n := by
  intro room hroom
  have hpower : power room (ts ++ rest) = _ := h room hroom
  show product (power room) _ = _
  rw [product, hpower]
  rfl

/-- A product fails with its last operand. -/
theorem Fails.product {op : BinaryOp} {s : List Token} (hd : Derives .product ts e m)
    (hheight : e.height ≤ maxHeight) (hstop : Level.Stops .power s)
    (hop : productOperator? s = some (op, us ++ rest)) (h : Fails .power us rest cause n) {room : Nat}
    (hroom : max m n ≤ room) :
    Level.rule .product room (ts ++ s) = .error ⟨cause, rest⟩ := by
  have hleft := (hd.readable room s hstop).1 ⟨hheight, by omega⟩
  show Grammar.product (Grammar.power room) _ = _
  rw [hleft]
  exact chain_error hop (h room (by omega))

theorem Fails.multiplicative {op : BinaryOp} (hop : op = .multiply ∨ op = .divide)
    (hd : Derives .product ts e m) (hheight : e.height ≤ maxHeight)
    (h : Fails .power us rest cause n) :
    Fails .product (ts ++ op.token :: us) rest cause (max m n) := by
  intro room hroom
  rw [List.append_assoc, List.cons_append]
  exact h.product hd hheight (stops_power_token hop _) (productOperator?_token hop _) hroom

theorem Fails.juxtaposed {t : Token} (hd : Derives .product ts e m) (hheight : e.height ≤ maxHeight)
    (hhead : (us ++ rest).head? = some t) (ht : t.beginsFactor) (h : Fails .power us rest cause n) :
    Fails .product (ts ++ us) rest cause (max m n) := by
  intro room hroom
  rw [List.append_assoc]
  exact h.product hd hheight (stops_power_of_beginsFactor hhead ht)
    (productOperator?_of_beginsFactor hhead ht) hroom

theorem Fails.ofProduct (h : Fails .product ts rest cause n) : Fails .sum ts rest cause n := by
  intro room hroom
  have hproduct : Grammar.product (power room) (ts ++ rest) = _ := h room hroom
  show sum (power room) _ = _
  rw [sum, hproduct]
  rfl

theorem Fails.additive {op : BinaryOp} (hop : op = .add ∨ op = .subtract)
    (hd : Derives .sum ts e m) (hheight : e.height ≤ maxHeight)
    (h : Fails .product us rest cause n) :
    Fails .sum (ts ++ op.token :: us) rest cause (max m n) := by
  intro room hroom
  have hleft := (hd.readable room _ (stops_product_token hop (us ++ rest))).1 ⟨hheight, by omega⟩
  rw [List.append_assoc, List.cons_append]
  show sum (power room) _ = _
  rw [hleft]
  exact chain_error (sumOperator?_token hop _) (h room (by omega))

theorem Breaks.fails (h : Breaks level ts rest cause n) : Fails level ts rest cause n := by
  induction h with
  | obstacle h => exact .obstacle h
  | root _ ih => exact ih.root
  | sign hop _ ih => exact ih.sign hop
  | group _ ih => exact ih.group
  | unclosed hd hheight hstop hclose => exact .unclosed hd hheight hstop hclose
  | base h ih => exact ih.base h.nesting_pos
  | exponent hd hheight hs _ ih => exact ih.exponent hd hheight hs
  | ofPower _ ih => exact ih.ofPower
  | multiplicative hop hd hheight _ ih => exact ih.multiplicative hop hd hheight
  | juxtaposed hd hheight hhead ht _ ih => exact ih.juxtaposed hd hheight hhead ht
  | ofProduct _ ih => exact ih.ofProduct
  | additive hop hd hheight _ ih => exact ih.additive hop hd hheight

/-! ## A rule that fails breaks off -/

section

variable {p : Parsed (List Token)} {f : Failure (List Token)}

theorem bind_eq_error {α β ε : Type} {a : Except ε α} {g : α → Except ε β} {err : ε}
    (h : a >>= g = .error err) : a = .error err ∨ ∃ x, a = .ok x ∧ g x = .error err := by
  cases a with
  | error =>
    cases h
    exact .inl rfl
  | ok x => exact .inr ⟨x, rfl, h⟩

theorem wrap_eq_error {op : UnaryOp} (h : p.wrap op = .error f) : f.cause = .nestingTooDeep := by
  unfold Parsed.wrap at h
  split at h
  · cases h
  · rw [← Except.error.inj h]

theorem join_eq_error {op : BinaryOp} {q : Parsed (List Token)} (h : p.join op q = .error f) :
    f.cause = .nestingTooDeep := by
  unfold Parsed.join at h
  split at h
  · cases h
  · rw [← Except.error.inj h]

end

/-- A failure but for nesting is where the rule breaks off. -/
def Refuses (level : Level) (room : Nat) : Prop :=
  ∀ ts f, level.rule room ts = .error f → f.cause ≠ .nestingTooDeep →
    ∃ read n, ts = read ++ f.rest ∧ Breaks level read f.rest f.cause n ∧ n ≤ room

/-- Behind an operator that is found, `level` breaks off where `inner` does. -/
def BreaksBehind (level inner : Level)
    (operator? : List Token → Option (BinaryOp × List Token)) : Prop :=
  ∀ {s s' us rest read : List Token} {op : BinaryOp} {l : Expr} {cause : Cause} {m n : Nat},
    operator? s = some (op, s') → s' = us ++ rest → Derives level read l m → l.height ≤ maxHeight →
    Breaks inner us rest cause n →
    ∃ read', read ++ s = read' ++ rest ∧ Breaks level read' rest cause (max m n)

theorem breaksBehind_product : BreaksBehind .product .power productOperator? := by
  intro s s' us rest read op l cause m n h hs hl hheight hr
  rcases productOperator?_eq_some h with ⟨hop, rfl⟩ | ⟨rfl, rfl, t, ht, hb⟩
  · exact ⟨_, by rw [hs, ← List.cons_append, ← List.append_assoc],
      .multiplicative hop hl hheight hr⟩
  · rw [hs] at ht
    exact ⟨_, by rw [hs, ← List.append_assoc], .juxtaposed hl hheight ht hb hr⟩

theorem breaksBehind_sum : BreaksBehind .sum .product sumOperator? := by
  intro s s' us rest read op l cause m n h hs hl hheight hr
  obtain ⟨hop, rfl⟩ := sumOperator?_eq_some h
  exact ⟨_, by rw [hs, ← List.cons_append, ← List.append_assoc], .additive hop hl hheight hr⟩

/-- The loop breaks off in one of its operands; those before it are whole. -/
theorem chain_refuses {room : Nat} {operator? : List Token → Option (BinaryOp × List Token)}
    (hjoins : Joins level inner operator?) (hbreaks : BreaksBehind level inner operator?)
    (hrefuses : Refuses inner room) {left : Parsed (List Token)} {read : List Token}
    {f : Failure (List Token)} (hl : Derived level room read m left)
    (h : chain operator? (inner.rule room) left = .error f) (hf : f.cause ≠ .nestingTooDeep) :
    ∃ read' n, read ++ left.rest = read' ++ f.rest ∧ Breaks level read' f.rest f.cause n ∧
      n ≤ room := by
  fun_induction chain operator? (inner.rule room) left generalizing read m with
  | case1 => cases h
  | case2 left op s hop f' hr =>
    obtain rfl := Except.error.inj h
    obtain ⟨us, n, hus, hb, hn⟩ := hrefuses s _ hr hf
    obtain ⟨read', hread, hb'⟩ := hbreaks hop hus hl.derives hl.tree_height_le hb
    exact ⟨read', _, hread, hb', Nat.max_le.mpr ⟨hl.nesting_le, hn⟩⟩
  | case3 left op s hop r hr hlt ih =>
    obtain ⟨us, n, hus, hd, _⟩ := sound_rule inner room s r hr
    obtain ⟨read', hread, hderives⟩ := hjoins hop hus hl.derives hd.derives
    rw [hread]
    exact ih (hl.binary hd hderives (Nat.max_le.mpr ⟨hl.nesting_le, hd.nesting_le⟩) hlt) h
  | case4 => exact absurd (by rw [← Except.error.inj h]) hf

variable {room : Nat}

theorem refuses_product (hpower : Refuses .power room) : Refuses .product room := by
  intro ts f h hf
  rcases bind_eq_error h with hleft | ⟨q, hq, hchain⟩
  · obtain ⟨read, n, hread, hb, hn⟩ := hpower ts f hleft hf
    exact ⟨read, n, hread, .ofPower hb, hn⟩
  · obtain ⟨read, n, rfl, hd, _⟩ := sound_rule .power room ts q hq
    exact chain_refuses joins_product breaksBehind_product hpower (hd.raise (by decide)) hchain hf

theorem refuses_sum (hproduct : Refuses .product room) : Refuses .sum room := by
  intro ts f h hf
  rcases bind_eq_error h with hleft | ⟨q, hq, hchain⟩
  · obtain ⟨read, n, hread, hb, hn⟩ := hproduct ts f hleft hf
    exact ⟨read, n, hread, .ofProduct hb, hn⟩
  · obtain ⟨read, n, rfl, hd, _⟩ := sound_rule .product room ts q hq
    exact chain_refuses joins_sum breaksBehind_sum hproduct (hd.raise (by decide)) hchain hf

theorem refuses_group (hsum : Refuses .sum room) {f : Failure (List Token)}
    (h : group (power room) ts = .error f) (hf : f.cause ≠ .nestingTooDeep) :
    ∃ read n, ts = read ++ f.rest ∧ Breaks .factor (.symbol '(' :: read) f.rest f.cause (n + 1) ∧
      n ≤ room := by
  rcases bind_eq_error h with hinner | ⟨q, hq, hclose⟩
  · obtain ⟨read, n, hread, hb, hn⟩ := hsum ts f hinner hf
    exact ⟨read, n, hread, .group hb, hn⟩
  · obtain ⟨read, n, rfl, hd, hstop⟩ := sound_rule .sum room ts q hq
    split at hclose
    next => cases hclose
    next hne =>
      obtain rfl := Except.error.inj hclose
      have hhead : q.rest.head? ≠ some (.symbol ')') := by
        intro hhead
        obtain ⟨us, hus⟩ := List.head?_eq_some_iff.mp hhead
        exact hne us (by rw [hus]; rfl)
      exact ⟨read, n, rfl, .unclosed hd.derives hd.tree_height_le hstop hhead, hd.nesting_le⟩

theorem refuses_factor_succ (hfactor : Refuses .factor room) (hpower : Refuses .power room) :
    Refuses .factor (room + 1) := by
  intro ts f h hf
  change factor (room + 1) ts = .error f at h
  rcases start_cases ts with ⟨cause, hobstacle⟩ | ⟨whole, fraction, value, us, rfl, hvalue⟩ |
    ⟨us, rfl⟩ | ⟨op, us, hop, rfl⟩ | ⟨us, rfl⟩
  · rw [factor_obstacle hobstacle] at h
    obtain rfl := Except.error.inj h
    exact ⟨[], 1, rfl, .obstacle hobstacle, by omega⟩
  · rw [factor_literal, hvalue] at h
    cases h
  · rw [factor_root] at h
    rcases bind_eq_error h with hinner | ⟨q, _, hwrap⟩
    · obtain ⟨read, n, rfl, hb, hn⟩ := hfactor us f hinner hf
      exact ⟨_, _, rfl, .root hb, Nat.succ_le_succ hn⟩
    · exact absurd (wrap_eq_error hwrap) hf
  · rw [factor_sign hop] at h
    rcases bind_eq_error h with hinner | ⟨q, _, hwrap⟩
    · obtain ⟨read, n, rfl, hb, hn⟩ := hpower us f hinner hf
      exact ⟨_, _, rfl, .sign hop hb, Nat.succ_le_succ hn⟩
    · exact absurd (wrap_eq_error hwrap) hf
  · rw [factor_group] at h
    obtain ⟨read, n, rfl, hb, hn⟩ := refuses_group (refuses_sum (refuses_product hpower)) h hf
    exact ⟨_, _, rfl, hb, Nat.succ_le_succ hn⟩

theorem refuses_power_succ (hfactor : Refuses .factor (room + 1)) (hpower : Refuses .power room) :
    Refuses .power (room + 1) := by
  intro ts f h hf
  rcases bind_eq_error h with hbase | ⟨b, hb, hexponent⟩
  · obtain ⟨read, n, hread, hbreaks, hn⟩ := hfactor ts f hbase hf
    exact ⟨read, n, hread, .base hbreaks, hn⟩
  · obtain ⟨read, m, rfl, hd, hends⟩ := sound_rule .factor (room + 1) ts b hb
    split at hexponent
    next us heq =>
      have hrest := next?_eq_some heq
      rcases bind_eq_error hexponent with hinner | ⟨q, _, hjoin⟩
      · obtain ⟨read', n, rfl, hbreaks, hn⟩ := hpower us f hinner hf
        have hb := Breaks.exponent hd.derives hd.tree_height_le (signLed_of_ends hends hrest) hbreaks
        refine ⟨_, _, ?_, hb, Nat.max_le.mpr ⟨hd.nesting_le, Nat.succ_le_succ hn⟩⟩
        rw [hrest, List.append_assoc]
        rfl
      · exact absurd (join_eq_error hjoin) hf
    next => cases hexponent

theorem refuses_factor_power (room : Nat) : Refuses .factor room ∧ Refuses .power room := by
  induction room with
  | zero =>
    constructor
    · intro ts f h hf
      cases h
      exact absurd rfl hf
    · intro ts f h hf
      cases h
      exact absurd rfl hf
  | succ room ih =>
    have hfactor := refuses_factor_succ ih.1 ih.2
    exact ⟨hfactor, refuses_power_succ hfactor ih.2⟩

theorem refuses_rule (level : Level) (room : Nat) : Refuses level room := by
  obtain ⟨hfactor, hpower⟩ := refuses_factor_power room
  cases level with
  | factor => exact hfactor
  | power => exact hpower
  | product => exact refuses_product hpower
  | sum => exact refuses_sum (refuses_product hpower)

/-- A rule fails for another cause than nesting exactly where it breaks off. -/
theorem rule_error_iff (hcause : cause ≠ .nestingTooDeep) :
    level.rule room ts = .error ⟨cause, rest⟩ ↔
      ∃ read n, ts = read ++ rest ∧ Breaks level read rest cause n ∧ n ≤ room := by
  constructor
  · exact fun h => refuses_rule level room ts _ h hcause
  · rintro ⟨read, n, rfl, hb, hn⟩
    exact hb.fails room hn

/-! ## Refused texts -/

/-- How a whole text is refused at the tokens `rest`, with `ts` before them. -/
inductive Refused (room : Nat) : List Token → List Token → Cause → Prop
  | empty : Refused room [] [] .emptyInput
  | trailing {ts rest : List Token} {e : Expr} {n : Nat} : Derives .sum ts e n →
    e.height ≤ maxHeight → n ≤ room → Level.Stops .sum rest → rest ≠ [] →
    Refused room ts rest .trailingInput
  | broken {ts rest : List Token} {cause : Cause} {n : Nat} : ts ++ rest ≠ [] →
    Breaks .sum ts rest cause n → n ≤ room → Refused room ts rest cause

/-- A text that is not empty is refused where its sum is, or behind it. -/
theorem expression_of_ne_nil (hne : ts ≠ []) : expression room ts =
    sum (power room) ts >>= fun p =>
      if p.rest = [] then .ok p.tree else .error ⟨.trailingInput, p.rest⟩ := by
  obtain ⟨t, us, rfl⟩ := List.exists_cons_of_ne_nil hne
  simp only [expression, next?_cons]
  congr 1
  funext p
  cases p.rest <;> rfl

/-- A text is refused for another cause than nesting exactly where it is no expression any more. -/
theorem expression_error_iff (hcause : cause ≠ .nestingTooDeep) :
    expression room ts = .error ⟨cause, rest⟩ ↔ ∃ read, ts = read ++ rest ∧
      Refused room read rest cause := by
  constructor
  · intro h
    by_cases hne : ts = []
    · subst hne
      cases h
      exact ⟨[], rfl, .empty⟩
    rw [expression_of_ne_nil hne] at h
    rcases bind_eq_error h with hsum | ⟨p, hp, hrest⟩
    · obtain ⟨read, n, hread, hb, hn⟩ := refuses_rule .sum room ts _ hsum hcause
      exact ⟨read, hread, .broken (hread ▸ hne) hb hn⟩
    · obtain ⟨read, n, hread, hd, hstop⟩ := sound_rule .sum room ts p hp
      split at hrest
      next => cases hrest
      next hne =>
        cases hrest
        exact ⟨read, hread, .trailing hd.derives hd.tree_height_le hd.nesting_le hstop hne⟩
  · rintro ⟨read, rfl, h⟩
    cases h with
    | empty => rfl
    | trailing hd hheight hn hstop hne =>
      rw [expression_of_ne_nil (by simp [hne]), (hd.readable.sum_ok hstop).1 ⟨hheight, hn⟩]
      exact if_neg hne
    | broken hne hb hn =>
      have hsum : sum (power room) (read ++ rest) = _ := hb.fails room hn
      rw [expression_of_ne_nil hne, hsum]
      rfl

/-- For a definite cause, another token of the same kind is refused at the same place. -/
theorem Refused.of_resembles {a b : Token} {us vs : List Token} (hcause : cause.isDefinite)
    (hab : a.Resembles b) (h : Refused room ts (a :: us) cause) : Refused room ts (b :: vs) cause := by
  cases h with
  | trailing hd hheight hn hstop _ =>
    exact .trailing hd hheight hn (stops_sum_of_resembles hab hstop) (List.cons_ne_nil _ _)
  | broken _ hb hn => exact .broken (by simp) (hb.of_resembles hcause hab rfl) hn

/-- What stands before the place of a refusal is the beginning of an expression. -/
theorem Refused.completes (hroom : 0 < room) (h : Refused room ts rest cause) :
    Completes .sum ts room := by
  cases h with
  | empty => exact completes_nil.mono (by decide) hroom
  | trailing hd _ hn => exact (completes_of_derives hd).mono (Nat.le_refl _) hn
  | broken _ hb hn => exact hb.completes.mono (Nat.le_refl _) hn

end Calculator.Grammar
