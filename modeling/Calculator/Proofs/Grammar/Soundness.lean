import Calculator.Proofs.Grammar.Reading
import Mathlib.Data.List.Basic

/-!
# Trees that are read have derivations

What a rule reads is derived by the grammar with the tree it answers (`sound_factor`,
`sound_power`), and it has read as far as it could: what is left does not continue it.

Each rule is first inverted (`factor_cases`, `powerStep_cases`, `chain_sound`): these say all the
ways in which it can succeed.
-/

namespace Calculator.Grammar

open TokenSource (next? settle)

/-! ## How the rules succeed -/

section

variable {α β ε : Type}

theorem bind_eq_ok {a : Except ε α} {f : α → Except ε β} {y : β} (h : a >>= f = .ok y) :
    ∃ x, a = .ok x ∧ f x = .ok y := by
  cases a with
  | error e => cases h
  | ok x => exact ⟨x, rfl, h⟩

end

theorem next?_eq_some {ts us : List Token} {t : Token} (h : next? ts = some (t, us)) :
    ts = t :: us := by
  cases ts with
  | nil => cases h
  | cons => cases h; rfl

section

variable {p q : Parsed (List Token)} {ts : List Token}

theorem wrap_eq_ok {op : UnaryOp} (h : q.wrap op = .ok p) :
    q.height < maxHeight ∧ p = ⟨.unary op q.tree, q.height + 1, q.rest⟩ := by
  unfold Parsed.wrap at h
  split at h
  next hlt => exact ⟨hlt, (Except.ok.inj h).symm⟩
  next => cases h

theorem join_eq_ok {op : BinaryOp} {l r : Parsed (List Token)} (h : l.join op r = .ok p) :
    max l.height r.height < maxHeight ∧
      p = ⟨.binary op l.tree r.tree, max l.height r.height + 1, r.rest⟩ := by
  unfold Parsed.join at h
  split at h
  next hlt => exact ⟨hlt, (Except.ok.inj h).symm⟩
  next => cases h

theorem group_eq_ok {power : Rule (List Token)} (h : group power ts = .ok p) :
    ∃ q rest, sum power ts = .ok q ∧ q.rest = .symbol ')' :: rest ∧ p = { q with rest := rest } := by
  obtain ⟨q, hq, h⟩ := bind_eq_ok h
  split at h
  next rest heq => exact ⟨q, rest, hq, next?_eq_some heq, (Except.ok.inj h).symm⟩
  next => cases h

/-- The ways in which a factor is read. -/
theorem factor_cases {room : Nat} (h : factor (room + 1) ts = .ok p) :
    (∃ whole fraction value rest, ts = .literal whole fraction :: rest ∧
        Decimal.ofDigits? whole (fraction.getD []) = some value ∧ p = ⟨.number value, 0, rest⟩) ∨
      (∃ us q, ts = UnaryOp.squareRoot.token :: us ∧ factor room us = .ok q ∧
        q.wrap .squareRoot = .ok p) ∨
      (∃ op us q, op ≠ .squareRoot ∧ ts = UnaryOp.token op :: us ∧ power room us = .ok q ∧
        q.wrap op = .ok p) ∨
      ∃ us, ts = .symbol '(' :: us ∧ group (power room) us = .ok p := by
  rcases start_cases ts with ⟨cause, hobstacle⟩ | ⟨whole, fraction, value, us, rfl, hvalue⟩ |
    ⟨us, rfl⟩ | ⟨op, us, hop, rfl⟩ | ⟨us, rfl⟩
  · rw [factor_obstacle hobstacle] at h
    cases h
  · rw [factor_literal, hvalue] at h
    exact .inl ⟨whole, fraction, value, us, rfl, hvalue, (Except.ok.inj h).symm⟩
  · rw [factor_root] at h
    obtain ⟨q, hq, hp⟩ := bind_eq_ok h
    exact .inr (.inl ⟨us, q, rfl, hq, hp⟩)
  · rw [factor_sign hop] at h
    obtain ⟨q, hq, hp⟩ := bind_eq_ok h
    exact .inr (.inr (.inl ⟨op, us, q, hop, rfl, hq, hp⟩))
  · rw [factor_group] at h
    exact .inr (.inr (.inr ⟨us, rfl, h⟩))

/-- A power is a factor that no exponent follows, or a factor with an exponent. -/
theorem powerStep_cases {factor power : Rule (List Token)} (h : powerStep factor power ts = .ok p) :
    (factor ts = .ok p ∧ Level.Stops .power p.rest) ∨
      ∃ b us q, factor ts = .ok b ∧ b.rest = BinaryOp.power.token :: us ∧ power us = .ok q ∧
        b.join .power q = .ok p := by
  obtain ⟨b, hb, h⟩ := bind_eq_ok h
  split at h
  next us heq =>
    obtain ⟨q, hq, h⟩ := bind_eq_ok h
    exact .inr ⟨b, us, q, hb, next?_eq_some heq, hq, h⟩
  next hne =>
    obtain rfl := Except.ok.inj h
    refine .inl ⟨hb, fun hhead => ?_⟩
    obtain ⟨us, hus⟩ := List.head?_eq_some_iff.mp hhead
    exact hne us (by rw [show b.rest = _ from hus]; rfl)

end

/-! ## Where a rule has stopped -/

/-- A rule has read as far as it can: also a factor that ends in an open power. -/
def Level.Ends : Level → List Token → List Token → Prop
  | .factor, read, rest => signLed read → Level.Stops .power rest
  | level, _, rest => level.Stops rest

/-- The answer `p` is derived from the tokens `read`, within the bounds. -/
structure Derived (level : Level) (room : Nat) (read : List Token) (n : Nat)
    (p : Parsed (List Token)) : Prop where
  derives : Derives level read p.tree n
  nesting_le : n ≤ room
  height_eq : p.height = p.tree.height
  height_le : p.height ≤ maxHeight

theorem Derived.raise {level l : Level} {room n : Nat} {read : List Token} {p : Parsed (List Token)}
    (h : Derived level room read n p) (hl : level.rank ≤ l.rank) : Derived l room read n p :=
  ⟨h.derives.raise hl, h.nesting_le, h.height_eq, h.height_le⟩

theorem Derived.tree_height_le {level : Level} {room n : Nat} {read : List Token}
    {p : Parsed (List Token)} (h : Derived level room read n p) : p.tree.height ≤ maxHeight := by
  rw [← h.height_eq]
  exact h.height_le

/-- Two answers under an operator, if the tree is not too high. -/
theorem Derived.binary {level inner place : Level} {room room' room'' m n k : Nat}
    {read us read' : List Token} {left right : Parsed (List Token)} {op : BinaryOp}
    (hl : Derived level room read m left) (hr : Derived inner room' us n right)
    (hd : Derives place read' (.binary op left.tree right.tree) k) (hk : k ≤ room'')
    (hlt : max left.height right.height < maxHeight) :
    Derived place room'' read' k
      ⟨.binary op left.tree right.tree, max left.height right.height + 1, right.rest⟩ :=
  ⟨hd, hk, by simp only [Expr.height, hl.height_eq, hr.height_eq], hlt⟩

/-- A factor that an exponent follows is no sign: it would have read the exponent. -/
theorem signLed_of_ends {read rest us : List Token} (h : Level.Ends .factor read rest)
    (hrest : rest = BinaryOp.power.token :: us) : signLed read = false := by
  rw [Bool.eq_false_iff]
  intro hs
  exact h hs (by rw [hrest]; rfl)

/-- Whatever the rule answers is derived from the tokens that it has read. -/
def Sound (level : Level) (room : Nat) (rule : Rule (List Token)) : Prop :=
  ∀ ts p, rule ts = .ok p →
    ∃ read n, ts = read ++ p.rest ∧ Derived level room read n p ∧ level.Ends read p.rest

/-- An operator that is found joins what `level` derives with what `inner` derives. -/
def Joins (level inner : Level) (operator? : List Token → Option (BinaryOp × List Token)) : Prop :=
  ∀ {s s' us rest read : List Token} {op : BinaryOp} {l r : Expr} {m n : Nat},
    operator? s = some (op, s') → s' = us ++ rest → Derives level read l m → Derives inner us r n →
    ∃ read', read ++ s = read' ++ rest ∧ Derives level read' (.binary op l r) (max m n)

theorem Derives.head_word {level : Level} {ts : List Token} {e : Expr} {n : Nat}
    (h : Derives level ts e n) {letters : List Char} (hl : ts.head? = some (.word letters)) :
    letters = Token.squareRoot := by
  induction h with
  | literal => cases hl
  | root => cases hl; rfl
  | @sign op _ _ _ hop =>
    cases op with
    | squareRoot => exact absurd rfl hop
    | _ => cases hl
  | group => cases hl
  | base _ ih | ofPower _ ih | ofProduct _ ih => exact ih hl
  | power h _ _ ih _ | multiplicative _ h _ ih _ | juxtaposed h _ _ ih _ | additive _ h _ ih _ =>
    rw [List.head?_append_of_ne_nil _ h.ne_nil] at hl
    exact ih hl

theorem Derives.juxtaposes {level : Level} {ts : List Token} {e : Expr} {n : Nat}
    (h : Derives level ts e n) {t : Token} (ht : ts.head? = some t) (hb : t.beginsFactor) :
    Grammar.juxtaposes ts := by
  obtain ⟨us, rfl⟩ := List.head?_eq_some_iff.mp ht
  match t with
  | .literal whole fraction => exact hb
  | .word letters => simp [Grammar.juxtaposes, h.head_word rfl, UnaryOp.token]
  | .symbol c => simpa [Grammar.juxtaposes, UnaryOp.token, Token.beginsFactor] using hb

theorem productOperator?_eq_some {s s' : List Token} {op : BinaryOp}
    (h : productOperator? s = some (op, s')) :
    (op = .multiply ∨ op = .divide) ∧ s = op.token :: s' ∨
      op = .multiply ∧ s' = s ∧ ∃ t, s.head? = some t ∧ t.beginsFactor := by
  unfold productOperator? at h
  split at h
  next us heq => cases h; exact .inl ⟨.inl rfl, next?_eq_some heq⟩
  next us heq => cases h; exact .inl ⟨.inr rfl, next?_eq_some heq⟩
  next t us _ _ heq =>
    split at h
    next hb =>
      cases h
      exact .inr ⟨rfl, rfl, t, by rw [next?_eq_some heq]; rfl, hb⟩
    next => cases h
  next => cases h

theorem sumOperator?_eq_some {s s' : List Token} {op : BinaryOp}
    (h : sumOperator? s = some (op, s')) : (op = .add ∨ op = .subtract) ∧ s = op.token :: s' := by
  unfold sumOperator? at h
  split at h
  next us heq => cases h; exact ⟨.inl rfl, next?_eq_some heq⟩
  next us heq => cases h; exact ⟨.inr rfl, next?_eq_some heq⟩
  next => cases h

theorem joins_product : Joins .product .power productOperator? := by
  intro s s' us rest read op l r m n h hs hl hr
  rcases productOperator?_eq_some h with ⟨hop, rfl⟩ | ⟨rfl, rfl, t, ht, hb⟩
  · exact ⟨_, by rw [hs, ← List.cons_append, ← List.append_assoc], .multiplicative hop hl hr⟩
  · rw [hs, List.head?_append_of_ne_nil _ hr.ne_nil] at ht
    exact ⟨_, by rw [hs, ← List.append_assoc], .juxtaposed hl hr (hr.juxtaposes ht hb)⟩

theorem joins_sum : Joins .sum .product sumOperator? := by
  intro s s' us rest read op l r m n h hs hl hr
  obtain ⟨hop, rfl⟩ := sumOperator?_eq_some h
  exact ⟨_, by rw [hs, ← List.cons_append, ← List.append_assoc], .additive hop hl hr⟩

/-! ## The rules are sound -/

section

variable {level inner : Level} {room : Nat}

/-- The loop keeps what is derived in its left operand. -/
theorem chain_sound {operator? : List Token → Option (BinaryOp × List Token)}
    {operand : Rule (List Token)} (hjoins : Joins level inner operator?)
    (hoperand : Sound inner room operand) (hinner : inner ≠ .factor)
    {left p : Parsed (List Token)} {read : List Token} {m : Nat}
    (hl : Derived level room read m left) (hstop : inner.Stops left.rest)
    (h : chain operator? operand left = .ok p) :
    ∃ read' n, read ++ left.rest = read' ++ p.rest ∧ Derived level room read' n p ∧
      inner.Stops p.rest ∧ operator? p.rest = none := by
  fun_induction chain operator? operand left generalizing read m with
  | case1 left hnone =>
    obtain rfl := Except.ok.inj h
    exact ⟨read, m, rfl, hl, hstop, hnone⟩
  | case2 => cases h
  | case3 left op s hop r hr hlt ih =>
    obtain ⟨us, n, rfl, hd, hends⟩ := hoperand s r hr
    obtain ⟨read', hread, hderives⟩ := hjoins hop rfl hl.derives hd.derives
    rw [hread]
    refine ih (hl.binary hd hderives (Nat.max_le.mpr ⟨hl.nesting_le, hd.nesting_le⟩) hlt) ?_ h
    cases inner with
    | factor => exact absurd rfl hinner
    | _ => exact hends
  | case4 => cases h

theorem sound_product {power : Rule (List Token)} (h : Sound .power room power) :
    Sound .product room (product power) := by
  intro ts p h'
  obtain ⟨q, hq, hp⟩ := bind_eq_ok h'
  obtain ⟨read, n, rfl, hd, hends⟩ := h ts q hq
  exact chain_sound joins_product h (by decide) (hd.raise (by decide)) hends hp

theorem sound_sum {power : Rule (List Token)} (h : Sound .power room power) :
    Sound .sum room (sum power) := by
  intro ts p h'
  obtain ⟨q, hq, hp⟩ := bind_eq_ok h'
  obtain ⟨read, n, rfl, hd, hends⟩ := sound_product h ts q hq
  exact chain_sound joins_sum (sound_product h) (by decide) (hd.raise (by decide)) hends hp

theorem Derived.wrap {op : UnaryOp} {p q : Parsed (List Token)} {read read' : List Token} {n : Nat}
    (hd : Derived inner room read n q) (h : q.wrap op = .ok p)
    (hderives : Derives inner read q.tree n → Derives level read' (.unary op q.tree) (n + 1)) :
    Derived level (room + 1) read' (n + 1) p ∧ p.rest = q.rest := by
  obtain ⟨hlt, rfl⟩ := wrap_eq_ok h
  exact ⟨⟨hderives hd.derives, Nat.succ_le_succ hd.nesting_le,
    congrArg (· + 1) hd.height_eq, hlt⟩, rfl⟩

theorem sound_factor_succ (hfactor : Sound .factor room (factor room))
    (hpower : Sound .power room (power room)) : Sound .factor (room + 1) (factor (room + 1)) := by
  intro ts p h
  rcases factor_cases h with ⟨whole, fraction, value, rest, rfl, hvalue, rfl⟩ |
    ⟨us, q, rfl, hq, hp⟩ | ⟨op, us, q, hop, rfl, hq, hp⟩ | ⟨us, rfl, hp⟩
  · exact ⟨_, 1, rfl, ⟨.literal hvalue, by omega, rfl, Nat.zero_le _⟩, by simp [Level.Ends]⟩
  · obtain ⟨read, n, rfl, hd, hends⟩ := hfactor us q hq
    obtain ⟨hd, hrest⟩ := hd.wrap hp .root
    refine ⟨_, _, by rw [hrest]; rfl, hd, fun hs => ?_⟩
    rw [signLed_root] at hs
    rw [hrest]
    exact hends hs
  · obtain ⟨read, n, rfl, hd, hends⟩ := hpower us q hq
    obtain ⟨hd, hrest⟩ := hd.wrap hp (.sign hop)
    refine ⟨_, _, by rw [hrest]; rfl, hd, fun _ => ?_⟩
    rw [hrest]
    exact hends
  · obtain ⟨q, rest, hq, hrest, rfl⟩ := group_eq_ok hp
    obtain ⟨read, n, rfl, hd, hends⟩ := sound_sum hpower us q hq
    refine ⟨_, _, ?_, ⟨.group hd.derives, Nat.succ_le_succ hd.nesting_le, hd.height_eq,
      hd.height_le⟩, by simp [Level.Ends]⟩
    rw [hrest]
    simp

theorem sound_power_succ (hfactor : Sound .factor (room + 1) (factor (room + 1)))
    (hpower : Sound .power room (power room)) : Sound .power (room + 1) (power (room + 1)) := by
  intro ts p h
  rcases powerStep_cases h with ⟨hf, hstop⟩ | ⟨b, us, q, hb, hrest, hq, hp⟩
  · obtain ⟨read, n, rfl, hd, _⟩ := hfactor ts p hf
    exact ⟨read, n, rfl, hd.raise (by decide), hstop⟩
  · obtain ⟨read, m, rfl, hd, hends⟩ := hfactor ts b hb
    obtain ⟨read', n, rfl, hd', hends'⟩ := hpower us q hq
    obtain ⟨hlt, rfl⟩ := join_eq_ok hp
    have hderives := Derives.power hd.derives (signLed_of_ends hends hrest) hd'.derives
    have hnesting : max m (n + 1) ≤ room + 1 :=
      Nat.max_le.mpr ⟨hd.nesting_le, Nat.succ_le_succ hd'.nesting_le⟩
    exact ⟨_, _, by rw [hrest]; simp, hd.binary hd' hderives hnesting hlt, hends'⟩

end

theorem sound_factor_power (room : Nat) :
    Sound .factor room (factor room) ∧ Sound .power room (power room) := by
  induction room with
  | zero => exact ⟨fun _ _ h => (nomatch h), fun _ _ h => (nomatch h)⟩
  | succ room ih =>
    have hfactor := sound_factor_succ ih.1 ih.2
    exact ⟨hfactor, sound_power_succ hfactor ih.2⟩

/-- A tree that is read from a list of tokens is derived from it, within the bounds. -/
theorem exists_derives_of_expression {room : Nat} {ts : List Token} {e : Expr}
    (h : expression room ts = .ok e) : ∃ n, Derives .sum ts e n ∧ Within e n room := by
  unfold expression at h
  split at h
  · cases h
  next t us _ =>
    obtain ⟨p, hp, h'⟩ := bind_eq_ok h
    obtain ⟨read, n, rfl, hd, _⟩ := sound_sum (sound_factor_power room).2 _ _ hp
    split at h'
    next hnone =>
      obtain rfl := Except.ok.inj h'
      have hrest : p.rest = [] := by
        cases hr : p.rest with
        | nil => rfl
        | cons => rw [hr] at hnone; cases hnone
      rw [hrest, List.append_nil]
      exact ⟨n, hd.derives, hd.height_eq ▸ hd.height_le, hd.nesting_le⟩
    next => cases h'

end Calculator.Grammar
