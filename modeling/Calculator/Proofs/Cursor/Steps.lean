import Calculator.Proofs.Cursor.Routines
import Calculator.Proofs.Expr.ErrorPosition

/-!
# Steps of the cursor

What the single steps do to a cursor that stands before the text `s` (`Stands`): each has an outcome,
and where it moves the cursor, it moves it by whole characters.
-/

namespace Calculator

namespace Text

/-! ## Bytes of a text -/

/-- A character begins at the byte, or the text ends there. -/
def IsBoundary (s : List Char) (n : Nat) : Prop := ∃ u v, s = u ++ v ∧ byteLength u = n

theorem utf8Size_le_byteLength_cons (c : Char) (s : List Char) :
    c.utf8Size ≤ byteLength (c :: s) := Nat.le_add_right _ _

theorem byteLength_cons_sub (c : Char) (s : List Char) :
    byteLength (c :: s) - c.utf8Size = byteLength s := Nat.add_sub_cancel_left _ _

theorem fromByte?_cons (c : Char) (s : List Char) {n : Nat} (hn : n ≠ 0) :
    fromByte? (c :: s) n = if c.utf8Size ≤ n then fromByte? s (n - c.utf8Size) else none := by
  cases n with
  | zero => exact absurd rfl hn
  | succ n => rfl

theorem upToByte?_cons (c : Char) (s : List Char) {n : Nat} (hn : n ≠ 0) :
    upToByte? (c :: s) n =
      if c.utf8Size ≤ n then (upToByte? s (n - c.utf8Size)).map (c :: ·) else none := by
  cases n with
  | zero => exact absurd rfl hn
  | succ n => rfl

theorem byteLength_cons_ne_zero (c : Char) (s : List Char) : byteLength (c :: s) ≠ 0 := by
  have := c.utf8Size_pos
  rw [byteLength]
  omega

theorem fromByte?_append (u s : List Char) : fromByte? (u ++ s) (byteLength u) = some s := by
  induction u with
  | nil => cases s <;> rfl
  | cons c u ih =>
    rw [List.cons_append, fromByte?_cons _ _ (byteLength_cons_ne_zero c u),
      if_pos (utf8Size_le_byteLength_cons c u), byteLength_cons_sub, ih]

theorem upToByte?_append (v s : List Char) : upToByte? (v ++ s) (byteLength v) = some v := by
  induction v with
  | nil => cases s <;> rfl
  | cons c v ih =>
    rw [List.cons_append, upToByte?_cons _ _ (byteLength_cons_ne_zero c v),
      if_pos (utf8Size_le_byteLength_cons c v), byteLength_cons_sub, ih]
    rfl

/-- A text is left exactly from between two of its characters on. -/
theorem fromByte?_eq_some_iff {s r : List Char} {n : Nat} :
    fromByte? s n = some r ↔ ∃ u, s = u ++ r ∧ byteLength u = n := by
  constructor
  · intro h
    fun_induction fromByte? s n with
    | case1 s =>
      obtain rfl := Option.some.inj h
      exact ⟨[], rfl, rfl⟩
    | case2 => cases h
    | case3 c s n hle ih =>
      obtain ⟨u, rfl, hu⟩ := ih h
      refine ⟨c :: u, rfl, ?_⟩
      rw [byteLength, hu]
      omega
    | case4 => cases h
  · rintro ⟨u, rfl, rfl⟩
    exact fromByte?_append u r

theorem between?_append (u v s : List Char) :
    between? (u ++ (v ++ s)) (byteLength u) (byteLength u + byteLength v) = some v := by
  rw [between?, if_pos (Nat.le_add_right _ _), fromByte?_append, Option.bind_some,
    Nat.add_sub_cancel_left, upToByte?_append]

theorem utf8Size_of_toNat_lt {c : Char} (h : c.toNat < 128) : c.utf8Size = 1 := by
  rw [Char.utf8Size, if_pos]
  exact UInt32.le_iff_toNat_le.mpr (Nat.le_of_lt_succ h)

theorem utf8Size_of_isDigit {c : Char} (h : c.isDigit) : c.utf8Size = 1 := by
  have := toNat_of_isDigit h
  exact utf8Size_of_toNat_lt (by omega)

theorem utf8Size_of_isAlpha {c : Char} (h : c.isAlpha) : c.utf8Size = 1 := by
  have := toNat_of_isAlpha h
  exact utf8Size_of_toNat_lt (by omega)

theorem byteLength_eq_zero_iff {s : List Char} : byteLength s = 0 ↔ s = [] := by
  cases s with
  | nil => exact iff_of_true rfl rfl
  | cons c s => exact iff_of_false (byteLength_cons_ne_zero c s) (List.cons_ne_nil c s)

end Text

/-- Digits and letters take one byte. -/
theorem Kind.width_eq (kind : Kind) {c : Char} (h : kind.includes c) : kind.width c = c.utf8Size := by
  cases kind with
  | blank => rfl
  | digit => exact (Text.utf8Size_of_isDigit h).symm
  | letter => exact (Text.utf8Size_of_isAlpha h).symm

namespace Cursor

open Grammar (Cause)
open Text (byteLength)

/-! ## Steps one after the other -/

section

variable {α β : Type} {x : Step α} {c c' : Cursor}

theorem bind_ok {a : α} (h : x c = some (.ok a, c')) (f : α → Step β) : (x >>= f) c = f a c' := by
  show (x c).bind _ = _
  rw [h]
  rfl

theorem bind_error {err : ParseError} (h : x c = some (.error err, c')) (f : α → Step β) :
    (x >>= f) c = some (.error err, c') := by
  show (x c).bind _ = _
  rw [h]
  rfl

theorem get_bind (f : Cursor → Step β) (c : Cursor) : ((get : Step Cursor) >>= f) c = f c c := rfl

theorem modify_bind (g : Cursor → Cursor) (f : PUnit → Step β) (c : Cursor) :
    ((modify g : Step PUnit) >>= f) c = f ⟨⟩ (g c) := rfl

theorem lift_bind {x? : Option α} {a : α} (h : x? = some a) (f : α → Step β) (c : Cursor) :
    ((liftM x? : Step α) >>= f) c = f a c := by
  subst h
  rfl

end

/-! ## Where the cursor stands -/

/-- The cursor stands between two characters of the text, and `s` is left of it. -/
def Stands (text : List Char) (c : Cursor) (s : List Char) : Prop :=
  ∃ u, text = u ++ s ∧ c.position = byteLength u

section

variable {text s r v : List Char} {c c' : Cursor} {α β : Type}

theorem stands_start (text : List Char) : Stands text start text := ⟨[], rfl, rfl⟩

theorem Stands.congr (h : Stands text c s) (hc : c'.position = c.position) : Stands text c' s := by
  obtain ⟨u, hu, hposition⟩ := h
  exact ⟨u, hu, hc.trans hposition⟩

theorem Stands.position_add (h : Stands text c s) :
    c.position + byteLength s = byteLength text := by
  obtain ⟨u, rfl, hposition⟩ := h
  rw [hposition, Text.byteLength_append]

theorem Stands.isBoundary (h : Stands text c s) : Text.IsBoundary text c.position := by
  obtain ⟨u, hu, hposition⟩ := h
  exact ⟨u, s, hu, hposition.symm⟩

theorem Stands.fromByte? (h : Stands text c s) : Text.fromByte? text c.position = some s := by
  obtain ⟨u, hu, hposition⟩ := h
  exact Text.fromByte?_eq_some_iff.mpr ⟨u, hu, hposition.symm⟩

theorem Stands.advanced (h : Stands text c (v ++ s)) :
    Stands text (c.advanced (byteLength v)) s := by
  obtain ⟨u, hu, hposition⟩ := h
  refine ⟨u ++ v, by rw [hu, List.append_assoc], ?_⟩
  rw [Text.byteLength_append, ← hposition]
  rfl

theorem advanced_position (n : Nat) (c : Cursor) : (c.advanced n).position = c.position + n := rfl

theorem advanced_advanced (m n : Nat) (c : Cursor) :
    (c.advanced m).advanced n = c.advanced (m + n) := by
  rw [Cursor.advanced, Cursor.advanced, Cursor.advanced, Nat.add_assoc]

/-! ## Looking -/

theorem remaining_apply (h : Stands text c s) : remaining text c = some (.ok s, c) := by
  show (liftM (Text.fromByte? text c.position) : Step (List Char)) c = _
  rw [h.fromByte?]
  rfl

theorem peek_apply (h : Stands text c s) : peek text c = some (.ok s.head?, c) :=
  bind_ok (remaining_apply h) _

theorem startsFactor_apply (h : Stands text c s) : startsFactor text c =
    some (.ok (s.head?.any fun d => d == '(' || d.isDigit || d.isAlpha), c) :=
  bind_ok (peek_apply h) _

theorem atEnd_apply (h : Stands text c s) : atEnd text c = some (.ok (decide (s = [])), c) := by
  show some (Except.ok (decide (byteLength text ≤ c.position)), c) = _
  have hadd := h.position_add
  have hzero := Text.byteLength_eq_zero_iff (s := s)
  congr 4
  rw [← hzero]
  exact propext ⟨fun hle => by omega, fun hs => by omega⟩

theorem refuseAt_apply (h : Stands text c s) (cause : Cause) (c' : Cursor) :
    (refuseAt text c.position cause : Step α) c' =
      some (.error (ParseError.ofFailure text ⟨cause, s⟩), c') := by
  have hposition : byteLength text - byteLength s = c.position := by
    rw [← h.position_add, Nat.add_sub_cancel]
  rw [ParseError.ofFailure, hposition]
  exact lift_bind h.fromByte? _ c'

theorem refuse_apply (h : Stands text c s) (cause : Cause) :
    (refuse text cause : Step α) c = some (.error (ParseError.ofFailure text ⟨cause, s⟩), c) :=
  refuseAt_apply h cause c

/-! ## Moving -/

theorem skipWhile_apply (kind : Kind) (h : Stands text c s) : skipWhile text kind c =
    some (.ok (), c.advanced (byteLength (s.takeWhile kind.includes))) := by
  induction s generalizing c with
  | nil =>
    rw [skipWhile]
    split
    next hbyte => exact absurd (hbyte.symm.trans h.fromByte?) (by simp)
    next => rfl
    next hbyte => exact absurd (hbyte.symm.trans h.fromByte?) (by simp)
  | cons d s ih =>
    rw [skipWhile]
    split
    next hbyte => exact absurd (hbyte.symm.trans h.fromByte?) (by simp)
    next hbyte => exact absurd (hbyte.symm.trans h.fromByte?) (by simp)
    next e r hbyte =>
      obtain ⟨rfl, rfl⟩ := List.cons.inj (Option.some.inj (hbyte.symm.trans h.fromByte?))
      by_cases hd : kind.includes e
      · rw [if_pos hd, List.takeWhile_cons_of_pos hd, byteLength, ← advanced_advanced,
          kind.width_eq hd]
        exact ih (h.advanced (v := [e]))
      · rw [if_neg hd, List.takeWhile_cons_of_neg hd]
        rfl

theorem Stands.skipped (h : Stands text c s) (p : Char → Bool) :
    Stands text (c.advanced (byteLength (s.takeWhile p))) (s.dropWhile p) := by
  refine Stands.advanced ?_
  rwa [List.takeWhile_append_dropWhile]

theorem skipBlanks_apply (h : Stands text c s) : skipBlanks text c =
    some (.ok (), c.advanced (byteLength (s.takeWhile Text.isBlank))) :=
  skipWhile_apply .blank h

theorem skipDigits_apply (h : Stands text c s) : skipDigits text c =
    some (.ok (byteLength (s.takeWhile Char.isDigit)),
      c.advanced (byteLength (s.takeWhile Char.isDigit))) := by
  have hskip : skipWhile text .digit c =
      some (.ok (), c.advanced (byteLength (s.takeWhile Char.isDigit))) := skipWhile_apply .digit h
  rw [skipDigits, get_bind, bind_ok hskip]
  show some (Except.ok (c.position + _ - c.position), _) = _
  rw [Nat.add_sub_cancel_left]

theorem matchChar_cons {d : Char} (h : Stands text c (d :: s)) :
    matchChar text d c = some (.ok true, c.advanced d.utf8Size) := by
  rw [matchChar, bind_ok (peek_apply h), List.head?_cons, if_pos rfl]
  rfl

theorem matchChar_of_ne {d : Char} (h : Stands text c s) (hd : s.head? ≠ some d) :
    matchChar text d c = some (.ok false, c) := by
  rw [matchChar, bind_ok (peek_apply h), if_neg hd]
  rfl

theorem matchKeyword_append {keyword : List Char} (h : Stands text c (keyword ++ s))
    (hs : s.head?.any Char.isAlpha = false) :
    matchKeyword text keyword c = some (.ok true, c.advanced (byteLength keyword)) := by
  have hprefix : keyword.isPrefixOf (keyword ++ s) := by simp
  rw [matchKeyword, bind_ok (remaining_apply h), if_pos hprefix,
    lift_bind (Text.fromByte?_append keyword s), if_neg (by simp [hs])]
  rfl

/-- The keyword is not there, or it goes on. -/
theorem matchKeyword_of_ne {keyword : List Char} (h : Stands text c s)
    (hs : ∀ r, s = keyword ++ r → r.head?.any Char.isAlpha) :
    matchKeyword text keyword c = some (.ok false, c) := by
  rw [matchKeyword, bind_ok (remaining_apply h)]
  split
  next hprefix =>
    obtain ⟨r, rfl⟩ := List.isPrefixOf_iff_prefix.mp hprefix
    rw [lift_bind (Text.fromByte?_append keyword r), if_pos (hs r rfl)]
    rfl
  next => rfl

/-- A part of the text behind a place where the cursor was. -/
theorem between?_of_stands (h : Stands text c (v ++ s)) :
    Text.between? text c.position (c.position + byteLength v) = some v := by
  obtain ⟨u, rfl, hposition⟩ := h
  rw [hposition, Text.between?_append]

end

end Cursor

end Calculator
