import Calculator.Proofs.Token.LongestMatch
import Calculator.Token.Source
import Mathlib.Data.List.Basic

/-!
# Places in a text

`Reaches s ts r` says that one who takes the tokens `ts` off the text `s` comes to a place where `r`
is left of it.  The text before that place keeps its tokens when `r` is replaced by another text that
begins alike, or that does not continue the last of them (`Reaches.replace`).
-/

namespace Calculator.Token

open Text (isBlank dropBlanks)

/-- The places that are come to by taking tokens and by passing blanks. -/
inductive Reaches (s : List Char) : List Token → List Char → Prop
  | start : Reaches s [] s
  | blanks {ts : List Token} {r : List Char} : Reaches s ts r → Reaches s ts (dropBlanks r)
  | token {ts : List Token} {r r' : List Char} {t : Token} : Reaches s ts r →
    scan r = some (t, r') → Reaches s (ts ++ [t]) r'

variable {s r : List Char} {ts : List Token}

theorem scanAll_dropBlanks (s : List Char) : scanAll (dropBlanks s) = scanAll s :=
  scanAll_settle s

theorem Reaches.scanAll_eq (h : Reaches s ts r) : scanAll s = ts ++ scanAll r := by
  induction h with
  | start => rfl
  | blanks _ ih => rw [scanAll_dropBlanks, ih]
  | token _ hscan ih => rw [ih, scanAll_of_scan_some hscan, List.append_assoc]; rfl

/-! ## There is one place behind so many tokens -/

/-- The place behind the first `n` tokens and the blanks that follow them. -/
def skip (s : List Char) : Nat → List Char
  | 0 => dropBlanks s
  | n + 1 =>
    match scan (skip s n) with
    | none => []
    | some (_, r) => dropBlanks r

theorem Reaches.dropBlanks_eq (h : Reaches s ts r) : dropBlanks r = skip s ts.length := by
  induction h with
  | start => rfl
  | blanks _ ih => rw [Text.dropBlanks_dropBlanks, ih]
  | token _ hscan ih =>
    rw [← scan_dropBlanks, ih] at hscan
    rw [List.length_append, List.length_singleton, skip, hscan]

/-! ## Another text behind a place -/

theorem endsBefore_congr {t : Token} {r r' : List Char} (h : r'.head? = r.head?) :
    t.EndsBefore r' ↔ t.EndsBefore r := by
  rw [EndsBefore, EndsBefore, h]

/-- Whether the text can stand behind the tokens in the place of `r`. -/
def Replaces (ts : List Token) (r r' : List Char) : Prop :=
  r'.head? = r.head? ∨ ∀ t ∈ ts.getLast?, t.EndsBefore r'

theorem Reaches.replace (h : Reaches s ts r) :
    ∃ u, s = u ++ r ∧ ∀ r', Replaces ts r r' → Reaches (u ++ r') ts (dropBlanks r') := by
  induction h with
  | start => exact ⟨[], rfl, fun _ _ => .blanks .start⟩
  | @blanks ts r _ ih =>
    obtain ⟨u, hs, hu⟩ := ih
    obtain ⟨b, hb, hr⟩ := Text.exists_blanks_append r
    refine ⟨u ++ b, by rw [List.append_assoc, ← hr, hs], fun r' hr' => ?_⟩
    have hreplaces : Replaces ts r (b ++ r') := by
      -- without blanks it is the same place; with blanks `r` and the new text begin alike
      cases b with
      | nil =>
        rw [List.nil_append] at hr
        rw [← hr] at hr'
        exact hr'
      | cons c b => exact .inl (by rw [hr]; rfl)
    rw [List.append_assoc, ← Text.dropBlanks_append hb]
    exact hu _ hreplaces
  | @token ts r r₀ t _ hscan ih =>
    obtain ⟨u, hs, hu⟩ := ih
    obtain ⟨b, hb, hr, ht, hends⟩ := exists_of_scan hscan
    refine ⟨u ++ (b ++ t.text), by rw [hs, hr]; simp only [List.append_assoc], fun r' hr' => ?_⟩
    have hne : b ++ t.text ≠ [] := List.append_ne_nil_of_right_ne_nil b ht.text_ne_nil
    have hends' : t.EndsBefore r' := by
      rcases hr' with hhead | hlast
      · exact (endsBefore_congr hhead).mpr hends
      · exact hlast t (by simp)
    have hreplaces : Replaces ts r (b ++ t.text ++ r') := by
      refine .inl ?_
      rw [hr, ← List.append_assoc, List.head?_append_of_ne_nil _ hne,
        List.head?_append_of_ne_nil _ hne]
    have hreads : scan (dropBlanks (b ++ t.text ++ r')) = some (t, r') := by
      rw [scan_dropBlanks, List.append_assoc, scan_append hb, scan_text ht hends']
    rw [List.append_assoc]
    exact .blanks (.token (hu _ hreplaces) hreads)

/-! ## Tokens that begin with the same character -/

/-- The two tokens play the same part, but for a point, which may begin a literal or not. -/
def Resembles (a b : Token) : Prop :=
  a.beginsFactor = b.beginsFactor ∧ ∀ c, c ≠ '.' → (a = symbol c ↔ b = symbol c)

theorem resembles_refl (a : Token) : a.Resembles a := ⟨rfl, fun _ _ => Iff.rfl⟩

theorem resembles_literal {whole whole' : List Char} (h : whole.isEmpty = whole'.isEmpty)
    (fraction fraction' : Option (List Char)) :
    (literal whole fraction).Resembles (literal whole' fraction') :=
  ⟨congrArg (! ·) h, fun _ _ => by simp⟩

theorem resembles_word (letters letters' : List Char) :
    (word letters).Resembles (word letters') := ⟨rfl, fun _ _ => by simp⟩

theorem resembles_point (fraction : Option (List Char)) :
    (symbol '.').Resembles (literal [] fraction) := by
  refine ⟨rfl, fun c hc => ?_⟩
  simp [hc.symm]

theorem Resembles.symm {a b : Token} (h : a.Resembles b) : b.Resembles a :=
  ⟨h.1.symm, fun c hc => (h.2 c hc).symm⟩

theorem scanLiteral_fst (s : List Char) :
    ∃ fraction, (scanLiteral s).1 = literal (s.takeWhile Char.isDigit) fraction := by
  unfold scanLiteral
  split
  · exact ⟨_, rfl⟩
  · exact ⟨_, rfl⟩

theorem scanPoint_fst (s : List Char) :
    (scanPoint s).1 = symbol '.' ∨ ∃ fraction, (scanPoint s).1 = literal [] fraction := by
  unfold scanPoint
  split
  · exact .inl rfl
  · exact .inr ⟨_, rfl⟩

theorem resembles_scanPoint (s s' : List Char) : (scanPoint s).1.Resembles (scanPoint s').1 := by
  rcases scanPoint_fst s with hs | ⟨fraction, hs⟩ <;>
    rcases scanPoint_fst s' with hs' | ⟨fraction', hs'⟩ <;> rw [hs, hs']
  · exact resembles_refl _
  · exact resembles_point fraction'
  · exact (resembles_point fraction).symm
  · exact resembles_literal rfl fraction fraction'

/-- One character shows what part a token plays. -/
theorem resembles_scanFrom (c : Char) (s s' : List Char) :
    (scanFrom c s).1.Resembles (scanFrom c s').1 := by
  unfold scanFrom
  by_cases hdigit : c.isDigit
  · rw [if_pos hdigit, if_pos hdigit]
    obtain ⟨fraction, hs⟩ := scanLiteral_fst (c :: s)
    obtain ⟨fraction', hs'⟩ := scanLiteral_fst (c :: s')
    rw [hs, hs', List.takeWhile_cons_of_pos hdigit, List.takeWhile_cons_of_pos hdigit]
    exact resembles_literal (by rw [List.isEmpty_cons, List.isEmpty_cons]) fraction fraction'
  rw [if_neg hdigit, if_neg hdigit]
  by_cases hpoint : c = '.'
  · rw [if_pos hpoint, if_pos hpoint]
    exact resembles_scanPoint s s'
  rw [if_neg hpoint, if_neg hpoint]
  by_cases halpha : c.isAlpha
  · rw [if_pos halpha, if_pos halpha]
    exact resembles_word _ _
  · rw [if_neg halpha, if_neg halpha]
    exact resembles_refl _

theorem scanAll_cons {c : Char} (hc : isBlank c = false) (s : List Char) :
    scanAll (c :: s) = (scanFrom c s).1 :: scanAll (scanFrom c s).2 := by
  refine scanAll_of_scan_some ?_
  rw [scan, Text.dropBlanks_cons hc]

end Calculator.Token
