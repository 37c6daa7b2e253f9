import Calculator.Token.Scan
import Mathlib.Data.List.TakeWhile

/-!
# Longest match

`Lexeme` says which tokens a text can hold, and `Splits s ts` that cutting `s` by longest match
gives `ts`: after some blanks comes the longest lexeme that the text begins with, and so on.
`splits_iff`: `scanAll` finds exactly these tokens.

One character decides whether a lexeme is the longest (`endsBefore_iff_longest`), and so a scan is
known from both sides: `scan_text` for a text put together from a lexeme and what follows it,
`exists_of_scan` for a text that has been scanned.
-/

namespace Calculator

namespace Text

/-! ## Classes of characters -/

/-- The visible characters of ASCII are no blanks. -/
theorem isBlank_eq_false {c : Char} (h : 33 ≤ c.toNat ∧ c.toNat ≤ 126) : isBlank c = false := by
  rw [isBlank, List.any_eq_false]
  intro range hrange
  rw [Bool.and_eq_true, decide_eq_true_eq, decide_eq_true_eq]
  simp only [blankRanges, List.mem_cons, List.not_mem_nil, or_false] at hrange
  rcases hrange with rfl | rfl | rfl | rfl | rfl | rfl | rfl | rfl | rfl | rfl <;> omega

theorem toNat_of_isDigit {c : Char} (h : c.isDigit) : 48 ≤ c.toNat ∧ c.toNat ≤ 57 := by
  simp only [Char.isDigit, Bool.and_eq_true, decide_eq_true_eq, ge_iff_le,
    UInt32.le_iff_toNat_le] at h
  exact h

theorem toNat_of_isAlpha {c : Char} (h : c.isAlpha) :
    65 ≤ c.toNat ∧ c.toNat ≤ 90 ∨ 97 ≤ c.toNat ∧ c.toNat ≤ 122 := by
  change (c.isUpper || c.isLower) = true at h
  rw [Bool.or_eq_true] at h
  rcases h with hupper | hlower
  · have hletter : 'A'.val ≤ c.val ∧ c.val ≤ 'Z'.val := of_decide_eq_true hupper
    exact .inl ⟨UInt32.le_iff_toNat_le.mp hletter.1, UInt32.le_iff_toNat_le.mp hletter.2⟩
  · change (decide ('a'.val ≤ c.val) && decide (c.val ≤ 'z'.val)) = true at hlower
    rw [Bool.and_eq_true, decide_eq_true_eq, decide_eq_true_eq] at hlower
    exact .inr ⟨UInt32.le_iff_toNat_le.mp hlower.1, UInt32.le_iff_toNat_le.mp hlower.2⟩

theorem isBlank_eq_false_of_isDigit {c : Char} (h : c.isDigit) : isBlank c = false := by
  have := toNat_of_isDigit h
  exact isBlank_eq_false (by omega)

theorem isBlank_eq_false_of_isAlpha {c : Char} (h : c.isAlpha) : isBlank c = false := by
  have := toNat_of_isAlpha h
  exact isBlank_eq_false (by omega)

theorem isDigit_eq_false_of_isAlpha {c : Char} (h : c.isAlpha) : c.isDigit = false := by
  rw [Bool.eq_false_iff]
  intro hd
  have := toNat_of_isAlpha h
  have := toNat_of_isDigit hd
  omega

theorem dropBlanks_append {b : List Char} (hb : ∀ c ∈ b, isBlank c) (s : List Char) :
    dropBlanks (b ++ s) = dropBlanks s :=
  List.dropWhile_append_of_pos hb

theorem dropBlanks_cons {c : Char} (hc : isBlank c = false) (s : List Char) :
    dropBlanks (c :: s) = c :: s :=
  List.dropWhile_cons_of_neg (by simp [hc])

/-- Every text is blanks and a text that begins with none. -/
theorem exists_blanks_append (s : List Char) :
    ∃ b, (∀ c ∈ b, isBlank c) ∧ s = b ++ dropBlanks s :=
  ⟨s.takeWhile isBlank, fun _ => List.mem_takeWhile_imp, List.takeWhile_append_dropWhile.symm⟩

end Text

namespace Token

open Text (isBlank dropBlanks)

/-! ## Lexemes -/

/-- The tokens that a text can hold: literals `1`, `1.`, `1.2` and `.2`, words, and single
characters that are neither digits nor letters nor blanks. -/
def Lexeme : Token → Prop
  | literal whole fraction =>
    (∀ c ∈ whole, c.isDigit) ∧ (∀ c ∈ fraction.getD [], c.isDigit) ∧
      (whole ≠ [] ∨ fraction.getD [] ≠ [])
  | word letters => (∀ c ∈ letters, c.isAlpha) ∧ letters ≠ []
  | symbol c => c.isDigit = false ∧ c.isAlpha = false ∧ isBlank c = false

instance : (t : Token) → Decidable t.Lexeme
  | literal whole fraction =>
    decidable_of_iff (whole.all Char.isDigit ∧ (fraction.getD []).all Char.isDigit ∧
      (whole ≠ [] ∨ fraction.getD [] ≠ [])) (by simp only [Lexeme, List.all_eq_true])
  | word letters =>
    decidable_of_iff (letters.all Char.isAlpha ∧ letters ≠ [])
      (by simp only [Lexeme, List.all_eq_true])
  | symbol _ => inferInstanceAs (Decidable (_ ∧ _ ∧ _))

/-- Whether a token with the character behind it begins a longer one. -/
def continuedBy : Token → Char → Bool
  | literal _ none, c => c.isDigit || c == '.'
  | literal _ (some _), c => c.isDigit
  | word _, c => c.isAlpha
  | symbol s, c => s == '.' && c.isDigit

/-- Whether `rest` cannot continue the token. -/
def EndsBefore (t : Token) (rest : List Char) : Prop := ∀ c ∈ rest.head?, t.continuedBy c = false

@[simp] theorem endsBefore_nil (t : Token) : t.EndsBefore [] := by simp [EndsBefore]

@[simp] theorem endsBefore_cons (t : Token) (c : Char) (rest : List Char) :
    t.EndsBefore (c :: rest) ↔ t.continuedBy c = false := by simp [EndsBefore]

/-- A literal is made of digits and points. -/
theorem Lexeme.isDigit_or_point {whole : List Char} {fraction : Option (List Char)}
    (h : (literal whole fraction).Lexeme) :
    ∀ c ∈ (literal whole fraction).text, c.isDigit ∨ c = '.' := by
  intro c hc
  cases fraction with
  | none => exact .inl (h.1 c hc)
  | some digits =>
    rcases List.mem_append.mp hc with hc | hc
    · exact .inl (h.1 c hc)
    rcases List.mem_cons.mp hc with rfl | hc
    · exact .inr rfl
    · exact .inl (h.2.1 c hc)

theorem Lexeme.text_ne_nil {t : Token} (h : t.Lexeme) : t.text ≠ [] := by
  match t with
  | literal whole none => simpa [text, Lexeme] using h.2.2
  | literal whole (some digits) => simp [text]
  | word letters => exact h.2
  | symbol c => simp [text]

theorem Lexeme.isBlank_head {t : Token} (h : t.Lexeme) {c : Char} {s : List Char}
    (ht : t.text = c :: s) : isBlank c = false := by
  have hc : c ∈ t.text := by rw [ht]; exact List.mem_cons_self
  match t with
  | literal whole fraction =>
    rcases h.isDigit_or_point c hc with hd | rfl
    · exact Text.isBlank_eq_false_of_isDigit hd
    · decide
  | word letters => exact Text.isBlank_eq_false_of_isAlpha (h.1 c hc)
  | symbol s => rw [List.mem_singleton.mp hc]; exact h.2.2

/-! ## Scanning a lexeme -/

theorem takeWhile_append_of_head {p : Char → Bool} {v rest : List Char} (hv : ∀ c ∈ v, p c)
    (hr : ∀ c ∈ rest.head?, p c = false) : (v ++ rest).takeWhile p = v := by
  rw [List.takeWhile_append_of_pos hv]
  cases rest with
  | nil => simp
  | cons c rest => simp [hr c rfl]

theorem dropWhile_append_of_head {p : Char → Bool} {v rest : List Char} (hv : ∀ c ∈ v, p c)
    (hr : ∀ c ∈ rest.head?, p c = false) : (v ++ rest).dropWhile p = rest := by
  rw [List.dropWhile_append_of_pos hv]
  cases rest with
  | nil => rfl
  | cons c rest => exact List.dropWhile_cons_of_neg (by simp [hr c rfl])

theorem scanLiteral_text {whole rest : List Char} {fraction : Option (List Char)}
    (ht : (literal whole fraction).Lexeme) (hr : (literal whole fraction).EndsBefore rest) :
    scanLiteral ((literal whole fraction).text ++ rest) = (literal whole fraction, rest) := by
  cases fraction with
  | none =>
    have hd : ∀ c ∈ rest.head?, c.isDigit = false := fun c hc => by
      have := hr c hc
      rw [continuedBy, Bool.or_eq_false_iff] at this
      exact this.1
    rw [scanLiteral, text, takeWhile_append_of_head ht.1 hd, dropWhile_append_of_head ht.1 hd]
    cases rest with
    | nil => rfl
    | cons c rest =>
      have hp : c ≠ '.' := by
        rintro rfl
        simp [EndsBefore, continuedBy] at hr
      split
      · next heq => exact absurd (List.cons.inj heq).1 hp
      · rfl
  | some digits =>
    have hp : ∀ c ∈ ('.' :: digits ++ rest).head?, c.isDigit = false := by
      intro c hc
      cases hc
      decide
    rw [scanLiteral, text, List.append_assoc, takeWhile_append_of_head ht.1 hp,
      dropWhile_append_of_head ht.1 hp]
    show (literal whole (some ((digits ++ rest).takeWhile Char.isDigit)),
      (digits ++ rest).dropWhile Char.isDigit) = _
    have hf : ∀ c ∈ digits, c.isDigit := ht.2.1
    rw [takeWhile_append_of_head hf hr, dropWhile_append_of_head hf hr]

theorem scanPoint_digits {digits rest : List Char} (ht : (literal [] (some digits)).Lexeme)
    (hr : (literal [] (some digits)).EndsBefore rest) :
    scanPoint (digits ++ rest) = (literal [] (some digits), rest) := by
  have hf : ∀ c ∈ digits, c.isDigit := ht.2.1
  rw [scanPoint, takeWhile_append_of_head hf hr, dropWhile_append_of_head hf hr]
  cases digits with
  | nil => simp [Lexeme] at ht
  | cons c digits => rfl

/-- A lexeme that the following text does not continue is scanned as it is. -/
theorem scan_text {t : Token} {rest : List Char} (ht : t.Lexeme) (hr : t.EndsBefore rest) :
    scan (t.text ++ rest) = some (t, rest) := by
  obtain ⟨c, s, hs⟩ := List.exists_cons_of_ne_nil ht.text_ne_nil
  have hb := ht.isBlank_head hs
  rw [scan, hs, List.cons_append, Text.dropBlanks_cons hb]
  show some (scanFrom c (s ++ rest)) = some (t, rest)
  congr 1
  cases t with
  | literal whole fraction =>
    cases whole with
    | nil =>
      cases fraction with
      | none => simp [Lexeme] at ht
      | some digits =>
        obtain ⟨rfl, rfl⟩ := List.cons.inj hs
        exact scanPoint_digits ht hr
    | cons d whole =>
      have hc : c = d := by
        cases fraction <;> exact (List.cons.inj hs).1.symm
      subst hc
      rw [scanFrom, if_pos (ht.1 c List.mem_cons_self), ← List.cons_append, ← hs]
      exact scanLiteral_text ht hr
  | word letters =>
    have hl : letters = c :: s := hs
    subst hl
    have hc := ht.1 c List.mem_cons_self
    have hp : c ≠ '.' := by rintro rfl; exact absurd hc (by decide)
    rw [scanFrom, if_neg (by simp [Text.isDigit_eq_false_of_isAlpha hc]), if_neg hp, if_pos hc,
      ← List.cons_append, takeWhile_append_of_head ht.1 hr, dropWhile_append_of_head ht.1 hr]
  | symbol d =>
    obtain ⟨rfl, rfl⟩ := List.cons.inj hs
    rw [scanFrom, if_neg (by simp [ht.1]), List.nil_append]
    split
    next hp =>
      subst hp
      have hd : rest.takeWhile Char.isDigit = [] := by
        refine takeWhile_append_of_head (v := []) (by simp) fun c hc => ?_
        simpa [continuedBy] using hr c hc
      rw [scanPoint, hd]
    · rw [if_neg (by simp [ht.2.1])]

/-! ## What a scan has read -/

theorem head?_dropWhile {p : Char → Bool} {s : List Char} :
    ∀ c ∈ (s.dropWhile p).head?, p c = false := by
  intro c hc
  have := List.head?_dropWhile_not p s
  rw [Option.mem_def.mp hc] at this
  exact this

/-- The token lies at the front of the text, is a lexeme and is not continued by the rest. -/
def Reads (s : List Char) (scanned : Token × List Char) : Prop :=
  s = scanned.1.text ++ scanned.2 ∧ scanned.1.Lexeme ∧ scanned.1.EndsBefore scanned.2

theorem reads_scanLiteral {c : Char} (rest : List Char) (h : c.isDigit) :
    Reads (c :: rest) (scanLiteral (c :: rest)) := by
  have hw : (c :: rest).takeWhile Char.isDigit ≠ [] := by
    rw [List.takeWhile_cons_of_pos h]
    exact List.cons_ne_nil _ _
  have hs := List.takeWhile_append_dropWhile (p := Char.isDigit) (l := c :: rest)
  have hd := head?_dropWhile (p := Char.isDigit) (s := c :: rest)
  unfold scanLiteral
  split
  next s heq =>
    refine ⟨?_, ⟨fun _ => List.mem_takeWhile_imp, fun _ => List.mem_takeWhile_imp, .inl hw⟩,
      fun d hd => head?_dropWhile d hd⟩
    show c :: rest = (_ ++ '.' :: s.takeWhile Char.isDigit) ++ s.dropWhile Char.isDigit
    rw [List.append_assoc, List.cons_append, List.takeWhile_append_dropWhile, ← heq, hs]
  next hp =>
    refine ⟨hs.symm, ⟨fun _ => List.mem_takeWhile_imp, by simp, .inl hw⟩, fun d hdr => ?_⟩
    obtain ⟨s, hs⟩ := List.head?_eq_some_iff.mp hdr
    have hne : d ≠ '.' := by rintro rfl; exact hp _ hs
    rw [continuedBy, hd d hdr, Bool.false_or]
    simpa using hne

theorem reads_scanPoint (rest : List Char) : Reads ('.' :: rest) (scanPoint rest) := by
  have hs := List.takeWhile_append_dropWhile (p := Char.isDigit) (l := rest)
  unfold scanPoint
  split
  next heq =>
    refine ⟨rfl, ⟨by decide, by decide, by decide⟩, fun c hc => ?_⟩
    rw [heq, List.nil_append] at hs
    rw [← hs] at hc
    simpa [continuedBy] using head?_dropWhile c hc
  next hne =>
    exact ⟨congrArg ('.' :: ·) hs.symm,
      ⟨by simp, fun _ => List.mem_takeWhile_imp, .inr hne⟩, fun c hc => head?_dropWhile c hc⟩

theorem reads_scanFrom {c : Char} (rest : List Char) (hb : isBlank c = false) :
    Reads (c :: rest) (scanFrom c rest) := by
  unfold scanFrom
  split
  next h => exact reads_scanLiteral rest h
  next hd =>
    split
    next hp => rw [hp]; exact reads_scanPoint rest
    next hp =>
      split
      next ha =>
        refine ⟨List.takeWhile_append_dropWhile.symm, ⟨fun _ => List.mem_takeWhile_imp, ?_⟩,
          fun d hdr => head?_dropWhile d hdr⟩
        rw [List.takeWhile_cons_of_pos ha]
        exact List.cons_ne_nil _ _
      next ha =>
        refine ⟨rfl, ⟨by simpa using hd, by simpa using ha, hb⟩, fun d _ => ?_⟩
        rw [continuedBy, Bool.and_eq_false_iff]
        exact .inl (by simpa using hp)

/-- What is scanned off a text is a lexeme behind blanks, and the rest does not continue it. -/
theorem exists_of_scan {s rest : List Char} {t : Token} (h : scan s = some (t, rest)) :
    ∃ b, (∀ c ∈ b, isBlank c) ∧ s = b ++ (t.text ++ rest) ∧ t.Lexeme ∧ t.EndsBefore rest := by
  obtain ⟨b, hb, hs⟩ := Text.exists_blanks_append s
  unfold scan at h
  split at h
  · cases h
  next c r heq =>
    have hc : isBlank c = false := head?_dropWhile (s := s) c (by rw [← dropBlanks, heq]; rfl)
    obtain ⟨htext, ht, hr⟩ := reads_scanFrom r hc
    rw [Option.some.inj h] at htext ht hr
    exact ⟨b, hb, by rw [hs, heq, htext], ht, hr⟩

/-! ## The longest lexeme -/

theorem Lexeme.dropWhile_text_none {whole : List Char} (h : (literal whole none).Lexeme)
    (s : List Char) :
    ((literal whole none).text ++ s).dropWhile Char.isDigit = s.dropWhile Char.isDigit :=
  List.dropWhile_append_of_pos h.1

theorem Lexeme.dropWhile_text_some {whole digits : List Char}
    (h : (literal whole (some digits)).Lexeme) (s : List Char) :
    ((literal whole (some digits)).text ++ s).dropWhile Char.isDigit = '.' :: (digits ++ s) := by
  rw [text, List.append_assoc, List.dropWhile_append_of_pos h.1]
  rfl

/-- A lexeme that is longer than another one, and begins with it, continues it. -/
theorem Lexeme.continuedBy {t t' : Token} (ht : t.Lexeme) (ht' : t'.Lexeme) {c : Char}
    {s : List Char} (h : t'.text = t.text ++ c :: s) : t.continuedBy c := by
  have hmem : ∀ d ∈ t.text, d ∈ t'.text := fun d hd => by rw [h]; exact List.mem_append_left _ hd
  have hc : c ∈ t'.text := by rw [h]; simp
  obtain ⟨d, r, hd⟩ := List.exists_cons_of_ne_nil ht.text_ne_nil
  have hdt : d ∈ t.text := by rw [hd]; exact List.mem_cons_self
  match t, t' with
  | literal whole none, literal whole' none =>
    by_contra hcd
    have hdrop := ht.dropWhile_text_none (c :: s)
    have hdrop' := ht'.dropWhile_text_none []
    rw [List.append_nil, h, hdrop, List.dropWhile_cons_of_neg] at hdrop'
    · cases hdrop'
    · intro hd
      simp [Token.continuedBy, hd] at hcd
  | literal whole none, literal whole' (some digits) =>
    have hdrop := ht.dropWhile_text_none (c :: s)
    have hdrop' := ht'.dropWhile_text_some []
    rw [List.append_nil, h, hdrop] at hdrop'
    by_cases hcd : c.isDigit
    · simp [Token.continuedBy, hcd]
    · rw [List.dropWhile_cons_of_neg hcd] at hdrop'
      simp [Token.continuedBy, (List.cons.inj hdrop').1]
  | literal whole (some digits), literal whole' none =>
    have hdrop := ht.dropWhile_text_some (c :: s)
    have hdrop' := ht'.dropWhile_text_none []
    rw [List.append_nil, h, hdrop] at hdrop'
    cases hdrop'
  | literal whole (some digits), literal whole' (some digits') =>
    have hdrop := ht.dropWhile_text_some (c :: s)
    have hdrop' := ht'.dropWhile_text_some []
    rw [List.append_nil, List.append_nil, h, hdrop] at hdrop'
    exact ht'.2.1 c (by simp [← (List.cons.inj hdrop').2])
  | literal _ _, word letters =>
    have ha := ht'.1 d (hmem d hdt)
    rcases ht.isDigit_or_point d hdt with hd | rfl
    · rw [Text.isDigit_eq_false_of_isAlpha ha] at hd
      cases hd
    · exact absurd ha (by decide)
  | word letters, literal _ _ =>
    have ha := ht.1 d hdt
    rcases ht'.isDigit_or_point d (hmem d hdt) with hd | rfl
    · rw [Text.isDigit_eq_false_of_isAlpha ha] at hd
      cases hd
    · exact absurd ha (by decide)
  | word letters, word letters' => exact ht'.1 c hc
  | symbol a, literal (b :: whole) fraction =>
    have hb : b = a := by
      cases fraction <;> exact (List.cons.inj h).1
    have := ht'.1 b List.mem_cons_self
    rw [hb, ht.1] at this
    cases this
  | symbol a, literal [] none => cases h
  | symbol a, literal [] (some digits) =>
    obtain ⟨rfl, rfl⟩ := List.cons.inj h
    simpa [Token.continuedBy] using ht'.2.1 c List.mem_cons_self
  | symbol a, word letters =>
    have := ht'.1 a (hmem a List.mem_cons_self)
    rw [ht.2.1] at this
    cases this
  | t, symbol a =>
    rw [hd] at h
    cases r <;> cases h

/-- A lexeme continued by one character is the beginning of a lexeme with that character. -/
theorem Lexeme.exists_longer {t : Token} (ht : t.Lexeme) {c : Char} (hc : t.continuedBy c) :
    ∃ t' : Token, t'.Lexeme ∧ t'.text = t.text ++ [c] := by
  match t with
  | literal whole none =>
    rw [Token.continuedBy, Bool.or_eq_true, beq_iff_eq] at hc
    rcases hc with hc | rfl
    · refine ⟨literal (whole ++ [c]) none, ⟨?_, by simp, .inl (by simp)⟩, rfl⟩
      intro d hd
      rcases List.mem_append.mp hd with hd | hd
      · exact ht.1 d hd
      · rw [List.mem_singleton.mp hd]; exact hc
    · exact ⟨literal whole (some []), ⟨ht.1, by simp, .inl (by simpa [Lexeme] using ht.2.2)⟩, rfl⟩
  | literal whole (some digits) =>
    refine ⟨literal whole (some (digits ++ [c])), ⟨ht.1, ?_, .inr (by simp)⟩, by simp [text]⟩
    intro d hd
    rcases List.mem_append.mp hd with hd | hd
    · exact ht.2.1 d hd
    · rw [List.mem_singleton.mp hd]; exact hc
  | word letters =>
    refine ⟨word (letters ++ [c]), ⟨?_, by simp⟩, rfl⟩
    intro d hd
    rcases List.mem_append.mp hd with hd | hd
    · exact ht.1 d hd
    · rw [List.mem_singleton.mp hd]; exact hc
  | symbol a =>
    rw [Token.continuedBy, Bool.and_eq_true, beq_iff_eq] at hc
    obtain ⟨rfl, hc⟩ := hc
    exact ⟨literal [] (some [c]), ⟨by simp, by simpa using hc, .inr (by simp)⟩, rfl⟩

/-- The lexeme is the longest one that the text begins with. -/
def Longest (t : Token) (s : List Char) : Prop :=
  ∀ t' : Token, t'.Lexeme → t'.text <+: s → t'.text.length ≤ t.text.length

theorem endsBefore_iff_longest {t : Token} (ht : t.Lexeme) {rest : List Char} :
    t.EndsBefore rest ↔ t.Longest (t.text ++ rest) := by
  constructor
  · rintro hr t' ht' ⟨r, hr'⟩
    by_contra hlt
    obtain ⟨m, hm⟩ : t.text <+: t'.text :=
      List.prefix_of_prefix_length_le ⟨rest, rfl⟩ ⟨r, hr'⟩ (by omega)
    cases m with
    | nil =>
      rw [List.append_nil] at hm
      rw [hm] at hlt
      exact hlt le_rfl
    | cons c m =>
      rw [← hm, List.append_assoc] at hr'
      have hrest : c :: m ++ r = rest := List.append_cancel_left hr'
      have := hr c (by rw [← hrest]; rfl)
      rw [ht.continuedBy ht' hm.symm] at this
      cases this
  · intro hlong c hc
    obtain ⟨s, hs⟩ := List.head?_eq_some_iff.mp hc
    by_contra hcont
    obtain ⟨t', ht', htext⟩ := ht.exists_longer (by simpa using hcont)
    have := hlong t' ht' ⟨s, by rw [htext, hs, List.append_assoc]; rfl⟩
    rw [htext, List.length_append, List.length_singleton] at this
    omega

/-- `ts` are the tokens of the text by longest match, blanks between them dropped. -/
inductive Splits : List Char → List Token → Prop
  | blanks {b : List Char} : (∀ c ∈ b, isBlank c) → Splits b []
  | token {b rest : List Char} {t : Token} {ts : List Token} : (∀ c ∈ b, isBlank c) → t.Lexeme →
    t.Longest (t.text ++ rest) → Splits rest ts → Splits (b ++ (t.text ++ rest)) (t :: ts)

theorem scan_blanks {b : List Char} (hb : ∀ c ∈ b, isBlank c) : scan b = none := by
  rw [scan_eq_none_iff, ← List.append_nil b, Text.dropBlanks_append hb]
  rfl

theorem scan_append {b : List Char} (hb : ∀ c ∈ b, isBlank c) (s : List Char) :
    scan (b ++ s) = scan s := by
  rw [← scan_dropBlanks, Text.dropBlanks_append hb, scan_dropBlanks]

theorem scanAll_nil : scanAll [] = [] := scanAll_of_scan_none rfl

theorem scanAll_blank {c : Char} (hc : isBlank c) (s : List Char) :
    scanAll (c :: s) = scanAll s := by
  have hscan : scan (c :: s) = scan s := scan_append (b := [c]) (by simpa using hc) s
  cases h : scan s with
  | none => rw [scanAll_of_scan_none h, scanAll_of_scan_none (hscan.trans h)]
  | some next => rw [scanAll_of_scan_some h, scanAll_of_scan_some (hscan.trans h)]

theorem scanAll_text {t : Token} {rest : List Char} (ht : t.Lexeme) (hr : t.EndsBefore rest) :
    scanAll (t.text ++ rest) = t :: scanAll rest :=
  scanAll_of_scan_some (scan_text ht hr)

theorem splits_scanAll (s : List Char) : Splits s (scanAll s) := by
  fun_induction scanAll s with
  | case1 s h =>
    obtain ⟨b, hb, hs⟩ := Text.exists_blanks_append s
    rw [scan_eq_none_iff.mp h, List.append_nil] at hs
    exact .blanks (hs ▸ hb)
  | case2 s t rest h _ ih =>
    obtain ⟨b, hb, rfl, ht, hr⟩ := exists_of_scan h
    exact .token hb ht ((endsBefore_iff_longest ht).mp hr) ih

/-- Longest match finds the tokens that are scanned. -/
theorem splits_iff {s : List Char} {ts : List Token} : Splits s ts ↔ scanAll s = ts := by
  constructor
  · intro h
    induction h with
    | blanks hb => exact scanAll_of_scan_none (scan_blanks hb)
    | token hb ht hlong _ ih =>
      rw [scanAll_of_scan_some ((scan_append hb _).trans
        (scan_text ht ((endsBefore_iff_longest ht).mpr hlong))), ih]
  · rintro rfl
    exact splits_scanAll s

end Token

end Calculator
