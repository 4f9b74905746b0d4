import InfixArith.Numeral
import Mathlib.Data.List.TakeWhile
import Mathlib.Tactic.Tauto

/-!
# Numeral — what is scanned as a numeral

The pieces of a numeral are *well formed* when they are runs of digits in the right places: digits
before the point, digits after it or at least one of the two, and an exponent whose mark is followed
by digits.  The texts of the well-formed numerals are those of the pattern
`[+-]?([0-9]*\.[0-9]+|[0-9]+\.?)([eE][+-]?[0-9]+)?`.

* `wellFormed_of_scan?`: what is scanned is well formed.
* `scan?_text_append`: a well-formed numeral is scanned whole, unless the text after it could belong
  to a longer one.
* `Stops.scan?_append`: text from a character on that could not stand in a numeral is left as it is.
-/

namespace InfixArith

/-- `s` is a run of decimal digits. -/
def Digits (s : List Char) : Prop := ∀ c ∈ s, c.isDigit = true

/-- `s` begins with no digit. -/
def NoDigit (s : List Char) : Prop := ∀ c ∈ s.head?, c.isDigit = false

theorem digits_takeWhile (s : List Char) : Digits (s.takeWhile Char.isDigit) :=
  fun _ hc => List.mem_takeWhile_imp hc

theorem takeWhile_digits {ds r : List Char} (hd : Digits ds) (hr : NoDigit r) :
    (ds ++ r).takeWhile Char.isDigit = ds ∧ (ds ++ r).dropWhile Char.isDigit = r := by
  rw [List.takeWhile_append_of_pos hd, List.dropWhile_append_of_pos hd]
  cases r with
  | nil => simp
  | cons c r =>
      have hc : c.isDigit = false := hr c rfl
      simp [hc]

/-- A run of digits ends before a text that begins with no digit, whatever follows there. -/
theorem takeWhile_append_of_noDigit (s : List Char) {r : List Char} (hr : NoDigit r) :
    (s ++ r).takeWhile Char.isDigit = s.takeWhile Char.isDigit ∧
      (s ++ r).dropWhile Char.isDigit = s.dropWhile Char.isDigit ++ r := by
  have hrest : NoDigit (s.dropWhile Char.isDigit ++ r) := by
    cases h : s.dropWhile Char.isDigit with
    | nil => exact hr
    | cons c u =>
        rintro d ⟨rfl⟩
        have hhead := List.head?_dropWhile_not Char.isDigit s
        rwa [h] at hhead
  have hsplit := takeWhile_digits (digits_takeWhile s) hrest
  rwa [← List.append_assoc, List.takeWhile_append_dropWhile] at hsplit

/-- The exponent is a mark and at least one digit. -/
def Exponent.WellFormed (x : Exponent) : Prop :=
  (x.mark = 'e' ∨ x.mark = 'E') ∧ x.digits ≠ [] ∧ Digits x.digits

/-- The pieces are runs of digits, with a digit beside the point. -/
structure Numeral.WellFormed (n : Numeral) : Prop where
  whole : Digits n.whole
  fraction : ∀ f ∈ n.fraction, Digits f
  has_digit : n.whole ≠ [] ∨ ∃ f ∈ n.fraction, f ≠ []
  exponent : ∀ x ∈ n.exponent, x.WellFormed

/-- The text `s` cannot go on a numeral that ends before it. -/
def Numeral.Ends (s : List Char) : Prop :=
  ∀ c ∈ s.head?, c.isDigit = false ∧ c ≠ '.' ∧ c ≠ 'e' ∧ c ≠ 'E'

theorem Numeral.ends_nil : Numeral.Ends [] := nofun

theorem Numeral.ends_space (s : List Char) : Numeral.Ends (' ' :: s) := by
  rintro c ⟨rfl⟩
  decide

/-- The text `s` begins with no character that could stand in a numeral. -/
structure Numeral.Stops (s : List Char) : Prop where
  ends : Numeral.Ends s
  not_sign : ∀ c ∈ s.head?, c ≠ '+' ∧ c ≠ '-'

/-! ### Signs and exponents -/

theorem Sign.scan_text_append (x : Option Sign) {s : List Char}
    (hs : ∀ c ∈ s.head?, c ≠ '+' ∧ c ≠ '-') : Sign.scan (Sign.text x ++ s) = (x, s) := by
  rcases x with _ | _ | _
  · rw [Sign.text, List.nil_append]
    unfold Sign.scan
    split
    · exact absurd rfl (hs _ rfl).1
    · exact absurd rfl (hs _ rfl).2
    · rfl
  · rfl
  · rfl

/-- A digit is no sign. -/
theorem not_sign_of_isDigit {c : Char} (h : c.isDigit = true) : c ≠ '+' ∧ c ≠ '-' := by
  constructor <;> rintro rfl <;> cases h

theorem Digits.not_sign {ds s : List Char} (hd : Digits ds) (hne : ds ≠ []) :
    ∀ c ∈ (ds ++ s).head?, c ≠ '+' ∧ c ≠ '-' := by
  cases ds with
  | nil => exact absurd rfl hne
  | cons d ds =>
      intro c hc
      cases hc
      exact not_sign_of_isDigit (hd d List.mem_cons_self)

namespace Exponent

theorem wellFormed_of_scan {s : List Char} : ∀ x ∈ (scan s).1, x.WellFormed := by
  intro x hx
  cases s with
  | nil => cases hx
  | cons c s =>
      simp only [scan] at hx
      split at hx
      · next hc =>
        split at hx
        · cases hx
        · next hne =>
          cases hx
          exact ⟨hc, hne, digits_takeWhile _⟩
      · cases hx

theorem scan_text_append {x : Option Exponent} (hx : ∀ y ∈ x, y.WellFormed) {s : List Char}
    (hs : Numeral.Ends s) : scan (text x ++ s) = (x, s) := by
  have hno : NoDigit s := fun c hc => (hs c hc).1
  cases x with
  | none =>
      cases s with
      | nil => rfl
      | cons c s =>
          obtain ⟨-, -, he, hE⟩ := hs c rfl
          rw [text, List.nil_append, scan, if_neg (by tauto)]
  | some x =>
      obtain ⟨mark, sign, digits⟩ := x
      obtain ⟨hm, hne, hd⟩ := hx _ rfl
      obtain ⟨htake, hdrop⟩ := takeWhile_digits hd hno
      simp only [text, List.cons_append, List.append_assoc, scan, if_pos hm,
        Sign.scan_text_append sign (hd.not_sign hne), htake, hdrop, if_neg hne]

/-- The text of an exponent begins with no digit and no point, and with nothing if it is none. -/
theorem head_text_append {x : Option Exponent} (hx : ∀ y ∈ x, y.WellFormed) {s : List Char}
    (hs : Numeral.Ends s) : ∀ c ∈ (text x ++ s).head?, c.isDigit = false ∧ c ≠ '.' := by
  intro c hc
  cases x with
  | none => exact ⟨(hs c hc).1, (hs c hc).2.1⟩
  | some x =>
      obtain ⟨hm, -, -⟩ := hx x rfl
      cases hc
      rcases hm with h | h <;> rw [h] <;> decide

end Exponent

namespace Numeral

/-! ### Digits with a point -/

theorem scanDigits?_wellFormed {s r whole : List Char} {fraction : Option (List Char)}
    (h : scanDigits? s = some (whole, fraction, r)) :
    Digits whole ∧ (∀ f ∈ fraction, Digits f) ∧ (whole ≠ [] ∨ ∃ f ∈ fraction, f ≠ []) := by
  unfold scanDigits? at h
  dsimp only at h
  split at h
  · next r' hr =>
    split at h
    · cases h
    · next hne =>
      cases h
      refine ⟨digits_takeWhile _, ?_, ?_⟩
      · rintro f ⟨rfl⟩
        exact digits_takeWhile _
      · rcases not_and_or.mp hne with hw | hf
        · exact .inl hw
        · exact .inr ⟨_, rfl, hf⟩
  · split at h
    · cases h
    · next hne =>
      cases h
      exact ⟨digits_takeWhile _, (fun _ hf => by cases hf), .inl hne⟩

theorem scanDigits?_append {whole s : List Char} {fraction : Option (List Char)}
    (hw : Digits whole) (hf : ∀ f ∈ fraction, Digits f)
    (hne : whole ≠ [] ∨ ∃ f ∈ fraction, f ≠ [])
    (hs : ∀ c ∈ s.head?, c.isDigit = false ∧ c ≠ '.') :
    scanDigits? (whole ++ (fractionText fraction ++ s)) = some (whole, fraction, s) := by
  have hno : NoDigit s := fun c hc => (hs c hc).1
  cases fraction with
  | none =>
      obtain ⟨htake, hdrop⟩ := takeWhile_digits hw hno
      have hwne : whole ≠ [] := hne.resolve_right fun ⟨f, hf, _⟩ => by cases hf
      simp only [scanDigits?, fractionText, List.nil_append, htake, hdrop, if_neg hwne]
      split
      · exact absurd rfl (hs _ rfl).2
      · rfl
  | some f =>
      have hpoint : NoDigit ('.' :: (f ++ s)) := by rintro c ⟨rfl⟩; rfl
      obtain ⟨htake, hdrop⟩ := takeWhile_digits hw hpoint
      obtain ⟨htake', hdrop'⟩ := takeWhile_digits (hf f rfl) hno
      have hne' : ¬ (whole = [] ∧ f = []) := by
        rintro ⟨hw, hf⟩
        rcases hne with h | ⟨g, ⟨rfl⟩, h⟩
        · exact h hw
        · exact h hf
      simp only [scanDigits?, fractionText, List.cons_append, htake, hdrop, htake', hdrop',
        if_neg hne']

theorem scanDigits?_of_no_point {s : List Char}
    (hs : ∀ u, s.dropWhile Char.isDigit ≠ '.' :: u) :
    scanDigits? s = if s.takeWhile Char.isDigit = [] then none
      else some (s.takeWhile Char.isDigit, none, s.dropWhile Char.isDigit) := by
  unfold scanDigits?
  dsimp only
  split
  · next u hu => exact absurd hu (hs u)
  · rfl

theorem takeWhile_append_ne_nil {ds : List Char} (hd : Digits ds) (hne : ds ≠ []) (s : List Char) :
    (ds ++ s).takeWhile Char.isDigit ≠ [] := by
  intro hnil
  cases ds with
  | nil => exact hne rfl
  | cons d ds =>
      rw [List.cons_append, List.takeWhile_cons_of_pos (hd d List.mem_cons_self)] at hnil
      cases hnil

/-- Digits are scanned where one stands, or a point and one after it, whatever follows. -/
theorem scanDigits?_isSome {whole : List Char} {fraction : Option (List Char)} (hw : Digits whole)
    (hf : ∀ f ∈ fraction, Digits f) (hne : whole ≠ [] ∨ ∃ f ∈ fraction, f ≠ []) (s : List Char) :
    (scanDigits? (whole ++ (fractionText fraction ++ s))).isSome := by
  by_cases hwhole : whole = []
  · obtain ⟨f, hfrac, hfne⟩ := hne.resolve_left fun h => h hwhole
    have hfraction := takeWhile_append_ne_nil (hf f hfrac) hfne s
    rw [hwhole, Option.mem_def.mp hfrac]
    simp [scanDigits?, fractionText, hfraction]
  · have htake := takeWhile_append_ne_nil hw hwhole (fractionText fraction ++ s)
    unfold scanDigits?
    dsimp only
    split
    · rw [if_neg fun h => htake h.1]
      rfl
    · rw [if_neg htake]
      rfl

/-! ### Numerals -/

/-- What is scanned is well formed. -/
theorem wellFormed_of_scan? {s r : List Char} {n : Numeral} (h : scan? s = some (n, r)) :
    n.WellFormed := by
  simp only [scan?, Option.map_eq_some_iff] at h
  obtain ⟨⟨whole, fraction, r'⟩, hd, hn⟩ := h
  obtain ⟨hw, hf, hne⟩ := scanDigits?_wellFormed hd
  cases hn
  exact ⟨hw, hf, hne, Exponent.wellFormed_of_scan⟩

/-- The digits and the point of a numeral begin with no sign. -/
theorem head_digits_append {n : Numeral} (hn : n.WellFormed) (s : List Char) :
    ∀ c ∈ (n.whole ++ (fractionText n.fraction ++ s)).head?, c ≠ '+' ∧ c ≠ '-' := by
  by_cases hw : n.whole = []
  · obtain ⟨f, hf, -⟩ := hn.has_digit.resolve_left fun h => h hw
    rw [hw, Option.mem_def.mp hf]
    rintro c ⟨rfl⟩
    decide
  · exact hn.whole.not_sign hw

/-- **Scanning a written numeral.**  A well-formed numeral is scanned whole where nothing follows
that could belong to a longer one. -/
theorem scan?_text_append {n : Numeral} (hn : n.WellFormed) {s : List Char} (hs : Ends s) :
    scan? (n.text ++ s) = some (n, s) := by
  have hx := Exponent.head_text_append hn.exponent hs
  have hsign := Sign.scan_text_append n.sign
    (head_digits_append hn (Exponent.text n.exponent ++ s))
  simp only [scan?, text, List.append_assoc, hsign,
    scanDigits?_append hn.whole hn.fraction hn.has_digit hx, Option.map_some,
    Exponent.scan_text_append hn.exponent hs]

/-- The first character of a numeral is a digit, a point or a sign. -/
theorem head_text {n : Numeral} (hn : n.WellFormed) :
    ∃ c s, n.text = c :: s ∧ (c.isDigit = true ∨ c = '.' ∨ c = '+' ∨ c = '-') := by
  obtain ⟨sign, whole, fraction, exponent⟩ := n
  rcases sign with _ | _ | _
  · rcases whole with _ | ⟨c, whole⟩
    · obtain ⟨f, hf, -⟩ := hn.has_digit.resolve_left fun h => h rfl
      cases hf
      exact ⟨_, _, rfl, .inr (.inl rfl)⟩
    · exact ⟨c, _, rfl, .inl (hn.whole c List.mem_cons_self)⟩
  · exact ⟨_, _, rfl, .inr (.inr (.inl rfl))⟩
  · exact ⟨_, _, rfl, .inr (.inr (.inr rfl))⟩

/-! ### What does not belong to a numeral -/

namespace Stops

variable {r : List Char}

theorem noDigit (hr : Stops r) : NoDigit r := fun c hc => (hr.ends c hc).1

theorem sign_append (hr : Stops r) (s : List Char) :
    Sign.scan (s ++ r) = ((Sign.scan s).1, (Sign.scan s).2 ++ r) := by
  cases s with
  | nil => exact Sign.scan_text_append none hr.not_sign
  | cons c s =>
      by_cases hplus : c = '+'
      · subst hplus
        rfl
      · by_cases hminus : c = '-'
        · subst hminus
          rfl
        · have hno : ∀ u, Sign.scan (c :: u) = (none, c :: u) := fun u =>
            Sign.scan_text_append none (by rintro d ⟨rfl⟩; exact ⟨hplus, hminus⟩)
          rw [List.cons_append, hno, hno, List.cons_append]

theorem exponent_append (hr : Stops r) (s : List Char) :
    Exponent.scan (s ++ r) = ((Exponent.scan s).1, (Exponent.scan s).2 ++ r) := by
  cases s with
  | nil => exact Exponent.scan_text_append (x := none) nofun hr.ends
  | cons c s =>
      obtain ⟨htake, hdrop⟩ := takeWhile_append_of_noDigit (Sign.scan s).2 hr.noDigit
      simp only [List.cons_append, Exponent.scan, hr.sign_append, htake, hdrop]
      split
      · split
        · rfl
        · rfl
      · rfl

theorem digits_append (hr : Stops r) (s : List Char) :
    scanDigits? (s ++ r) =
      (scanDigits? s).map fun (whole, fraction, u) => (whole, fraction, u ++ r) := by
  obtain ⟨htake, hdrop⟩ := takeWhile_append_of_noDigit s hr.noDigit
  by_cases hpoint : ∃ u, s.dropWhile Char.isDigit = '.' :: u
  · obtain ⟨u, hu⟩ := hpoint
    obtain ⟨htake', hdrop'⟩ := takeWhile_append_of_noDigit u hr.noDigit
    simp only [scanDigits?, htake, hdrop, hu, List.cons_append, htake', hdrop']
    split <;> rfl
  · have hnone := not_exists.mp hpoint
    -- no point follows the digits, and none does in the longer text
    have hnone' : ∀ u, (s ++ r).dropWhile Char.isDigit ≠ '.' :: u := by
      intro u hu
      rw [hdrop] at hu
      cases hd : s.dropWhile Char.isDigit with
      | nil =>
          rw [hd, List.nil_append] at hu
          exact (hr.ends '.' (by rw [hu]; rfl)).2.1 rfl
      | cons c v =>
          rw [hd, List.cons_append, List.cons.injEq] at hu
          exact hnone v (by rw [hd, hu.1])
    rw [scanDigits?_of_no_point hnone, scanDigits?_of_no_point hnone', htake, hdrop]
    split <;> rfl

/-- **Scanning does not look further** than to a character that could not stand in a numeral. -/
theorem scan?_append (hr : Stops r) (s : List Char) :
    scan? (s ++ r) = (scan? s).map fun (n, u) => (n, u ++ r) := by
  simp only [scan?, hr.sign_append, hr.digits_append, Option.map_map]
  refine congrFun (congrArg _ (funext ?_)) _
  rintro ⟨whole, fraction, u⟩
  simp only [Function.comp_apply, hr.exponent_append]

end Stops

end Numeral

end InfixArith
