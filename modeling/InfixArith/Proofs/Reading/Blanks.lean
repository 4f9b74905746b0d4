import InfixArith.Proofs.Grammar.Lexeme
import InfixArith.Proofs.Reading.Alike

/-!
# Reading — word by word

A reader skips blanks first, and what it then finds, a numeral or a token without blanks, lies in the
word ahead: whatever follows the word does not change it (`Text.Wordwise`).  So texts in which the same
word stands ahead again and again (`Text.WordByWord`) are read in lockstep (`Lockstep.of_words`).
-/

namespace InfixArith

namespace Text

/-! ### The word ahead -/

/-- The text is empty or begins with a blank. -/
def AtBlank (s : List Char) : Prop := ∀ c ∈ s.head?, isBlank c = true

/-- No character of the text is a blank. -/
def NoBlank (s : List Char) : Prop := ∀ c ∈ s, isBlank c = false

instance decidableNoBlank (s : List Char) : Decidable (NoBlank s) :=
  List.decidableBAll _ s

theorem AtBlank.append {r b : List Char} (hr : AtBlank r) (hb : Blanks b) : AtBlank (r ++ b) := by
  cases r with
  | nil => exact fun c hc => hb c (List.mem_of_mem_head? hc)
  | cons c r => exact hr

theorem noBlank_takeWhile (s : List Char) : NoBlank (s.takeWhile fun c => !isBlank c) :=
  fun _ hc => by simpa using List.mem_takeWhile_imp hc

theorem atBlank_dropWhile (s : List Char) : AtBlank (s.dropWhile fun c => !isBlank c) := by
  intro c hc
  have hhead := List.head?_dropWhile_not (fun c => !isBlank c) s
  rw [Option.mem_def.mp hc] at hhead
  simpa using hhead

theorem noBlank_firstWord (s : List Char) : NoBlank (firstWord s) := noBlank_takeWhile (skipBlanks s)

/-- The first word, and a blank or nothing after it. -/
theorem exists_firstWord (s : List Char) : ∃ r, AtBlank r ∧ firstWord s ++ r = skipBlanks s :=
  ⟨_, atBlank_dropWhile (skipBlanks s), List.takeWhile_append_dropWhile⟩

/-- The first word is what stands before the first blank. -/
theorem firstWord_eq {s w r : List Char} (h : skipBlanks s = w ++ r) (hw : NoBlank w)
    (hr : AtBlank r) : firstWord s = w := by
  rw [firstWord, h, List.takeWhile_append_of_pos fun c hc => by rw [hw c hc]; rfl]
  cases r with
  | nil => simp
  | cons c r => simp [hr c rfl]

theorem firstWord_eq_nil_iff {s : List Char} : firstWord s = [] ↔ skipBlanks s = [] := by
  refine ⟨fun h => ?_, fun h => by rw [firstWord, h]; rfl⟩
  cases hs : skipBlanks s with
  | nil => rfl
  | cons c r =>
      rw [firstWord, hs, List.takeWhile_cons, isBlank_of_skipBlanks_eq_cons hs] at h
      cases h

/-- What `find` finds in a text lies before the first blank, and is found whatever follows there. -/
structure Wordwise {α : Type} (find : List Char → Option (α × List Char)) : Prop where
  suffix : ∀ {s x u}, find s = some (x, u) → u <:+ s
  append : ∀ w {r}, AtBlank r → find (w ++ r) = (find w).map fun (x, u) => (x, u ++ r)

theorem isPrefixOf?_append {x r : List Char} (hx : NoBlank x) (w : List Char) (hr : AtBlank r) :
    x.isPrefixOf? (w ++ r) = (x.isPrefixOf? w).map (· ++ r) := by
  induction x generalizing w with
  | nil => rfl
  | cons c x ih =>
      cases w with
      | cons d w =>
          rw [List.cons_append, List.isPrefixOf?, List.isPrefixOf?,
            ih fun d hd => hx d (List.mem_cons_of_mem c hd)]
          split <;> rfl
      | nil =>
          cases r with
          | nil => rfl
          | cons d r =>
              have hne : c ≠ d := by
                rintro rfl
                exact absurd (hr c rfl) (by rw [hx c List.mem_cons_self]; decide)
              simp [List.isPrefixOf?, hne]

theorem wordwise_firstPrefix? {α : Type} {spelling : α → List Char} {xs : List α}
    (hxs : ∀ x ∈ xs, NoBlank (spelling x)) : Wordwise (firstPrefix? spelling xs) where
  suffix h := ⟨_, (firstPrefix?_eq_some h).1⟩
  append w r hr := by
    induction xs with
    | nil => rfl
    | cons x xs ih =>
        rw [List.forall_mem_cons] at hxs
        simp only [firstPrefix?, List.findSome?_cons, isPrefixOf?_append hxs.1 w hr] at ih ⊢
        cases (spelling x).isPrefixOf? w with
        | some u => rfl
        | none => exact ih hxs.2

end Text

open Text (AtBlank NoBlank Wordwise Blanks SameAhead SameFound SamePlace)

/-- No numeral goes on with a blank. -/
theorem Numeral.stops_of_atBlank {r : List Char} (hr : AtBlank r) : Stops r := by
  have hno : ∀ c ∈ r.head?, c.isDigit = false ∧ c ∉ ['.', 'e', 'E', '+', '-'] := by
    intro c hc
    have hsymbol : ¬ (c.isDigit = true ∨ c ∈ ['.', 'e', 'E', '+', '-', '*', '/', '(', ')']) :=
      fun h => absurd (hr c hc) (by rw [Text.isBlank_of_symbol h]; decide)
    rw [not_or] at hsymbol
    exact ⟨Bool.eq_false_iff.mpr hsymbol.1, fun hmem => hsymbol.2 (List.mem_append_left _ hmem)⟩
  simp only [List.mem_cons, List.not_mem_nil, or_false, not_or] at hno
  exact ⟨fun c hc => ⟨(hno c hc).1, (hno c hc).2.1, (hno c hc).2.2.1, (hno c hc).2.2.2.1⟩,
    fun c hc => (hno c hc).2.2.2.2⟩

theorem Numeral.wordwise_scan? : Wordwise scan? where
  suffix h := ⟨_, text_append_of_scan? h⟩
  append w _ hr := (stops_of_atBlank hr).scan?_append w

namespace Table

/-- No token of the table holds a blank. -/
def Unspaced (t : Table) : Prop := ∀ e ∈ t.entries, NoBlank e.token.toList

instance decidableUnspaced (t : Table) : Decidable t.Unspaced :=
  List.decidableBAll _ t.entries

theorem unspaced_arithmetic : arithmetic.Unspaced := by
  decide

theorem Unspaced.wordwise_match? {t : Table} (ht : t.Unspaced) {p : Nat} {level : Level}
    (hl : t.level? p = some level) : Wordwise level.match? := by
  obtain ⟨-, hmem, -⟩ := mem_level? hl
  exact Text.wordwise_firstPrefix? fun e he => ht e ((hmem e).mp (Level.mem_candidates.mp he)).1

end Table

namespace Text

/-! ### Texts with the same words -/

/-- Texts that `R` relates have the same word ahead, and are related after each part of it. -/
structure WordByWord (R : List Char → List Char → Prop) : Prop where
  skip : ∀ {s s'}, R s s' → R (skipBlanks s) (skipBlanks s')
  word : ∀ {s s'}, R s s' → firstWord s = firstWord s'
  cut : ∀ {s s' w r r'}, R s s' → skipBlanks s = w ++ r → skipBlanks s' = w ++ r' → NoBlank w →
    R r r'

namespace WordByWord

variable {R : List Char → List Char → Prop} {s s' : List Char}

theorem sameAhead (hR : WordByWord R) (h : R s s') : SameAhead R (skipBlanks s) (skipBlanks s') := by
  have hskip := hR.skip h
  have hword := hR.word h
  cases hs : skipBlanks s with
  | nil =>
      have hs' := firstWord_eq_nil_iff.mp (hword ▸ firstWord_eq_nil_iff.mpr hs)
      rw [hs, hs'] at hskip
      exact .inl ⟨rfl, hs', hskip⟩
  | cons c r =>
      have hc := isBlank_of_skipBlanks_eq_cons hs
      cases hs' : skipBlanks s' with
      | nil =>
          have hnil := firstWord_eq_nil_iff.mp (hword.symm ▸ firstWord_eq_nil_iff.mpr hs')
          rw [hs] at hnil
          cases hnil
      | cons d r' =>
          have hd := isBlank_of_skipBlanks_eq_cons hs'
          simp only [firstWord, hs, hs', List.takeWhile_cons, hc, hd, Bool.not_false, if_true,
            List.cons.injEq] at hword
          obtain rfl := hword.1
          rw [hs, hs'] at hskip
          have hrest := hR.cut (w := [c]) h hs hs' (List.forall_mem_singleton.mpr hc)
          exact .inr ⟨c, r, r', rfl, rfl, .intro hc hskip, hrest⟩

/-- What lies in the word ahead is found in both texts. -/
theorem sameFound (hR : WordByWord R) {α : Type} {find : List Char → Option (α × List Char)}
    (hfind : Wordwise find) (h : R s s') :
    SameFound R (find (skipBlanks s)) (find (skipBlanks s')) := by
  obtain ⟨r, hr, hs⟩ := exists_firstWord s
  obtain ⟨r', hr', hs'⟩ := exists_firstWord s'
  rw [← hR.word h] at hs'
  rw [← hs, ← hs', hfind.append _ hr, hfind.append _ hr']
  cases hf : find (firstWord s) with
  | none => exact .inl ⟨rfl, rfl⟩
  | some found =>
      obtain ⟨x, u⟩ := found
      obtain ⟨w, hw⟩ := hfind.suffix hf
      have hno : NoBlank w := fun c hc =>
        noBlank_firstWord s c (hw ▸ List.mem_append_left u hc)
      rw [← hw, List.append_assoc] at hs hs'
      exact .inr ⟨x, u ++ r, u ++ r', rfl, rfl, hR.cut h hs.symm hs'.symm hno⟩

end WordByWord

end Text

namespace Reading

/-- **Texts with the same words are read in lockstep**, with a table whose tokens hold no blank. -/
theorem Lockstep.of_words {t : Table} (ht : t.Unspaced) {R : List Char → List Char → Prop}
    (hR : Text.WordByWord R) : Lockstep t R where
  ahead h := hR.sameAhead h
  numeral h := hR.sameFound Numeral.wordwise_scan? h
  token hl h := hR.sameFound (ht.wordwise_match? hl) h

end Reading

end InfixArith
