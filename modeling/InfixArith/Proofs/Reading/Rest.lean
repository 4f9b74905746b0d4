import InfixArith.Proofs.Table.Match
import InfixArith.Reading.Levels

/-!
# Reading — the text left

Reading takes text from the front only: whether it succeeds or fails, the text it leaves is an end
of the text it was given (`expression_rest`).  Each reader has a lemma of its own, over any operand
that is read so.
-/

namespace InfixArith

namespace Text

theorem skipBlanks_suffix (s : List Char) : skipBlanks s <:+ s :=
  List.dropWhile_suffix isBlank

theorem length_lt_of_skipBlanks {s r : List Char} {c : Char} (h : skipBlanks s = c :: r) :
    r.length < s.length := by
  have hle := length_skipBlanks_le s
  rwa [h] at hle

theorem suffix_of_skipBlanks {s r : List Char} {c : Char} (h : skipBlanks s = c :: r) :
    r <:+ s := by
  have hs := skipBlanks_suffix s
  rw [h] at hs
  exact (List.suffix_cons c r).trans hs

end Text

namespace Outcome

variable {α β : Type}

/-- The text left. -/
def rest : Outcome α → List Char
  | .done _ rest     => rest
  | .failed _ rest _ => rest

@[simp] theorem rest_failed (f : Fault) (s : List Char) (n : Nat) :
    (failed f s n : Outcome α).rest = s := rfl

@[simp] theorem rest_enclosed (o : Outcome α) : o.enclosed.rest = o.rest := by
  cases o <;> rfl

theorem rest_andThen {o : Outcome α} {next : α → List Char → Outcome β} {s : List Char}
    (ho : o.rest <:+ s) (hnext : ∀ v r, o = .done v r → (next v r).rest <:+ r) :
    (o.andThen next).rest <:+ s := by
  cases o with
  | done v r => exact (hnext v r rfl).trans ho
  | failed f r n => exact ho

/-! ### Going on after success -/

@[simp] theorem done_andThen (v : α) (s : List Char) (next : α → List Char → Outcome β) :
    (done v s).andThen next = next v s := rfl

@[simp] theorem failed_andThen (f : Fault) (s : List Char) (n : Nat)
    (next : α → List Char → Outcome β) : (failed f s n).andThen next = failed f s n := rfl

@[simp] theorem andThen_done (o : Outcome α) : o.andThen .done = o := by
  cases o <;> rfl

theorem andThen_assoc {γ : Type} (o : Outcome α) (f : α → List Char → Outcome β)
    (g : β → List Char → Outcome γ) :
    (o.andThen f).andThen g = o.andThen fun v s => (f v s).andThen g := by
  cases o <;> rfl

/-- What succeeds in two steps succeeds in each. -/
theorem andThen_eq_done {o : Outcome α} {next : α → List Char → Outcome β} {w : β} {r : List Char}
    (h : o.andThen next = .done w r) : ∃ v s, o = .done v s ∧ next v s = .done w r := by
  cases o with
  | done v s => exact ⟨v, s, rfl, h⟩
  | failed f s n => cases h

theorem andThen_congr {o : Outcome α} {f g : α → List Char → Outcome β}
    (h : ∀ v s, o = .done v s → f v s = g v s) : o.andThen f = o.andThen g := by
  cases o with
  | done v s => exact h v s rfl
  | failed f s n => rfl

end Outcome

namespace Level

variable {maxHeight : Nat} {level : Level} {operand : List Char → Reply Measured}

theorem combine_rest (maxHeight : Nat) (e : Entry) (place : List Char) (l r : Measured)
    (s : List Char) : (combine maxHeight e place l r s).outcome.rest <:+ s := by
  unfold combine
  split <;> exact List.suffix_refl s

theorem match?_suffix {s r : List Char} {e : Entry}
    (h : level.match? (Text.skipBlanks s) = some (e, r)) : r <:+ s :=
  (List.IsSuffix.trans ⟨_, (match?_eq_some h).2.1⟩ (Text.skipBlanks_suffix s))

theorem chainLeft_rest (hop : ∀ s, (operand s).outcome.rest <:+ s) (bound : List Char)
    (l : Measured) (s : List Char) :
    (chainLeft maxHeight level operand bound l s).outcome.rest <:+ s := by
  induction bound generalizing l s with
  | nil => exact List.suffix_refl s
  | cons _ bound ih =>
      unfold chainLeft
      dsimp only
      split
      · exact Text.skipBlanks_suffix s
      · next e r hm =>
        simp only [Reply.outcome_after, Reply.outcome_andThen]
        refine Outcome.rest_andThen ((hop r).trans (match?_suffix hm)) fun m s' _ => ?_
        exact Outcome.rest_andThen (combine_rest _ _ _ _ _ _) fun both s'' _ => ih both s''

theorem links_rest (hop : ∀ s, (operand s).outcome.rest <:+ s) (bound s : List Char) :
    (links level operand bound s).outcome.rest <:+ s := by
  induction bound generalizing s with
  | nil => exact List.suffix_refl s
  | cons _ bound ih =>
      unfold links
      dsimp only
      split
      · exact Text.skipBlanks_suffix s
      · next e r hm =>
        simp only [Reply.outcome_after, Reply.outcome_andThen]
        refine Outcome.rest_andThen ((hop r).trans (match?_suffix hm)) fun m s' _ => ?_
        exact Outcome.rest_andThen (ih s') fun ls s'' _ => List.suffix_refl s''

theorem foldLinks_rest (l : Measured) (ls : List Link) (s : List Char) :
    (foldLinks maxHeight l ls s).outcome.rest <:+ s := by
  induction ls generalizing l with
  | nil => exact List.suffix_refl s
  | cons link ls ih =>
      rw [foldLinks, Reply.outcome_andThen]
      exact Outcome.rest_andThen (ih link.operand) fun r s' _ => combine_rest _ _ _ _ _ _

theorem chainOnce_rest (hop : ∀ s, (operand s).outcome.rest <:+ s) (l : Measured)
    (s : List Char) : (chainOnce maxHeight level operand l s).outcome.rest <:+ s := by
  unfold chainOnce
  dsimp only
  split
  · exact Text.skipBlanks_suffix s
  · next e r hm =>
    simp only [Reply.outcome_after, Reply.outcome_andThen]
    refine Outcome.rest_andThen ((hop r).trans (match?_suffix hm)) fun m s' _ => ?_
    split
    · exact Text.skipBlanks_suffix s'
    · exact (combine_rest _ _ _ _ _ _).trans (Text.skipBlanks_suffix s')

theorem chain_rest (hop : ∀ s, (operand s).outcome.rest <:+ s) (l : Measured) (s : List Char) :
    (chain maxHeight level operand l s).outcome.rest <:+ s := by
  unfold chain
  split
  · exact chainLeft_rest hop s l s
  · rw [Reply.outcome_andThen]
    exact Outcome.rest_andThen (links_rest hop s s) fun ls s' _ => foldLinks_rest l ls s'
  · exact chainOnce_rest hop l s

theorem descend_rest {atom : List Char → Reply Measured}
    (hatom : ∀ s, (atom s).outcome.rest <:+ s) (levels : List Level) (s : List Char) :
    (descend maxHeight atom levels s).outcome.rest <:+ s := by
  induction levels generalizing s with
  | nil => exact hatom s
  | cons level levels ih =>
      simp only [descend, Reply.outcome_after, Reply.outcome_andThen]
      exact Outcome.rest_andThen (ih s) fun l s' _ => chain_rest ih l s'

end Level

namespace Reading

theorem closing_rest (s : List Char) : (closing s).outcome.rest <:+ s := by
  have hs := Text.skipBlanks_suffix s
  unfold closing
  split
  · exact List.nil_suffix
  · next r hr =>
    rw [hr] at hs
    exact (List.suffix_cons ')' r).trans hs
  · next c r _ hr =>
    rw [hr] at hs
    exact hs

theorem operand_rest {inner : Option (List Char → Reply Measured)}
    (hinner : ∀ f ∈ inner, ∀ s, (f s).outcome.rest <:+ s) (s : List Char) :
    (operand inner s).outcome.rest <:+ s := by
  have hs := Text.skipBlanks_suffix s
  unfold operand
  split
  · exact List.nil_suffix
  · next r hr =>
    rw [hr] at hs
    have hr := (List.suffix_cons '(' r).trans hs
    split
    · exact hr
    · next f =>
      simp only [Reply.outcome_andThen, Reply.outcome_enclosed]
      refine Outcome.rest_andThen ?_ fun m s' _ => ?_
      · rw [Outcome.rest_enclosed]
        exact (hinner f rfl r).trans hr
      · exact Outcome.rest_andThen (closing_rest s') fun _ s'' _ => List.suffix_refl s''
  · split
    · exact hs
    · next n r hn => exact List.IsSuffix.trans ⟨_, Numeral.text_append_of_scan? hn⟩ hs

theorem atom_rest (maxHeight : Nat) (levels : List Level) (nesting : Nat) (s : List Char) :
    (atom maxHeight levels nesting s).outcome.rest <:+ s := by
  induction nesting generalizing s with
  | zero => exact operand_rest (fun _ hf => by cases hf) s
  | succ nesting ih =>
      refine operand_rest ?_ s
      rintro f ⟨rfl⟩
      exact Level.descend_rest ih levels

/-- **Reading leaves an end of the text**, whatever it comes to. -/
theorem expression_rest (t : Table) (maxHeight nesting : Nat) (levels : List Level)
    (s : List Char) : (expression t maxHeight nesting levels s).outcome.rest <:+ s :=
  Level.descend_rest (atom_rest maxHeight t.levels.reverse nesting) levels s

end Reading

end InfixArith
