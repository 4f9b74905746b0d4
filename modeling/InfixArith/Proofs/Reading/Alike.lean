import InfixArith.Proofs.Reading.Places

/-!
# Reading — texts that are read alike

Texts that a relation `R` relates are read in *lockstep* if a reader finds the same ahead in both: the
same character once blanks are skipped, the same numeral, the same token, and related texts after each
(`Lockstep`).  Then both are read as the same expression or with the same fault, at related places
(`read_alike`), and so are calls (`Call.outcome_alike`) and sources (`Reading.ofSource_alike`).

Equal texts are read in lockstep (`Lockstep.equal`).  So every fault is alike to itself, which says
what stands at its place: no blank, and what the fault quotes (`Fault.Alike.quote_prefix`).
-/

namespace InfixArith

variable {R : List Char → List Char → Prop}

namespace Text

/-- Related texts that begin with the same character, which is no blank. -/
inductive SamePlace (R : List Char → List Char → Prop) : List Char → List Char → Prop where
  | intro {c : Char} {r r' : List Char} (hc : isBlank c = false) (h : R (c :: r) (c :: r')) :
      SamePlace R (c :: r) (c :: r')

theorem SamePlace.rel {s s' : List Char} (h : SamePlace R s s') : R s s' := by
  cases h with
  | intro _ h => exact h

/-- Related texts, neither of which begins with a blank: they are empty or begin with the same
character, and what follows it is related. -/
def SameAhead (R : List Char → List Char → Prop) (s s' : List Char) : Prop :=
  (s = [] ∧ s' = [] ∧ R [] []) ∨
    ∃ c r r', s = c :: r ∧ s' = c :: r' ∧ SamePlace R (c :: r) (c :: r') ∧ R r r'

/-- The same is found at the beginning of both texts, and what follows it is related. -/
def SameFound {α : Type} (R : List Char → List Char → Prop) (o o' : Option (α × List Char)) : Prop :=
  (o = none ∧ o' = none) ∨ ∃ x r r', o = some (x, r) ∧ o' = some (x, r') ∧ R r r'

theorem SameAhead.rel {s s' : List Char} (h : SameAhead R s s') : R s s' := by
  rcases h with ⟨rfl, rfl, h⟩ | ⟨c, r, r', rfl, rfl, h, -⟩
  · exact h
  · exact h.rel

theorem SameFound.refl {α : Type} (o : Option (α × List Char)) : SameFound Eq o o := by
  rcases o with _ | ⟨x, r⟩
  · exact .inl ⟨rfl, rfl⟩
  · exact .inr ⟨x, r, r, rfl, rfl, rfl⟩

end Text

open Text (SameAhead SamePlace SameFound)

namespace Fault

/-- The same fault, at related places. -/
inductive Alike (R : List Char → List Char → Prop) : Fault → Fault → Prop where
  | endOfText (x : Expectation) : Alike R (.endOfText x) (.endOfText x)
  | unclosed {c : Char} {r r' : List Char} (h : SamePlace R (c :: r) (c :: r')) :
      Alike R (.unclosed c (c :: r)) (.unclosed c (c :: r'))
  | notOperand {p p' : List Char} (h : SamePlace R p p') : Alike R (.notOperand p) (.notOperand p')
  | trailing {p p' : List Char} (h : SamePlace R p p') : Alike R (.trailing p) (.trailing p')
  | chained {token : String} {p p' : List Char} (htoken : token.toList <+: p)
      (h : SamePlace R p p') : Alike R (.chained token p) (.chained token p')
  | nestingTooDeep {p p' : List Char} (h : SamePlace R p p') :
      Alike R (.nestingTooDeep p) (.nestingTooDeep p')
  | treeTooDeep {p p' : List Char} (h : SamePlace R p p') :
      Alike R (.treeTooDeep p) (.treeTooDeep p')

end Fault

namespace Outcome

variable {α β : Type}

/-- The same value and related texts left, or the same fault. -/
inductive Alike (R : List Char → List Char → Prop) : Outcome α → Outcome α → Prop where
  | done (v : α) {r r' : List Char} (hr : R r r') : Alike R (.done v r) (.done v r')
  | failed {f f' : Fault} (hf : f.Alike R f') (r r' : List Char) (n : Nat) :
      Alike R (.failed f r n) (.failed f' r' n)

namespace Alike

variable {o o' : Outcome α}

theorem andThen (h : o.Alike R o') {next next' : α → List Char → Outcome β}
    (hnext : ∀ v r r', o = .done v r → R r r' → (next v r).Alike R (next' v r')) :
    (o.andThen next).Alike R (o'.andThen next') := by
  cases h with
  | done v hr => exact hnext v _ _ rfl hr
  | failed hf r r' n => exact .failed hf r r' n

theorem enclosed (h : o.Alike R o') : o.enclosed.Alike R o'.enclosed := by
  cases h with
  | done v hr => exact .done v hr
  | failed hf r r' n => exact .failed hf r r' (n + 1)

end Alike

end Outcome

namespace Reading

/-- What `R` relates, a reader with the table `t` finds the same in. -/
structure Lockstep (t : Table) (R : List Char → List Char → Prop) : Prop where
  ahead : ∀ {s s'}, R s s' → SameAhead R (Text.skipBlanks s) (Text.skipBlanks s')
  numeral : ∀ {s s'}, R s s' →
    SameFound R (Numeral.scan? (Text.skipBlanks s)) (Numeral.scan? (Text.skipBlanks s'))
  token : ∀ {p level s s'}, t.level? p = some level → R s s' →
    SameFound R (level.match? (Text.skipBlanks s)) (level.match? (Text.skipBlanks s'))

theorem Lockstep.equal (t : Table) : Lockstep t Eq where
  ahead := by
    rintro s - rfl
    cases hs : Text.skipBlanks s with
    | nil => exact .inl ⟨rfl, rfl, rfl⟩
    | cons c r =>
        have hc := Text.isBlank_of_skipBlanks_eq_cons hs
        exact .inr ⟨c, r, r, rfl, rfl, .intro hc rfl, rfl⟩
  numeral := by
    rintro s - rfl
    exact .refl _
  token := by
    rintro p level s - - rfl
    exact .refl _

variable {t : Table} {h d p : Nat} {s s' : List Char}

theorem closing_alike (hR : Lockstep t R) (hs : R s s') :
    (closing s).outcome.Alike R (closing s').outcome := by
  unfold closing
  rcases hR.ahead hs with ⟨hu, hu', -⟩ | ⟨c, r, r', hu, hu', hplace, hr⟩
  · rw [hu, hu']
    exact .failed (.endOfText _) _ _ _
  · rw [hu, hu']
    split
    · next heq => cases heq
    · next heq =>
      cases heq
      exact .done () hr
    · next hclose heq =>
      cases heq
      split
      · next heq => cases heq
      · next heq =>
        cases heq
        exact absurd rfl hclose
      · next heq =>
        cases heq
        exact .failed (.unclosed hplace) _ _ _

theorem combine_alike {e : Entry} {l m : Measured} {place place' r r' : List Char}
    (hplace : SamePlace R place place') (hr : R r r') :
    (Level.combine h e place l m r).outcome.Alike R
      (Level.combine h e place' l m r').outcome := by
  by_cases hfit : max l.height m.height + 1 ≤ h
  · rw [Level.combine_fits hfit, Level.combine_fits hfit]
    exact .done _ hr
  · rw [Level.combine_too_high hfit, Level.combine_too_high hfit]
    exact .failed (.treeTooDeep hplace) _ _ _

theorem read_zero_alike (hR : Lockstep t R) (hs : R s s')
    (ih : ∀ r : List Char, r.length < s.length → ∀ r' d, R r r' →
      (read t h d t.maxPrecedence r).Alike R (read t h d t.maxPrecedence r')) :
    (read t h d 0 s).Alike R (read t h d 0 s') := by
  rcases hR.ahead hs with ⟨hu, hu', -⟩ | ⟨c, r, r', hu, hu', hplace, hr⟩
  · rw [read_nothing hu, read_nothing hu']
    exact .failed (.endOfText _) _ _ _
  · by_cases hopen : c = '('
    · subst hopen
      cases d with
      | zero =>
          rw [read_parens_too_deep hu, read_parens_too_deep hu']
          exact .failed (.nestingTooDeep hplace) _ _ _
      | succ d =>
          rw [read_parens hu, read_parens hu']
          have hinner := ih r (Text.length_lt_of_skipBlanks hu) r' d hr
          refine hinner.enclosed.andThen fun m u u' _ hu => ?_
          exact (closing_alike hR hu).andThen fun _ v v' _ hv => .done m hv
    · rw [read_numeral hu hopen, read_numeral hu' hopen]
      have hnumeral := hR.numeral hs
      rw [hu, hu'] at hnumeral
      rcases hnumeral with ⟨hn, hn'⟩ | ⟨n, v, v', hn, hn', hv⟩
      · rw [hn, hn']
        exact .failed (.notOperand hplace) _ _ _
      · rw [hn, hn']
        exact .done _ hv

/-- A token is matched at a place. -/
theorem Lockstep.place_of_match (hR : Lockstep t R) (hs : R s s') {level : Level} {e : Entry}
    {r : List Char} (hl : t.level? p = some level)
    (hm : level.match? (Text.skipBlanks s) = some (e, r)) :
    SamePlace R (Text.skipBlanks s) (Text.skipBlanks s') := by
  rcases hR.ahead hs with ⟨hu, -, -⟩ | ⟨c, v, v', hu, hu', hplace, -⟩
  · rw [hu] at hm
    exact absurd (length_of_match hl hm) (Nat.not_lt_zero _)
  · rwa [hu, hu']

theorem afterOperand_alike (hR : Lockstep t R) {level : Level} {e : Entry} {place place' : List Char}
    (hl : t.level? (p + 1) = some level) (hplace : SamePlace R place place') (hs : R s s')
    (l m : Measured)
    (ih : ∀ u, u.length ≤ s.length → ∀ u', R u u' →
      ∀ l, (extend t h d (p + 1) l u).Alike R (extend t h d (p + 1) l u')) :
    (afterOperand t h d p level e place l m s).Alike R
      (afterOperand t h d p level e place' l m s') := by
  unfold afterOperand
  split
  · refine (combine_alike hplace hs).andThen fun both v v' hc hv => ?_
    obtain ⟨-, rfl, -⟩ := Level.combine_eq_done hc
    exact ih v (Nat.le_refl _) v' hv both
  · exact (ih s (Nat.le_refl _) s' hs m).andThen fun both v v' _ hv => combine_alike hplace hv
  · rcases hR.token hl hs with ⟨hn, hn'⟩ | ⟨again, v, v', hn, hn', -⟩
    · rw [hn, hn']
      exact combine_alike hplace (hR.ahead hs).rel
    · rw [hn, hn']
      have htoken : again.token.toList <+: Text.skipBlanks s := ⟨v, (Level.match?_eq_some hn).2.1⟩
      exact .failed (.chained htoken (hR.place_of_match hs hl hn)) _ _ _

theorem extend_alike (hR : Lockstep t R) (hs : R s s') (l : Measured)
    (ih : ∀ r : List Char, r.length < s.length → ∀ r', R r r' →
      (read t h d p r).Alike R (read t h d p r') ∧
        ∀ l, (extend t h d (p + 1) l r).Alike R (extend t h d (p + 1) l r')) :
    (extend t h d (p + 1) l s).Alike R (extend t h d (p + 1) l s') := by
  cases hl : t.level? (p + 1) with
  | none =>
      rw [extend_of_no_level hl, extend_of_no_level hl]
      exact .done l hs
  | some level =>
      rcases hR.token hl hs with ⟨hm, hm'⟩ | ⟨e, r, r', hm, hm', hr⟩
      · rw [extend_of_no_match hl hm, extend_of_no_match hl hm']
        exact .done l (hR.ahead hs).rel
      · rw [extend_of_match hl hm, extend_of_match hl hm']
        have hoperand := (ih r (length_skip_match hl hm) r' hr).1
        refine hoperand.andThen fun m u u' hread hu => ?_
        have hlt := length_link hl hm hread
        exact afterOperand_alike hR hl (hR.place_of_match hs hl hm) hu l m fun v hv v' hvv =>
          (ih v (Nat.lt_of_le_of_lt hv hlt) v' hvv).2

/-- **Texts in lockstep are read alike**: as the same expression, with related texts left, or with the
same fault at related places. -/
theorem read_alike (hR : Lockstep t R) (h d p : Nat) (hs : R s s') :
    (read t h d p s).Alike R (read t h d p s') := by
  refine (reading_induction
    (R := fun p s => ∀ s' d, R s s' → (read t h d p s).Alike R (read t h d p s'))
    (E := fun s => ∀ s' p d l, R s s' →
      (extend t h d (p + 1) l s).Alike R (extend t h d (p + 1) l s'))
    ?_ ?_ ?_ s).1 p s' d hs
  · intro s ih s' d hs
    exact read_zero_alike hR hs fun r hlt r' d => ih r hlt t.maxPrecedence r' d
  · intro p s ihr ihx s' d hs
    rw [read_succ, read_succ]
    exact (ihr s' d hs).andThen fun l u u' hl hu => ihx u (length_read hl) u' p d l hu
  · intro s ih s' p d l hs
    exact extend_alike hR hs l fun r hlt r' hr =>
      ⟨(ih r hlt).1 p r' d hr, fun l => (ih r hlt).2 r' p d l hr⟩

end Reading

namespace Call

variable {t : Table} {s s' : List Char}

theorem finish_alike (hR : Reading.Lockstep t R) (call : Call) (m : Measured) (hs : R s s') :
    (call.finish m s).Alike R (call.finish m s') := by
  cases call with
  | whole =>
      rw [finish, finish]
      rcases hR.ahead hs with ⟨hu, hu', hnil⟩ | ⟨c, r, r', hu, hu', hplace, -⟩
      · rw [hu, hu']
        exact .done m hnil
      · rw [hu, hu']
        exact .failed (.trailing hplace) _ _ _
  | expression | level p => exact .done m hs

/-- Calls on texts in lockstep come to the same. -/
theorem outcome_alike (hR : Reading.Lockstep t R) (h d : Nat) (call : Call) (hs : R s s') :
    (call.outcome t h d s).Alike R (call.outcome t h d s') :=
  (Reading.read_alike hR h d _ hs).andThen fun m _ _ _ hu => finish_alike hR call m hu

end Call

/-- Sources in lockstep come to the same tree, or to alike faults at places of the sources. -/
theorem Reading.ofSource_alike {t : Table} {s s' : List Char} (hR : Lockstep t R) (hs : R s s')
    (limits : Limits) :
    (∃ e, (ofSource t limits s).result = .ok e ∧ (ofSource t limits s').result = .ok e) ∨
    ∃ f f' : Fault, f.Alike R f' ∧ (∀ place ∈ f.place?, place <:+ s) ∧
      (∀ place ∈ f'.place?, place <:+ s') ∧
      (ofSource t limits s).result = .error (f.report limits (Text.byteSize s)) ∧
      (ofSource t limits s').result = .error (f'.report limits (Text.byteSize s')) := by
  have halike := Call.outcome_alike hR limits.maxHeight limits.maxNesting .whole hs
  have hplace := Call.outcome_failsWithin (t := t) (h := limits.maxHeight) (d := limits.maxNesting)
    .whole s
  have hplace' := Call.outcome_failsWithin (t := t) (h := limits.maxHeight) (d := limits.maxNesting)
    .whole s'
  simp only [ofSource, run_result, outcomeAt, Position.start, Nat.sub_zero]
  revert halike hplace hplace'
  generalize Call.outcome t limits.maxHeight limits.maxNesting .whole s = o
  generalize Call.outcome t limits.maxHeight limits.maxNesting .whole s' = o'
  rintro (⟨m, -⟩ | ⟨hf, r, r', n⟩) hplace hplace'
  · exact .inl ⟨m.expr, rfl, rfl⟩
  · cases hplace with
    | failed _ hplace _ =>
      cases hplace' with
      | failed _ hplace' _ => exact .inr ⟨_, _, hf, hplace, hplace', rfl, rfl⟩

namespace Fault

/-- What a fault quotes of the text at its place. -/
def quote : Fault → List Char
  | .unclosed c _     => [c]
  | .notOperand place => place.take quotedLength
  | .trailing place   => place
  | .chained token _  => token.toList
  | _                 => []

/-- What a fault quotes stands at its place. -/
theorem Alike.quote_prefix {f f' : Fault} (h : f.Alike R f') : ∀ place ∈ f.place?, f.quote <+: place
    := by
  cases h with
  | endOfText x => exact nofun
  | unclosed h =>
      rintro place ⟨rfl⟩
      exact ⟨_, rfl⟩
  | notOperand h =>
      rintro place ⟨rfl⟩
      exact List.take_prefix _ _
  | trailing h =>
      rintro place ⟨rfl⟩
      exact List.prefix_refl _
  | chained htoken h =>
      rintro place ⟨rfl⟩
      exact htoken
  | nestingTooDeep h | treeTooDeep h =>
      rintro place ⟨rfl⟩
      exact List.nil_prefix

end Fault

end InfixArith
