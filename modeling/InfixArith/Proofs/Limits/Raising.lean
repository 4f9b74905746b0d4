import InfixArith.Proofs.Reading.Steps

/-!
# Limits — raising them

Under higher limits a text is read as it was, unless a limit was reached (`read_cutsOff`).  Each
operation takes a character of the text, and so does each parenthesis; so a text does not reach
limits of its own length (`not_refused`), and the outcome under these limits is the one under any
higher ones (`read_eq_unlimited`).

* `Outcome.Refused`: a limit was reached.
* `Outcome.CutsOff o O`: `o` is `O`, but may have been cut off at a limit.
* `Reading.unlimited`: the outcome under limits that the text does not reach.
-/

namespace InfixArith

/-- Whether a fault is that a limit was reached. -/
def Fault.isLimit : Fault → Bool
  | .nestingTooDeep _ | .treeTooDeep _ => true
  | _                                  => false

namespace Outcome

variable {α β : Type}

/-- A limit was reached. -/
def Refused (o : Outcome α) : Prop :=
  ∃ place r n, o = .failed (.nestingTooDeep place) r n ∨ o = .failed (.treeTooDeep place) r n

namespace Refused

theorem andThen {o : Outcome α} (ho : o.Refused) (next : α → List Char → Outcome β) :
    (o.andThen next).Refused := by
  obtain ⟨place, r, n, rfl | rfl⟩ := ho
  · exact ⟨place, r, n, .inl rfl⟩
  · exact ⟨place, r, n, .inr rfl⟩

theorem enclosed {o : Outcome α} (ho : o.Refused) : o.enclosed.Refused := by
  obtain ⟨place, r, n, rfl | rfl⟩ := ho
  · exact ⟨place, r, n + 1, .inl rfl⟩
  · exact ⟨place, r, n + 1, .inr rfl⟩

end Refused

theorem not_refused_done (v : α) (s : List Char) : ¬ (done v s).Refused := by
  rintro ⟨place, r, n, h | h⟩
  · cases h
  · cases h

theorem refused_failed_iff {f : Fault} {s : List Char} {n : Nat} :
    (failed f s n : Outcome α).Refused ↔ f.isLimit = true := by
  constructor
  · rintro ⟨place, r, k, h | h⟩
    · cases h
      rfl
    · cases h
      rfl
  · intro hf
    cases f with
    | nestingTooDeep place => exact ⟨place, s, n, .inl rfl⟩
    | treeTooDeep place => exact ⟨place, s, n, .inr rfl⟩
    | endOfText _ | unclosed _ _ | notOperand _ | trailing _ | chained _ _ => cases hf

theorem not_refused_failed {f : Fault} {s : List Char} {n : Nat} (hf : f.isLimit = false) :
    ¬ (failed f s n : Outcome α).Refused := by
  rw [refused_failed_iff, hf]
  exact Bool.false_ne_true

/-- Two steps reach a limit only if one of them does. -/
theorem not_refused_andThen {o : Outcome α} {next : α → List Char → Outcome β} (ho : ¬ o.Refused)
    (hnext : ∀ v s, o = .done v s → ¬ (next v s).Refused) : ¬ (o.andThen next).Refused := by
  cases o with
  | done v s => exact hnext v s rfl
  | failed f r n => exact fun ⟨place, r, n, h⟩ => ho ⟨place, r, n, by simpa using h⟩

theorem not_refused_enclosed {o : Outcome α} (ho : ¬ o.Refused) : ¬ o.enclosed.Refused := by
  cases o with
  | done v s => exact not_refused_done v s
  | failed f r n =>
      rintro ⟨place, r', n', h | h⟩
      · cases h
        exact ho ⟨place, r, n, .inl rfl⟩
      · cases h
        exact ho ⟨place, r, n, .inr rfl⟩

/-- `o` is `O`, but may have been cut off at a limit. -/
def CutsOff (o O : Outcome α) : Prop := o.Refused ∨ o = O

namespace CutsOff

variable {o O : Outcome α}

theorem refl (o : Outcome α) : CutsOff o o := .inr rfl

theorem eq_of_done {v : α} {s : List Char} (h : CutsOff o O) (ho : o = .done v s) :
    O = .done v s := by
  rcases h with h | h
  · rw [ho] at h
    exact absurd h (not_refused_done v s)
  · exact h ▸ ho

theorem andThen {f F : α → List Char → Outcome β} (h : CutsOff o O)
    (hnext : ∀ v s, o = .done v s → CutsOff (f v s) (F v s)) :
    CutsOff (o.andThen f) (O.andThen F) := by
  rcases h with h | rfl
  · exact .inl (h.andThen f)
  · cases o with
    | done v s => exact hnext v s rfl
    | failed f r n => exact refl _

theorem enclosed (h : CutsOff o O) : CutsOff o.enclosed O.enclosed := by
  rcases h with h | rfl
  · exact .inl h.enclosed
  · exact refl _

end CutsOff

end Outcome

namespace Level

variable {h H : Nat}

/-- An operation that is too high is refused. -/
theorem combine_refused {maxHeight : Nat} {e : Entry} {l r : Measured}
    (h : ¬ max l.height r.height + 1 ≤ maxHeight) (place s : List Char) :
    (combine maxHeight e place l r s).outcome.Refused := by
  rw [combine_too_high h]
  exact ⟨place, s, 0, .inr rfl⟩

theorem combine_cutsOff (hh : h ≤ H) (e : Entry) (place : List Char) (l r : Measured)
    (s : List Char) :
    (combine h e place l r s).outcome.CutsOff (combine H e place l r s).outcome := by
  by_cases hfit : max l.height r.height + 1 ≤ h
  · rw [combine_fits hfit, combine_fits (Nat.le_trans hfit hh)]
    exact .refl _
  · exact .inl (combine_refused hfit place s)

end Level

namespace Reading

variable {t : Table} {h H d D p : Nat} {l m : Measured} {s r : List Char}

/-! ### Higher limits -/

theorem read_zero_cutsOff (hd : d ≤ D)
    (ih : ∀ q : List Char, q.length < s.length → ∀ d D, d ≤ D →
      (read t h d t.maxPrecedence q).CutsOff (read t H D t.maxPrecedence q)) :
    (read t h d 0 s).CutsOff (read t H D 0 s) := by
  rw [read_zero t h, read_zero t H]
  split
  · exact .refl _
  · next q hs =>
    cases d with
    | zero => exact .inl ⟨_, _, _, .inl rfl⟩
    | succ d =>
        obtain ⟨D, rfl⟩ := Nat.exists_eq_add_of_le' (Nat.le_trans (Nat.le_add_left 1 d) hd)
        have hq := Text.length_lt_of_skipBlanks hs
        exact (ih q hq d D (Nat.le_of_succ_le_succ hd)).enclosed.andThen fun _ _ _ => .refl _
  · exact .refl _

theorem afterOperand_cutsOff (hh : h ≤ H) (level : Level) (e : Entry) (place : List Char)
    (l m : Measured)
    (ih : ∀ l, (extend t h d (p + 1) l s).CutsOff (extend t H D (p + 1) l s)) :
    (afterOperand t h d p level e place l m s).CutsOff
      (afterOperand t H D p level e place l m s) := by
  unfold afterOperand
  split
  · refine (Level.combine_cutsOff hh e place l m s).andThen fun both v hc => ?_
    obtain ⟨-, rfl, -⟩ := Level.combine_eq_done hc
    exact ih both
  · exact (ih m).andThen fun both v _ => Level.combine_cutsOff hh e place l both v
  · split
    · exact .refl _
    · exact Level.combine_cutsOff hh e place l m _

theorem extend_cutsOff (hh : h ≤ H) (l : Measured)
    (ih : ∀ q : List Char, q.length < s.length →
      (read t h d p q).CutsOff (read t H D p q) ∧
        ∀ l, (extend t h d (p + 1) l q).CutsOff (extend t H D (p + 1) l q)) :
    (extend t h d (p + 1) l s).CutsOff (extend t H D (p + 1) l s) := by
  cases hl : t.level? (p + 1) with
  | none =>
      rw [extend_of_no_level hl, extend_of_no_level hl]
      exact .refl _
  | some level =>
      cases hm : level.match? (Text.skipBlanks s) with
      | none =>
          rw [extend_of_no_match hl hm, extend_of_no_match hl hm]
          exact .refl _
      | some found =>
          obtain ⟨e, q⟩ := found
          rw [extend_of_match hl hm, extend_of_match hl hm]
          refine (ih q (length_skip_match hl hm)).1.andThen fun o u ho => ?_
          exact afterOperand_cutsOff hh level e _ l o (ih u (length_link hl hm ho)).2

/-- **Raising the limits changes nothing but where a limit was reached.** -/
theorem read_cutsOff (hh : h ≤ H) (hd : d ≤ D) (p : Nat) (s : List Char) :
    (read t h d p s).CutsOff (read t H D p s) := by
  refine (reading_induction
    (R := fun p s => ∀ d D, d ≤ D → (read t h d p s).CutsOff (read t H D p s))
    (E := fun s => ∀ p d D l, d ≤ D →
      (extend t h d (p + 1) l s).CutsOff (extend t H D (p + 1) l s))
    ?_ ?_ ?_ s).1 p d D hd
  · intro s ih d D hd
    exact read_zero_cutsOff hd fun q hq => ih q hq t.maxPrecedence
  · intro p s ihr ihx d D hd
    rw [read_succ, read_succ]
    exact (ihr d D hd).andThen fun l u hl => ihx u (length_read hl) p d D l hd
  · intro s ih p d D l hd
    exact extend_cutsOff hh l fun q hq => ⟨(ih q hq).1 p d D hd, fun l => (ih q hq).2 p d D l hd⟩

/-! ### Limits that are not reached -/

/-- A chain is gone on to no more operations on a path than its first operand has and characters were
taken. -/
theorem height_extend_add_length
    (ih : ∀ q : List Char, q.length < s.length →
      (∀ o u, read t h d p q = .done o u → o.height + u.length ≤ q.length) ∧
        ∀ l m r, extend t h d (p + 1) l q = .done m r → m.height + r.length ≤ l.height + q.length)
    (hx : extend t h d (p + 1) l s = .done m r) : m.height + r.length ≤ l.height + s.length := by
  -- the token takes a character, which pays for the operation
  have operand : ∀ {level e q o u}, t.level? (p + 1) = some level →
      level.match? (Text.skipBlanks s) = some (e, q) → read t h d p q = .done o u →
        o.height + u.length < s.length := by
    intro level e q o u hl hm ho
    have hq := length_skip_match hl hm
    exact Nat.lt_of_le_of_lt ((ih q hq).1 o u ho) hq
  cases extend_eq_done_iff.mp hx with
  | noLevel => exact Nat.le_refl _
  | noMatch => exact Nat.add_le_add_left (Text.length_skipBlanks_le s) _
  | left hl ha hm ho hfit hnext =>
      have hsum := operand hl hm ho
      have hrest := (ih _ (length_link hl hm ho)).2 _ m r hnext
      rw [Measured.height_build] at hrest
      omega
  | right hl ha hm ho hnext hfit =>
      have hsum := operand hl hm ho
      have hrest := (ih _ (length_link hl hm ho)).2 _ _ r hnext
      have hr := length_extend hnext
      rw [Measured.height_build]
      omega
  | @once level e q u o hl ha hm ho hno hfit =>
      have hsum := operand hl hm ho
      have hskip := Text.length_skipBlanks_le u
      rw [Measured.height_build]
      omega

/-- What is read has no more operations on a path than characters were taken, and what a chain is
gone on to no more than its first operand has besides. -/
theorem height_add_length (p : Nat) (s : List Char) :
    (∀ d m r, read t h d p s = .done m r → m.height + r.length ≤ s.length) ∧
      ∀ p d l m r, extend t h d (p + 1) l s = .done m r →
        m.height + r.length ≤ l.height + s.length := by
  have hboth := reading_induction
    (R := fun p s => ∀ d m r, read t h d p s = .done m r → m.height + r.length ≤ s.length)
    (E := fun s => ∀ p d l m r, extend t h d (p + 1) l s = .done m r →
      m.height + r.length ≤ l.height + s.length)
    ?_ ?_ ?_ s
  · exact ⟨hboth.1 p, hboth.2⟩
  · intro s ih d m r hr
    have hle := length_read hr
    cases read_zero_eq_done_iff.mp hr with
    | numeral => simpa [Measured.literal] using hle
    | parens hs hm hu =>
        have hq := Text.length_lt_of_skipBlanks hs
        have hinner := ih _ hq _ _ _ _ hm
        have hu := Text.length_lt_of_skipBlanks hu
        omega
  · intro p s ihr ihx d m r hr
    obtain ⟨l, u, hl, hx⟩ := read_succ_eq_done_iff.mp hr
    exact Nat.le_trans (ihx u (length_read hl) p d l m r hx) (ihr d l u hl)
  · intro s ih p d l m r hx
    exact height_extend_add_length (fun q hq => ⟨(ih q hq).1 p d, (ih q hq).2 p d⟩) hx

theorem not_refused_closing (s : List Char) : ¬ (closing s).outcome.Refused := by
  unfold closing
  split
  · exact Outcome.not_refused_failed rfl
  · exact Outcome.not_refused_done _ _
  · exact Outcome.not_refused_failed rfl

theorem not_refused_zero (hd : s.length ≤ d)
    (ih : ∀ q : List Char, q.length < s.length → ∀ d, q.length ≤ d →
      ¬ (read t h d t.maxPrecedence q).Refused) : ¬ (read t h d 0 s).Refused := by
  rw [read_zero]
  split
  · exact Outcome.not_refused_failed rfl
  · next q hs =>
    have hq := Text.length_lt_of_skipBlanks hs
    obtain ⟨d, rfl⟩ := Nat.exists_eq_add_one.mpr (Nat.zero_lt_of_lt (Nat.lt_of_lt_of_le hq hd))
    have hinner := ih q hq d (Nat.le_of_lt_succ (Nat.lt_of_lt_of_le hq hd))
    refine Outcome.not_refused_andThen (Outcome.not_refused_enclosed hinner) fun e u _ => ?_
    exact Outcome.not_refused_andThen (not_refused_closing u) fun _ v _ =>
      Outcome.not_refused_done e v
  · split
    · exact Outcome.not_refused_failed rfl
    · exact Outcome.not_refused_done _ _

theorem not_refused_combine {e : Entry} {o : Measured} (hfit : max l.height o.height + 1 ≤ h)
    (place s : List Char) : ¬ (Level.combine h e place l o s).outcome.Refused := by
  rw [Level.combine_fits hfit]
  exact Outcome.not_refused_done _ _

/-- The token pays for the operation of its operands. -/
theorem not_refused_afterOperand (level : Level) (e : Entry) (place : List Char) {o : Measured}
    (hl : l.height + 1 + s.length ≤ h) (ho : o.height + 1 + s.length ≤ h)
    (ih : ∀ l, l.height + s.length ≤ h → ¬ (extend t h d (p + 1) l s).Refused) :
    ¬ (afterOperand t h d p level e place l o s).Refused := by
  unfold afterOperand
  split
  · refine Outcome.not_refused_andThen (not_refused_combine (by omega) _ _) fun both v hc => ?_
    obtain ⟨rfl, rfl, -⟩ := Level.combine_eq_done hc
    refine ih _ ?_
    rw [Measured.height_build]
    omega
  · refine Outcome.not_refused_andThen (ih o (by omega)) fun both v hx => ?_
    have hboth := (height_add_length p s).2 p d o both v hx
    exact not_refused_combine (by omega) _ _
  · split
    · exact Outcome.not_refused_failed rfl
    · exact not_refused_combine (by omega) _ _

theorem not_refused_extend (hh : l.height + s.length ≤ h)
    (ih : ∀ q : List Char, q.length < s.length →
      ¬ (read t h d p q).Refused ∧
        ∀ l, l.height + q.length ≤ h → ¬ (extend t h d (p + 1) l q).Refused) :
    ¬ (extend t h d (p + 1) l s).Refused := by
  cases hl : t.level? (p + 1) with
  | none =>
      rw [extend_of_no_level hl]
      exact Outcome.not_refused_done _ _
  | some level =>
      cases hm : level.match? (Text.skipBlanks s) with
      | none =>
          rw [extend_of_no_match hl hm]
          exact Outcome.not_refused_done _ _
      | some found =>
          obtain ⟨e, q⟩ := found
          have hq := length_skip_match hl hm
          rw [extend_of_match hl hm]
          refine Outcome.not_refused_andThen (ih q hq).1 fun o u ho => ?_
          have hu := length_link hl hm ho
          have hsum := (height_add_length p q).1 d o u ho
          exact not_refused_afterOperand level e _ (by omega) (by omega) (ih u hu).2

/-- **A text does not reach limits of its own length.** -/
theorem not_refused (hh : s.length ≤ h) (hd : s.length ≤ d) (p : Nat) :
    ¬ (read t h d p s).Refused := by
  refine (reading_induction
    (R := fun p s => ∀ d, s.length ≤ h → s.length ≤ d → ¬ (read t h d p s).Refused)
    (E := fun s => ∀ p d l, l.height + s.length ≤ h → s.length ≤ d →
      ¬ (extend t h d (p + 1) l s).Refused)
    ?_ ?_ ?_ s).1 p d hh hd
  · intro s ih d hh hd
    exact not_refused_zero hd fun q hq d => ih q hq _ d (Nat.le_trans (Nat.le_of_lt hq) hh)
  · intro p s ihr ihx d hh hd
    rw [read_succ]
    refine Outcome.not_refused_andThen (ihr d hh hd) fun l u hl => ?_
    have hu := length_read hl
    exact ihx u hu p d l (Nat.le_trans ((height_add_length p s).1 d l u hl) hh) (Nat.le_trans hu hd)
  · intro s ih p d l hh hd
    refine not_refused_extend hh fun q hq => ⟨(ih q hq).1 p d ?_ ?_, fun l hl => (ih q hq).2 p d l hl ?_⟩
    all_goals omega

/-- The outcome under limits that the text does not reach. -/
def unlimited (t : Table) (p : Nat) (s : List Char) : Outcome Measured :=
  read t s.length s.length p s

theorem read_eq_unlimited (hh : s.length ≤ h) (hd : s.length ≤ d) (p : Nat) :
    read t h d p s = unlimited t p s := by
  have hcut : (unlimited t p s).CutsOff (read t h d p s) := read_cutsOff hh hd p s
  rcases hcut with href | heq
  · exact absurd href (not_refused (Nat.le_refl _) (Nat.le_refl _) p)
  · exact heq.symm

/-- Any limits cut off what is read without them. -/
theorem cutsOff_unlimited (t : Table) (h d p : Nat) (s : List Char) :
    (read t h d p s).CutsOff (unlimited t p s) := by
  rw [← read_eq_unlimited (Nat.le_max_right h s.length) (Nat.le_max_right d s.length)]
  exact read_cutsOff (Nat.le_max_left _ _) (Nat.le_max_left _ _) p s

end Reading

end InfixArith
