import InfixArith.Proofs.Limits.Raising

/-!
# Limits — exactness

A text is read under limits exactly when it is read without them, never enters more parentheses than
are allowed at once (`Enters`), and stands for a tree that is no higher than allowed.  The reader
measures neither: it counts parentheses down on its way in, and adds up a height beside each tree.

* `read_invariant`: what holds of literals and is kept by building holds of all that is read; so the
  height beside a tree is the height of the tree (`height_eq`).
* `Enters.le`: under a limit no more parentheses are entered than it allows.
* `read_within`: what keeps to the limits is read under them.
-/

namespace InfixArith

/-- Every entry builds one operation of its two operands, in some order. -/
def Table.OneOperation (t : Table) : Prop :=
  ∀ e ∈ t.entries, ∀ l r, ∃ o, e.build l r = .binary o l r ∨ e.build l r = .binary o r l

/-- A plain table is one example. -/
theorem Table.Plain.oneOperation {t : Table} (ht : t.Plain) : t.OneOperation := by
  intro e he l r
  exact ⟨e.operator, .inl (by rw [ht e he])⟩

namespace Reading

variable {t : Table} {h H d D p k : Nat} {l m : Measured} {s r : List Char}

/-! ### Heights -/

/-- What holds of literals and is kept by building holds of all that is read. -/
theorem read_invariant {I : Measured → Prop} (hlit : ∀ v, I (.literal v))
    (hbuild : ∀ e ∈ t.entries, ∀ l r, I l → I r → max l.height r.height + 1 ≤ h →
      I (.build e l r))
    (hr : read t h d p s = .done m r) : I m := by
  refine (reading_induction
    (R := fun p s => ∀ d m r, read t h d p s = .done m r → I m)
    (E := fun s => ∀ p d l m r, extend t h d (p + 1) l s = .done m r → I l → I m)
    ?_ ?_ ?_ s).1 p d m r hr
  · intro s ih d m r hr
    cases read_zero_eq_done_iff.mp hr with
    | numeral _ _ => exact hlit _
    | parens hs hm _ => exact ih _ (Text.length_lt_of_skipBlanks hs) _ _ _ _ hm
  · intro p s ihr ihx d m r hr
    obtain ⟨l, u, hl, hx⟩ := read_succ_eq_done_iff.mp hr
    exact ihx u (length_read hl) p d l m r hx (ihr d l u hl)
  · intro s ih p d l m r hx il
    cases extend_eq_done_iff.mp hx with
    | noLevel _ => exact il
    | noMatch _ _ => exact il
    | left hl ha hm ho hfit hnext =>
        have io := (ih _ (length_skip_match hl hm)).1 p d _ _ ho
        have hu := length_link hl hm ho
        exact (ih _ hu).2 p d _ m r hnext (hbuild _ (Table.mem_of_match? hl hm).1 _ _ il io hfit)
    | right hl ha hm ho hnext hfit =>
        have io := (ih _ (length_skip_match hl hm)).1 p d _ _ ho
        have ib := (ih _ (length_link hl hm ho)).2 p d _ _ r hnext io
        exact hbuild _ (Table.mem_of_match? hl hm).1 _ _ il ib hfit
    | once hl ha hm ho hno hfit =>
        have io := (ih _ (length_skip_match hl hm)).1 p d _ _ ho
        exact hbuild _ (Table.mem_of_match? hl hm).1 _ _ il io hfit

theorem height_le (hr : read t h d p s = .done m r) : m.height ≤ h :=
  read_invariant (I := fun m => m.height ≤ h) (fun _ => Nat.zero_le h)
    (fun _ _ _ _ _ _ hfit => hfit) hr

/-- The height beside a tree is its height. -/
theorem height_eq (ht : t.OneOperation) (hr : read t h d p s = .done m r) :
    m.height = m.expr.height := by
  refine read_invariant (I := fun m => m.height = m.expr.height) (fun _ => rfl)
    (fun e he l r hl hr _ => ?_) hr
  obtain ⟨o, hb | hb⟩ := ht e he l.expr r.expr
  · rw [Measured.build, hb, Expr.height, hl, hr]
  · rw [Measured.build, hb, Expr.height, hl, hr, Nat.max_comm]

/-- A chain is at least as high as its first operand. -/
theorem height_le_extend (hx : extend t h d (p + 1) l s = .done m r) : l.height ≤ m.height := by
  refine (reading_induction (R := fun _ _ => True)
    (E := fun s => ∀ l m r, extend t h d (p + 1) l s = .done m r → l.height ≤ m.height)
    (fun _ _ => trivial) (fun _ _ _ _ => trivial) ?_ s).2 l m r hx
  intro s ih l m r hx
  cases extend_eq_done_iff.mp hx with
  | noLevel _ => exact Nat.le_refl _
  | noMatch _ _ => exact Nat.le_refl _
  | left hl ha hm ho hfit hnext =>
      have hle := (ih _ (length_link hl hm ho)).2 _ m r hnext
      rw [Measured.height_build] at hle
      omega
  | right hl ha hm ho hnext hfit | once hl ha hm ho hno hfit =>
      rw [Measured.height_build]
      omega

/-! ### Parentheses entered -/

/-- The chain of precedence `p + 1` that is gone on with at `s` reads an operand at `q`. -/
inductive OperandAt (t : Table) (p : Nat) : (s q : List Char) → Prop where
  | next {s q : List Char} {level : Level} {e : Entry} (hl : t.level? (p + 1) = some level)
      (hm : level.match? (Text.skipBlanks s) = some (e, q)) : OperandAt t p s q
  | later {s q u v : List Char} {level : Level} {e : Entry} {o : Measured}
      (hl : t.level? (p + 1) = some level) (ha : level.associativity ≠ .nonAssociative)
      (hm : level.match? (Text.skipBlanks s) = some (e, q)) (ho : unlimited t p q = .done o u)
      (hv : OperandAt t p u v) : OperandAt t p s v

/-- Reading precedence `p` at `s` without limits, there is a place where `k` parentheses have been
entered and not left. -/
inductive Enters (t : Table) : (p : Nat) → (s : List Char) → (k : Nat) → Prop where
  | start (p : Nat) (s : List Char) : Enters t p s 0
  | parens {s q : List Char} {k : Nat} (hs : Text.skipBlanks s = '(' :: q)
      (hk : Enters t t.maxPrecedence q k) : Enters t 0 s (k + 1)
  /-- In the first operand of a chain. -/
  | first {p k : Nat} {s : List Char} (hk : Enters t p s k) : Enters t (p + 1) s k
  /-- In a later operand. -/
  | operand {p k : Nat} {s u q : List Char} {l : Measured} (hl : unlimited t p s = .done l u)
      (hq : OperandAt t p u q) (hk : Enters t p q k) : Enters t (p + 1) s k

theorem unlimited_of_done (hr : read t h d p s = .done m r) : unlimited t p s = .done m r :=
  (cutsOff_unlimited t h d p s).eq_of_done hr

/-- A chain that takes a token has read an operand after it and, if the level groups, gone on after
that. -/
theorem exists_operand {level : Level} {e : Entry} {q : List Char}
    (hl : t.level? (p + 1) = some level) (hm : level.match? (Text.skipBlanks s) = some (e, q))
    (hx : extend t h d (p + 1) l s = .done m r) :
    ∃ o u, read t h d p q = .done o u ∧
      (level.associativity ≠ .nonAssociative →
        ∃ l m, extend t h d (p + 1) l u = .done m r) := by
  cases extend_eq_done_iff.mp hx with
  | noLevel hl' =>
      rw [hl] at hl'
      cases hl'
  | noMatch hl' hm' =>
      rw [hl] at hl'
      cases hl'
      rw [hm] at hm'
      cases hm'
  | left hl' _ hm' ho _ hnext | right hl' _ hm' ho hnext =>
      rw [hl] at hl'
      cases hl'
      rw [hm] at hm'
      cases hm'
      exact ⟨_, _, ho, fun _ => ⟨_, _, hnext⟩⟩
  | once hl' ha hm' ho =>
      rw [hl] at hl'
      cases hl'
      rw [hm] at hm'
      cases hm'
      exact ⟨_, _, ho, fun hne => absurd ha hne⟩

/-- A chain that is read to its end has read its operands. -/
theorem OperandAt.exists_read {q : List Char} (hq : OperandAt t p s q)
    (hx : extend t h d (p + 1) l s = .done m r) : ∃ o u, read t h d p q = .done o u := by
  induction hq generalizing l m with
  | next hl hm =>
      obtain ⟨o, u, ho, -⟩ := exists_operand hl hm hx
      exact ⟨o, u, ho⟩
  | later hl ha hm ho _ ih =>
      obtain ⟨o', u', ho', hnext⟩ := exists_operand hl hm hx
      rw [unlimited_of_done ho'] at ho
      cases ho
      obtain ⟨l', m', hx'⟩ := hnext ha
      exact ih hx'

/-- Under a limit no more parentheses are entered than it allows. -/
theorem Enters.le (hk : Enters t p s k) (hr : read t h d p s = .done m r) : k ≤ d := by
  induction hk generalizing d m r with
  | start p s => exact Nat.zero_le d
  | parens hs _ ih =>
      cases read_zero_eq_done_iff.mp hr with
      | numeral hhead _ =>
          rw [hs] at hhead
          exact absurd rfl hhead
      | parens hs' hm _ =>
          rw [hs] at hs'
          cases hs'
          exact Nat.succ_le_succ (ih hm)
  | first _ ih =>
      obtain ⟨l, u, hl, -⟩ := read_succ_eq_done_iff.mp hr
      exact ih hl
  | operand hl hq _ ih =>
      obtain ⟨l', u', hl', hx⟩ := read_succ_eq_done_iff.mp hr
      rw [unlimited_of_done hl'] at hl
      cases hl
      obtain ⟨o, v, ho⟩ := hq.exists_read hx
      exact ih ho

/-! ### Within the limits -/

/-- Other limits do as well if what is read and gone on with below `s` keeps to them. -/
theorem extend_within
    (ih : ∀ q : List Char, q.length < s.length →
      (∀ o u, read t H D p q = .done o u → (∀ k, Enters t p q k → k ≤ d) → o.height ≤ h →
        read t h d p q = .done o u) ∧
      ∀ l m r, extend t H D (p + 1) l q = .done m r →
        (∀ v k, OperandAt t p q v → Enters t p v k → k ≤ d) → m.height ≤ h →
        extend t h d (p + 1) l q = .done m r)
    (hx : extend t H D (p + 1) l s = .done m r)
    (hk : ∀ v k, OperandAt t p s v → Enters t p v k → k ≤ d) (hh : m.height ≤ h) :
    extend t h d (p + 1) l s = .done m r := by
  refine extend_eq_done_iff.mpr ?_
  cases extend_eq_done_iff.mp hx with
  | noLevel hl => exact .noLevel hl
  | noMatch hl hm => exact .noMatch hl hm
  | @left level e q u r o m hl ha hm ho hfit hnext =>
      have hq := length_skip_match hl hm
      have hle := height_le_extend hnext
      rw [Measured.height_build] at hle
      refine .left hl ha hm ((ih q hq).1 o u ho (fun k => hk q k (.next hl hm)) (by omega))
        (by omega) ?_
      refine (ih u (length_link hl hm ho)).2 _ m r hnext (fun v k hv => ?_) hh
      exact hk v k (.later hl (by rw [ha]; decide) hm (unlimited_of_done ho) hv)
  | @right level e q u r o m hl ha hm ho hnext hfit =>
      have hq := length_skip_match hl hm
      have hle := height_le_extend hnext
      rw [Measured.height_build] at hh
      refine .right hl ha hm ((ih q hq).1 o u ho (fun k => hk q k (.next hl hm)) (by omega)) ?_ hh
      refine (ih u (length_link hl hm ho)).2 o m r hnext (fun v k hv => ?_)
        (by omega)
      exact hk v k (.later hl (by rw [ha]; decide) hm (unlimited_of_done ho) hv)
  | @once level e q u o hl ha hm ho hno hfit =>
      rw [Measured.height_build] at hh
      exact .once hl ha hm
        ((ih q (length_skip_match hl hm)).1 o u ho (fun k => hk q k (.next hl hm)) (by omega)) hno hh

/-- What is read under some limits is read under any that its parentheses and its height keep to. -/
theorem read_within (hr : read t H D p s = .done m r) (hk : ∀ k, Enters t p s k → k ≤ d)
    (hh : m.height ≤ h) : read t h d p s = .done m r := by
  refine (reading_induction
    (R := fun p s => ∀ D d m r, read t H D p s = .done m r → (∀ k, Enters t p s k → k ≤ d) →
      m.height ≤ h → read t h d p s = .done m r)
    (E := fun s => ∀ p D d l m r, extend t H D (p + 1) l s = .done m r →
      (∀ v k, OperandAt t p s v → Enters t p v k → k ≤ d) → m.height ≤ h →
      extend t h d (p + 1) l s = .done m r)
    ?_ ?_ ?_ s).1 p D d m r hr hk hh
  · intro s ih D d m r hr hk hh
    cases read_zero_eq_done_iff.mp hr with
    | numeral hhead hn => exact read_zero_eq_done_iff.mpr (.numeral hhead hn)
    | parens hs hm hu =>
        obtain ⟨d, rfl⟩ := Nat.exists_eq_add_one.mpr (hk 1 (.parens hs (.start _ _)))
        have hinner := ih _ (Text.length_lt_of_skipBlanks hs) t.maxPrecedence _ d _ _ hm
          (fun k hk' => Nat.le_of_succ_le_succ (hk (k + 1) (.parens hs hk'))) hh
        exact read_zero_eq_done_iff.mpr (.parens hs hinner hu)
  · intro p s ihr ihx D d m r hr hk hh
    obtain ⟨l, u, hl, hx⟩ := read_succ_eq_done_iff.mp hr
    have hleft := ihr D d l u hl (fun k hk' => hk k (.first hk'))
      (Nat.le_trans (height_le_extend hx) hh)
    refine read_succ_eq_done_iff.mpr ⟨l, u, hleft, ?_⟩
    refine ihx u (length_read hl) p D d l m r hx (fun v k hv hk' => ?_) hh
    exact hk k (.operand (unlimited_of_done hl) hv hk')
  · intro s ih p D d l m r hx hk hh
    exact extend_within (fun q hq => ⟨(ih q hq).1 p D d, (ih q hq).2 p D d⟩) hx hk hh

end Reading

end InfixArith
