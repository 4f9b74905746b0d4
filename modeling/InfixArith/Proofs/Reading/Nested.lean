import InfixArith.Proofs.Limits.Calls
import InfixArith.Proofs.Reading.Reuse

/-!
# Reading — levels within one another

What is read of a precedence begins with what is read of any tighter one: the text taken for the
tighter precedence is a beginning of the other, and the tree, where entries build nodes of their own
operators, is at the end of the other's left spine (`read_nested`).  From the loosest level on the
precedence makes no difference.
-/

namespace InfixArith

/-- `e` is the given tree, or reached from it by left operands only. -/
inductive Expr.OnLeftSpine (e : Expr) : Expr → Prop where
  | root : OnLeftSpine e e
  | left {o : Operator} {l r : Expr} (h : OnLeftSpine e l) : OnLeftSpine e (.binary o l r)

theorem Expr.OnLeftSpine.trans {a b c : Expr} (hab : a.OnLeftSpine b) (hbc : b.OnLeftSpine c) :
    a.OnLeftSpine c := by
  induction hbc with
  | root => exact hab
  | left _ ih => exact .left ih

/-- What an entry of a plain table builds has the left operand on its left spine. -/
theorem Measured.onLeftSpine_build {t : Table} (ht : t.Plain) {e : Entry} (he : e ∈ t.entries)
    (l r : Measured) : l.expr.OnLeftSpine (Measured.build e l r).expr := by
  rw [build, ht e he]
  exact .left .root

namespace Reading

variable {t : Table} {h d p q : Nat} {l m : Measured} {s r : List Char}

/-- A chain has its first operand on its left spine. -/
theorem onLeftSpine_of_extend (ht : t.Plain) (hx : extend t h d (p + 1) l s = .done m r) :
    l.expr.OnLeftSpine m.expr := by
  refine (reading_induction (R := fun _ _ => True)
    (E := fun s => ∀ l m r, extend t h d (p + 1) l s = .done m r → l.expr.OnLeftSpine m.expr)
    (fun _ _ => trivial) (fun _ _ _ _ => trivial) ?_ s).2 l m r hx
  intro s ih l m r hx
  cases extend_eq_done_iff.mp hx with
  | noLevel _ => exact .root
  | noMatch _ _ => exact .root
  | left hl ha hm ho hfit hnext =>
      have hu := length_link hl hm ho
      exact (Measured.onLeftSpine_build ht (Table.mem_of_match? hl hm).1 _ _).trans
        ((ih _ hu).2 _ m r hnext)
  | right hl ha hm ho hnext hfit | once hl ha hm ho hno hfit =>
      exact Measured.onLeftSpine_build ht (Table.mem_of_match? hl hm).1 _ _

/-- **What is read of a precedence begins with what is read of a tighter one.** -/
theorem read_nested (ht : t.Plain) (hpq : p ≤ q) (hr : read t h d q s = .done m r) :
    ∃ l u, read t h d p s = .done l u ∧ l.expr.OnLeftSpine m.expr ∧ r <:+ u := by
  induction hpq generalizing m r with
  | refl => exact ⟨m, r, hr, .root, List.suffix_rfl⟩
  | @step q _ ih =>
      obtain ⟨o, v, ho, hx⟩ := read_succ_eq_done_iff.mp hr
      obtain ⟨l, u, hl, hspine, hv⟩ := ih ho
      have hrest := extend_rest (t := t) (h := h) (d := d) (q + 1) o v
      rw [hx] at hrest
      exact ⟨l, u, hl, hspine.trans (onLeftSpine_of_extend ht hx), hrest.trans hv⟩

/-- No level is looser than the loosest. -/
theorem read_maxPrecedence (hp : t.maxPrecedence ≤ p) :
    read t h d p s = read t h d t.maxPrecedence s := by
  have hlevels : t.levelsUpTo p = t.levelsUpTo t.maxPrecedence :=
    Table.levelsUpTo_congr fun e he =>
      have hle := Table.precedence_le_maxPrecedence he
      iff_of_true (Nat.le_trans hle hp) hle
  rw [read, read, hlevels]

/-- **Levels nest.**  Where a plain table reads a tree of some precedence, it reads from the same
position one of any tighter precedence, which is on the left spine of that tree, and stops no later.
Every precedence from the loosest level on is read as an expression of the loosest level is. -/
theorem run_level_nested (ht : t.Plain) (limits : Limits) (size : Nat) (pos : Position) :
    (∀ p q e, p ≤ q → (run t limits size (.level q) pos).result = .ok e →
      ∃ e', (run t limits size (.level p) pos).result = .ok e' ∧ e'.OnLeftSpine e ∧
        (run t limits size (.level p) pos).stop.offset size ≤
          (run t limits size (.level q) pos).stop.offset size) ∧
    ∀ p, t.maxPrecedence ≤ p →
      Agrees (run t limits size (.level p) pos) (run t limits size .expression pos) := by
  constructor
  · intro p q e hpq hok
    obtain ⟨m, u, r, hm, hfin, rfl⟩ := run_eq_ok_iff.mp hok
    obtain ⟨l, v, hl, hspine, hsuffix⟩ := read_nested ht hpq hm
    refine ⟨l.expr, run_eq_ok_iff.mpr ⟨l, v, v, hl, rfl, rfl⟩, hspine, ?_⟩
    cases hfin
    have hp : (run t limits size (.level p) pos).stop = ⟨v, pos.unclosed⟩ := stop_of_done hl rfl
    have hq : (run t limits size (.level q) pos).stop = ⟨u, pos.unclosed⟩ := stop_of_done hm rfl
    rw [hp, hq]
    obtain ⟨w, rfl⟩ := hsuffix
    simp only [Position.offset, Text.byteSize_append]
    omega
  · intro p hp
    have ho : outcomeAt t limits (.level p) pos = outcomeAt t limits .expression pos :=
      congrArg (·.andThen .done) (read_maxPrecedence hp)
    rw [Agrees, run_result, run_result, run_stop, run_stop, ho]
    exact ⟨rfl, rfl⟩

/-- Of `2*3 - 1` the product is read at the level of `*`; it is on the left spine of the difference
that is read at the level of `-`. -/
theorem run_level_nested_difference :
    let number (digit : Char) : Expr := .literal (Numeral.value ⟨none, [digit], none, none⟩)
    let product : Expr := .binary .mul (number '2') (number '3')
    let run (p : Nat) := run .arithmetic .usual 7 (.level p) (.start "2*3 - 1".toList)
    Table.arithmetic.Plain ∧ (run 3).result = .ok (.binary .sub product (number '1')) ∧
      (run 2).result = .ok product ∧
      product.OnLeftSpine (.binary .sub product (number '1')) ∧
      (run 2).stop.offset 7 ≤ (run 3).stop.offset 7 := by
  intro number product run
  obtain ⟨e, he, hspine, hstop⟩ :=
    (run_level_nested Table.plain_arithmetic .usual 7 (.start "2*3 - 1".toList)).1 2 3
      (.binary .sub product (number '1')) (by decide) rfl
  have hproduct : (run 2).result = .ok product := rfl
  cases he.symm.trans hproduct
  exact ⟨Table.plain_arithmetic, rfl, hproduct, hspine, hstop⟩

end Reading

end InfixArith
