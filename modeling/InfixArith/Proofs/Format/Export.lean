import InfixArith.Answer
import InfixArith.Proofs.Format.Distinct

/-!
# Format — the tree from its exported text

The text of a tree tells where it ends and which tree it is, but for one thing: a literal that is
not finite is exported as `null`, whichever value it is.  Trees that agree but for this have the same
text, and no others (`exportBefore_eq_iff`).  A tree with finite literals has a text of its own
(`exported_eq_iff`).

The layout does not matter to this.  What stands before a key or a closing brace depends on the
style and the depth alone, and the depth is the same on both sides wherever two texts are compared.
-/

namespace InfixArith

/-! ### The pieces of the text -/

namespace NumberStyle

variable {v w : Float}

theorem json_of_not_isFinite (hv : ¬ v.isFinite) : json.text v = "null".toList := by
  rw [text]
  rcases Binary64.view_of_not_isFinite hv with hview | ⟨negative, hview⟩ <;> rw [hview] <;> rfl

/-- A literal is no object. -/
theorem json_append_ne_brace (v : Float) (s t : List Char) : json.text v ++ s ≠ '\x7b' :: t := by
  by_cases hv : v.isFinite
  · exact text_append_ne json hv (by decide) s t
  · rw [json_of_not_isFinite hv]
    exact fun h => absurd (List.cons.inj h).1 (by decide)

/-- The text of a literal tells which it is among the finite ones, and where it ends. -/
theorem json_append_eq_iff {s t : List Char} (hs : Numeral.Ends s) (ht : Numeral.Ends t) :
    json.text v ++ s = json.text w ++ t ↔ (v = w ∨ ¬ v.isFinite ∧ ¬ w.isFinite) ∧ s = t := by
  have hnull : ¬ ('n'.isDigit = true ∨ 'n' = '.' ∨ 'n' = '+' ∨ 'n' = '-') := by decide
  constructor
  · intro h
    by_cases hv : v.isFinite <;> by_cases hw : w.isFinite
    · exact (text_append_inj json hv hw hs ht h).imp_left .inl
    · rw [json_of_not_isFinite hw] at h
      exact absurd h (text_append_ne json hv hnull s _)
    · rw [json_of_not_isFinite hv] at h
      exact absurd h.symm (text_append_ne json hw hnull t _)
    · rw [json_of_not_isFinite hv, json_of_not_isFinite hw] at h
      exact ⟨.inr ⟨hv, hw⟩, List.append_cancel_left h⟩
  · rintro ⟨rfl | ⟨hv, hw⟩, rfl⟩
    · rfl
    · rw [json_of_not_isFinite hv, json_of_not_isFinite hw]

end NumberStyle

theorem Operator.length_name (o : Operator) : o.name.toList.length = 3 := by
  cases o <;> rfl

/-- The names of operators differ and are equally long. -/
theorem Operator.name_append_eq_iff {o o' : Operator} {s t : List Char} :
    o.name.toList ++ s = o'.name.toList ++ t ↔ o = o' ∧ s = t := by
  have hname : o.name.toList = o'.name.toList ↔ o = o' := by
    cases o <;> cases o' <;> decide
  rw [← hname]
  refine ⟨fun h => List.append_inj h ?_, fun h => congrArg₂ _ h.1 h.2⟩
  rw [o.length_name, o'.length_name]

theorem Numeral.ends_comma (s : List Char) : Numeral.Ends (',' :: s) := by
  rintro c ⟨rfl⟩
  decide

theorem ExportStyle.ends_closing (style : ExportStyle) (depth : Nat) (s : List Char) :
    Numeral.Ends (style.newline depth ++ '\x7d' :: s) := by
  cases style <;> rintro c ⟨rfl⟩ <;> decide

/-! ### Trees with the same text -/

namespace Expr

variable {a b : Expr}

/-- The trees differ at most in which values those literals have that are not finite. -/
def Agrees : Expr → Expr → Prop
  | .literal v,    .literal w       => v = w ∨ ¬ v.isFinite ∧ ¬ w.isFinite
  | .binary o l r, .binary o' l' r' => o = o' ∧ l.Agrees l' ∧ r.Agrees r'
  | _,             _                => False

theorem Agrees.refl (a : Expr) : a.Agrees a := by
  induction a with
  | literal v => exact .inl rfl
  | binary o l r ihl ihr => exact ⟨rfl, ihl, ihr⟩

theorem Agrees.eq (ha : a.Finite) (h : a.Agrees b) : a = b := by
  induction a generalizing b with
  | literal v =>
      cases b with
      | literal w => exact congrArg _ (h.resolve_right fun hv => hv.1 ha)
      | binary o' l' r' => exact h.elim
  | binary o l r ihl ihr =>
      cases b with
      | literal w => exact h.elim
      | binary o' l' r' =>
          obtain ⟨rfl, hl, hr⟩ := h
          rw [ihl ha.1 hl, ihr ha.2 hr]

/-- **The text of a tree tells where it ends**, and it is the same for the trees that agree. -/
theorem exportBefore_eq_iff (style : ExportStyle) {depth : Nat} {s t : List Char}
    (hs : Numeral.Ends s) (ht : Numeral.Ends t) :
    exportBefore style depth a s = exportBefore style depth b t ↔ a.Agrees b ∧ s = t := by
  induction a generalizing b depth s t with
  | literal v =>
      cases b with
      | literal w => exact NumberStyle.json_append_eq_iff hs ht
      | binary o' l' r' =>
          exact iff_of_false (NumberStyle.json_append_ne_brace v s _) fun h => h.1
  | binary o l r ihl ihr =>
      cases b with
      | literal w =>
          exact iff_of_false (NumberStyle.json_append_ne_brace w t _).symm fun h => h.1
      | binary o' l' r' =>
          -- on both sides the operands and the name of the operator stand between the same pieces
          have hclosing (s) := style.ends_closing depth s
          simp only [exportBefore, List.cons_append, List.cons.injEq, true_and,
            List.append_cancel_left_eq, ihl (Numeral.ends_comma _) (Numeral.ends_comma _),
            Operator.name_append_eq_iff, ihr (hclosing s) (hclosing t), Agrees]
          tauto

/-- The exported texts of two trees are the same, in either style, exactly if the trees agree. -/
theorem exportText_eq_iff (style : ExportStyle) :
    a.exportText style = b.exportText style ↔ a.Agrees b := by
  rw [exportText, exportText, exportBefore_eq_iff style Numeral.ends_nil Numeral.ends_nil,
    and_iff_left rfl]

theorem exportText_eq_iff_eq (ha : a.Finite) (style : ExportStyle) :
    a.exportText style = b.exportText style ↔ a = b :=
  (exportText_eq_iff style).trans ⟨Agrees.eq ha, fun h => h ▸ Agrees.refl a⟩

/-- **A tree with finite literals is told by its exported text**, on one line or as it is answered:
every other tree has another text, be it one with a literal that is not finite or one that differs
only in the sign of a zero. -/
theorem exported_eq_iff (ha : a.Finite) :
    (a.exportText .compact = b.exportText .compact ↔ a = b) ∧
    ((Answer.tree a).text = (Answer.tree b).text ↔ a = b) :=
  ⟨exportText_eq_iff_eq ha .compact, exportText_eq_iff_eq ha .pretty⟩

/-- The trees of `2 * 0 - 1` and `2 * -0 - 1` have texts of their own. -/
theorem exported_eq_iff_zeros :
    let number (sign : Option Sign) (digit : Char) : Expr :=
      .literal (Numeral.value ⟨sign, [digit], none, none⟩)
    let tree (sign : Option Sign) : Expr :=
      .binary .sub (.binary .mul (number none '2') (number sign '0')) (number none '1')
    (tree none).Finite ∧
      (tree none).exportText .compact ≠ (tree (some .minus)).exportText .compact ∧
      (Answer.tree (tree none)).text ≠ (Answer.tree (tree (some .minus))).text := by
  intro number tree
  have hfinite : (tree none).Finite := by decide +kernel
  have hne : tree none ≠ tree (some .minus) := by decide +kernel
  obtain ⟨hcompact, hpretty⟩ := exported_eq_iff hfinite
  exact ⟨hfinite, mt hcompact.mp hne, mt hpretty.mp hne⟩

end Expr

end InfixArith
