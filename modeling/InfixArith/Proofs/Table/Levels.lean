import InfixArith.Table.Basic
import Mathlib.Data.List.Pairwise

/-!
# Table — the levels of a table

The levels stand in strictly ascending order of precedence (`levels_ascending`), and each holds the
entries of its precedence, which group the same way (`mem_level?`).  So the levels of precedence
`p + 1` or tighter are the level of `p + 1`, if the table has one, and those of `p` or tighter
(`levelsUpTo_succ`).
-/

namespace InfixArith

namespace Entry

theorem mem_insertHead {e h : Entry} {hs : List Entry} (hh : h ∈ insertHead e hs) :
    h = e ∨ h ∈ hs := by
  induction hs with
  | nil => exact .inl (List.mem_singleton.mp hh)
  | cons a hs ih =>
      rw [insertHead] at hh
      split at hh
      · exact List.mem_cons.mp hh
      · split at hh
        · exact (List.mem_cons.mp hh).imp_right (List.mem_cons_of_mem a)
        · rcases List.mem_cons.mp hh with rfl | hh
          · exact .inr List.mem_cons_self
          · exact (ih hh).imp_right (List.mem_cons_of_mem a)

theorem mem_of_mem_heads {h : Entry} {es : List Entry} (hh : h ∈ heads es) : h ∈ es := by
  induction es with
  | nil => exact hh
  | cons e es ih =>
      rcases mem_insertHead hh with rfl | hh
      · exact List.mem_cons_self
      · exact List.mem_cons_of_mem e (ih hh)

theorem insertHead_ascending (e : Entry) {hs : List Entry}
    (h : hs.Pairwise (·.precedence < ·.precedence)) :
    (insertHead e hs).Pairwise (·.precedence < ·.precedence) := by
  induction hs with
  | nil => exact List.pairwise_singleton _ e
  | cons a hs ih =>
      obtain ⟨ha, hs'⟩ := List.pairwise_cons.mp h
      rw [insertHead]
      split
      · next hlt =>
        refine List.pairwise_cons.mpr ⟨fun b hb => ?_, h⟩
        rcases List.mem_cons.mp hb with rfl | hb
        · exact hlt
        · exact Nat.lt_trans hlt (ha b hb)
      · split
        · next heq => exact List.pairwise_cons.mpr ⟨fun b hb => heq ▸ ha b hb, hs'⟩
        · next hlt hne =>
          refine List.pairwise_cons.mpr ⟨fun b hb => ?_, ih hs'⟩
          rcases mem_insertHead hb with rfl | hb
          · exact Nat.lt_of_le_of_ne (Nat.le_of_not_lt hlt) (Ne.symm hne)
          · exact ha b hb

/-- The heads are in strictly ascending order of precedence. -/
theorem heads_ascending (es : List Entry) : (heads es).Pairwise (·.precedence < ·.precedence) := by
  induction es with
  | nil => exact List.Pairwise.nil
  | cons e es ih => exact insertHead_ascending e ih

/-- Entries that all differ in `f` are told apart by it. -/
theorem eq_of_distinct {α : Type} {f : Entry → α} {es : List Entry}
    (h : es.Pairwise fun a b => f a ≠ f b) {a b : Entry} (ha : a ∈ es) (hb : b ∈ es)
    (hab : f a = f b) : a = b := by
  have symm : Std.Symm fun a b : Entry => f a ≠ f b := ⟨fun _ _ hne => hne.symm⟩
  by_cases heq : a = b
  · exact heq
  · exact absurd hab (h.forall ha hb heq)

end Entry

namespace Level

/-- In an ascending list the levels up to `p + 1` are those up to `p` and the one of `p + 1`. -/
theorem filter_le_succ {ls : List Level} (h : ls.Pairwise (·.precedence < ·.precedence)) (p : Nat) :
    ls.filter (·.precedence ≤ p + 1) =
      ls.filter (·.precedence ≤ p) ++ (ls.find? (·.precedence = p + 1)).toList := by
  induction ls with
  | nil => rfl
  | cons l ls ih =>
      obtain ⟨hl, hls⟩ := List.pairwise_cons.mp h
      have above : ∀ q ≤ l.precedence, ls.filter (·.precedence ≤ q) = [] := by
        intro q hq
        refine List.filter_eq_nil_iff.mpr fun a ha => ?_
        have hla := hl a ha
        simp only [decide_eq_true_eq]
        omega
      by_cases hlt : l.precedence < p + 1
      · have hne : l.precedence ≠ p + 1 := Nat.ne_of_lt hlt
        simp [Nat.le_of_lt hlt, Nat.le_of_lt_succ hlt, hne, ih hls]
      · -- nothing after a level of `p + 1` or looser is kept on either side
        have hgt : p + 1 ≤ l.precedence := Nat.le_of_not_lt hlt
        have hp : ¬ l.precedence ≤ p := Nat.not_le.mpr hgt
        have ih := ih hls
        rw [above (p + 1) hgt, above p (Nat.le_of_succ_le hgt)] at ih
        by_cases heq : l.precedence = p + 1
        · simp [heq, above (p + 1) hgt, above p (Nat.le_of_succ_le hgt)]
        · have hp' : ¬ l.precedence ≤ p + 1 := fun hle => heq (Nat.le_antisymm hle hgt)
          simpa [List.filter_cons, hp, hp', heq, above (p + 1) hgt,
            above p (Nat.le_of_succ_le hgt)] using ih

end Level

namespace Table

variable {t : Table}

/-- The levels are in strictly ascending order of precedence. -/
theorem levels_ascending (t : Table) : t.levels.Pairwise (·.precedence < ·.precedence) :=
  List.pairwise_map.mpr (Entry.heads_ascending t.entries)

/-- A level of the table holds the entries of its precedence, and these group as the level does. -/
theorem mem_level? {p : Nat} {level : Level} (h : t.level? p = some level) :
    level.precedence = p ∧ (∀ e, e ∈ level.entries ↔ e ∈ t.entries ∧ e.precedence = p) ∧
      ∀ e ∈ level.entries, e.associativity = level.associativity := by
  have hp : level.precedence = p := by simpa using List.find?_some h
  obtain ⟨head, hhead, rfl⟩ := List.mem_map.mp (List.mem_of_find?_eq_some h)
  subst hp
  have hmem : ∀ e, e ∈ (Level.ofHead t.entries head).entries ↔
      e ∈ t.entries ∧ e.precedence = head.precedence := by
    intro e
    simp only [Level.ofHead, List.mem_filter, decide_eq_true_eq]
  refine ⟨rfl, hmem, fun e he => ?_⟩
  obtain ⟨he, hp⟩ := (hmem e).mp he
  exact t.valid.associativity_eq e he head (Entry.mem_of_mem_heads hhead) hp

/-- No level is empty. -/
theorem exists_mem_level {p : Nat} {level : Level} (h : t.level? p = some level) :
    ∃ e, e ∈ level.entries := by
  obtain ⟨head, hhead, rfl⟩ := List.mem_map.mp (List.mem_of_find?_eq_some h)
  exact ⟨head, List.mem_filter.mpr ⟨Entry.mem_of_mem_heads hhead, decide_eq_true rfl⟩⟩

/-- An entry is on the level of its precedence. -/
theorem exists_level {e : Entry} (he : e ∈ t.entries) :
    ∃ level, t.level? e.precedence = some level ∧ e ∈ level.entries := by
  obtain ⟨head, hhead, hp⟩ := Entry.exists_head he
  cases h : t.level? e.precedence with
  | some level => exact ⟨level, rfl, ((mem_level? h).2.1 e).mpr ⟨he, rfl⟩⟩
  | none =>
      have hno := List.find?_eq_none.mp h _ (List.mem_map.mpr ⟨head, hhead, rfl⟩)
      exact absurd (decide_eq_true hp) hno

theorem level?_zero (t : Table) : t.level? 0 = none := by
  refine List.find?_eq_none.mpr fun level hl => ?_
  obtain ⟨head, hhead, rfl⟩ := List.mem_map.mp hl
  have hpos := t.valid.precedence_pos head (Entry.mem_of_mem_heads hhead)
  simp [Level.ofHead, Nat.ne_of_gt hpos]

theorem precedence_le_maxPrecedence {e : Entry} (he : e ∈ t.entries) :
    e.precedence ≤ t.maxPrecedence := by
  unfold maxPrecedence
  generalize t.entries = es at he
  induction es with
  | nil => cases he
  | cons a es ih =>
      rw [List.foldr_cons]
      rcases List.mem_cons.mp he with rfl | he
      · exact Nat.le_max_left _ _
      · exact Nat.le_trans (ih he) (Nat.le_max_right _ _)

/-! ### Levels up to a precedence -/

theorem levelsUpTo_zero (t : Table) : t.levelsUpTo 0 = [] := by
  refine List.reverse_eq_nil_iff.mpr (List.filter_eq_nil_iff.mpr fun level hl => ?_)
  obtain ⟨head, hhead, rfl⟩ := List.mem_map.mp hl
  have hpos := t.valid.precedence_pos head (Entry.mem_of_mem_heads hhead)
  simpa [Level.ofHead] using Nat.ne_of_gt hpos

theorem levelsUpTo_succ (t : Table) (p : Nat) :
    t.levelsUpTo (p + 1) = (t.level? (p + 1)).toList ++ t.levelsUpTo p := by
  unfold levelsUpTo level?
  rw [Level.filter_le_succ t.levels_ascending, List.reverse_append]
  congr 1
  cases t.levels.find? _ <;> rfl

/-- Precedences that no entry lies between have the same levels. -/
theorem levelsUpTo_congr {p q : Nat} (h : ∀ e ∈ t.entries, e.precedence ≤ p ↔ e.precedence ≤ q) :
    t.levelsUpTo p = t.levelsUpTo q := by
  refine congrArg List.reverse (List.filter_congr fun level hl => ?_)
  obtain ⟨head, hhead, rfl⟩ := List.mem_map.mp hl
  exact decide_eq_decide.mpr (h head (Entry.mem_of_mem_heads hhead))

/-- All levels are those up to the loosest one. -/
theorem levelsUpTo_maxPrecedence (t : Table) : t.levelsUpTo t.maxPrecedence = t.levels.reverse := by
  refine congrArg List.reverse (List.filter_eq_self.mpr fun level hl => ?_)
  obtain ⟨head, hhead, rfl⟩ := List.mem_map.mp hl
  exact decide_eq_true (precedence_le_maxPrecedence (Entry.mem_of_mem_heads hhead))

/-! ### Entries of operators and of tokens -/

theorem mem_of_find? {o : Operator} {e : Entry} (h : t.find? o = some e) :
    e ∈ t.entries ∧ e.operator = o :=
  ⟨List.mem_of_find?_eq_some h, by simpa using List.find?_some h⟩

/-- Entries of one token are the same entry. -/
theorem eq_of_token_eq {a b : Entry} (ha : a ∈ t.entries) (hb : b ∈ t.entries)
    (h : a.token = b.token) : a = b :=
  Entry.eq_of_distinct t.valid.tokens_distinct ha hb h

/-- The entry of an operator is the only one. -/
theorem find?_operator {e : Entry} (he : e ∈ t.entries) : t.find? e.operator = some e := by
  cases h : t.find? e.operator with
  | none => exact absurd (decide_eq_true rfl) (List.find?_eq_none.mp h e he)
  | some a =>
      obtain ⟨ha, hop⟩ := mem_of_find? h
      rw [Entry.eq_of_distinct t.valid.operators_distinct ha he hop]

/-- Every entry builds an operation of its own operator, operands in order. -/
def Plain (t : Table) : Prop := ∀ e ∈ t.entries, e.build = .binary e.operator

/-- The arithmetic table is plain. -/
theorem plain_arithmetic : Plain arithmetic := by
  intro e he
  simp only [arithmetic, List.mem_cons, List.not_mem_nil, or_false] at he
  rcases he with rfl | rfl | rfl | rfl | rfl <;> rfl

end Table

end InfixArith
