import InfixArith.Proofs.Table.Match
import InfixArith.Proofs.Table.Valid
import Mathlib.Order.Monotone.Basic

/-!
# Table — rearranging a table

A list of entries is *rearranged* by putting it into another order and giving every precedence `p`
another number `f p`, the order of the precedences being kept (`Entry.Rearranged`).  This makes no
list valid or invalid (`Rearranged.valid_iff`).  The rearranged table has the rearranged entry for
every operator (`find?_eq`), and a level for every level of the table, on which the same tokens are
matched (`exists_level?`).
-/

namespace InfixArith

namespace Entry

/-- The entry with the precedence `f p` in place of `p`. -/
def relabel (f : Nat → Nat) (e : Entry) : Entry := { e with precedence := f e.precedence }

variable {f : Nat → Nat} {es es' : List Entry}

@[simp] theorem operator_relabel (e : Entry) : (e.relabel f).operator = e.operator := rfl

@[simp] theorem precedence_relabel (e : Entry) : (e.relabel f).precedence = f e.precedence := rfl

@[simp] theorem associativity_relabel (e : Entry) :
    (e.relabel f).associativity = e.associativity := rfl

@[simp] theorem token_relabel (e : Entry) : (e.relabel f).token = e.token := rfl

@[simp] theorem build_relabel (e : Entry) : (e.relabel f).build = e.build := rfl

/-- The precedences of a list of entries. -/
def precedences (es : List Entry) : Set Nat := {p | ∃ e ∈ es, e.precedence = p}

theorem precedence_mem {e : Entry} (he : e ∈ es) : e.precedence ∈ precedences es := ⟨e, he, rfl⟩

/-- The entries `es'` are `es` in some order, with `f p` for every precedence `p`.  The numbers `f p`
are positive and in the order of the precedences. -/
structure Rearranged (f : Nat → Nat) (es es' : List Entry) : Prop where
  perm : es'.Perm (es.map (relabel f))
  strictMono : StrictMonoOn f (precedences es)
  pos : ∀ e ∈ es, 0 < f e.precedence

namespace Rearranged

theorem mem_iff (h : Rearranged f es es') {e' : Entry} :
    e' ∈ es' ↔ ∃ e ∈ es, e.relabel f = e' := by
  rw [h.perm.mem_iff, List.mem_map]

theorem relabel_mem (h : Rearranged f es es') {e : Entry} (he : e ∈ es) : e.relabel f ∈ es' :=
  h.mem_iff.mpr ⟨e, he, rfl⟩

theorem precedence_eq_iff (h : Rearranged f es es') {a b : Entry} (ha : a ∈ es) (hb : b ∈ es) :
    f a.precedence = f b.precedence ↔ a.precedence = b.precedence :=
  h.strictMono.eq_iff_eq (precedence_mem ha) (precedence_mem hb)

/-- What tells entries apart without their precedences tells the rearranged ones apart. -/
theorem pairwise_iff (h : Rearranged f es es') {R : Entry → Entry → Prop}
    (hsymm : ∀ a b, R a b → R b a) (hrelabel : ∀ a b, R (a.relabel f) (b.relabel f) ↔ R a b) :
    es'.Pairwise R ↔ es.Pairwise R := by
  rw [h.perm.pairwise_iff (hsymm _ _), List.pairwise_map]
  simp only [hrelabel]

/-- **Rearranging keeps what is valid**, where no precedence is the one of atoms. -/
theorem valid_iff (h : Rearranged f es es') (hpos : ∀ e ∈ es, 0 < e.precedence) :
    Table.Valid es' ↔ Table.Valid es := by
  have htok := h.pairwise_iff (R := (·.token ≠ ·.token)) (fun _ _ => Ne.symm) fun _ _ => Iff.rfl
  have hop := h.pairwise_iff (R := (·.operator ≠ ·.operator)) (fun _ _ => Ne.symm) fun _ _ => Iff.rfl
  constructor
  · intro hv
    refine ⟨?_, hpos, fun e he => hv.token_ne_empty (e.relabel f) (h.relabel_mem he),
      htok.mp hv.tokens_distinct, hop.mp hv.operators_distinct, ?_⟩
    · rintro rfl
      exact hv.ne_nil h.perm.eq_nil
    · intro a ha b hb hab
      exact hv.associativity_eq (a.relabel f) (h.relabel_mem ha) (b.relabel f) (h.relabel_mem hb)
        (congrArg f hab)
  · intro hv
    refine ⟨?_, ?_, ?_, htok.mpr hv.tokens_distinct, hop.mpr hv.operators_distinct, ?_⟩
    · rintro rfl
      exact hv.ne_nil (List.map_eq_nil_iff.mp h.perm.nil_eq.symm)
    · intro e' he'
      obtain ⟨e, he, rfl⟩ := h.mem_iff.mp he'
      exact h.pos e he
    · intro e' he'
      obtain ⟨e, he, rfl⟩ := h.mem_iff.mp he'
      exact hv.token_ne_empty e he
    · intro a' ha' b' hb' hab
      obtain ⟨a, ha, rfl⟩ := h.mem_iff.mp ha'
      obtain ⟨b, hb, rfl⟩ := h.mem_iff.mp hb'
      exact hv.associativity_eq a ha b hb ((h.precedence_eq_iff ha hb).mp hab)

end Rearranged

end Entry

namespace Table

/-- The entries of `t'` are those of `t`, rearranged. -/
def Rearranged (f : Nat → Nat) (t t' : Table) : Prop := Entry.Rearranged f t.entries t'.entries

namespace Rearranged

variable {f : Nat → Nat} {t t' : Table} {p : Nat}

/-- The entry of an operator is the rearranged one. -/
theorem find?_eq (h : Rearranged f t t') (o : Operator) :
    t'.find? o = (t.find? o).map (Entry.relabel f) := by
  cases hfind : t.find? o with
  | some e =>
      obtain ⟨he, rfl⟩ := mem_of_find? hfind
      exact find?_operator (h.relabel_mem he)
  | none =>
      refine List.find?_eq_none.mpr fun e' he' => ?_
      obtain ⟨e, he, rfl⟩ := h.mem_iff.mp he'
      exact List.find?_eq_none.mp hfind e he

/-- On the levels of `p` and `f p` the same tokens are matched. -/
theorem match?_eq (h : Rearranged f t t') {level level' : Level} {a : Entry} (ha : a ∈ t.entries)
    (hl : t.level? a.precedence = some level) (hl' : t'.level? (f a.precedence) = some level')
    (s : List Char) : level'.match? s = (level.match? s).map (Prod.map (Entry.relabel f) id) := by
  have hmem : ∀ e', e' ∈ level'.entries ↔ ∃ e ∈ level.entries, e.relabel f = e' := by
    intro e'
    rw [(mem_level? hl').2.1 e', h.mem_iff]
    constructor
    · rintro ⟨⟨e, he, rfl⟩, hp⟩
      exact ⟨e, ((mem_level? hl).2.1 e).mpr ⟨he, (h.precedence_eq_iff he ha).mp hp⟩, rfl⟩
    · rintro ⟨e, he, rfl⟩
      obtain ⟨he, hp⟩ := ((mem_level? hl).2.1 e).mp he
      exact ⟨⟨e, he, rfl⟩, congrArg f hp⟩
  cases hm : level.match? s with
  | none =>
      refine Level.match?_eq_none.mpr fun e' he' => ?_
      obtain ⟨e, he, rfl⟩ := (hmem e').mp he'
      exact Level.match?_eq_none.mp hm e he
  | some found =>
      obtain ⟨e, r⟩ := found
      obtain ⟨he, hs, hlong⟩ := Level.match?_eq_some hm
      refine (match?_eq_some_iff hl').mpr ⟨(hmem _).mpr ⟨e, he, rfl⟩, hs, fun b' hb' hpre => ?_⟩
      obtain ⟨b, hb, rfl⟩ := (hmem b').mp hb'
      exact hlong b hb hpre

/-- **A level for every level**, which groups the same way and matches the same tokens. -/
theorem exists_level? (h : Rearranged f t t') {level : Level} (hl : t.level? p = some level) :
    ∃ level', t'.level? (f p) = some level' ∧ level'.associativity = level.associativity ∧
      ∀ s, level'.match? s = (level.match? s).map (Prod.map (Entry.relabel f) id) := by
  obtain ⟨a, ha⟩ := exists_mem_level hl
  obtain ⟨-, hmem, hassoc⟩ := mem_level? hl
  obtain ⟨hat, rfl⟩ := (hmem a).mp ha
  obtain ⟨level', hl', ha'⟩ := exists_level (h.relabel_mem hat)
  obtain ⟨-, -, hassoc'⟩ := mem_level? hl'
  exact ⟨level', hl', (hassoc' _ ha').symm.trans (hassoc a ha), h.match?_eq hat hl hl'⟩

end Rearranged

end Table

end InfixArith
