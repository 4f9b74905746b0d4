import InfixArith.Expr.Basic

/-!
# Table — entries, and what makes a table valid

An entry says how one operator is spelled, how tightly it binds, how its level groups and what is
built of its operands.  Precedence `0` is that of literals and parentheses; a larger number binds
more loosely.

A table holds valid entries only.  `Table.ofEntries` accepts exactly the valid lists and reports
the first fault of any other.
-/

namespace InfixArith

/-- One operator of a table. -/
structure Entry where
  operator : Operator
  precedence : Nat
  associativity : Associativity
  /-- How the operator is written between its operands. -/
  token : String
  /-- The expression for `left token right`, not necessarily a node of the entry's own operator. -/
  build : (left right : Expr) → Expr

namespace Entry

/-- An entry that builds nodes of its own operator, operands in order. -/
def plain (operator : Operator) (precedence : Nat) (associativity : Associativity)
    (token : String) : Entry :=
  ⟨operator, precedence, associativity, token, .binary operator⟩

end Entry

/-- What is wrong with a list of entries. -/
inductive TableError where
  | empty
  | reservedPrecedence (operator : Operator)
  | emptyToken (operator : Operator)
  | duplicateToken (token : String)
  | duplicateOperator (operator : Operator)
  | mixedAssociativity (precedence : Nat) (first second : Associativity)
  deriving DecidableEq

namespace TableError

def message : TableError → String
  | .empty => "operator table is empty"
  | .reservedPrecedence o =>
    "operator " ++ o.name ++ " uses precedence 0, which is reserved for atoms"
  | .emptyToken o => "operator " ++ o.name ++ " has an empty infix token"
  | .duplicateToken t => "infix token '" ++ t ++ "' is registered more than once"
  | .duplicateOperator o => "operator " ++ o.name ++ " is registered more than once"
  | .mixedAssociativity p a b =>
    "precedence level " ++ toString p ++ " mixes " ++ a.name ++ " and " ++ b.name ++
      " associativity"

end TableError

/-- The entries of one precedence, in the order of the table. -/
structure Level where
  precedence : Nat
  associativity : Associativity
  entries : List Entry

namespace Level

/-- The entries of the precedence of `head`, grouping as `head` does. -/
def ofHead (es : List Entry) (head : Entry) : Level :=
  ⟨head.precedence, head.associativity, es.filter (·.precedence = head.precedence)⟩

/-- The fault of a level whose entries do not all group the same way. -/
def mixed? (level : Level) : Option TableError :=
  (level.entries.find? (·.associativity ≠ level.associativity)).map fun e =>
    .mixedAssociativity level.precedence level.associativity e.associativity

end Level

namespace Entry

/-- Puts `e` before the heads of looser levels, in place of the head of its own. -/
def insertHead (e : Entry) : List Entry → List Entry
  | []     => [e]
  | h :: t =>
    if e.precedence < h.precedence then e :: h :: t
    else if e.precedence = h.precedence then e :: t
    else h :: insertHead e t

/-- The first entry of each precedence, tightest first. -/
def heads (es : List Entry) : List Entry := es.foldr insertHead []

/-- The levels of a list of entries, tightest first. -/
def levels (es : List Entry) : List Level := (heads es).map (Level.ofHead es)

/-- What is wrong with `e` after the entries `seen`. -/
def fault? (seen : List Entry) (e : Entry) : Option TableError :=
  if e.precedence = 0 then some (.reservedPrecedence e.operator)
  else if e.token = "" then some (.emptyToken e.operator)
  else if seen.any (·.token = e.token) then some (.duplicateToken e.token)
  else if seen.any (·.operator = e.operator) then some (.duplicateOperator e.operator)
  else none

/-- The first fault of an entry, in list order, after the entries `seen`. -/
def firstFault? (seen : List Entry) : List Entry → Option TableError
  | []      => none
  | e :: es => (fault? seen e).or (firstFault? (e :: seen) es)

/-- The fault a list of entries is refused with: that of the first faulty entry, else that of the
tightest level that mixes associativities. -/
def listFault? (es : List Entry) : Option TableError :=
  if es.isEmpty then some .empty
  else (firstFault? [] es).or ((levels es).findSome? Level.mixed?)

end Entry

/-- What a list of entries satisfies to make up a table. -/
structure Table.Valid (es : List Entry) : Prop where
  ne_nil : es ≠ []
  precedence_pos : ∀ e ∈ es, 0 < e.precedence
  token_ne_empty : ∀ e ∈ es, e.token ≠ ""
  tokens_distinct : es.Pairwise (·.token ≠ ·.token)
  operators_distinct : es.Pairwise (·.operator ≠ ·.operator)
  associativity_eq : ∀ a ∈ es, ∀ b ∈ es, a.precedence = b.precedence →
    a.associativity = b.associativity

namespace Entry

theorem fault?_eq_none {seen : List Entry} {e : Entry} (h : fault? seen e = none) :
    0 < e.precedence ∧ e.token ≠ "" ∧ (∀ s ∈ seen, s.token ≠ e.token) ∧
      ∀ s ∈ seen, s.operator ≠ e.operator := by
  unfold fault? at h
  split at h
  · cases h
  · next hp =>
    split at h
    · cases h
    · next ht =>
      split at h
      · cases h
      · next hs =>
        split at h
        · cases h
        · next ho =>
          simp only [List.any_eq_true, decide_eq_true_eq, not_exists, not_and] at hs ho
          exact ⟨Nat.pos_of_ne_zero hp, ht, hs, ho⟩

theorem firstFault?_eq_none {es : List Entry} : ∀ {seen : List Entry},
    firstFault? seen es = none →
      (∀ e ∈ es, 0 < e.precedence ∧ e.token ≠ "") ∧
      es.Pairwise (·.token ≠ ·.token) ∧ es.Pairwise (·.operator ≠ ·.operator) ∧
      ∀ s ∈ seen, ∀ e ∈ es, s.token ≠ e.token ∧ s.operator ≠ e.operator := by
  induction es with
  | nil => intro seen _; simp
  | cons e es ih =>
      intro seen h
      rw [firstFault?, Option.or_eq_none_iff] at h
      obtain ⟨hp, ht, hst, hso⟩ := fault?_eq_none h.1
      obtain ⟨hes, htok, hop, hseen⟩ := ih h.2
      refine ⟨?_, ?_, ?_, ?_⟩
      · intro a ha
        rcases List.mem_cons.mp ha with rfl | ha
        · exact ⟨hp, ht⟩
        · exact hes a ha
      · exact List.pairwise_cons.mpr ⟨fun a ha => (hseen e List.mem_cons_self a ha).1, htok⟩
      · exact List.pairwise_cons.mpr ⟨fun a ha => (hseen e List.mem_cons_self a ha).2, hop⟩
      · intro s hs a ha
        rcases List.mem_cons.mp ha with rfl | ha
        · exact ⟨hst s hs, hso s hs⟩
        · exact hseen s (List.mem_cons_of_mem e hs) a ha

theorem exists_insertHead (e : Entry) (hs : List Entry) :
    (∃ h ∈ insertHead e hs, h.precedence = e.precedence) ∧
      ∀ h ∈ hs, ∃ h' ∈ insertHead e hs, h'.precedence = h.precedence := by
  induction hs with
  | nil => simp [insertHead]
  | cons h t ih =>
      unfold insertHead
      split
      · exact ⟨⟨e, List.mem_cons_self, rfl⟩, fun a ha => ⟨a, List.mem_cons_of_mem e ha, rfl⟩⟩
      · split
        · next heq =>
          refine ⟨⟨e, List.mem_cons_self, rfl⟩, fun a ha => ?_⟩
          rcases List.mem_cons.mp ha with rfl | ha
          · exact ⟨e, List.mem_cons_self, heq⟩
          · exact ⟨a, List.mem_cons_of_mem e ha, rfl⟩
        · obtain ⟨⟨x, hx, hxe⟩, ih⟩ := ih
          refine ⟨⟨x, List.mem_cons_of_mem h hx, hxe⟩, fun a ha => ?_⟩
          rcases List.mem_cons.mp ha with rfl | ha
          · exact ⟨a, List.mem_cons_self, rfl⟩
          · obtain ⟨y, hy, hya⟩ := ih a ha
            exact ⟨y, List.mem_cons_of_mem h hy, hya⟩

/-- Every entry is on the level of some head. -/
theorem exists_head {es : List Entry} {e : Entry} (he : e ∈ es) :
    ∃ h ∈ heads es, h.precedence = e.precedence := by
  induction es with
  | nil => cases he
  | cons a es ih =>
      rcases List.mem_cons.mp he with rfl | he
      · exact (exists_insertHead e (heads es)).1
      · obtain ⟨h, hh, hhe⟩ := ih he
        obtain ⟨h', hh', hp⟩ := (exists_insertHead a (heads es)).2 h hh
        exact ⟨h', hh', hp.trans hhe⟩

/-- Where no level mixes associativities, entries of one precedence group the same way. -/
theorem associativity_eq_of_not_mixed {es : List Entry}
    (h : (levels es).findSome? Level.mixed? = none) {a b : Entry} (ha : a ∈ es) (hb : b ∈ es)
    (hab : a.precedence = b.precedence) : a.associativity = b.associativity := by
  obtain ⟨head, hh, hp⟩ := exists_head ha
  have hl := List.findSome?_eq_none_iff.mp h (Level.ofHead es head)
    (List.mem_map.mpr ⟨head, hh, rfl⟩)
  have same : ∀ e ∈ es, e.precedence = head.precedence → e.associativity = head.associativity := by
    intro e he hep
    have hf := List.find?_eq_none.mp (Option.map_eq_none_iff.mp hl) e
      (List.mem_filter.mpr ⟨he, decide_eq_true hep⟩)
    exact Decidable.byContradiction fun hne => hf (decide_eq_true hne)
  exact (same a ha hp.symm).trans (same b hb (hab.symm.trans hp.symm)).symm

theorem valid_of_listFault?_eq_none {es : List Entry} (h : listFault? es = none) :
    Table.Valid es := by
  unfold listFault? at h
  split at h
  · cases h
  · next hne =>
    rw [Option.or_eq_none_iff] at h
    obtain ⟨hes, htok, hop, -⟩ := firstFault?_eq_none h.1
    exact ⟨fun h => hne (List.isEmpty_iff.mpr h), fun e he => (hes e he).1,
      fun e he => (hes e he).2, htok, hop,
      fun a ha b hb => associativity_eq_of_not_mixed h.2 ha hb⟩

end Entry

/-- An operator table: valid entries in the order of registration. -/
structure Table where
  entries : List Entry
  valid : Table.Valid entries

namespace Table

theorem token_ne_nil {t : Table} {e : Entry} (he : e ∈ t.entries) : e.token.toList ≠ [] :=
  fun hnil => t.valid.token_ne_empty e he (String.toList_eq_nil_iff.mp hnil)

/-- The table of `es`, or the fault `es` is refused with. -/
def ofEntries (es : List Entry) : Except TableError Table :=
  match h : Entry.listFault? es with
  | some e => .error e
  | none   => .ok ⟨es, Entry.valid_of_listFault?_eq_none h⟩

/-- The arithmetic table: `**` binds tightest and groups to the right, then `*` and `/`, then `+`
and `-`. -/
def arithmetic : Table where
  entries :=
    [.plain .pow 1 .rightToLeft "**", .plain .mul 2 .leftToRight "*",
     .plain .div 2 .leftToRight "/", .plain .add 3 .leftToRight "+",
     .plain .sub 3 .leftToRight "-"]
  valid := Entry.valid_of_listFault?_eq_none (by decide)

/-- The entry of an operator. -/
def find? (t : Table) (o : Operator) : Option Entry := t.entries.find? (·.operator = o)

/-- The levels, tightest first. -/
def levels (t : Table) : List Level := Entry.levels t.entries

/-- The level of a precedence. -/
def level? (t : Table) (p : Nat) : Option Level := t.levels.find? (·.precedence = p)

/-- The levels of precedence `p` or tighter, loosest first. -/
def levelsUpTo (t : Table) (p : Nat) : List Level :=
  (t.levels.filter (·.precedence ≤ p)).reverse

/-- The precedence of the loosest level. -/
def maxPrecedence (t : Table) : Nat := t.entries.foldr (max ·.precedence ·) 0

end Table

end InfixArith
