import InfixArith.Proofs.Table.Valid
import Mathlib.Tactic.SplitIfs

/-!
# Table — what a list of entries is refused for

A list of entries is refused for the first entry that is faulty among those before it (`FaultOf`)
or, where no entry is (`Faultless`), for a level whose entries do not all group the same way.
`Refused` says this of a list without going through it: which entry is the faulty one, and which two
entries of a level group differently.

A list that is no table is refused with such a fault, and with nothing else (`ofEntries_verdict`).
Which level is blamed where several mix associativities is left open by `Refused`: it may be each of
them, and no other (`refused_mixed_iff`).
-/

namespace InfixArith

namespace Entry

/-- What is wrong with `e` after the entries `before`: the first of four faults that it has. -/
inductive FaultOf (before : List Entry) (e : Entry) : TableError → Prop where
  | reservedPrecedence (hp : e.precedence = 0) : FaultOf before e (.reservedPrecedence e.operator)
  | emptyToken (hp : e.precedence ≠ 0) (ht : e.token = "") :
      FaultOf before e (.emptyToken e.operator)
  | duplicateToken (hp : e.precedence ≠ 0) (ht : e.token ≠ "")
      (hseen : ∃ a ∈ before, a.token = e.token) : FaultOf before e (.duplicateToken e.token)
  | duplicateOperator (hp : e.precedence ≠ 0) (ht : e.token ≠ "")
      (hnew : ∀ a ∈ before, a.token ≠ e.token) (hseen : ∃ a ∈ before, a.operator = e.operator) :
      FaultOf before e (.duplicateOperator e.operator)

/-- No entry is faulty among those before it. -/
def Faultless (es : List Entry) : Prop :=
  ∀ before e after, es = before ++ e :: after → ∀ x, ¬ FaultOf before e x

/-- What a list of entries is refused for. -/
inductive Refused (es : List Entry) : TableError → Prop where
  | empty (hes : es = []) : Refused es .empty
  /-- The first faulty entry. -/
  | entry {before after : List Entry} {e : Entry} {x : TableError}
      (hes : es = before ++ e :: after) (hbefore : Faultless before) (hx : FaultOf before e x) :
      Refused es x
  /-- The first entry of a level, and the first of the level that groups otherwise. -/
  | mixed {p : Nat} {a b : Entry} (hes : Faultless es)
      (hfirst : es.find? (·.precedence = p) = some a)
      (hsecond :
        es.find? (fun e => e.precedence = p ∧ e.associativity ≠ a.associativity) = some b) :
      Refused es (.mixedAssociativity p a.associativity b.associativity)

variable {seen es : List Entry} {e : Entry} {x : TableError}

/-! ### The first faulty entry -/

theorem fault?_eq_some_iff : fault? seen e = some x ↔ FaultOf seen e x := by
  have hany : ∀ q : Entry → Prop, [DecidablePred q] →
      (seen.any (fun s => decide (q s)) = true ↔ ∃ s ∈ seen, q s) := by
    intro q _
    simp only [List.any_eq_true, decide_eq_true_eq]
  unfold fault?
  constructor
  · intro h
    split_ifs at h with hp ht hs ho <;> cases h
    · exact .reservedPrecedence hp
    · exact .emptyToken hp ht
    · exact .duplicateToken hp ht ((hany _).mp hs)
    · exact .duplicateOperator hp ht (fun a ha h => hs ((hany _).mpr ⟨a, ha, h⟩)) ((hany _).mp ho)
  · rintro (hp | ⟨hp, ht⟩ | ⟨hp, ht, hs⟩ | ⟨hp, ht, hnew, hs⟩)
    · rw [if_pos hp]
    · rw [if_neg hp, if_pos ht]
    · rw [if_neg hp, if_neg ht, if_pos ((hany _).mpr hs)]
    · have hno : ¬ seen.any (fun s => decide (s.token = e.token)) = true := by
        rw [hany]
        rintro ⟨a, ha, h⟩
        exact hnew a ha h
      rw [if_neg hp, if_neg ht, if_neg hno, if_pos ((hany _).mpr hs)]

theorem fault?_eq_none_iff : fault? seen e = none ↔ ∀ x, ¬ FaultOf seen e x := by
  simp only [Option.eq_none_iff_forall_ne_some, ne_eq, fault?_eq_some_iff]

/-- What is wrong with an entry does not depend on the order of those before it. -/
theorem FaultOf.congr {seen' : List Entry} (h : ∀ a, a ∈ seen ↔ a ∈ seen') :
    FaultOf seen e x ↔ FaultOf seen' e x := by
  have key : ∀ {s s' : List Entry}, (∀ a, a ∈ s ↔ a ∈ s') → FaultOf s e x → FaultOf s' e x := by
    intro s s' h hx
    cases hx with
    | reservedPrecedence hp => exact .reservedPrecedence hp
    | emptyToken hp ht => exact .emptyToken hp ht
    | duplicateToken hp ht hs =>
        obtain ⟨a, ha, hat⟩ := hs
        exact .duplicateToken hp ht ⟨a, (h a).mp ha, hat⟩
    | duplicateOperator hp ht hnew hs =>
        obtain ⟨a, ha, hao⟩ := hs
        exact .duplicateOperator hp ht (fun b hb => hnew b ((h b).mpr hb)) ⟨a, (h a).mp ha, hao⟩
  exact ⟨key h, key fun a => (h a).symm⟩

/-- Going through a list finds no fault exactly if there is none among the entries seen before. -/
theorem firstFault?_eq_none_iff : firstFault? seen es = none ↔
    ∀ before e after, es = before ++ e :: after → fault? (before.reverse ++ seen) e = none := by
  induction es generalizing seen with
  | nil => simp [firstFault?]
  | cons a es ih =>
      rw [firstFault?, Option.or_eq_none_iff, ih]
      constructor
      · rintro ⟨ha, hes⟩ before e after heq
        cases before with
        | nil =>
            cases heq
            exact ha
        | cons b before =>
            cases heq
            simpa using hes before e after rfl
      · intro h
        refine ⟨h [] a es rfl, fun before e after heq => ?_⟩
        simpa using h (a :: before) e after (congrArg (a :: ·) heq)

/-- What is found is the fault of an entry, and nothing is found before it. -/
theorem firstFault?_eq_some (h : firstFault? seen es = some x) :
    ∃ before e after, es = before ++ e :: after ∧ firstFault? seen before = none ∧
      fault? (before.reverse ++ seen) e = some x := by
  induction es generalizing seen with
  | nil => cases h
  | cons a es ih =>
      rw [firstFault?, Option.or_eq_some_iff] at h
      rcases h with ha | ⟨ha, hes⟩
      · exact ⟨[], a, es, rfl, rfl, ha⟩
      · obtain ⟨before, e, after, rfl, hbefore, he⟩ := ih hes
        refine ⟨a :: before, e, after, rfl, ?_, by simpa using he⟩
        rw [firstFault?, ha, hbefore, Option.none_or]

theorem firstFault?_nil_eq_none_iff : firstFault? [] es = none ↔ Faultless es := by
  simp only [firstFault?_eq_none_iff, fault?_eq_none_iff, Faultless]
  refine forall₅_congr fun before e after _ x => not_congr (FaultOf.congr fun a => ?_)
  rw [List.append_nil, List.mem_reverse]

/-! ### Levels that mix associativities -/

theorem mem_insertHead_self (e : Entry) (hs : List Entry) : e ∈ insertHead e hs := by
  induction hs with
  | nil => exact List.mem_singleton_self e
  | cons h t ih =>
      rw [insertHead]
      split
      · exact List.mem_cons_self
      · split
        · exact List.mem_cons_self
        · exact List.mem_cons_of_mem h ih

/-- The head of a level is the first entry of its precedence. -/
theorem find?_head {head : Entry} (h : head ∈ heads es) :
    es.find? (·.precedence = head.precedence) = some head := by
  induction es with
  | nil => cases h
  | cons a es ih =>
      by_cases hp : a.precedence = head.precedence
      · -- `a` took the place of the head that the entries after it have
        have heq := eq_of_distinct (f := Entry.precedence)
          ((heads_ascending (a :: es)).imp Nat.ne_of_lt) (mem_insertHead_self a (heads es)) h hp
        subst heq
        exact List.find?_cons_of_pos (decide_eq_true rfl)
      · have hne : head ≠ a := fun heq => hp (heq ▸ rfl)
        rw [List.find?_cons_of_neg (by simpa using hp)]
        exact ih ((mem_insertHead h).resolve_left hne)

/-- The fault of the level of `head` is told by the first of its entries that groups otherwise. -/
theorem mixed?_ofHead_iff {head : Entry} :
    (Level.ofHead es head).mixed? = some x ↔
      ∃ b, es.find? (fun e => e.precedence = head.precedence ∧
          e.associativity ≠ head.associativity) = some b ∧
        .mixedAssociativity head.precedence head.associativity b.associativity = x := by
  have hentries :
      (Level.ofHead es head).entries.find? (·.associativity ≠ head.associativity) =
        es.find? (fun e => e.precedence = head.precedence ∧
          e.associativity ≠ head.associativity) := by
    rw [Level.ofHead, List.find?_filter]
    exact congrArg (List.find? · es) (funext fun e => decide_eq_decide.mpr (by simp))
  rw [Level.mixed?, Option.map_eq_some_iff, ← hentries]
  rfl

/-- **Whichever level mixes associativities**, its fault is one to refuse the list for. -/
theorem refused_of_mixed? (hes : Faultless es) {level : Level} (hl : level ∈ levels es)
    (hx : level.mixed? = some x) : Refused es x := by
  obtain ⟨head, hhead, rfl⟩ := List.mem_map.mp hl
  obtain ⟨b, hb, rfl⟩ := mixed?_ofHead_iff.mp hx
  exact .mixed hes (find?_head hhead) hb

/-- The first entry of a precedence is the head of its level. -/
theorem mem_heads_of_find? {p : Nat} {a : Entry} (h : es.find? (·.precedence = p) = some a) :
    a ∈ heads es ∧ a.precedence = p := by
  have hp : a.precedence = p := by simpa only [decide_eq_true_eq] using List.find?_some h
  obtain ⟨head, hhead, heq⟩ := exists_head (List.mem_of_find?_eq_some h)
  have hfind := find?_head hhead
  rw [heq, hp, h] at hfind
  exact ⟨Option.some.inj hfind ▸ hhead, hp⟩

/-- A list may be refused for every level that mixes associativities, whichever is looked at first. -/
theorem refused_mixed_iff {p : Nat} {a b : Associativity} :
    Refused es (.mixedAssociativity p a b) ↔
      Faultless es ∧ ∃ level ∈ levels es, level.mixed? = some (.mixedAssociativity p a b) := by
  constructor
  · intro h
    cases h with
    | entry _ _ hx => cases hx
    | mixed hes hfirst hsecond =>
        obtain ⟨hhead, rfl⟩ := mem_heads_of_find? hfirst
        exact ⟨hes, _, List.mem_map_of_mem hhead, mixed?_ofHead_iff.mpr ⟨_, hsecond, rfl⟩⟩
  · rintro ⟨hes, level, hl, hx⟩
    exact refused_of_mixed? hes hl hx

theorem refused_of_listFault? (h : listFault? es = some x) : Refused es x := by
  unfold listFault? at h
  split at h
  · next hnil =>
    cases h
    exact .empty (List.isEmpty_iff.mp hnil)
  · rcases Option.or_eq_some_iff.mp h with hfirst | ⟨hnone, hmixed⟩
    · obtain ⟨before, e, after, heq, hbefore, he⟩ := firstFault?_eq_some hfirst
      refine .entry heq (firstFault?_nil_eq_none_iff.mp hbefore) ?_
      refine (FaultOf.congr fun a => ?_).mp (fault?_eq_some_iff.mp he)
      rw [List.append_nil, List.mem_reverse]
    · obtain ⟨level, hl, hx⟩ := List.exists_of_findSome?_eq_some hmixed
      exact refused_of_mixed? (firstFault?_nil_eq_none_iff.mp hnone) hl hx

end Entry

namespace Table

variable {es : List Entry} {x : TableError}

theorem ofEntries_eq_error_iff : ofEntries es = .error x ↔ Entry.listFault? es = some x := by
  unfold ofEntries
  split
  · next fault h => simp [h]
  · next h => simp [h]

/-- **The verdict on a list of entries.**  A valid list makes a table with these entries, and any
other is refused for its first faulty entry, or else for a level that mixes associativities.  Where
several do, each of them may be the one that it is refused for. -/
theorem ofEntries_verdict (es : List Entry) :
    ((∃ t, ofEntries es = .ok t ∧ t.entries = es) ↔ Valid es) ∧
      ((∃ x, ofEntries es = .error x ∧ Entry.Refused es x) ↔ ¬ Valid es) ∧
      ∀ p a b, Entry.Refused es (.mixedAssociativity p a b) ↔
        Entry.Faultless es ∧
          ∃ level ∈ Entry.levels es, level.mixed? = some (.mixedAssociativity p a b) := by
  refine ⟨?_, ?_, fun p a b => Entry.refused_mixed_iff⟩
  · rw [← exists_ofEntries_iff]
    exact ⟨fun ⟨t, ht, _⟩ => ⟨t, ht⟩, fun ⟨t, ht⟩ => ⟨t, ht, entries_of_ofEntries ht⟩⟩
  · rw [← Entry.listFault?_eq_none_iff, ← ne_eq, Option.ne_none_iff_exists']
    constructor
    · rintro ⟨x, hx, -⟩
      exact ⟨x, ofEntries_eq_error_iff.mp hx⟩
    · rintro ⟨x, hx⟩
      exact ⟨x, ofEntries_eq_error_iff.mpr hx, Entry.refused_of_listFault? hx⟩

/-- The second `+` is found before the two that group differently are looked at. -/
example : Entry.listFault?
    [.plain .add 2 .leftToRight "+", .plain .sub 2 .rightToLeft "-",
      .plain .add 2 .leftToRight "+"] = some (.duplicateToken "+") := by decide

end Table

end InfixArith
