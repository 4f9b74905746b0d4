import InfixArith.Proofs.Table.Levels

/-!
# Table — which lists of entries make a table

A list of entries is refused exactly if it is not valid (`listFault?_eq_none_iff`): every way to be
faulty is looked for, and none is found in a valid list.  So a table is made of the valid lists and
of no others (`exists_ofEntries_iff`), and holds the entries it was made of
(`entries_of_ofEntries`).
-/

namespace InfixArith

namespace Entry

/-- An entry is faultless that has a precedence and a token, and neither its token nor its operator
has been seen. -/
theorem fault?_of_faultless {seen : List Entry} {e : Entry} (hp : 0 < e.precedence)
    (ht : e.token ≠ "") (hst : ∀ s ∈ seen, s.token ≠ e.token)
    (hso : ∀ s ∈ seen, s.operator ≠ e.operator) : fault? seen e = none := by
  have hany : ∀ {q : Entry → Bool}, (∀ s ∈ seen, q s = false) → ¬ seen.any q = true := by
    intro q hq hany
    obtain ⟨s, hs, hqs⟩ := List.any_eq_true.mp hany
    exact Bool.false_ne_true ((hq s hs).symm.trans hqs)
  rw [fault?, if_neg (Nat.ne_of_gt hp), if_neg ht,
    if_neg (hany fun s hs => decide_eq_false (hst s hs)),
    if_neg (hany fun s hs => decide_eq_false (hso s hs))]

/-- No entry of a list is faulty whose entries are in order and all differ, also from those seen. -/
theorem firstFault?_of_faultless {es : List Entry} : ∀ {seen : List Entry},
    (∀ e ∈ es, 0 < e.precedence ∧ e.token ≠ "") →
    es.Pairwise (·.token ≠ ·.token) → es.Pairwise (·.operator ≠ ·.operator) →
    (∀ s ∈ seen, ∀ e ∈ es, s.token ≠ e.token ∧ s.operator ≠ e.operator) →
    firstFault? seen es = none := by
  induction es with
  | nil => exact fun _ _ _ _ => rfl
  | cons e es ih =>
      intro seen hes htok hop hseen
      obtain ⟨hp, ht⟩ := hes e List.mem_cons_self
      obtain ⟨htok, htoks⟩ := List.pairwise_cons.mp htok
      obtain ⟨hop, hops⟩ := List.pairwise_cons.mp hop
      have hnone := fault?_of_faultless hp ht (fun s hs => (hseen s hs e List.mem_cons_self).1)
        fun s hs => (hseen s hs e List.mem_cons_self).2
      rw [firstFault?, hnone, Option.none_or]
      refine ih (fun a ha => hes a (List.mem_cons_of_mem e ha)) htoks hops ?_
      intro s hs a ha
      rcases List.mem_cons.mp hs with rfl | hs
      · exact ⟨htok a ha, hop a ha⟩
      · exact hseen s hs a (List.mem_cons_of_mem e ha)

/-- The level of an entry does not mix associativities in a valid list. -/
theorem mixed?_ofHead {es : List Entry} (h : Table.Valid es) {head : Entry} (hhead : head ∈ es) :
    (Level.ofHead es head).mixed? = none := by
  refine Option.map_eq_none_iff.mpr (List.find?_eq_none.mpr fun e he => ?_)
  simp only [Level.ofHead, List.mem_filter, decide_eq_true_eq] at he
  have heq : e.associativity = head.associativity := h.associativity_eq e he.1 head hhead he.2
  exact fun hne => of_decide_eq_true hne heq

/-- **The valid lists are those that are not refused.** -/
theorem listFault?_eq_none_iff {es : List Entry} : listFault? es = none ↔ Table.Valid es := by
  refine ⟨valid_of_listFault?_eq_none, fun h => ?_⟩
  have hfirst : firstFault? [] es = none :=
    firstFault?_of_faultless (fun e he => ⟨h.precedence_pos e he, h.token_ne_empty e he⟩)
      h.tokens_distinct h.operators_distinct fun s hs => nomatch hs
  have hlevels : (levels es).findSome? Level.mixed? = none := by
    refine List.findSome?_eq_none_iff.mpr fun level hl => ?_
    obtain ⟨head, hhead, rfl⟩ := List.mem_map.mp hl
    exact mixed?_ofHead h (mem_of_mem_heads hhead)
  rw [listFault?, if_neg (fun hnil => h.ne_nil (List.isEmpty_iff.mp hnil)), hfirst,
    Option.none_or, hlevels]

end Entry

namespace Table

variable {es : List Entry} {t : Table}

/-- A table holds the entries it was made of. -/
theorem entries_of_ofEntries (h : ofEntries es = .ok t) : t.entries = es := by
  unfold ofEntries at h
  split at h
  · cases h
  · cases h
    rfl

/-- **A table is made of the valid lists** and of no others. -/
theorem exists_ofEntries_iff : (∃ t, ofEntries es = .ok t) ↔ Valid es := by
  constructor
  · rintro ⟨t, ht⟩
    exact entries_of_ofEntries ht ▸ t.valid
  · intro hvalid
    unfold ofEntries
    split
    · next fault hfault =>
      rw [Entry.listFault?_eq_none_iff.mpr hvalid] at hfault
      cases hfault
    · exact ⟨_, rfl⟩

end Table

end InfixArith
