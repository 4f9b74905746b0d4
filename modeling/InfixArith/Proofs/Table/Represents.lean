import InfixArith.Proofs.Table.Match
import InfixArith.Proofs.Table.Valid
import InfixArith.Proofs.Text.Bytes

/-!
# Table — what a table says of its entries

A table is asked for the entry of an operator, for the level of a precedence, for all levels in turn
and for the loosest precedence; a level is asked for the entry of a token and for its tokens in the
order in which they are tried.  `Represents t es` says that every answer is the one that the list
`es` gives, so that they never contradict one another: whoever writes asks by operator, whoever
reads asks by level and token, and both find the same entry (`Represents.views_agree`).

A table represents the entries it was made of (`ofEntries_represents`).
-/

namespace InfixArith

namespace List

variable {α β : Type} [DecidableEq β] {f : α → β}

/-- What is found by a key that no two elements share is the element with this key. -/
theorem find?_eq_some_iff_mem {l : List α} (h : l.Pairwise fun a b => f a ≠ f b) {x : β} {a : α} :
    l.find? (fun b => f b = x) = some a ↔ a ∈ l ∧ f a = x := by
  induction l with
  | nil => simp
  | cons b l ih =>
      obtain ⟨hb, hl⟩ := List.pairwise_cons.mp h
      by_cases hx : f b = x
      · have hfind : (b :: l).find? (fun b => f b = x) = some b :=
          List.find?_cons_of_pos (decide_eq_true hx)
        rw [hfind, Option.some.injEq]
        refine ⟨fun heq => heq ▸ ⟨List.mem_cons_self, hx⟩, fun ⟨ha, hax⟩ => ?_⟩
        rcases List.mem_cons.mp ha with rfl | ha
        · rfl
        · exact absurd (hx.trans hax.symm) (hb a ha)
      · rw [List.find?_cons_of_neg (by simpa using hx), ih hl, List.mem_cons]
        refine ⟨fun ⟨ha, hax⟩ => ⟨.inr ha, hax⟩, fun ⟨ha, hax⟩ => ⟨ha.resolve_left ?_, hax⟩⟩
        rintro rfl
        exact hx hax

/-- Taking the elements of one key after those of another takes every element once. -/
theorem flatMap_filter_perm {ks : List β} (hks : ks.Nodup) {l : List α} (hl : ∀ a ∈ l, f a ∈ ks) :
    (ks.flatMap fun k => l.filter (f · = k)).Perm l := by
  induction ks generalizing l with
  | nil =>
      obtain rfl : l = [] := List.eq_nil_iff_forall_not_mem.mpr fun a ha => nomatch hl a ha
      exact List.Perm.refl _
  | cons k ks ih =>
      obtain ⟨hk, hks⟩ := List.nodup_cons.mp hks
      -- the elements of other keys are those that are not of the key `k`
      have hother : ∀ j ∈ ks,
          l.filter (f · = j) = (l.filter fun a => !(f a = k : Bool)).filter (f · = j) := by
        intro j hj
        rw [List.filter_filter]
        refine List.filter_congr fun a _ => ?_
        by_cases ha : f a = j
        · have hne : f a ≠ k := fun h => hk (h.symm.trans ha ▸ hj)
          simp [ha, show j ≠ k from ha ▸ hne]
        · simp [ha]
      have hrest : ∀ a ∈ l.filter fun a => !(f a = k : Bool), f a ∈ ks := by
        intro a ha
        obtain ⟨ha, hne⟩ := List.mem_filter.mp ha
        exact (List.mem_cons.mp (hl a ha)).resolve_left (by simpa using hne)
      rw [List.flatMap_cons, List.flatMap_congr hother]
      exact ((ih hks hrest).append_left _).trans (List.filter_append_perm (f · = k) l)

end List

/-- Longer tokens first, and of tokens of the same size the one with the smaller bytes. -/
def TokenBefore (a b : String) : Prop :=
  b.utf8ByteSize < a.utf8ByteSize ∨
    a.utf8ByteSize = b.utf8ByteSize ∧ Text.bytes a.toList < Text.bytes b.toList

theorem Entry.tokenBefore_of_not_triedBefore {a b : Entry} (h : ¬ b.triedBefore a)
    (hne : a.token ≠ b.token) : TokenBefore a.token b.token := by
  rw [triedBefore_iff, not_or, Nat.not_lt, not_and] at h
  rcases Nat.lt_or_eq_of_le h.1 with hlt | heq
  · exact .inl hlt
  · have hlt : a.token < b.token := Std.lt_of_le_of_ne (String.not_lt.mp (h.2 heq)) hne
    exact .inr ⟨heq.symm, Text.bytes_lt_bytes (String.lt_iff.mp hlt)⟩

namespace Level

/-- The tokens of a level in the order in which they are tried. -/
def tokens (level : Level) : List String := level.candidates.map (·.token)

/-- The level holds the entries of precedence `p` among `es`. -/
structure Represents (level : Level) (es : List Entry) (p : Nat) : Prop where
  precedence_eq : level.precedence = p
  /-- In the order of the list. -/
  entries_eq : level.entries = es.filter (·.precedence = p)
  associativity_eq : ∀ e ∈ level.entries, e.associativity = level.associativity
  tokens_perm : level.tokens.Perm (level.entries.map (·.token))
  tokens_ordered : level.tokens.Pairwise TokenBefore
  find?_iff : ∀ token e, level.find? token = some e ↔
    e ∈ es ∧ e.precedence = p ∧ e.token = token

theorem tokens_ordered {level : Level} (h : level.entries.Pairwise (·.token ≠ ·.token)) :
    level.tokens.Pairwise TokenBefore := by
  have hdistinct : level.candidates.Pairwise (·.token ≠ ·.token) :=
    (level.candidates_perm.pairwise_iff fun h => h.symm).mpr h
  refine List.pairwise_map.mpr ((level.candidates_ordered.and hdistinct).imp ?_)
  rintro a b ⟨hnot, hne⟩
  exact Entry.tokenBefore_of_not_triedBefore hnot hne

end Level

namespace Table

/-- Every answer of the table is the one that the entries `es` give. -/
structure Represents (t : Table) (es : List Entry) : Prop where
  find?_iff : ∀ o e, t.find? o = some e ↔ e ∈ es ∧ e.operator = o
  level?_isSome_iff : ∀ p, (t.level? p).isSome ↔ ∃ e ∈ es, e.precedence = p
  level : ∀ p level, t.level? p = some level → level.Represents es p
  mem_levels_iff : ∀ level, level ∈ t.levels ↔ t.level? level.precedence = some level
  levels_ascending : t.levels.Pairwise (·.precedence < ·.precedence)
  /-- The levels together hold every entry once. -/
  levels_entries : (t.levels.flatMap (·.entries)).Perm es
  precedence_le : ∀ e ∈ es, e.precedence ≤ t.maxPrecedence
  maxPrecedence_level : (t.level? t.maxPrecedence).isSome
  /-- The entry of an operator is that of its token on the level of its precedence. -/
  views_agree : ∀ o e, t.find? o = some e → ∃ level, t.level? e.precedence = some level ∧
    level.associativity = e.associativity ∧ level.find? e.token = some e

variable {t : Table} {p : Nat} {level : Level}

theorem find?_eq_some_iff {o : Operator} {e : Entry} :
    t.find? o = some e ↔ e ∈ t.entries ∧ e.operator = o :=
  ⟨mem_of_find?, fun ⟨he, ho⟩ => ho ▸ find?_operator he⟩

theorem level?_eq_some_iff : t.level? p = some level ↔ level ∈ t.levels ∧ level.precedence = p :=
  List.find?_eq_some_iff_mem (t.levels_ascending.imp Nat.ne_of_lt)

theorem level?_precedence (h : level ∈ t.levels) : t.level? level.precedence = some level :=
  level?_eq_some_iff.mpr ⟨h, rfl⟩

theorem level?_isSome_iff : (t.level? p).isSome ↔ ∃ e ∈ t.entries, e.precedence = p := by
  constructor
  · intro h
    obtain ⟨level, hl⟩ := Option.isSome_iff_exists.mp h
    obtain ⟨e, he⟩ := exists_mem_level hl
    obtain ⟨-, hmem, -⟩ := mem_level? hl
    exact ⟨e, (hmem e).mp he⟩
  · rintro ⟨e, he, rfl⟩
    obtain ⟨level, hl, -⟩ := exists_level he
    exact Option.isSome_iff_exists.mpr ⟨level, hl⟩

/-- Some level is as loose as the loosest entry. -/
theorem exists_maxPrecedence (t : Table) : ∃ e ∈ t.entries, e.precedence = t.maxPrecedence := by
  have hne := t.valid.ne_nil
  unfold maxPrecedence
  generalize t.entries = es at hne
  induction es with
  | nil => exact absurd rfl hne
  | cons a es ih =>
      rw [List.foldr_cons]
      by_cases hes : es = []
      · exact ⟨a, List.mem_cons_self, by rw [hes, List.foldr_nil, Nat.max_zero]⟩
      · obtain ⟨e, he, heq⟩ := ih hes
        rcases Nat.le_total a.precedence e.precedence with hle | hle
        · exact ⟨e, List.mem_cons_of_mem a he, by rw [← heq, Nat.max_eq_right hle]⟩
        · exact ⟨a, List.mem_cons_self, by rw [← heq, Nat.max_eq_left hle]⟩

theorem represents_level (h : t.level? p = some level) : level.Represents t.entries p := by
  obtain ⟨hp, hmem, hassoc⟩ := mem_level? h
  have hentries : level.entries = t.entries.filter (·.precedence = p) := by
    obtain ⟨head, -, rfl⟩ := List.mem_map.mp (level?_eq_some_iff.mp h).1
    rw [← hp]
    rfl
  have hdistinct : level.entries.Pairwise (·.token ≠ ·.token) :=
    hentries ▸ t.valid.tokens_distinct.filter _
  refine ⟨hp, hentries, hassoc, level.candidates_perm.map _, Level.tokens_ordered hdistinct, ?_⟩
  intro token e
  rw [Level.find?, List.find?_eq_some_iff_mem hdistinct, hmem e, and_assoc]

theorem levels_entries_perm (t : Table) : (t.levels.flatMap (·.entries)).Perm t.entries := by
  have hflat : t.levels.flatMap (·.entries) =
      ((Entry.heads t.entries).map (·.precedence)).flatMap
        fun p => t.entries.filter (·.precedence = p) := by
    rw [levels, Entry.levels, List.flatMap_map, List.flatMap_map]
    rfl
  rw [hflat]
  refine List.flatMap_filter_perm ?_ fun e he => ?_
  · exact List.pairwise_map.mpr ((Entry.heads_ascending t.entries).imp Nat.ne_of_lt)
  · obtain ⟨head, hhead, hp⟩ := Entry.exists_head he
    exact List.mem_map.mpr ⟨head, hhead, hp⟩

/-- **A table represents the entries it was made of.** -/
theorem ofEntries_represents {es : List Entry} (h : ofEntries es = .ok t) : Represents t es := by
  obtain rfl := entries_of_ofEntries h
  refine ⟨fun _ _ => find?_eq_some_iff, fun _ => level?_isSome_iff, fun _ _ => represents_level,
    fun level => ?_, t.levels_ascending, t.levels_entries_perm,
    fun _ => precedence_le_maxPrecedence, level?_isSome_iff.mpr t.exists_maxPrecedence, ?_⟩
  · rw [level?_eq_some_iff, and_iff_left rfl]
  · intro o e ho
    obtain ⟨he, -⟩ := mem_of_find? ho
    obtain ⟨level, hl, hel⟩ := exists_level he
    have hlevel := represents_level hl
    exact ⟨level, hl, (hlevel.associativity_eq e hel).symm,
      (hlevel.find?_iff e.token e).mpr ⟨he, rfl, rfl⟩⟩

/-- On the level of precedence 7 the arrow, one character of three bytes, is tried first. -/
theorem ofEntries_represents_sparse :
    let es : List Entry :=
      [.plain .mul 7 .leftToRight "*", .plain .add 4000000000 .nonAssociative "+",
        .plain .pow 7 .leftToRight "↑", .plain .div 7 .leftToRight "**",
        .plain .sub 7 .leftToRight "%"]
    ∃ t, ofEntries es = .ok t ∧ Represents t es ∧
      (t.level? 7).map Level.tokens = some ["↑", "**", "%", "*"] := by
  intro es
  have hes : ofEntries es = .ok ⟨es, Entry.valid_of_listFault?_eq_none (by decide)⟩ := rfl
  exact ⟨_, hes, ofEntries_represents hes, by decide⟩

end Table

end InfixArith
