import InfixArith.Expr.Format
import InfixArith.Proofs.Limits.Calls
import InfixArith.Proofs.Table.Rearranged

/-!
# Reading — only the order of the precedences matters

A table and a rearranged one read every text alike and write every expression alike
(`ofEntries_rearranged`).  Precedences `p` and `p'` *correspond* when they have the same entries at
or below them.  Reading goes down from corresponding precedences level by level: a number without a
level is passed over on either side (`read_gap`), a level is met with the level that it has become
(`extend_rearranged`).
-/

namespace InfixArith

open Table (Rearranged)

namespace Reading

variable {f : Nat → Nat} {t t' : Table} {h d p p' : Nat} {s : List Char}

/-- Precedences with the same entries at or below them, before and after rearranging. -/
def Corresponds (f : Nat → Nat) (t : Table) (p p' : Nat) : Prop :=
  ∀ e ∈ t.entries, e.precedence ≤ p ↔ f e.precedence ≤ p'

/-- Nothing is read on the way down to a precedence with the same entries below it. -/
theorem read_gap {q : Nat} (hgap : ∀ e ∈ t.entries, e.precedence ≤ p ↔ e.precedence ≤ q) :
    read t h d p s = read t h d q s := by
  rw [read, read, Table.levelsUpTo_congr hgap]

namespace Corresponds

theorem maxPrecedence (hr : Rearranged f t t') :
    Corresponds f t t.maxPrecedence t'.maxPrecedence := fun _ he =>
  iff_of_true (Table.precedence_le_maxPrecedence he)
    (Table.precedence_le_maxPrecedence (hr.relabel_mem he))

/-- The number of an entry's precedence corresponds to it. -/
theorem of_mem (hr : Rearranged f t t') {a : Entry} (ha : a ∈ t.entries) :
    Corresponds f t a.precedence (f a.precedence) := fun _ he =>
  (hr.strictMono.le_iff_le (Entry.precedence_mem he) (Entry.precedence_mem ha)).symm

/-- Just below an entry's precedence and just below its number are the same entries. -/
theorem pred_of_mem (hr : Rearranged f t t') {a : Entry} (ha : a ∈ t.entries) {q q' : Nat}
    (hq : a.precedence = q + 1) (hq' : f a.precedence = q' + 1) : Corresponds f t q q' := by
  intro e he
  have hlt := hr.strictMono.lt_iff_lt (Entry.precedence_mem he) (Entry.precedence_mem ha)
  rw [hq] at hq' hlt
  rw [hq'] at hlt
  omega

/-- No two numbers that correspond to one precedence have an entry between them. -/
theorem read_eq (hr : Rearranged f t t') {q' : Nat} (hp : Corresponds f t p p')
    (hq : Corresponds f t p q') : read t' h d p' s = read t' h d q' s := by
  refine read_gap fun e' he' => ?_
  obtain ⟨e, he, rfl⟩ := hr.mem_iff.mp he'
  exact (hp e he).symm.trans (hq e he)

end Corresponds

/-- An operator has the same effect where its level has become another one. -/
theorem afterOperand_rearranged {q q' : Nat} {level level' : Level} (e : Entry) (place : List Char)
    (l m : Measured) (hassoc : level'.associativity = level.associativity)
    (hmatch : ∀ s, level'.match? s = (level.match? s).map (Prod.map (Entry.relabel f) id))
    (ih : ∀ l, extend t h d (q + 1) l s = extend t' h d (q' + 1) l s) :
    afterOperand t h d q level e place l m s =
      afterOperand t' h d q' level' (e.relabel f) place l m s := by
  unfold afterOperand
  rw [hassoc, hmatch]
  split
  · refine Outcome.andThen_congr fun both v hc => ?_
    obtain ⟨-, rfl, -⟩ := Level.combine_eq_done hc
    exact ih both
  · rw [ih m]
    rfl
  · cases level.match? (Text.skipBlanks s) <;> rfl

/-- Going on with a chain: the operands correspond, and so does the rest of the chain. -/
theorem extend_rearranged {q q' : Nat} {level level' : Level} (l : Measured)
    (hl : t.level? (q + 1) = some level) (hl' : t'.level? (q' + 1) = some level')
    (hassoc : level'.associativity = level.associativity)
    (hmatch : ∀ s, level'.match? s = (level.match? s).map (Prod.map (Entry.relabel f) id))
    (ih : ∀ r : List Char, r.length < s.length → read t h d q r = read t' h d q' r ∧
      ∀ l, extend t h d (q + 1) l r = extend t' h d (q' + 1) l r) :
    extend t h d (q + 1) l s = extend t' h d (q' + 1) l s := by
  have hmatch' := hmatch (Text.skipBlanks s)
  cases hm : level.match? (Text.skipBlanks s) with
  | none =>
      rw [hm] at hmatch'
      rw [extend_of_no_match hl hm, extend_of_no_match hl' hmatch']
  | some found =>
      obtain ⟨e, r⟩ := found
      rw [hm] at hmatch'
      rw [extend_of_match hl hm, extend_of_match hl' hmatch', id, ← (ih r (length_skip_match hl hm)).1]
      refine Outcome.andThen_congr fun m u hread => ?_
      exact afterOperand_rearranged e _ l m hassoc hmatch (ih u (length_link hl hm hread)).2

/-- Below the tightest level the parentheses hold expressions of the loosest. -/
theorem read_zero_rearranged (hr : Rearranged f t t') (hp : Corresponds f t 0 p')
    (ih : ∀ r : List Char, r.length < s.length → ∀ d,
      read t h d t.maxPrecedence r = read t' h d t'.maxPrecedence r) :
    read t h d 0 s = read t' h d p' s := by
  have hzero : read t' h d p' s = read t' h d 0 s := by
    refine hp.read_eq hr fun e he => ?_
    exact iff_of_false (Nat.not_le.mpr (t.valid.precedence_pos e he)) (Nat.not_le.mpr (hr.pos e he))
  rw [hzero, read_zero t, read_zero t']
  split
  · rfl
  · next r hs =>
    cases d with
    | zero => rfl
    | succ d =>
        dsimp only
        rw [ih r (Text.length_lt_of_skipBlanks hs) d]
  · rfl

/-- **A rearranged table reads as the table does**, from corresponding precedences on. -/
theorem read_rearranged (hr : Rearranged f t t') (hp : Corresponds f t p p') (s : List Char) :
    read t h d p s = read t' h d p' s := by
  refine (reading_induction
    (R := fun p s => ∀ p' d, Corresponds f t p p' → read t h d p s = read t' h d p' s)
    (E := fun s => ∀ q q' d l, (∃ a ∈ t.entries, a.precedence = q + 1 ∧ f a.precedence = q' + 1) →
      extend t h d (q + 1) l s = extend t' h d (q' + 1) l s)
    ?_ ?_ ?_ s).1 p p' d hp
  · intro s ih p' d hp
    exact read_zero_rearranged hr hp fun r hlt d =>
      ih r hlt t.maxPrecedence t'.maxPrecedence d (.maxPrecedence hr)
  · intro p s ihr ihx p' d hp
    by_cases hlevel : ∃ a ∈ t.entries, a.precedence = p + 1
    · -- the level of `p + 1` has become that of `f (p + 1)`, the next one below `p'`
      obtain ⟨a, ha, hap⟩ := hlevel
      obtain ⟨q', hq'⟩ := Nat.exists_eq_add_one.mpr (hr.pos a ha)
      have hnum := Corresponds.of_mem hr ha
      rw [hap] at hnum
      rw [hp.read_eq hr hnum, ← hap, hq', hap, read_succ, read_succ,
        ← ihr q' d (Corresponds.pred_of_mem hr ha hap hq')]
      exact Outcome.andThen_congr fun l u hread =>
        ihx u (length_read hread) p q' d l ⟨a, ha, hap, hq'⟩
    · have hgap : ∀ e ∈ t.entries, e.precedence ≤ p + 1 ↔ e.precedence ≤ p := by
        intro e he
        have hne : e.precedence ≠ p + 1 := fun heq => hlevel ⟨e, he, heq⟩
        omega
      rw [read_gap hgap]
      exact ihr p' d fun e he => (hgap e he).symm.trans (hp e he)
  · rintro s ih q q' d l ⟨a, ha, hq, hq'⟩
    obtain ⟨level, hl, -⟩ := Table.exists_level ha
    obtain ⟨level', hl', hassoc, hmatch⟩ := hr.exists_level? hl
    rw [hq'] at hl'
    rw [hq] at hl
    exact extend_rearranged l hl hl' hassoc hmatch fun r hlt =>
      ⟨(ih r hlt).1 q q' d (.pred_of_mem hr ha hq hq'),
        fun l => (ih r hlt).2 q q' d l ⟨a, ha, hq, hq'⟩⟩

/-- A call on a rearranged table has the same outcome. -/
theorem outcomeAt_rearranged (hr : Rearranged f t t') (limits : Limits) {call : Call}
    (hcall : Corresponds f t (call.precedence t) (call.precedence t')) (pos : Position) :
    outcomeAt t' limits call pos = outcomeAt t limits call pos := by
  rw [outcomeAt, outcomeAt, Call.outcome, Call.outcome, read_rearranged hr hcall]

end Reading

namespace Expr

variable {f : Nat → Nat} {t t' : Table}

/-- The same operands need parentheses. -/
theorem needsParens_rearranged (hr : Rearranged f t t') {a : Entry} (ha : a ∈ t.entries)
    (side : Side) (e : Expr) :
    needsParens t' (some (f a.precedence, a.associativity)) side e =
      needsParens t (some (a.precedence, a.associativity)) side e := by
  cases ho : e.operator? with
  | none => simp only [needsParens, ho, Option.bind_none]
  | some o =>
      simp only [needsParens, ho, Option.bind_some, hr.find?_eq]
      cases hfind : t.find? o with
      | none => rfl
      | some b =>
          obtain ⟨hb, -⟩ := Table.mem_of_find? hfind
          have hlt := hr.strictMono.lt_iff_lt (Entry.precedence_mem ha) (Entry.precedence_mem hb)
          simp only [Option.map_some, Entry.precedence_relabel, hlt, hr.precedence_eq_iff hb ha]

theorem formatBefore_rearranged (hr : Rearranged f t t') (e : Expr) (tail : List Char) :
    formatBefore t' e tail = formatBefore t e tail := by
  induction e generalizing tail with
  | literal v => rfl
  | binary o l r ihl ihr =>
      have hl : formatBefore t' l = formatBefore t l := funext ihl
      have hr' : formatBefore t' r = formatBefore t r := funext ihr
      rw [formatBefore, formatBefore, hr.find?_eq]
      cases hfind : t.find? o with
      | none => simp only [Option.map_none, hl, hr']
      | some a =>
          obtain ⟨ha, -⟩ := Table.mem_of_find? hfind
          simp only [Option.map_some, Entry.precedence_relabel, Entry.associativity_relabel,
            Entry.token_relabel, needsParens_rearranged hr ha, hl, hr']

end Expr

namespace Table

variable {f : Nat → Nat} {es es' : List Entry}

/-- **Only the order of the precedences matters, and the order of the entries does not.**  Where no
precedence is the one of atoms, a list of entries makes a table exactly if the rearranged list does.
The two tables read alike, whatever the source, the limits and the place that reading begins at: the
result is the same tree or the same error, and reading stops at the same place.  And they write every
expression alike. -/
theorem ofEntries_rearranged (hr : Entry.Rearranged f es es') (hpos : ∀ e ∈ es, 0 < e.precedence) :
    ((∃ t', ofEntries es' = .ok t') ↔ ∃ t, ofEntries es = .ok t) ∧
    ∀ t t', ofEntries es = .ok t → ofEntries es' = .ok t' →
      (∀ call, call = .whole ∨ call = .expression → ∀ limits size pos,
        Reading.Agrees (Reading.run t' limits size call pos) (Reading.run t limits size call pos)) ∧
      ∀ e : Expr, e.format t' = e.format t := by
  refine ⟨?_, fun t t' ht ht' => ?_⟩
  · rw [exists_ofEntries_iff, exists_ofEntries_iff, hr.valid_iff hpos]
  · have htables : Rearranged f t t' := by
      rwa [Rearranged, entries_of_ofEntries ht, entries_of_ofEntries ht']
    refine ⟨fun call hcall limits size pos => ?_,
      fun e => Expr.formatBefore_rearranged htables e []⟩
    have hmax : Reading.Corresponds f t (call.precedence t) (call.precedence t') := by
      rcases hcall with rfl | rfl <;> exact .maxPrecedence htables
    rw [Reading.Agrees, Reading.run_result, Reading.run_result, Reading.run_stop, Reading.run_stop,
      Reading.outcomeAt_rearranged htables limits hmax]
    exact ⟨rfl, rfl⟩

/-- The arithmetic table upside down and with gaps of thousands of millions between its levels. -/
theorem ofEntries_rearranged_arithmetic :
    let f := fun p : Nat => 1000000000 * p
    let es' := (arithmetic.entries.map (Entry.relabel f)).reverse
    ∃ t', ofEntries es' = .ok t' ∧
      (∀ limits source, Reading.Agrees (Reading.fresh t' limits .whole source)
        (Reading.fresh arithmetic limits .whole source)) ∧
      ∀ e : Expr, e.format t' = e.format arithmetic := by
  intro f es'
  have hr : Entry.Rearranged f arithmetic.entries es' :=
    ⟨List.reverse_perm _, fun p _ q _ hpq => Nat.mul_lt_mul_of_pos_left hpq (by decide), by decide⟩
  have hok : ofEntries arithmetic.entries = .ok arithmetic := rfl
  obtain ⟨haccept, hagree⟩ := ofEntries_rearranged hr arithmetic.valid.precedence_pos
  obtain ⟨t', ht'⟩ := haccept.mpr ⟨_, hok⟩
  obtain ⟨hread, hformat⟩ := hagree _ t' hok ht'
  exact ⟨t', ht', fun limits source => hread .whole (.inl rfl) limits _ _, hformat⟩

end Table

end InfixArith
