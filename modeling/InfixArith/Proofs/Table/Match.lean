import InfixArith.Proofs.Table.Levels
import InfixArith.Table.Match

/-!
# Table — which token is matched

A match on a level is with an entry of the level whose token the text begins with, and no token of
the level that the text begins with is longer (`match?_eq_some`); there is none only if the text
begins with no token of the level (`match?_eq_none`).  So the token that a text was written with is
the one matched, unless a longer one of the level can be read there (`match?_token`).
-/

namespace InfixArith

namespace Text

theorem isPrefixOf?_eq_some_iff {x s r : List Char} :
    x.isPrefixOf? s = some r ↔ x ++ r = s := by
  induction x generalizing s with
  | nil => simp [List.isPrefixOf?, eq_comm]
  | cons c x ih =>
      cases s with
      | nil => simp [List.isPrefixOf?]
      | cons d s =>
          rw [List.isPrefixOf?, List.cons_append, List.cons.injEq, ← ih]
          by_cases hcd : c = d <;> simp [hcd]

variable {α : Type} {spelling : α → List Char} {xs : List α} {s : List Char}

theorem firstPrefix?_eq_none :
    firstPrefix? spelling xs s = none ↔ ∀ x ∈ xs, ¬ spelling x <+: s := by
  simp only [firstPrefix?, List.findSome?_eq_none_iff, Option.map_eq_none_iff]
  refine forall₂_congr fun x _ => ?_
  cases h : (spelling x).isPrefixOf? s with
  | none =>
      refine iff_of_true rfl ?_
      rintro ⟨r, hr⟩
      rw [isPrefixOf?_eq_some_iff.mpr hr] at h
      cases h
  | some r => exact iff_of_false (Option.some_ne_none r) fun hno => hno ⟨r, isPrefixOf?_eq_some_iff.mp h⟩

/-- What is found is a spelling the text begins with, and no earlier one is. -/
theorem firstPrefix?_eq_some {x : α} {r : List Char} (h : firstPrefix? spelling xs s = some (x, r)) :
    spelling x ++ r = s ∧ ∃ before after, xs = before ++ x :: after ∧
      ∀ y ∈ before, ¬ spelling y <+: s := by
  obtain ⟨before, y, after, hxs, hy, hbefore⟩ := List.findSome?_eq_some_iff.mp h
  obtain ⟨rest, hrest, heq⟩ := Option.map_eq_some_iff.mp hy
  cases heq
  refine ⟨isPrefixOf?_eq_some_iff.mp hrest, before, after, hxs, fun z hz => ?_⟩
  exact firstPrefix?_eq_none.mp (List.findSome?_eq_none_iff.mpr hbefore) z hz

end Text

namespace Entry

theorem triedBefore_iff {a b : Entry} : a.triedBefore b ↔
    b.token.utf8ByteSize < a.token.utf8ByteSize ∨
      a.token.utf8ByteSize = b.token.utf8ByteSize ∧ a.token < b.token := by
  simp only [triedBefore, Bool.or_eq_true, Bool.and_eq_true, decide_eq_true_eq]

theorem triedBefore_asymm {a b : Entry} (h : a.triedBefore b) : ¬ b.triedBefore a := by
  rw [triedBefore_iff] at h ⊢
  rintro (hba | ⟨heq, hba⟩)
  · omega
  · rcases h with hab | ⟨-, hab⟩
    · omega
    · exact String.lt_asymm hab hba

theorem triedBefore_trans {a b c : Entry} (hab : a.triedBefore b) (hbc : b.triedBefore c) :
    a.triedBefore c := by
  rw [triedBefore_iff] at hab hbc ⊢
  rcases hab with hab | ⟨hab, hltab⟩
  · exact .inl (by omega)
  · rcases hbc with hbc | ⟨hbc, hltbc⟩
    · exact .inl (by omega)
    · exact .inr ⟨hab.trans hbc, String.lt_trans hltab hltbc⟩

theorem insertCandidate_perm (e : Entry) (es : List Entry) :
    (insertCandidate e es).Perm (e :: es) := by
  induction es with
  | nil => exact List.Perm.refl _
  | cons h t ih =>
      rw [insertCandidate]
      split
      · exact List.Perm.refl _
      · exact (ih.cons h).trans (List.Perm.swap e h t)

theorem mem_insertCandidate {a e : Entry} {es : List Entry} :
    a ∈ insertCandidate e es ↔ a = e ∨ a ∈ es :=
  (insertCandidate_perm e es).mem_iff.trans List.mem_cons

/-- No candidate stands before one that is tried before it. -/
theorem insertCandidate_ordered (e : Entry) {es : List Entry}
    (h : es.Pairwise fun a b => ¬ b.triedBefore a) :
    (insertCandidate e es).Pairwise fun a b => ¬ b.triedBefore a := by
  induction es with
  | nil => exact List.pairwise_singleton _ e
  | cons a es ih =>
      obtain ⟨ha, hes⟩ := List.pairwise_cons.mp h
      rw [insertCandidate]
      split
      · next hlt =>
        refine List.pairwise_cons.mpr ⟨fun b hb => ?_, h⟩
        rcases List.mem_cons.mp hb with rfl | hb
        · exact triedBefore_asymm hlt
        · exact fun hbe => ha b hb (triedBefore_trans hbe hlt)
      · next hlt =>
        refine List.pairwise_cons.mpr ⟨fun b hb => ?_, ih hes⟩
        rcases mem_insertCandidate.mp hb with rfl | hb
        · exact hlt
        · exact ha b hb

end Entry

namespace Level

variable {level : Level} {s : List Char}

/-- The candidates are the entries of the level. -/
theorem candidates_perm (level : Level) : level.candidates.Perm level.entries := by
  unfold candidates
  generalize level.entries = es
  induction es with
  | nil => exact List.Perm.refl _
  | cons e es ih =>
      rw [List.foldr_cons]
      exact (Entry.insertCandidate_perm e _).trans (ih.cons e)

theorem mem_candidates {e : Entry} : e ∈ level.candidates ↔ e ∈ level.entries :=
  level.candidates_perm.mem_iff

theorem candidates_ordered (level : Level) :
    level.candidates.Pairwise fun a b => ¬ b.triedBefore a := by
  unfold candidates
  generalize level.entries = es
  induction es with
  | nil => exact List.Pairwise.nil
  | cons e es ih => exact Entry.insertCandidate_ordered e ih

/-- Candidates with longer tokens stand before those with shorter ones. -/
theorem candidates_descending (level : Level) :
    level.candidates.Pairwise fun a b => b.token.utf8ByteSize ≤ a.token.utf8ByteSize := by
  refine level.candidates_ordered.imp fun h => Nat.le_of_not_lt fun hlt => ?_
  exact h (Entry.triedBefore_iff.mpr (.inl hlt))

theorem match?_eq_none :
    level.match? s = none ↔ ∀ e ∈ level.entries, ¬ e.token.toList <+: s := by
  simp only [match?, Text.firstPrefix?_eq_none, mem_candidates]

/-- The token matched stands at the beginning of the text, and no longer one of the level does. -/
theorem match?_eq_some {e : Entry} {r : List Char} (h : level.match? s = some (e, r)) :
    e ∈ level.entries ∧ e.token.toList ++ r = s ∧
      ∀ a ∈ level.entries, a.token.toList <+: s → a.token.utf8ByteSize ≤ e.token.utf8ByteSize := by
  obtain ⟨hs, before, after, hcands, hbefore⟩ := Text.firstPrefix?_eq_some h
  have hmem : e ∈ level.candidates := hcands ▸ List.mem_append_right before List.mem_cons_self
  refine ⟨mem_candidates.mp hmem, hs, fun a ha hpre => ?_⟩
  have hdesc := level.candidates_descending
  rw [hcands] at hdesc
  obtain ⟨-, htail, -⟩ := List.pairwise_append.mp hdesc
  have ha := mem_candidates.mpr ha
  rw [hcands] at ha
  -- candidates before `e` did not match, and those after it are no longer
  rcases List.mem_append.mp ha with ha | ha
  · exact absurd hpre (hbefore a ha)
  · rcases List.mem_cons.mp ha with rfl | ha
    · exact Nat.le_refl _
    · exact (List.pairwise_cons.mp htail).1 a ha

end Level

namespace String

variable {a b : String}

theorem exists_append_of_toList_prefix (h : a.toList <+: b.toList) : ∃ x : String, b = a ++ x := by
  obtain ⟨x, hx⟩ := h
  exact ⟨String.ofList x, by
    rw [← String.toList_inj, ← hx, String.toList_append, String.toList_ofList]⟩

theorem utf8ByteSize_le_of_toList_prefix (h : a.toList <+: b.toList) :
    a.utf8ByteSize ≤ b.utf8ByteSize := by
  obtain ⟨x, rfl⟩ := exists_append_of_toList_prefix h
  rw [String.utf8ByteSize_append]
  exact Nat.le_add_right _ _

/-- A string that begins with another of at least its size is that other. -/
theorem eq_of_toList_prefix (h : a.toList <+: b.toList) (hsize : b.utf8ByteSize ≤ a.utf8ByteSize) :
    a = b := by
  obtain ⟨x, rfl⟩ := exists_append_of_toList_prefix h
  have hzero : x.utf8ByteSize = 0 := by
    rw [String.utf8ByteSize_append] at hsize
    omega
  rw [String.utf8ByteSize_eq_zero_iff.mp hzero, String.append_empty]

end String

namespace Table

variable {t : Table} {level : Level}

/-- An entry of a level is one of the table, of the precedence of the level. -/
theorem mem_of_mem_level {p : Nat} (hl : t.level? p = some level) {e : Entry}
    (he : e ∈ level.entries) :
    e ∈ t.entries ∧ e.precedence = p ∧ e.associativity = level.associativity := by
  obtain ⟨-, hmem, hassoc⟩ := mem_level? hl
  exact ⟨((hmem e).mp he).1, ((hmem e).mp he).2, hassoc e he⟩

/-- What is matched is an entry of the table, of the precedence of the level. -/
theorem mem_of_match? {p : Nat} (hl : t.level? p = some level) {s r : List Char} {e : Entry}
    (h : level.match? s = some (e, r)) :
    e ∈ t.entries ∧ e.precedence = p ∧ e.associativity = level.associativity :=
  mem_of_mem_level hl (Level.match?_eq_some h).1

/-- The match is the one entry whose token the text begins with and no longer one. -/
theorem match?_eq_some_iff {p : Nat} (hl : t.level? p = some level) {s r : List Char} {e : Entry} :
    level.match? s = some (e, r) ↔ e ∈ level.entries ∧ e.token.toList ++ r = s ∧
      ∀ a ∈ level.entries, a.token.toList <+: s → a.token.utf8ByteSize ≤ e.token.utf8ByteSize := by
  refine ⟨Level.match?_eq_some, fun ⟨he, hs, hlong⟩ => ?_⟩
  obtain ⟨-, hmem, -⟩ := mem_level? hl
  cases h : level.match? s with
  | none => exact absurd ⟨r, hs⟩ (Level.match?_eq_none.mp h e he)
  | some found =>
      obtain ⟨a, r'⟩ := found
      obtain ⟨ha, hs', hlong'⟩ := Level.match?_eq_some h
      -- of two tokens the text begins with, one begins with the other; they are as long
      have htoken : a.token = e.token := by
        rcases List.prefix_or_prefix_of_prefix ⟨r', hs'⟩ ⟨r, hs⟩ with hpre | hpre
        · exact String.eq_of_toList_prefix hpre (hlong' e he ⟨r, hs⟩)
        · exact (String.eq_of_toList_prefix hpre (hlong a ha ⟨r', hs'⟩)).symm
      obtain rfl := eq_of_token_eq ((hmem a).mp ha).1 ((hmem e).mp he).1 htoken
      rw [List.append_cancel_left (hs'.trans hs.symm)]

/-- **The longest token is matched.**  A token of the level is matched where no token of the level
reaches beyond it into the text that follows. -/
theorem match?_token {e : Entry} (hl : t.level? e.precedence = some level) (he : e ∈ t.entries)
    {r : List Char}
    (hlong : ∀ a ∈ t.entries, a.precedence = e.precedence →
      a.token.toList <+: e.token.toList ++ r → a.token.toList <+: e.token.toList) :
    level.match? (e.token.toList ++ r) = some (e, r) := by
  obtain ⟨-, hmem, -⟩ := mem_level? hl
  refine (match?_eq_some_iff hl).mpr ⟨(hmem e).mpr ⟨he, rfl⟩, rfl, fun a ha hpre => ?_⟩
  obtain ⟨hat, hap⟩ := (hmem a).mp ha
  exact String.utf8ByteSize_le_of_toList_prefix (hlong a hat hap hpre)

end Table

end InfixArith
