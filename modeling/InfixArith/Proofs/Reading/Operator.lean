import InfixArith.Proofs.Grammar.Lexeme
import InfixArith.Proofs.Reading.Guarded
import InfixArith.Proofs.Table.Represents

/-!
# Reading — the operator that comes next

An operator is looked for token by token: blanks are skipped, the first of a level's tokens, longer
ones before shorter ones, that the text goes on with is taken, its place is counted back from where it
ends, and its entry is looked up (`Cursor.takeOperator`).  Token and entry are found apart, so it is
not plain that a token that is taken has an entry at all.

* `Cursor.Takes` says what is to be taken, and not how it is found: the entry of the longest token of
  the level, or nothing.
* `Cursor.takeOperator_longest`: on every level of a table and at every cursor just this is taken, and
  chains are gone on with by it.
-/

namespace InfixArith

open Text (byteSize)

namespace Text

variable {α β : Type}

theorem firstPrefix?_map (spelling : β → List Char) (f : α → β) (xs : List α) (s : List Char) :
    firstPrefix? spelling (xs.map f) s =
      (firstPrefix? (fun x => spelling (f x)) xs s).map fun (x, r) => (f x, r) := by
  unfold firstPrefix?
  rw [List.findSome?_map, List.map_findSome?]
  refine congrArg (List.findSome? · xs) (funext fun x => ?_)
  simp only [Function.comp_apply, Option.map_map]
  rfl

theorem byteSize_toList (a : String) : byteSize a.toList = a.utf8ByteSize := by
  have hofList : ∀ s : List Char, (String.ofList s).utf8ByteSize = byteSize s := by
    intro s
    induction s with
    | nil => rfl
    | cons c s ih =>
        rw [String.ofList_cons, String.utf8ByteSize_append, String.utf8ByteSize_singleton, ih,
          byteSize_cons]
  rw [← hofList, String.ofList_toList]

theorem head_skipBlanks (s : List Char) : ∀ x ∈ (skipBlanks s).head?, isBlank x = false := by
  intro x hx
  obtain ⟨r, hr⟩ := List.head?_eq_some_iff.mp hx
  exact isBlank_of_skipBlanks_eq_cons hr

/-- There is one way to skip all blanks before a text. -/
theorem skipBlanks_eq {b place s : List Char} (hb : Blanks b) (hs : b ++ place = s)
    (hplace : ∀ x ∈ place.head?, isBlank x = false) : skipBlanks s = place := by
  rw [← hs, skipBlanks_append hb]
  cases place with
  | nil => rfl
  | cons x place => exact skipBlanks_of_head (hplace x rfl) place

end Text

/-! ### What a reply records -/

namespace Notes

theorem before_eq (ns : Notes) (tail : List Note) : ns.before tail = ns.toList ++ tail := by
  induction ns generalizing tail with
  | none => rfl
  | one n => rfl
  | both a b iha ihb =>
      have hboth : (both a b).toList = a.toList ++ b.toList := iha b.toList
      rw [before, iha, ihb, hboth, List.append_assoc]

theorem toList_both (a b : Notes) : (both a b).toList = a.toList ++ b.toList :=
  before_eq a b.toList

end Notes

namespace Reply

variable {α β γ : Type}

theorem record_andThen_assoc (r : Reply α) (f : α → List Char → Reply β)
    (g : β → List Char → Reply γ) :
    ((r.andThen f).andThen g).record = (r.andThen fun v s => (f v s).andThen g).record := by
  obtain ⟨notes, _ | _⟩ := r
  · next v s =>
    simp only [record, andThen]
    cases (f v s).outcome with
    | done w u => simp only [Notes.toList_both, List.append_assoc]
    | failed x u n => rfl
  · rfl

/-- A note before everything else stays there. -/
theorem record_after_andThen (n : Note) (r : Reply α) (f : α → List Char → Reply β) :
    ((r.after n).andThen f).record = ((r.andThen f).after n).record := by
  obtain ⟨notes, _ | _⟩ := r <;> rfl

theorem record_after_congr {r r' : Reply α} (h : r.record = r'.record) (n : Note) :
    (r.after n).record = (r'.after n).record := by
  obtain ⟨hnotes, houtcome⟩ := Prod.mk.inj h
  simp only [record, after, Notes.toList_both, hnotes, houtcome]

end Reply

namespace Level

variable {maxHeight : Nat} {level : Level} {operand : List Char → Reply Measured} {l : Measured}
  {s r : List Char} {e : Entry}

/-- A chain notes the token that is matched and goes on with the operand after it. -/
theorem chain_of_match (hne : s ≠ []) (hm : level.match? (Text.skipBlanks s) = some (e, r)) :
    ∃ next, (level.chain maxHeight operand l s).record =
      (((operand r).andThen next).after (.matched e.token level.precedence)).record := by
  obtain ⟨c, s, rfl⟩ := List.exists_cons_of_ne_nil hne
  unfold chain
  split
  · simp only [chainLeft, hm]
    exact ⟨_, rfl⟩
  · simp only [links, hm]
    rw [Reply.record_after_andThen]
    exact ⟨_, Reply.record_after_congr (Reply.record_andThen_assoc _ _ _) _⟩
  · simp only [chainOnce, hm]
    exact ⟨_, rfl⟩

/-- What a chain does after `l`, where `rest` is left behind what is taken: after nothing it ends there,
after an operator it notes the token and goes on with the operand that stands there. -/
def Continues (level : Level) (operand : List Char → Reply Measured) (l : Measured)
    (reply : Reply Measured) : Option (Entry × Nat) → List Char → Prop
  | none, rest        => reply.record = ([], .done l rest)
  | some (e, _), rest => ∃ next, reply.record =
      (((operand rest).andThen next).after (.matched e.token level.precedence)).record

end Level

/-! ### The token that is taken -/

namespace Level

variable {t : Table} {level : Level} {s : List Char} {e : Entry}

/-- The first of the tokens is that of the first candidate. -/
theorem firstPrefix?_tokens (level : Level) (s : List Char) :
    Text.firstPrefix? String.toList level.tokens s =
      (level.match? s).map fun (e, r) => (e.token, r) :=
  Text.firstPrefix?_map String.toList Entry.token level.candidates s

/-- The look-up by token finds every entry of a level. -/
theorem find?_token (hl : level ∈ t.levels) (he : e ∈ level.entries) :
    level.find? e.token = some e := by
  have hl := Table.level?_precedence hl
  obtain ⟨het, hep, -⟩ := Table.mem_of_mem_level hl he
  exact ((Table.represents_level hl).find?_iff e.token e).mpr ⟨het, hep, rfl⟩

/-- Of the tokens that a text begins with, that of the match is longer than all others. -/
theorem match?_eq_some_iff_longest (hl : level ∈ t.levels) {r : List Char} :
    level.match? s = some (e, r) ↔ e ∈ level.entries ∧ e.token.toList ++ r = s ∧
      ∀ a ∈ level.entries, a.token.toList <+: s → a ≠ e →
        byteSize a.token.toList < byteSize e.token.toList := by
  have hl := Table.level?_precedence hl
  rw [Table.match?_eq_some_iff hl]
  refine and_congr_right fun he => and_congr_right fun hs => forall₃_congr fun a ha hpre => ?_
  rw [Text.byteSize_toList, Text.byteSize_toList]
  refine ⟨fun hle hne => Nat.lt_of_le_of_ne hle fun heq => hne ?_, fun hlt => ?_⟩
  · -- tokens of one size that the text begins with are one token, and that of one entry
    have htoken : a.token = e.token := by
      rcases List.prefix_or_prefix_of_prefix hpre ⟨r, hs⟩ with hae | hea
      · exact String.eq_of_toList_prefix hae (Nat.le_of_eq heq.symm)
      · exact (String.eq_of_toList_prefix hea (Nat.le_of_eq heq)).symm
    exact Table.eq_of_token_eq (Table.mem_of_mem_level hl ha).1 (Table.mem_of_mem_level hl he).1
      htoken
  · by_cases hae : a = e
    · exact Nat.le_of_eq (congrArg (fun e : Entry => e.token.utf8ByteSize) hae)
    · exact Nat.le_of_lt (hlt hae)

end Level

namespace Cursor

/-- `place` stands behind the blanks that `c` stands before. -/
structure PastBlanks (c place : Cursor) : Prop where
  exists_blanks : ∃ b, Text.Blanks b ∧ b ++ place.rest = c.rest ∧
    place.offset = c.offset + byteSize b
  not_blank : ∀ x ∈ place.rest.head?, Text.isBlank x = false
  depth_eq : place.depth = c.depth

/-- What is to be taken where an operator of `level` may stand, with the offset at which its token
starts, and the cursor after it. -/
inductive Takes (level : Level) (c : Cursor) : Option (Entry × Nat) → Cursor → Prop where
  /-- Behind the blanks stands no token of the level. -/
  | nothing {place : Cursor} (hp : c.PastBlanks place)
      (hno : ∀ e ∈ level.entries, ¬ e.token.toList <+: place.rest) : Takes level c none place
  /-- Behind the blanks stands the token of `e`, and every other one that does is shorter. -/
  | longest {place : Cursor} {e : Entry} {rest : List Char} (hp : c.PastBlanks place)
      (he : e ∈ level.entries) (hs : e.token.toList ++ rest = place.rest)
      (hlong : ∀ a ∈ level.entries, a.token.toList <+: place.rest → a ≠ e →
        byteSize a.token.toList < byteSize e.token.toList) :
      Takes level c (some (e, place.offset))
        ⟨rest, place.offset + byteSize e.token.toList, place.depth⟩

/-- Takes the first of `tokens` that the text goes on with behind its blanks. -/
def takeToken (tokens : List String) (c : Cursor) : Option String × Cursor :=
  let c := c.skipBlanks
  match Text.firstPrefix? String.toList tokens c.rest with
  | none               => (none, c)
  | some (token, rest) => (some token, ⟨rest, c.offset + byteSize token.toList, c.depth⟩)

/-- Takes a token of the level and looks up its entry; a token without one is taken for nothing.  The
offset of the token is so many bytes before the offset after it. -/
def takeOperator (level : Level) (c : Cursor) : Option (Entry × Nat) × Cursor :=
  match c.takeToken level.tokens with
  | (none, c)       => (none, c)
  | (some token, c) => ((level.find? token).map fun e => (e, c.offset - byteSize token.toList), c)

variable {t : Table} {level : Level} {c place : Cursor} {e : Entry} {r : List Char}

theorem pastBlanks_iff : c.PastBlanks place ↔ place = c.skipBlanks := by
  obtain ⟨s, k, d⟩ := c
  obtain ⟨u, k', d'⟩ := place
  have hsize := Text.byteSize_takeWhile_add s
  constructor
  · rintro ⟨⟨b, hb, hs, hk⟩, hplace, hd⟩
    dsimp only at hs hk hplace hd
    obtain rfl : u = Text.skipBlanks s := (Text.skipBlanks_eq hb hs hplace).symm
    have hbytes : byteSize b + byteSize (Text.skipBlanks s) = byteSize s := by
      rw [← Text.byteSize_append, hs]
    have hoffset : k' = k + byteSize (s.takeWhile Text.isBlank) := by omega
    rw [skipBlanks, hoffset, hd]
  · rintro ⟨⟩
    exact ⟨⟨s.takeWhile Text.isBlank, fun _ hx => List.mem_takeWhile_imp hx,
      List.takeWhile_append_dropWhile, rfl⟩, Text.head_skipBlanks s, rfl⟩

theorem takeToken_tokens (level : Level) (c : Cursor) :
    c.takeToken level.tokens =
      match level.match? c.skipBlanks.rest with
      | none        => (none, c.skipBlanks)
      | some (e, r) =>
        (some e.token, ⟨r, c.skipBlanks.offset + byteSize e.token.toList, c.skipBlanks.depth⟩) := by
  simp only [takeToken, Level.firstPrefix?_tokens]
  cases level.match? c.skipBlanks.rest <;> rfl

theorem takeOperator_of_no_match (hm : level.match? c.skipBlanks.rest = none) :
    c.takeOperator level = (none, c.skipBlanks) := by
  simp only [takeOperator, takeToken_tokens, hm]

theorem takeOperator_of_match (hl : level ∈ t.levels)
    (hm : level.match? c.skipBlanks.rest = some (e, r)) :
    c.takeOperator level = (some (e, c.skipBlanks.offset),
      ⟨r, c.skipBlanks.offset + byteSize e.token.toList, c.skipBlanks.depth⟩) := by
  have hfind := Level.find?_token hl (Level.match?_eq_some hm).1
  simp only [takeOperator, takeToken_tokens, hm, hfind, Option.map_some, Nat.add_sub_cancel]

/-- What is taken is what is to be taken. -/
theorem takes_iff (hl : level ∈ t.levels) {found : Option (Entry × Nat)} {c' : Cursor} :
    c.Takes level found c' ↔ c.takeOperator level = (found, c') := by
  constructor
  · intro h
    cases h with
    | nothing hp hno =>
        obtain rfl := pastBlanks_iff.mp hp
        exact takeOperator_of_no_match (Level.match?_eq_none.mpr hno)
    | longest hp he hs hlong =>
        obtain rfl := pastBlanks_iff.mp hp
        exact takeOperator_of_match hl ((Level.match?_eq_some_iff_longest hl).mpr ⟨he, hs, hlong⟩)
  · intro h
    have hp : c.PastBlanks c.skipBlanks := pastBlanks_iff.mpr rfl
    cases hm : level.match? c.skipBlanks.rest with
    | none =>
        cases (takeOperator_of_no_match hm).symm.trans h
        exact .nothing hp (Level.match?_eq_none.mp hm)
    | some m =>
        obtain ⟨e, r⟩ := m
        cases (takeOperator_of_match hl hm).symm.trans h
        obtain ⟨he, hs, hlong⟩ := (Level.match?_eq_some_iff_longest hl).mp hm
        exact .longest hp he hs hlong

/-- Taking the token first comes to the same as matching entries. -/
theorem operator_eq (hl : level ∈ t.levels) (c : Cursor) :
    c.operator level = .ok (c.takeOperator level).1 (c.takeOperator level).2 := by
  cases hm : level.match? c.skipBlanks.rest with
  | none => simp only [operator, takeOperator_of_no_match hm, hm]
  | some m =>
      obtain ⟨e, r⟩ := m
      simp only [operator, takeOperator_of_match hl hm, hm]
      rw [Nat.psub_eq_some.mpr rfl, Option.bind_some]

/-- A chain goes on as what is taken says. -/
theorem chain_continues (hl : level ∈ t.levels) (c : Cursor) (maxHeight : Nat)
    (operand : List Char → Reply Measured) (l : Measured) :
    level.Continues operand l (level.chain maxHeight operand l c.rest) (c.takeOperator level).1
      (c.takeOperator level).2.rest := by
  cases hm : level.match? c.skipBlanks.rest with
  | none =>
      rw [takeOperator_of_no_match hm]
      exact Level.chain_of_no_match hm
  | some m =>
      obtain ⟨e, r⟩ := m
      rw [takeOperator_of_match hl hm]
      refine Level.chain_of_match (fun hnil => ?_) hm
      have hlen := Reading.length_skip_match (Table.level?_precedence hl) hm
      rw [hnil] at hlen
      exact Nat.not_lt_zero _ hlen

/-- **The longest token is taken, and none is lost.**  At every cursor, looking for an operator of a
level of a table takes the blanks and, if tokens of the level stand behind them, the longest one, and
gives its entry and the offset at which it starts; the look-up of a token that is taken never fails.
This is the operator that is read there, and the one by which chains are gone on with. -/
theorem takeOperator_longest {t : Table} {level : Level} (hl : level ∈ t.levels) (c : Cursor) :
    (∀ found c', c.takeOperator level = (found, c') ↔ c.Takes level found c') ∧
      (∀ token c', c.takeToken level.tokens = (some token, c') → (level.find? token).isSome) ∧
      c.operator level = .ok (c.takeOperator level).1 (c.takeOperator level).2 ∧
      ∀ maxHeight operand l, level.Continues operand l (level.chain maxHeight operand l c.rest)
        (c.takeOperator level).1 (c.takeOperator level).2.rest := by
  refine ⟨fun found c' => (takes_iff hl).symm, fun token c' htoken => ?_, operator_eq hl c,
    chain_continues hl c⟩
  rw [takeToken_tokens] at htoken
  split at htoken
  · cases htoken
  · next e r hm =>
    cases htoken
    rw [Level.find?_token hl (Level.match?_eq_some hm).1]
    rfl

/-- Of the arrows on one level the two-fold one is taken, which starts at offset 3 behind a no-break
space of two bytes; the third arrow is left. -/
theorem takeOperator_longest_arrows :
    let es : List Entry :=
      [.plain .mul 7 .leftToRight "↑", .plain .pow 7 .leftToRight "↑↑",
        .plain .sub 7 .leftToRight "↑-"]
    ∃ t, Table.ofEntries es = .ok t ∧ ∃ level ∈ t.levels, level.tokens = ["↑↑", "↑-", "↑"] ∧
      ∃ e ∈ level.entries, e.token = "↑↑" ∧
        Takes level ⟨"\u00a0↑↑↑2".toList, 1, 0⟩ (some (e, 3)) ⟨"↑2".toList, 9, 0⟩ := by
  intro es
  let t : Table := ⟨es, Entry.valid_of_listFault?_eq_none (by decide)⟩
  have hlevel : Level.ofHead es (.plain .mul 7 .leftToRight "↑") ∈ t.levels := List.mem_cons_self
  refine ⟨t, rfl, _, hlevel, by decide, _, List.mem_cons_of_mem _ List.mem_cons_self, rfl, ?_⟩
  exact ((takeOperator_longest hlevel _).1 _ _).mp rfl

end Cursor

end InfixArith
