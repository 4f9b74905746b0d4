import InfixArith.Proofs.Numeral.Scan
import InfixArith.Proofs.Reading.Calls
import InfixArith.Proofs.Reading.Reuse
import InfixArith.Proofs.Reading.Steps
import Mathlib.Data.Nat.PSub
import Mathlib.Data.Prod.Basic

/-!
# Reading — recursion on what is left

Here the reader is one recursion on the number of bytes left and, for one text, the precedence
(`Cursor.read`), and it counts offsets and open parentheses on its way.  It takes nothing for granted:
something further is read only where it is less in that order, a chain is gone on with only where the
last operator and operand took two bytes at least, and a difference is formed only where it is not
below zero.  Where one of these guards fails nothing comes of reading at all.

* `byteSize_lt_of_read`: what is read takes a byte at least, an operator with its operand takes two
  (`byteSize_of_link`).
* `Cursor.read_ahead`: no guard ever fails, and what comes of reading is what comes of it without
  guards.
-/

namespace InfixArith

open Text (byteSize)

/-! ### The guarded reader -/

/-- A place in a source, counted as one goes. -/
structure Cursor where
  rest : List Char
  /-- The bytes read. -/
  offset : Nat
  /-- The parentheses open. -/
  depth : Nat

/-- What comes of a guarded reader, and where it stops; `none` where a guard failed. -/
abbrev Attempt (α : Type) : Type := Option (Except ParseError α × Cursor)

namespace Attempt

variable {α β : Type}

def ok (v : α) (c : Cursor) : Attempt α := some (.ok v, c)

def error (e : ParseError) (c : Cursor) : Attempt α := some (.error e, c)

/-- Goes on after success. -/
def andThen (a : Attempt α) (next : α → Cursor → Attempt β) : Attempt β :=
  match a with
  | none               => none
  | some (.error e, c) => error e c
  | some (.ok v, c)    => next v c

@[simp] theorem ok_andThen (v : α) (c : Cursor) (next : α → Cursor → Attempt β) :
    (ok v c).andThen next = next v c := rfl

@[simp] theorem error_andThen (e : ParseError) (c : Cursor) (next : α → Cursor → Attempt β) :
    (error e c : Attempt α).andThen next = error e c := rfl

theorem andThen_assoc {γ : Type} (a : Attempt α) (f : α → Cursor → Attempt β)
    (g : β → Cursor → Attempt γ) :
    (a.andThen f).andThen g = a.andThen fun v c => (f v c).andThen g := by
  rcases a with _ | ⟨_ | _, _⟩ <;> rfl

end Attempt

/-- An operator, the offset of its token, and the operand after it. -/
structure OffsetLink where
  entry : Entry
  offset : Nat
  operand : Measured

namespace Cursor

def skipBlanks (c : Cursor) : Cursor :=
  ⟨Text.skipBlanks c.rest, c.offset + byteSize (c.rest.takeWhile Text.isBlank), c.depth⟩

/-- The operator of `level` that comes next, if one does, with the offset of its token: so many bytes
before the offset after it. -/
def operator (level : Level) (c : Cursor) : Attempt (Option (Entry × Nat)) :=
  let c := c.skipBlanks
  match level.match? c.rest with
  | none => .ok none c
  | some (e, rest) =>
    let bytes := byteSize e.token.toList
    let c : Cursor := ⟨rest, c.offset + bytes, c.depth⟩
    (c.offset.psub bytes).bind fun place => Attempt.ok (some (e, place)) c

def closing (c : Cursor) : Attempt Unit :=
  let c := c.skipBlanks
  match c.rest with
  | []         => .error (.unexpectedEnd .closing) c
  | ')' :: s   => .ok () ⟨s, c.offset + 1, c.depth⟩
  | found :: _ => .error (.expectedClosing found c.offset) c

section

variable (t : Table) (limits : Limits) (level : Level)
  (read : (precedence : Nat) → Cursor → Attempt Measured)

def combine (e : Entry) (place : Nat) (l r : Measured) (c : Cursor) : Attempt Measured :=
  if max l.height r.height + 1 ≤ limits.maxHeight then .ok (.build e l r) c
  else .error (.treeTooDeep limits.maxHeight place) c

/-- An expression of the next tighter precedence. -/
def tighter (precedence : Nat) (c : Cursor) : Attempt Measured :=
  (precedence.psub 1).bind fun p => read p c

def operand (c : Cursor) : Attempt Measured :=
  let c := c.skipBlanks
  match c.rest with
  | [] => .error (.unexpectedEnd .operand) c
  | '(' :: s =>
    if limits.maxNesting ≤ c.depth then
      .error (.nestingTooDeep limits.maxNesting c.offset) ⟨s, c.offset + 1, c.depth⟩
    else
      (read t.maxPrecedence ⟨s, c.offset + 1, c.depth + 1⟩).andThen fun m c =>
        (c.depth.psub 1).bind fun depth =>
          (closing { c with depth }).andThen fun _ c => Attempt.ok m c
  | s =>
    match Numeral.scan? s with
    | none =>
      .error (.invalidNumber (String.ofList (s.take Fault.quotedLength)) c.offset) c
    | some (n, rest) => .ok (.literal n.value) ⟨rest, c.offset + byteSize n.text, c.depth⟩

def chainLeft (l : Measured) (c : Cursor) : Attempt Measured :=
  (c.operator level).andThen fun found c' =>
    match found with
    | none => .ok l c'
    | some (e, place) =>
      (tighter read level.precedence c').andThen fun r c' =>
        (combine limits e place l r c').andThen fun both c' =>
          if byteSize c'.rest + 2 ≤ byteSize c.rest then chainLeft both c' else none
termination_by byteSize c.rest

def links (c : Cursor) : Attempt (List OffsetLink) :=
  (c.operator level).andThen fun found c' =>
    match found with
    | none => .ok [] c'
    | some (e, place) =>
      (tighter read level.precedence c').andThen fun r c' =>
        if byteSize c'.rest + 2 ≤ byteSize c.rest then
          (links c').andThen fun ls c' => .ok (⟨e, place, r⟩ :: ls) c'
        else none
termination_by byteSize c.rest

/-- The operations of a chain that groups to the right, from its end. -/
def foldLinks (l : Measured) : List OffsetLink → Cursor → Attempt Measured
  | [], c         => .ok l c
  | link :: ls, c =>
    (foldLinks link.operand ls c).andThen fun r c => combine limits link.entry link.offset l r c

def chainOnce (l : Measured) (c : Cursor) : Attempt Measured :=
  (c.operator level).andThen fun found c =>
    match found with
    | none => .ok l c
    | some (e, place) =>
      (tighter read level.precedence c).andThen fun r c =>
        let c := c.skipBlanks
        match level.match? c.rest with
        | some (again, _) => .error (.ambiguousChain again.token c.offset) c
        | none            => combine limits e place l r c

def chain (l : Measured) (c : Cursor) : Attempt Measured :=
  match level.associativity with
  | .leftToRight    => chainLeft limits level read l c
  | .rightToLeft    => (links level read c).andThen fun ls c => foldLinks limits l ls c
  | .nonAssociative => chainOnce limits level read l c

/-- An expression of a precedence or tighter, where `read` reads what that asks for. -/
def step (p : Nat) (c : Cursor) : Attempt Measured :=
  if p = 0 then operand t limits read c
  else
    match t.level? p with
    | none       => tighter read p c
    | some level => (tighter read p c).andThen fun l c => chain limits level read l c

end

/-- An expression of a precedence or tighter, by recursion on the bytes left and, for one text, the
precedence. -/
def read (t : Table) (limits : Limits) (p : Nat) (c : Cursor) : Attempt Measured :=
  step t limits
    (fun q c' =>
      if Prod.Lex (· < ·) (· < ·) (byteSize c'.rest, q) (byteSize c.rest, p) then
        read t limits q c'
      else none)
    p c
termination_by (byteSize c.rest, p)
decreasing_by assumption

end Cursor

/-! ### Bytes taken -/

namespace Text

theorem byteSize_le_of_suffix {s u : List Char} (h : u <:+ s) : byteSize u ≤ byteSize s := by
  obtain ⟨w, rfl⟩ := h
  rw [byteSize_append]
  exact Nat.le_add_left _ _

theorem byteSize_pos {s : List Char} (hs : s ≠ []) : 0 < byteSize s := by
  cases s with
  | nil => exact absurd rfl hs
  | cons c s => exact Nat.add_pos_left c.utf8Size_pos _

theorem byteSize_takeWhile_add (s : List Char) :
    byteSize (s.takeWhile isBlank) + byteSize (skipBlanks s) = byteSize s := by
  rw [← byteSize_append, skipBlanks, List.takeWhile_append_dropWhile]

end Text

namespace Reading

variable {t : Table} {h d p : Nat} {level : Level} {e : Entry} {m : Measured}
  {s q u r : List Char}

/-- **What is read takes a byte at least.** -/
theorem byteSize_lt_of_read (hr : read t h d p s = .done m r) : byteSize r < byteSize s := by
  induction p generalizing m r with
  | zero =>
      have hblank := Text.byteSize_takeWhile_add s
      cases read_zero_eq_done_iff.mp hr with
      | @numeral _ _ _ n _ hn =>
          obtain ⟨c, w, htext, -⟩ := Numeral.head_text (Numeral.wellFormed_of_scan? hn)
          have hpos : 0 < byteSize n.text := Text.byteSize_pos (htext ▸ List.cons_ne_nil c w)
          have hsplit := congrArg byteSize (Numeral.text_append_of_scan? hn)
          rw [Text.byteSize_append] at hsplit
          omega
      | @parens _ _ q u _ _ hs hm hu =>
          have hq := Text.byteSize_le_of_suffix (suffix_of_read hm)
          have hclose := Text.byteSize_takeWhile_add u
          rw [hu, Text.byteSize_cons] at hclose
          rw [hs, Text.byteSize_cons] at hblank
          have hpos := Char.utf8Size_pos '('
          omega
  | succ p ih =>
      obtain ⟨l, u, hl, hx⟩ := read_succ_eq_done_iff.mp hr
      have hrest := extend_rest (t := t) (h := h) (d := d) (p + 1) l u
      rw [hx] at hrest
      exact Nat.lt_of_le_of_lt (Text.byteSize_le_of_suffix hrest) (ih hl)

/-- The bytes before an operator, of its token and after it. -/
theorem byteSize_of_match (hl : t.level? p = some level)
    (hm : level.match? (Text.skipBlanks s) = some (e, q)) :
    0 < byteSize e.token.toList ∧
      byteSize (s.takeWhile Text.isBlank) + (byteSize e.token.toList + byteSize q) = byteSize s := by
  have htoken := congrArg byteSize (Level.match?_eq_some hm).2.1
  rw [Text.byteSize_append] at htoken
  refine ⟨Text.byteSize_pos (Table.token_ne_nil (Table.mem_of_match? hl hm).1), ?_⟩
  rw [htoken]
  exact Text.byteSize_takeWhile_add s

/-- An operator and its operand take two bytes at least. -/
theorem byteSize_of_link (hl : t.level? p = some level)
    (hm : level.match? (Text.skipBlanks s) = some (e, q)) {k : Nat}
    (ho : read t h d k q = .done m u) : byteSize u + 2 ≤ byteSize s := by
  obtain ⟨hpos, hsize⟩ := byteSize_of_match hl hm
  have hu := byteSize_lt_of_read ho
  omega

end Reading

/-! ### No guard fails -/

/-- The cursor of a source of `size` bytes that `s` is left of. -/
def Cursor.ahead (size depth : Nat) (s : List Char) : Cursor := ⟨s, size - byteSize s, depth⟩

namespace Outcome

variable {α β : Type} {limits : Limits} {size depth : Nat}

/-- An outcome in a source of `size` bytes, begun with `depth` parentheses open. -/
def attempt (limits : Limits) (size depth : Nat) : Outcome α → Attempt α
  | .done v r     => .ok v (.ahead size depth r)
  | .failed f r n => .error (f.report limits size) (.ahead size (depth + n) r)

theorem attempt_andThen {o : Outcome α} {f : α → Cursor → Attempt β}
    {next : α → List Char → Outcome β}
    (h : ∀ v r, o = .done v r → f v (.ahead size depth r) = (next v r).attempt limits size depth) :
    (o.attempt limits size depth).andThen f = (o.andThen next).attempt limits size depth := by
  cases o with
  | done v r => exact h v r rfl
  | failed f r n => rfl

end Outcome

namespace Cursor

open Reading (byteSize_of_match byteSize_of_link byteSize_lt_of_read extend)

variable {t : Table} {limits : Limits} {size depth p : Nat} {level : Level} {e : Entry}
  {l m : Measured} {s q u : List Char} {read : Nat → Cursor → Attempt Measured}

theorem offset_past {w r s : List Char} (h : w ++ r = s) (hs : byteSize s ≤ size) :
    size - byteSize s + byteSize w = size - byteSize r := by
  rw [← h, Text.byteSize_append] at hs ⊢
  omega

theorem skipBlanks_ahead (hs : byteSize s ≤ size) :
    (ahead size depth s).skipBlanks = ahead size depth (Text.skipBlanks s) := by
  have hblank := Text.byteSize_takeWhile_add s
  simp only [skipBlanks, ahead, Cursor.mk.injEq, true_and, and_true]
  omega

theorem operator_ahead_none (hs : byteSize s ≤ size)
    (hm : level.match? (Text.skipBlanks s) = none) :
    (ahead size depth s).operator level = .ok none (ahead size depth (Text.skipBlanks s)) := by
  rw [operator, skipBlanks_ahead hs]
  simp only [ahead, hm]

theorem operator_ahead_some (hs : byteSize s ≤ size) (hl : t.level? p = some level)
    (hm : level.match? (Text.skipBlanks s) = some (e, q)) :
    (ahead size depth s).operator level =
      .ok (some (e, size - byteSize (Text.skipBlanks s))) (ahead size depth q) := by
  obtain ⟨-, hsize⟩ := byteSize_of_match hl hm
  have hblank := Text.byteSize_takeWhile_add s
  have hq : size - byteSize (Text.skipBlanks s) + byteSize e.token.toList = size - byteSize q := by
    omega
  rw [operator, skipBlanks_ahead hs]
  simp only [ahead, hm, hq]
  rw [Nat.psub_eq_some.mpr hq, Option.bind_some]

theorem combine_ahead (e : Entry) (place : List Char) (l r : Measured) (s : List Char) :
    combine limits e (size - byteSize place) l r (ahead size depth s) =
      (Level.combine limits.maxHeight e place l r s).outcome.attempt limits size depth := by
  rw [combine]
  split
  · next hfit =>
    rw [Level.combine_fits hfit]
    rfl
  · next hfit =>
    rw [Level.combine_too_high hfit]
    rfl

theorem closing_ahead (hs : byteSize s ≤ size) :
    (ahead size depth s).closing = (Reading.closing s).outcome.attempt limits size depth := by
  have hblank := Text.byteSize_takeWhile_add s
  rw [closing, skipBlanks_ahead hs, Reading.closing]
  cases hskip : Text.skipBlanks s with
  | nil => rfl
  | cons c r =>
      by_cases hc : c = ')'
      · subst hc
        rw [hskip, Text.byteSize_cons] at hblank
        have hone : Char.utf8Size ')' = 1 := rfl
        simp only [ahead, Reply.outcome_done, Outcome.attempt, Text.byteSize_cons]
        congr 2
        omega
      · simp [ahead, Outcome.attempt, Fault.report]

/-- `read` gives the outcome of precedence `p` at `s`, however many parentheses are open. -/
def Faithful (t : Table) (limits : Limits) (size : Nat) (read : Nat → Cursor → Attempt Measured)
    (p : Nat) (s : List Char) : Prop :=
  ∀ depth, read p (ahead size depth s) =
    (Reading.read t limits.maxHeight (limits.maxNesting - depth) p s).attempt limits size depth

/-- What is read within parentheses, and the parenthesis after it. -/
theorem enclosed_ahead {d : Nat} (hd : limits.maxNesting - depth = d + 1) (hq : byteSize q ≤ size)
    (hread : Faithful t limits size read t.maxPrecedence q) :
    ((read t.maxPrecedence (ahead size (depth + 1) q)).andThen fun m c =>
      (c.depth.psub 1).bind fun depth =>
        (closing { c with depth }).andThen fun _ c => Attempt.ok m c) =
      ((Reading.read t limits.maxHeight d t.maxPrecedence q).enclosed.andThen fun e s =>
        (Reading.closing s).outcome.andThen fun _ s => .done e s).attempt limits size depth := by
  have hinner := hread (depth + 1)
  rw [show limits.maxNesting - (depth + 1) = d by omega] at hinner
  rw [hinner]
  cases hm : Reading.read t limits.maxHeight d t.maxPrecedence q with
  | failed f r n =>
      simp only [Outcome.attempt, Attempt.error_andThen, Outcome.enclosed,
        Outcome.failed_andThen, Nat.add_right_comm depth 1 n, Nat.add_assoc]
  | done m u =>
      have hu := byteSize_lt_of_read hm
      have hclose : (ahead size depth u).closing =
          (Reading.closing u).outcome.attempt limits size depth := closing_ahead (by omega)
      simp only [ahead] at hclose
      simp only [Outcome.attempt, Attempt.ok_andThen, Outcome.enclosed, Outcome.done_andThen,
        ahead, Nat.psub_eq_some.mpr (Eq.refl (depth + 1)), Option.bind_some, hclose]
      exact Outcome.attempt_andThen fun _ v _ => rfl

/-- A numeral, or the fault of what stands in its place. -/
theorem numeral_ahead (hs : byteSize s ≤ size) :
    (match Numeral.scan? s with
      | none =>
        Attempt.error (.invalidNumber (String.ofList (s.take Fault.quotedLength))
          (ahead size depth s).offset) (ahead size depth s)
      | some (n, rest) =>
        .ok (Measured.literal n.value)
          ⟨rest, (ahead size depth s).offset + byteSize n.text, depth⟩) =
      Outcome.attempt limits size depth
        (match Numeral.scan? s with
          | none        => .failed (.notOperand s) s 0
          | some (n, s) => .done (.literal n.value) s) := by
  cases hn : Numeral.scan? s with
  | none => rfl
  | some found =>
      obtain ⟨n, r⟩ := found
      simp only [Outcome.attempt, ahead, offset_past (Numeral.text_append_of_scan? hn) hs]

theorem operand_ahead (hs : byteSize s ≤ size)
    (hread : ∀ u, byteSize u < byteSize s → Faithful t limits size read t.maxPrecedence u) :
    operand t limits read (ahead size depth s) =
      (Reading.read t limits.maxHeight (limits.maxNesting - depth) 0 s).attempt limits size
        depth := by
  have hblank := Text.byteSize_takeWhile_add s
  rw [operand, skipBlanks_ahead hs]
  cases hskip : Text.skipBlanks s with
  | nil =>
      rw [Reading.read_nothing hskip]
      rfl
  | cons c q =>
      rw [hskip, Text.byteSize_cons] at hblank
      by_cases hopen : c = '('
      · subst hopen
        have hone : Char.utf8Size '(' = 1 := rfl
        have hoffset : size - byteSize ('(' :: q) + 1 = size - byteSize q :=
          offset_past (w := ['(']) rfl (by rw [Text.byteSize_cons]; omega)
        simp only [ahead, hoffset]
        split
        · next hdeep =>
          rw [Nat.sub_eq_zero_of_le hdeep, Reading.read_parens_too_deep hskip]
          rfl
        · next hdeep =>
          obtain ⟨d, hd⟩ : ∃ d, limits.maxNesting - depth = d + 1 :=
            Nat.exists_eq_add_one.mpr (Nat.sub_pos_of_lt (Nat.lt_of_not_le hdeep))
          rw [hd, Reading.read_parens hskip]
          exact enclosed_ahead hd (by omega) (hread q (by omega))
      · rw [Reading.read_numeral hskip hopen]
        simp only [ahead]
        split
        · next heq => cases heq
        · next heq => exact absurd (List.cons.inj heq).1 hopen
        · exact numeral_ahead (by rw [Text.byteSize_cons]; omega)

section Chains

variable (hs : byteSize s ≤ size) (hl : t.level? (p + 1) = some level)
  (hread : ∀ u, byteSize u < byteSize s → Faithful t limits size read p u)

include hs hl hread

theorem chainLeft_ahead (ha : level.associativity = .leftToRight) (l : Measured) :
    chainLeft limits level read l (ahead size depth s) =
      (extend t limits.maxHeight (limits.maxNesting - depth) (p + 1) l s).attempt limits size
        depth := by
  induction hn : byteSize s using Nat.strongRecOn generalizing s l with
  | ind n ih =>
      subst hn
      rw [chainLeft]
      cases hm : level.match? (Text.skipBlanks s) with
      | none =>
          rw [operator_ahead_none hs hm, Attempt.ok_andThen, Reading.extend_of_no_match hl hm]
          rfl
      | some found =>
          obtain ⟨e, q⟩ := found
          obtain ⟨hpos, hsize⟩ := byteSize_of_match hl hm
          rw [operator_ahead_some hs hl hm, Attempt.ok_andThen, Reading.extend_left hl ha hm]
          dsimp only
          rw [(Table.mem_level? hl).1, tighter, Nat.psub_eq_some.mpr rfl, Option.bind_some,
            hread q (by omega)]
          refine Outcome.attempt_andThen fun o u ho => ?_
          rw [combine_ahead]
          refine Outcome.attempt_andThen fun both v hc => ?_
          obtain ⟨-, rfl, -⟩ := Level.combine_eq_done hc
          have htwo := byteSize_of_link hl hm ho
          have hguard : byteSize (ahead size depth v).rest + 2 ≤
            byteSize (ahead size depth s).rest := htwo
          rw [if_pos hguard]
          exact ih (byteSize v) (by omega) (by omega) (fun w hw => hread w (by omega)) both rfl

/-- Collecting the links and building from the last comes to the same. -/
theorem links_ahead (ha : level.associativity = .rightToLeft) (l : Measured) :
    ((links level read (ahead size depth s)).andThen fun ls c => foldLinks limits l ls c) =
      (extend t limits.maxHeight (limits.maxNesting - depth) (p + 1) l s).attempt limits size
        depth := by
  induction hn : byteSize s using Nat.strongRecOn generalizing s l with
  | ind n ih =>
      subst hn
      rw [links]
      cases hm : level.match? (Text.skipBlanks s) with
      | none =>
          rw [operator_ahead_none hs hm, Attempt.ok_andThen, Reading.extend_of_no_match hl hm]
          rfl
      | some found =>
          obtain ⟨e, q⟩ := found
          obtain ⟨hpos, hsize⟩ := byteSize_of_match hl hm
          rw [operator_ahead_some hs hl hm, Attempt.ok_andThen, Reading.extend_right hl ha hm]
          dsimp only
          rw [(Table.mem_level? hl).1, tighter, Nat.psub_eq_some.mpr rfl, Option.bind_some,
            hread q (by omega), Attempt.andThen_assoc]
          refine Outcome.attempt_andThen fun o u ho => ?_
          have htwo := byteSize_of_link hl hm ho
          have hguard : byteSize (ahead size depth u).rest + 2 ≤
            byteSize (ahead size depth s).rest := htwo
          rw [if_pos hguard, Attempt.andThen_assoc]
          simp only [Attempt.ok_andThen, foldLinks]
          -- the links after this one are built before its operation
          rw [← Attempt.andThen_assoc, ih (byteSize u) (by omega) (by omega)
            (fun w hw => hread w (by omega)) o rfl]
          exact Outcome.attempt_andThen fun both v _ => combine_ahead e _ l both v

theorem chainOnce_ahead (ha : level.associativity = .nonAssociative) (l : Measured) :
    chainOnce limits level read l (ahead size depth s) =
      (extend t limits.maxHeight (limits.maxNesting - depth) (p + 1) l s).attempt limits size
        depth := by
  rw [chainOnce]
  cases hm : level.match? (Text.skipBlanks s) with
  | none =>
      rw [operator_ahead_none hs hm, Attempt.ok_andThen, Reading.extend_of_no_match hl hm]
      rfl
  | some found =>
      obtain ⟨e, q⟩ := found
      obtain ⟨hpos, hsize⟩ := byteSize_of_match hl hm
      rw [operator_ahead_some hs hl hm, Attempt.ok_andThen, Reading.extend_once hl ha hm]
      dsimp only
      rw [(Table.mem_level? hl).1, tighter, Nat.psub_eq_some.mpr rfl, Option.bind_some,
        hread q (by omega)]
      refine Outcome.attempt_andThen fun o u ho => ?_
      have htwo := byteSize_of_link hl hm ho
      rw [skipBlanks_ahead (by omega)]
      simp only [ahead]
      cases level.match? (Text.skipBlanks u) with
      | some again => rfl
      | none => exact combine_ahead e _ l o _

theorem chain_ahead (l : Measured) :
    chain limits level read l (ahead size depth s) =
      (extend t limits.maxHeight (limits.maxNesting - depth) (p + 1) l s).attempt limits size
        depth := by
  rw [chain]
  cases ha : level.associativity with
  | leftToRight => exact chainLeft_ahead hs hl hread ha l
  | rightToLeft => exact links_ahead hs hl hread ha l
  | nonAssociative => exact chainOnce_ahead hs hl hread ha l

end Chains

/-- A step is faithful if what it asks for is: any precedence of a shorter text, and the next tighter
one of the text itself. -/
theorem step_ahead (hs : byteSize s ≤ size)
    (hshort : ∀ u, byteSize u < byteSize s → ∀ q, Faithful t limits size read q u)
    (htight : ∀ q, q < p → Faithful t limits size read q s) :
    Faithful t limits size (step t limits read) p s := by
  intro depth
  cases p with
  | zero =>
      rw [step, if_pos rfl]
      exact operand_ahead hs fun u hu => hshort u hu _
  | succ p =>
      have hfirst := htight p (Nat.lt_succ_self p) depth
      rw [step, if_neg (Nat.succ_ne_zero p), Reading.read_succ]
      cases hl : t.level? (p + 1) with
      | none =>
          have hstay : extend t limits.maxHeight (limits.maxNesting - depth) (p + 1) =
              Outcome.done := funext fun l => funext fun u => Reading.extend_of_no_level hl
          rw [hstay, Outcome.andThen_done]
          exact hfirst
      | some level =>
          dsimp only
          rw [tighter, Nat.psub_eq_some.mpr rfl, Option.bind_some, hfirst]
          refine Outcome.attempt_andThen fun l u ho => ?_
          have hu := byteSize_lt_of_read ho
          exact chain_ahead (Nat.le_trans (Nat.le_of_lt hu) hs) hl
            (fun w hw => hshort w (Nat.lt_trans hw hu) p) l

/-- **No guard fails.**  The guarded reader comes to what reading without guards comes to. -/
theorem read_ahead (hs : byteSize s ≤ size) (p : Nat) :
    Faithful t limits size (Cursor.read t limits) p s := by
  induction hn : byteSize s using Nat.strongRecOn generalizing s p with
  | ind n ih =>
      subst hn
      induction p using Nat.strongRecOn with
      | ind p ihp =>
          intro depth
          rw [Cursor.read]
          refine step_ahead hs (fun u hu q => ?_) (fun q hq => ?_) depth
          · intro k
            have hless : Prod.Lex (· < ·) (· < ·) (byteSize (ahead size k u).rest, q)
              (byteSize (ahead size depth s).rest, p) := .left _ _ hu
            exact (if_pos hless).trans (ih (byteSize u) hu (by omega) q rfl k)
          · intro k
            have hless : Prod.Lex (· < ·) (· < ·) (byteSize (ahead size k s).rest, q)
              (byteSize (ahead size depth s).rest, p) := .right _ hq
            exact (if_pos hless).trans (ihp q hq k)

end Cursor

namespace Reading

/-- **Reading makes progress and ends.**  From any place in a source, with any number of parentheses
open and for any precedence, the recursion on the bytes left and the precedence gives a result: what
it reads further is always less, a chain that it goes on with has taken two bytes more, and no
difference is below zero.  The result, the text left, the offset and the parentheses left open are
those of the call, and where a tree was read the offset has increased. -/
theorem run_level_guarded (t : Table) (limits : Limits) (before s : List Char) (depth p : Nat) :
    let size := byteSize (before ++ s)
    let r := run t limits size (.level p) ⟨s, depth⟩
    ∃ result c, Cursor.read t limits p ⟨s, byteSize before, depth⟩ = some (result, c) ∧
      r.result = result.map Measured.expr ∧ r.stop = ⟨c.rest, c.depth⟩ ∧
      r.stop.offset size = c.offset ∧ ∀ m, result = .ok m → byteSize before + 1 ≤ c.offset := by
  intro size r
  have hsize : size = byteSize before + byteSize s := Text.byteSize_append before s
  have hcursor : (⟨s, byteSize before, depth⟩ : Cursor) = Cursor.ahead size depth s := by
    rw [Cursor.ahead, hsize, Nat.add_sub_cancel]
  have hresult : r.result = _ := run_result
  have hstop : r.stop = _ := run_stop
  have houtcome : outcomeAt t limits (.level p) ⟨s, depth⟩ =
      read t limits.maxHeight (limits.maxNesting - depth) p s := Outcome.andThen_done _
  rw [houtcome] at hresult hstop
  rw [hcursor, Cursor.read_ahead (by omega) p depth, hresult, hstop]
  cases ho : read t limits.maxHeight (limits.maxNesting - depth) p s with
  | failed f u n => exact ⟨_, _, rfl, rfl, rfl, rfl, nofun⟩
  | done m u =>
      refine ⟨_, _, rfl, rfl, rfl, rfl, fun _ _ => ?_⟩
      have hu := byteSize_lt_of_read ho
      simp only [Cursor.ahead]
      omega

end Reading

end InfixArith
