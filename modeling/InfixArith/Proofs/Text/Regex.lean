import Mathlib.Computability.RegularExpressions

/-!
# Text — matching a regular expression

Matching with backtracking tries the alternatives of a regular expression in their order, repeats
as often as it can, and gives back what it has taken where the rest does not match.  `rests P s` are
the texts that the matches of `P` at the beginning of `s` leave, in the order in which they are
tried.  They are what all the words of `P` leave that `s` begins with (`mem_rests_iff`), and the first
of them is left by the match that counts (`first?`), which need not be the longest.

The lemmas about `first?` say for each way to put regular expressions together which match comes
first: nothing is given back before what always matches (`first?_mul_of_isSome`), nor where what is
given back leads nowhere (`first?_mul_of_rests`).
-/

namespace InfixArith

namespace Regex

/-- Repeats `next` as often as it can, at most once for each character of `bound`.  A repetition
that takes nothing is not tried. -/
def repeated (next : List Char → List (List Char)) :
    (bound : List Char) → List Char → List (List Char)
  | [], s         => [s]
  | _ :: bound, s =>
    ((next s).filter fun r => r.length < s.length).flatMap (repeated next bound) ++ [s]

/-- The texts that the matches at the beginning of a text leave, in the order in which they are
tried. -/
def rests : RegularExpression Char → List Char → List (List Char)
  | .zero, _        => []
  | .epsilon, s     => [s]
  | .char _, []     => []
  | .char c, d :: s => if d = c then [s] else []
  | .plus P Q, s    => rests P s ++ rests Q s
  | .comp P Q, s    => (rests P s).flatMap (rests Q)
  | .star P, s      => repeated (rests P) s s

/-- The text that the first match leaves. -/
def first? (P : RegularExpression Char) (s : List Char) : Option (List Char) := (rests P s).head?

/-- One of the characters `cs`. -/
def oneOf : List Char → RegularExpression Char
  | []      => 0
  | c :: cs => .char c + oneOf cs

/-- `P` if it matches, and nothing otherwise. -/
def optional (P : RegularExpression Char) : RegularExpression Char := P + 1

variable {P Q : RegularExpression Char} {s r : List Char}

@[simp] theorem rests_add (P Q : RegularExpression Char) (s : List Char) :
    rests (P + Q) s = rests P s ++ rests Q s := rfl

@[simp] theorem rests_mul (P Q : RegularExpression Char) (s : List Char) :
    rests (P * Q) s = (rests P s).flatMap (rests Q) := rfl

@[simp] theorem rests_optional (P : RegularExpression Char) (s : List Char) :
    rests (optional P) s = rests P s ++ [s] := rfl

/-! ### All matches are tried -/

theorem mem_repeated_iff {next : List Char → List (List Char)} {L : Language Char}
    (hnext : ∀ s r, r ∈ next s ↔ ∃ w ∈ L, w ++ r = s) {bound : List Char}
    (hs : s.length ≤ bound.length) :
    r ∈ repeated next bound s ↔ ∃ w ∈ KStar.kstar L, w ++ r = s := by
  induction bound generalizing s with
  | nil =>
      obtain rfl := List.eq_nil_of_length_eq_zero (Nat.le_zero.mp hs)
      rw [repeated, List.mem_singleton]
      refine ⟨fun h => ⟨[], Language.nil_mem_kstar L, h⟩, ?_⟩
      rintro ⟨w, -, hw⟩
      exact (List.append_eq_nil_iff.mp hw).2
  | cons b bound ih =>
      simp only [repeated, List.mem_append, List.mem_flatMap, List.mem_filter, decide_eq_true_eq,
        List.mem_singleton]
      constructor
      · rintro (⟨q, ⟨hq, hlt⟩, hr⟩ | rfl)
        · obtain ⟨w, hw, rfl⟩ := (hnext s q).mp hq
          obtain ⟨ws, hws, rfl⟩ := (ih (by simp at hlt hs ⊢; omega)).mp hr
          refine ⟨w ++ ws, ?_, List.append_assoc w ws r⟩
          rw [← Language.one_add_self_mul_kstar_eq_kstar]
          exact .inr ⟨w, hw, ws, hws, rfl⟩
        · exact ⟨[], Language.nil_mem_kstar L, rfl⟩
      · rintro ⟨w, hw, rfl⟩
        obtain ⟨words, rfl, hwords⟩ := Language.mem_kstar_iff_exists_nonempty.mp hw
        cases words with
        | nil => exact .inr rfl
        | cons w words =>
            obtain ⟨hw, hne⟩ := hwords w List.mem_cons_self
            have hpos := List.length_pos_iff.mpr hne
            refine .inl ⟨words.flatten ++ r, ⟨(hnext _ _).mpr ⟨w, hw, by simp⟩, by simp; omega⟩, ?_⟩
            refine (ih (by simp at hs ⊢; omega)).mpr ⟨words.flatten, ?_, rfl⟩
            exact Language.mem_kstar.mpr
              ⟨words, rfl, fun y hy => (hwords y (List.mem_cons_of_mem w hy)).1⟩

/-- **Every match is tried**, and nothing else is. -/
theorem mem_rests_iff : r ∈ rests P s ↔ ∃ w ∈ P.matches', w ++ r = s := by
  induction P generalizing s r with
  | zero => simp [rests]
  | epsilon => simp [rests, Language.mem_one, eq_comm]
  | char c =>
      have hword : ∀ w, w ∈ ({[c]} : Language Char) ↔ w = [c] := fun _ => Iff.rfl
      cases s with
      | nil => simp [rests, hword]
      | cons d s =>
          rw [rests]
          split
          · next h => simp [hword, h]
          · next h => simp [hword, Ne.symm h]
  | plus P Q ihP ihQ => simp [rests, ihP, ihQ, Language.mem_add, or_and_right, exists_or]
  | comp P Q ihP ihQ =>
      simp only [rests, List.mem_flatMap, ihP, ihQ, RegularExpression.comp_def,
        RegularExpression.matches'_mul, Language.mem_mul]
      constructor
      · rintro ⟨_, ⟨w, hw, rfl⟩, w', hw', rfl⟩
        exact ⟨w ++ w', ⟨w, hw, w', hw', rfl⟩, List.append_assoc w w' r⟩
      · rintro ⟨_, ⟨w, hw, w', hw', rfl⟩, rfl⟩
        exact ⟨w' ++ r, ⟨w, hw, (List.append_assoc w w' r).symm⟩, w', hw', rfl⟩
  | star P ih => exact mem_repeated_iff (fun _ _ => ih) (Nat.le_refl _)

theorem first?_eq_none_iff : first? P s = none ↔ ∀ w ∈ P.matches', ¬ w <+: s := by
  simp only [first?, List.head?_eq_none_iff, List.eq_nil_iff_forall_not_mem, mem_rests_iff]
  constructor
  · rintro h w hw ⟨r, hr⟩
    exact h r ⟨w, hw, hr⟩
  · rintro h r ⟨w, hw, hr⟩
    exact h w hw ⟨r, hr⟩

/-! ### The first match -/

theorem first?_add (P Q : RegularExpression Char) (s : List Char) :
    first? (P + Q) s = (first? P s).or (first? Q s) := by
  rw [first?, rests_add, List.head?_append]
  rfl

theorem first?_mul (P Q : RegularExpression Char) (s : List Char) :
    first? (P * Q) s = (rests P s).findSome? (first? Q) := by
  rw [first?, rests_mul, List.head?_flatMap]
  rfl

theorem first?_optional (P : RegularExpression Char) (s : List Char) :
    first? (optional P) s = some ((first? P s).getD s) := by
  rw [optional, first?_add]
  cases first? P s <;> rfl

/-- Where nothing can follow what the later matches leave, the first match leads on. -/
theorem first?_mul_of_rests {l : List (List Char)} (hP : rests P s = r :: l)
    (hl : ∀ q ∈ l, first? Q q = none) : first? (P * Q) s = first? Q r := by
  rw [first?_mul, hP, List.findSome?_cons, List.findSome?_eq_none_iff.mpr hl]
  cases first? Q r <;> rfl

/-- Before what always matches, nothing is given back. -/
theorem first?_mul_of_isSome (hQ : ∀ q, (first? Q q).isSome) (P : RegularExpression Char)
    (s : List Char) : first? (P * Q) s = (first? P s).bind (first? Q) := by
  rw [first?_mul, first?]
  cases rests P s with
  | nil => rfl
  | cons r l =>
      obtain ⟨q, hq⟩ := Option.isSome_iff_exists.mp (hQ r)
      rw [List.findSome?_cons, hq, List.head?_cons, Option.bind_some, hq]

theorem rests_oneOf_nil (cs : List Char) : rests (oneOf cs) [] = [] := by
  induction cs with
  | nil => rfl
  | cons c cs ih => exact ih

theorem rests_oneOf_cons {cs : List Char} (hcs : cs.Nodup) (d : Char) (s : List Char) :
    rests (oneOf cs) (d :: s) = if d ∈ cs then [s] else [] := by
  induction cs with
  | nil => rfl
  | cons c cs ih =>
      obtain ⟨hc, hcs⟩ := List.nodup_cons.mp hcs
      rw [oneOf, rests_add, rests, ih hcs]
      by_cases hd : d = c
      · simp [hd, hc]
      · simp [hd]

theorem first?_oneOf_mul {cs : List Char} (hcs : cs.Nodup) (Q : RegularExpression Char)
    (d : Char) (s : List Char) :
    first? (oneOf cs * Q) (d :: s) = if d ∈ cs then first? Q s else none := by
  rw [first?_mul, rests_oneOf_cons hcs]
  split
  · rw [List.findSome?_singleton]
  · rfl

end Regex

end InfixArith
