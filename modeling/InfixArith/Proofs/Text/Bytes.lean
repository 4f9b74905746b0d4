import InfixArith.Text.Bytes
import Mathlib.Data.List.Basic

/-!
# Text — bytes and lines

The bytes of a text determine it, and a list of bytes is decoded exactly if it is the bytes of some
text (`ofBytes?_eq_some_iff`).  Texts in their order have bytes in their order (`bytes_lt_bytes`).

`LinesOf input ls` says that `ls` are the lines of `input`: what stands between line feeds, each with
the line feed that ends it.  They are what `lines` gives and nothing else (`linesOf_iff`).
-/

namespace InfixArith.Text

/-! ### Bytes -/

@[simp] theorem bytes_nil : bytes [] = [] := rfl

@[simp] theorem bytes_append (s r : List Char) : bytes (s ++ r) = bytes s ++ bytes r :=
  List.flatMap_append

/-- Decoding gives the text with these bytes. -/
theorem ofBytes?_eq_some_iff {bs : List UInt8} {s : List Char} :
    ofBytes? bs = some s ↔ bytes s = bs := by
  have hbytes : ∀ x : String, x.toByteArray = bs.toByteArray ↔ bytes x.toList = bs := by
    intro x
    have hx : x.toByteArray = (bytes x.toList).toByteArray := by
      rw [← String.ofList_toList (s := x), String.toByteArray_ofList, String.ofList_toList]
      rfl
    rw [hx]
    refine ⟨fun h => ?_, fun h => congrArg _ h⟩
    rw [← List.toList_data_toByteArray (l := bytes x.toList), h, List.toList_data_toByteArray]
  constructor
  · intro h
    obtain ⟨x, hx, rfl⟩ := Option.map_eq_some_iff.mp h
    refine (hbytes x).mp ?_
    unfold String.fromUTF8? at hx
    split at hx
    · cases hx
      rfl
    · cases hx
  · intro h
    have hx := (hbytes (String.ofList s)).mpr (by rwa [String.toList_ofList])
    have hdecode : String.fromUTF8? bs.toByteArray = some (String.ofList s) := by
      rw [← hx, String.fromUTF8?, dif_pos (String.ofList s).isValidUTF8]
      rfl
    rw [ofBytes?, hdecode, Option.map_some, String.toList_ofList]

theorem ofBytes?_bytes (s : List Char) : ofBytes? (bytes s) = some s :=
  ofBytes?_eq_some_iff.mpr rfl

theorem bytes_injective : Function.Injective bytes := by
  intro s r h
  have hs := ofBytes?_bytes s
  rw [h, ofBytes?_bytes] at hs
  exact (Option.some.inj hs).symm

theorem bytes_eq_nil_iff {s : List Char} : bytes s = [] ↔ s = [] :=
  ⟨fun h => bytes_injective h, fun h => h ▸ rfl⟩

/-- No text has these bytes. -/
theorem ofBytes?_eq_none_iff {bs : List UInt8} : ofBytes? bs = none ↔ ∀ s, bytes s ≠ bs := by
  simp only [Option.eq_none_iff_forall_ne_some, ne_eq, ofBytes?_eq_some_iff]

/-! ### The order of bytes -/

theorem ofNat_lt_ofNat_iff {a b : Nat} (ha : a < 256) (hb : b < 256) :
    UInt8.ofNat a < UInt8.ofNat b ↔ a < b := by
  rw [UInt8.lt_iff_toNat_lt, UInt8.toNat_ofNat', UInt8.toNat_ofNat', Nat.mod_eq_of_lt ha,
    Nat.mod_eq_of_lt hb]

theorem ofNat_eq_ofNat_iff {a b : Nat} (ha : a < 256) (hb : b < 256) :
    UInt8.ofNat a = UInt8.ofNat b ↔ a = b := by
  rw [← UInt8.toNat_inj, UInt8.toNat_ofNat', UInt8.toNat_ofNat', Nat.mod_eq_of_lt ha,
    Nat.mod_eq_of_lt hb]

/-- Six bits at a time, the first that differ decide. -/
theorem lt_iff_sixBits {m n : Nat} :
    m < n ↔ m / 64 < n / 64 ∨ m / 64 = n / 64 ∧ m % 64 < n % 64 := by
  omega

/-- The bytes of a smaller character come first, whatever follows. -/
theorem utf8EncodeChar_append_lt {c d : Char} (h : c < d) (x y : List UInt8) :
    String.utf8EncodeChar c ++ x < String.utf8EncodeChar d ++ y := by
  have hlt : c.val.toNat < d.val.toNat := h
  have hmax : d.val.toNat < 0x110000 := by
    rcases d.valid with hd | ⟨-, hd⟩ <;> omega
  simp only [String.utf8EncodeChar]
  generalize c.val.toNat = m at hlt
  generalize d.val.toNat = n at hlt hmax
  have hquot : ∀ k, k / 4096 = k / 64 / 64 ∧ k / 262144 = k / 64 / 64 / 64 := by
    intro k
    simp only [Nat.div_div_eq_div_mul, and_self]
  -- the first bytes are apart where the characters differ in size; otherwise the six bits decide
  have hlast := lt_iff_sixBits.mp hlt
  have hthird := @lt_iff_sixBits (m / 64) (n / 64)
  have hsecond := @lt_iff_sixBits (m / 64 / 64) (n / 64 / 64)
  split_ifs <;>
    simp (disch := omega) only [List.cons_append, List.nil_append, List.cons_lt_cons_iff,
      ofNat_lt_ofNat_iff, ofNat_eq_ofNat_iff, hquot] <;>
    omega

/-- **Bytes are in the order of the text**, character by character. -/
theorem bytes_lt_bytes {s r : List Char} (h : s < r) : bytes s < bytes r := by
  induction h with
  | @nil c r =>
      have hne : String.utf8EncodeChar c ≠ [] := String.utf8EncodeChar_ne_nil
      obtain ⟨b, bs, hbs⟩ := List.exists_cons_of_ne_nil hne
      rw [bytes_nil, bytes, List.flatMap_cons, hbs]
      exact List.nil_lt_cons b _
  | rel hcd => exact utf8EncodeChar_append_lt hcd _ _
  | cons _ ih => exact List.append_left_lt ih

/-! ### Lines -/

/-- The lines of an input: it is cut after every line feed, and a last line may lack one. -/
inductive LinesOf : (input : List UInt8) → List (List UInt8) → Prop where
  | nil : LinesOf [] []
  | unterminated {line : List UInt8} (hne : line ≠ []) (hline : lineFeed ∉ line) :
      LinesOf line [line]
  | terminated {line rest : List UInt8} {ls : List (List UInt8)} (hline : lineFeed ∉ line)
      (hrest : LinesOf rest ls) : LinesOf (line ++ lineFeed :: rest) ((line ++ [lineFeed]) :: ls)

namespace LinesOf

variable {input : List UInt8} {ls : List (List UInt8)}

theorem lines_eq (h : LinesOf input ls) : lines input = ls := by
  induction h with
  | nil => rfl
  | @unterminated line hne hline =>
      induction line with
      | nil => exact absurd rfl hne
      | cons b line ih =>
          obtain ⟨hb, hline⟩ := not_or.mp (mt List.mem_cons.mpr hline)
          cases line with
          | nil => rw [lines, if_neg (Ne.symm hb), lines]
          | cons c line => rw [lines, if_neg (Ne.symm hb), ih (List.cons_ne_nil c line) hline]
  | @terminated line rest ls hline hrest ih =>
      induction line with
      | nil => rw [List.nil_append, List.nil_append, lines, if_pos rfl, ih]
      | cons b line ihl =>
          obtain ⟨hb, hline⟩ := not_or.mp (mt List.mem_cons.mpr hline)
          rw [List.cons_append, lines, if_neg (Ne.symm hb), ihl hline, List.cons_append]

/-- A byte more at the beginning belongs to the first line, unless it ends a line. -/
theorem cons (h : LinesOf input (lines input)) (b : UInt8) :
    LinesOf (b :: input) (lines (b :: input)) := by
  by_cases hb : b = lineFeed
  · rw [lines, if_pos hb, hb]
    exact .terminated List.not_mem_nil h
  · rw [lines, if_neg hb]
    generalize lines input = ls at h
    have hmem : ∀ {line : List UInt8}, lineFeed ∉ line → lineFeed ∉ b :: line := fun hline hmem =>
      (List.mem_cons.mp hmem).elim (fun heq => hb heq.symm) hline
    cases h with
    | nil => exact .unterminated (List.cons_ne_nil b []) (hmem List.not_mem_nil)
    | unterminated hne hline => exact .unterminated (List.cons_ne_nil b _) (hmem hline)
    | terminated hline hrest => exact .terminated (hmem hline) hrest

/-- Nothing is lost. -/
theorem flatten_eq (h : LinesOf input ls) : ls.flatten = input := by
  induction h with
  | nil => rfl
  | unterminated _ _ => exact List.append_nil _
  | terminated _ _ ih => rw [List.flatten_cons, ih, List.append_assoc, List.singleton_append]

/-- The first lines are those of the input up to there. -/
theorem of_append {before after : List (List UInt8)} (h : LinesOf input ls)
    (hls : ls = before ++ after) : LinesOf before.flatten before := by
  induction h generalizing before with
  | nil =>
      rw [(List.append_eq_nil_iff.mp hls.symm).1]
      exact .nil
  | @unterminated line hne hline =>
      cases before with
      | nil => exact .nil
      | cons l before =>
          obtain ⟨rfl, hrest⟩ := List.cons.inj hls
          rw [(List.append_eq_nil_iff.mp hrest.symm).1, List.flatten_singleton]
          exact .unterminated hne hline
  | @terminated line rest ls hline hrest ih =>
      cases before with
      | nil => exact .nil
      | cons l before =>
          obtain ⟨rfl, hafter⟩ := List.cons.inj hls
          rw [List.flatten_cons, List.append_assoc, List.singleton_append]
          exact .terminated hline (ih hafter)

/-- A line has a line feed at its end at most. -/
theorem eq_nil_of_mem (h : LinesOf input ls) {line u v : List UInt8} (hline : line ∈ ls)
    (hfeed : line = u ++ lineFeed :: v) : v = [] := by
  induction h with
  | nil => cases hline
  | unterminated hne hno =>
      cases List.mem_singleton.mp hline
      exact absurd (hfeed ▸ List.mem_append_right u List.mem_cons_self) hno
  | @terminated line' rest ls hno hrest ih =>
      rcases List.mem_cons.mp hline with rfl | hline
      · -- the line feed at hand is the last, for there is none before that
        rcases List.eq_nil_or_concat v with rfl | ⟨v, b, rfl⟩
        · rfl
        · have hsplit : line' ++ [lineFeed] = (u ++ lineFeed :: v) ++ [b] := by
            simpa using hfeed
          have hinit := List.append_inj_left' hsplit rfl
          exact absurd (hinit ▸ List.mem_append_right u List.mem_cons_self) hno
      · exact ih hline

end LinesOf

/-- **The lines of an input** are what it is cut into after every line feed. -/
theorem linesOf_iff {input : List UInt8} {ls : List (List UInt8)} :
    LinesOf input ls ↔ lines input = ls := by
  refine ⟨LinesOf.lines_eq, ?_⟩
  rintro rfl
  induction input with
  | nil => exact .nil
  | cons b input ih => exact ih.cons b

theorem lines_ne_nil {input : List UInt8} (h : input ≠ []) : lines input ≠ [] := by
  intro hnil
  cases linesOf_iff.mpr hnil
  exact h rfl

/-- What follows a line feed are lines of their own. -/
theorem lines_append {input : List UInt8} (h : input.getLast? = some lineFeed)
    (other : List UInt8) : lines (input ++ other) = lines input ++ lines other := by
  induction input with
  | nil => cases h
  | cons b input ih =>
      cases input with
      | nil =>
          cases h
          rfl
      | cons c input =>
          rw [List.cons_append, lines, lines, ih (by rwa [List.getLast?_cons_cons] at h)]
          obtain ⟨l, ls, hls⟩ := List.exists_cons_of_ne_nil (lines_ne_nil (List.cons_ne_nil c input))
          rw [hls]
          split <;> rfl

end InfixArith.Text
