import InfixArith.Proofs.Format.Lexemes

/-!
# Format — which operators can be used

An operation of two literals is written with the token of its entry between blanks
(`Entry.between`).  It is read back where the token is what a reader comes upon (`Entry.Foremost`): the
token begins with no blank, no token of a tighter level can be read in its place, and none of its own
level reaches beyond it.  Valid tables need not be like this, though legible ones are
(`Table.Legible.foremost`).

Nothing less will do where entries build their own operators (`ofSource_between`).  For an operator
that is taken in place of the one that was written stays in the tree (`uses_of_first`).
-/

namespace InfixArith

open NumberStyle (display)

namespace Entry

/-- The source text of an operation of two literals. -/
def between (d : Entry) (a b : Float) : List Char :=
  display.text a ++ ' ' :: (d.token.toList ++ ' ' :: display.text b)

theorem format_eq_between {t : Table} {d : Entry} (hd : d ∈ t.entries) (a b : Float) :
    Expr.format t (.binary d.operator (.literal a) (.literal b)) = d.between a b := by
  have hliteral : ∀ outer side v, Expr.needsParens t outer side (.literal v) = false :=
    fun _ _ _ => rfl
  rw [Expr.format, Expr.formatBefore, Table.find?_operator hd]
  simp [hliteral, Text.parenthesizeIf, Expr.formatBefore, between]

/-- The token of `d` is what is matched where it stands before `rest`. -/
structure Foremost (t : Table) (d : Entry) (rest : List Char) : Prop where
  no_blank : ∀ c ∈ d.token.toList.head?, Text.isBlank c = false
  tighter : ∀ a ∈ t.entries, a.precedence < d.precedence →
    ¬ a.token.toList <+: d.token.toList ++ rest
  longest : ∀ a ∈ t.entries, a.precedence = d.precedence →
    a.token.toList <+: d.token.toList ++ rest → a.token.toList <+: d.token.toList

namespace Foremost

variable {t : Table} {d : Entry} {rest : List Char}

theorem skipBlanks_token {c : Char} {y : List Char} (htoken : d.token.toList = c :: y)
    (hc : Text.isBlank c = false) (rest : List Char) :
    Text.skipBlanks (' ' :: (d.token.toList ++ rest)) = d.token.toList ++ rest :=
  Lexeme.skipBlanks_text (x := .token d.token) Text.blanks_space htoken hc rest

theorem skipBlanks (h : d.Foremost t rest) (hd : d ∈ t.entries) :
    Text.skipBlanks (' ' :: (d.token.toList ++ rest)) = d.token.toList ++ rest := by
  obtain ⟨c, y, htoken⟩ := List.exists_cons_of_ne_nil (Table.token_ne_nil hd)
  exact skipBlanks_token htoken (h.no_blank c (by rw [htoken]; rfl)) rest

/-- A token that is matched after a blank, and no tighter one before it, is foremost. -/
theorem of_match {level : Level} {r : List Char} (hl : t.level? d.precedence = some level)
    (hm : level.match? (Text.skipBlanks (' ' :: (d.token.toList ++ rest))) = some (d, r))
    (hno : ∀ a ∈ t.entries, a.precedence < d.precedence →
      ¬ a.token.toList <+: Text.skipBlanks (' ' :: (d.token.toList ++ rest))) :
    d.Foremost t rest := by
  obtain ⟨hd, hs, hlong⟩ := Level.match?_eq_some hm
  obtain ⟨c, y, htoken⟩ := List.exists_cons_of_ne_nil
    (Table.token_ne_nil (Table.mem_of_mem_level hl hd).1)
  have hc : Text.isBlank c = false := by
    rw [htoken, List.cons_append] at hs
    exact Text.isBlank_of_skipBlanks_eq_cons hs.symm
  rw [skipBlanks_token htoken hc] at hlong hno
  refine ⟨?_, hno, fun a ha hp hpre => ?_⟩
  · rw [htoken]
    rintro c ⟨rfl⟩
    exact hc
  · have hsize := hlong a (((Table.mem_level? hl).2.1 a).mpr ⟨ha, hp⟩) hpre
    rcases List.prefix_or_prefix_of_prefix hpre (List.prefix_append d.token.toList rest) with h | h
    · exact h
    · rw [String.eq_of_toList_prefix h hsize]

end Foremost

end Entry

/-- In a legible table every token is foremost before a blank. -/
theorem Table.Legible.foremost {t : Table} (ht : t.Legible) {d : Entry} (hd : d ∈ t.entries)
    (s : List Char) : d.Foremost t (' ' :: s) := by
  have hspace : ∀ a ∈ t.entries, ' ' ∉ a.token.toList := fun a ha hmem =>
    absurd (ht.no_blank a ha ' ' hmem) (by decide)
  refine ⟨fun c hc => ht.no_blank d hd c (List.mem_of_mem_head? hc), fun a ha hp hpre => ?_,
    fun a ha _ hpre => Expr.prefix_before (hspace a ha) hpre⟩
  exact ht.not_hidden a ha d hd hp (Expr.prefix_before (hspace a ha) hpre)

/-- The operator is that of an operation in the tree. -/
def Expr.Uses (o : Operator) : Expr → Prop
  | .literal _      => False
  | .binary o' l r  => o' = o ∨ l.Uses o ∨ r.Uses o

namespace Reading

variable {t : Table} {h n p q : Nat} {l m o : Measured} {s u v r : List Char} {d : Entry}

/-! ### Levels that take nothing -/

/-- A level of which no token stands ahead leaves an expression as it is. -/
theorem extend_of_no_token (l : Measured)
    (hno : ∀ e ∈ t.entries, e.precedence = p → ¬ e.token.toList <+: Text.skipBlanks u) :
    ∃ v, extend t h n p l u = .done l v ∧ Text.skipBlanks v = Text.skipBlanks u := by
  cases hl : t.level? p with
  | none => exact ⟨u, extend_of_no_level hl, rfl⟩
  | some level =>
      have hm : level.match? (Text.skipBlanks u) = none := by
        refine Level.match?_eq_none.mpr fun e he => ?_
        obtain ⟨he, hp, -⟩ := Table.mem_of_mem_level hl he
        exact hno e he hp
      exact ⟨_, extend_of_no_match hl hm, Text.skipBlanks_idem u⟩

/-- So do several. -/
theorem read_of_no_token (hr : read t h n q s = .done m u) (hqp : q ≤ p)
    (hno : ∀ e ∈ t.entries, q < e.precedence → e.precedence ≤ p →
      ¬ e.token.toList <+: Text.skipBlanks u) :
    ∃ v, read t h n p s = .done m v ∧ Text.skipBlanks v = Text.skipBlanks u := by
  induction hqp with
  | refl => exact ⟨u, hr, rfl⟩
  | @step p hqp ih =>
      obtain ⟨v, hv, hskip⟩ := ih fun e he hlt hle => hno e he hlt (Nat.le_succ_of_le hle)
      obtain ⟨w, hw, hskip'⟩ := extend_of_no_token (t := t) (h := h) (n := n) (p := p + 1) (u := v) m
        fun e he hp => by
          rw [hskip]
          exact hno e he (hp ▸ Nat.lt_succ_of_le hqp) (Nat.le_of_eq hp)
      exact ⟨w, by rw [read_succ, hv, Outcome.done_andThen, hw], hskip'.trans hskip⟩

/-- No token stands at the end of the text. -/
theorem not_token_prefix (hu : Text.skipBlanks u = []) :
    ∀ e ∈ t.entries, ¬ e.token.toList <+: Text.skipBlanks u := by
  intro e he hpre
  rw [hu, List.prefix_nil] at hpre
  exact Table.token_ne_nil he hpre

/-! ### An operation of two literals -/

theorem read_display {x : Float} (hx : x.isFinite) {b : List Char} (hb : Text.Blanks b)
    (hr : Numeral.Ends r) : read t h n 0 (b ++ (display.text x ++ r)) = .done (.literal x) r := by
  obtain ⟨k, hk, htext, rfl⟩ := NumberStyle.exists_numeral .display hx
  obtain ⟨c, y, hhead, hc⟩ := Numeral.head_text hk
  have hskip : Text.skipBlanks (b ++ (k.text ++ r)) = k.text ++ r :=
    Lexeme.skipBlanks_text (x := .numeral k) hb hhead (Numeral.isBlank_head hc) r
  obtain ⟨hscan, hopen⟩ := found_numeral (t := t) hk hr
  rw [← hskip] at hscan hopen
  rw [← htext]
  exact read_zero_eq_done_iff.mpr (.numeral hopen hscan)

/-- Two operands with the token between them that is matched, at the end of the text. -/
theorem read_operation {level : Level} (hl : t.level? (q + 1) = some level)
    (hread : read t h n q s = .done l u) (hm : level.match? (Text.skipBlanks u) = some (d, r))
    (ho : read t h n q r = .done o v) (hv : Text.skipBlanks v = [])
    (hfit : max l.height o.height + 1 ≤ h) :
    ∃ w, read t h n (q + 1) s = .done (.build d l o) w ∧ Text.skipBlanks w = [] := by
  have hend : ∀ k, ∃ w, extend t h n (q + 1) k v = .done k w ∧ Text.skipBlanks w = [] := by
    intro k
    obtain ⟨w, hw, hskip⟩ := extend_of_no_token (t := t) (h := h) (n := n) (p := q + 1) k
      fun e he _ => not_token_prefix hv e he
    exact ⟨w, hw, hskip.trans hv⟩
  suffices h : ∃ w, extend t h n (q + 1) l u = .done (.build d l o) w ∧ Text.skipBlanks w = [] by
    obtain ⟨w, hw, hskip⟩ := h
    exact ⟨w, read_succ_eq_done_iff.mpr ⟨l, u, hread, hw⟩, hskip⟩
  cases ha : level.associativity with
  | leftToRight =>
      obtain ⟨w, hw, hskip⟩ := hend (.build d l o)
      exact ⟨w, extend_eq_done_iff.mpr (.left hl ha hm ho hfit hw), hskip⟩
  | rightToLeft =>
      obtain ⟨w, hw, hskip⟩ := hend o
      exact ⟨w, extend_eq_done_iff.mpr (.right hl ha hm ho hw hfit), hskip⟩
  | nonAssociative =>
      have hno : level.match? (Text.skipBlanks v) = none := by
        refine Level.match?_eq_none.mpr fun e he => ?_
        exact not_token_prefix hv e (Table.mem_of_mem_level hl he).1
      exact ⟨_, extend_eq_done_iff.mpr (.once hl ha hm ho hno hfit), by
        rw [Text.skipBlanks_idem, hv]⟩

/-- An operation of two literals is read where its token is foremost. -/
theorem ofSource_of_foremost (hd : d ∈ t.entries) {a b : Float} (ha : a.isFinite) (hb : b.isFinite)
    (hf : d.Foremost t (' ' :: display.text b)) {limits : Limits} (hh : 0 < limits.maxHeight) :
    (ofSource t limits (d.between a b)).result = .ok (d.build (.literal a) (.literal b)) := by
  obtain ⟨q, hq⟩ := Nat.exists_eq_succ_of_ne_zero (Nat.ne_of_gt (t.valid.precedence_pos d hd))
  obtain ⟨level, hl, -⟩ := Table.exists_level hd
  have hplace := hf.skipBlanks hd
  have hleft : read t limits.maxHeight limits.maxNesting 0 (d.between a b) = .done (.literal a) _ :=
    read_display ha Text.blanks_nil (Numeral.ends_space _)
  obtain ⟨u, hu, hskip⟩ := read_of_no_token hleft (Nat.zero_le q) fun e he _ hle => by
    rw [hplace]
    exact hf.tighter e he (hq ▸ Nat.lt_succ_of_le hle)
  have hright : read t limits.maxHeight limits.maxNesting 0 (' ' :: display.text b) =
      .done (.literal b) [] := by
    have h := read_display (t := t) (h := limits.maxHeight) (n := limits.maxNesting) hb
      Text.blanks_space (r := []) fun _ hc => nomatch hc
    rwa [List.append_nil] at h
  obtain ⟨v, hv, hend⟩ := read_of_no_token hright (Nat.zero_le q) fun e he _ _ =>
    not_token_prefix rfl e he
  have hm : level.match? (Text.skipBlanks u) = some (d, ' ' :: display.text b) := by
    rw [hskip, hplace]
    exact Table.match?_token hl hd hf.longest
  rw [hq] at hl
  obtain ⟨w, hw, hend⟩ := read_operation hl hu hm hv hend hh
  obtain ⟨z, hz, hzend⟩ := read_of_no_token hw (hq ▸ Table.precedence_le_maxPrecedence hd)
    fun e he _ _ => not_token_prefix hend e he
  exact ofSource_eq_ok hz (hzend.trans hend)

/-! ### Operators that are taken stay -/

theorem uses_build (ht : t.Plain) (hd : d ∈ t.entries) (l o : Measured) :
    (Measured.build d l o).expr.Uses d.operator := by
  rw [Measured.build, ht d hd]
  exact .inl rfl

theorem uses_of_extend (ht : t.Plain) {x : Operator} (hx : extend t h n (p + 1) l s = .done m r)
    (hl : l.expr.Uses x) : m.expr.Uses x := by
  induction hlen : s.length using Nat.strongRecOn generalizing l s with
  | ind k ih =>
      subst hlen
      have hoperation : ∀ {level e q} (o : Measured), t.level? (p + 1) = some level →
          level.match? (Text.skipBlanks s) = some (e, q) → (Measured.build e l o).expr.Uses x := by
        intro level e q o hlevel hm
        rw [Measured.build, ht e (Table.mem_of_match? hlevel hm).1]
        exact .inr (.inl hl)
      cases extend_eq_done_iff.mp hx with
      | noLevel | noMatch => exact hl
      | left hlevel _ hm ho _ hnext =>
          exact ih _ (length_link hlevel hm ho) hnext (hoperation _ hlevel hm) rfl
      | right hlevel _ hm => exact hoperation _ hlevel hm
      | once hlevel _ hm => exact hoperation _ hlevel hm

/-- The first operator that is taken after an operand is used, however much is read. -/
theorem uses_of_first (ht : t.Plain) (hread : read t h n 0 s = .done l u) {level : Level}
    (hl : t.level? q = some level) (hm : level.match? (Text.skipBlanks u) = some (d, v))
    (hno : ∀ e ∈ t.entries, e.precedence < q → ¬ e.token.toList <+: Text.skipBlanks u)
    (hqp : q ≤ p) (hr : read t h n p s = .done m r) : m.expr.Uses d.operator := by
  have hd := (Table.mem_of_match? hl hm).1
  induction hqp generalizing m r with
  | step _ ih =>
      obtain ⟨l', w, hl', hx⟩ := read_succ_eq_done_iff.mp hr
      exact uses_of_extend ht hx (ih hl')
  | refl =>
      cases q with
      | zero =>
          rw [Table.level?_zero] at hl
          cases hl
      | succ q =>
          obtain ⟨w, hw, hskip⟩ := read_of_no_token hread (Nat.zero_le q) fun e he _ hle =>
            hno e he (Nat.lt_succ_of_le hle)
          obtain ⟨l', w', hread', hx⟩ := read_succ_eq_done_iff.mp hr
          cases hw.symm.trans hread'
          rw [← hskip] at hm
          -- the chain goes on with the token that is matched
          cases extend_eq_done_iff.mp hx with
          | noLevel hl' => cases hl.symm.trans hl'
          | noMatch hl' hm' =>
              cases hl.symm.trans hl'
              cases hm.symm.trans hm'
          | left hl' _ hm' _ _ hnext =>
              cases hl.symm.trans hl'
              cases hm.symm.trans hm'
              exact uses_of_extend ht hnext (uses_build ht hd _ _)
          | right hl' _ hm' | once hl' _ hm' =>
              cases hl.symm.trans hl'
              cases hm.symm.trans hm'
              exact uses_build ht hd _ _

/-- Of the tokens that stand at a place, one is of the tightest level. -/
theorem exists_tightest {x : List Char} (h : ∃ e ∈ t.entries, e.token.toList <+: x) :
    ∃ e ∈ t.entries, e.token.toList <+: x ∧
      ∀ a ∈ t.entries, a.precedence < e.precedence → ¬ a.token.toList <+: x := by
  obtain ⟨e, ⟨he, hpre⟩, hmin⟩ := (measure Entry.precedence).wf.has_min
    {e | e ∈ t.entries ∧ e.token.toList <+: x} h
  exact ⟨e, he, hpre, fun a ha hlt hx => hmin a ⟨ha, hx⟩ hlt⟩

/-- Where more is read than an operand, the first operator is taken on the tightest level of which a
token stands after it. -/
theorem exists_first (hread : read t h n 0 s = .done l u) (hr : read t h n p s = .done m r)
    (hne : m ≠ l) :
    ∃ first level v, t.level? first.precedence = some level ∧
      level.match? (Text.skipBlanks u) = some (first, v) ∧
      ∀ a ∈ t.entries, a.precedence < first.precedence →
        ¬ a.token.toList <+: Text.skipBlanks u := by
  have hsome : ∃ e ∈ t.entries, e.token.toList <+: Text.skipBlanks u := by
    by_contra hno
    obtain ⟨v, hv, -⟩ := read_of_no_token hread (Nat.zero_le p) fun e he _ _ hpre =>
      hno ⟨e, he, hpre⟩
    cases hv.symm.trans hr
    exact hne rfl
  obtain ⟨e, he, hpre, hmin⟩ := exists_tightest hsome
  obtain ⟨level, hl, hmem⟩ := Table.exists_level he
  cases hmatch : level.match? (Text.skipBlanks u) with
  | none => exact absurd hpre (Level.match?_eq_none.mp hmatch e hmem)
  | some found =>
      obtain ⟨first, v⟩ := found
      obtain ⟨-, hp, -⟩ := Table.mem_of_match? hl hmatch
      rw [← hp] at hl hmin
      exact ⟨first, level, v, hl, hmatch, hmin⟩

/-- Where the operation is read, its token is foremost. -/
theorem foremost_of_ok (ht : t.Plain) (hd : d ∈ t.entries) {a b : Float} (ha : a.isFinite)
    {limits : Limits}
    (hok : (ofSource t limits (d.between a b)).result = .ok (d.build (.literal a) (.literal b))) :
    d.Foremost t (' ' :: display.text b) := by
  obtain ⟨m, u, r, hread, -, hm⟩ := run_eq_ok_iff.mp hok
  rw [ht d hd] at hm
  have hleft : read t limits.maxHeight limits.maxNesting 0 (d.between a b) = .done (.literal a) _ :=
    read_display ha Text.blanks_nil (Numeral.ends_space _)
  have hne : m ≠ .literal a := by
    rintro rfl
    cases hm
  obtain ⟨first, level, v, hl, hmatch, hmin⟩ := exists_first hleft hread hne
  have hfirst := (Table.mem_of_match? hl hmatch).1
  have huses : m.expr.Uses first.operator :=
    uses_of_first ht hleft hl hmatch hmin (Table.precedence_le_maxPrecedence hfirst) hread
  -- there is no other operator in the tree than that of `d`
  rw [hm] at huses
  have hop : d.operator = first.operator := by simpa [Expr.Uses] using huses
  obtain rfl := Entry.eq_of_distinct t.valid.operators_distinct hd hfirst hop
  exact .of_match hl hmatch hmin

/-- **Which operators can be used.**  An operation of two literals is read back where its token is
foremost.  If entries build their own operators, it is read back nowhere else. -/
theorem ofSource_between (hd : d ∈ t.entries) {a b : Float} (ha : a.isFinite) (hb : b.isFinite)
    {limits : Limits} (hh : 0 < limits.maxHeight) :
    (d.Foremost t (' ' :: display.text b) →
      (ofSource t limits (d.between a b)).result = .ok (d.build (.literal a) (.literal b))) ∧
    (t.Plain →
      (ofSource t limits (d.between a b)).result = .ok (d.build (.literal a) (.literal b)) →
        d.Foremost t (' ' :: display.text b)) :=
  ⟨fun hf => ofSource_of_foremost hd ha hb hf hh, fun ht hok => foremost_of_ok ht hd ha hok⟩

/-- The arithmetic table is legible, so the difference of `1` and `-2` is read back. -/
theorem ofSource_between_difference :
    let minus := Entry.plain .sub 3 .leftToRight "-"
    let one : Float := Numeral.value ⟨none, ['1'], none, none⟩
    let two : Float := Numeral.value ⟨some .minus, ['2'], none, none⟩
    minus.between one two = "1.0 - -2.0".toList ∧
      minus.Foremost .arithmetic (' ' :: display.text two) ∧
      (ofSource .arithmetic .usual (minus.between one two)).result =
        .ok (.binary .sub (.literal one) (.literal two)) := by
  intro minus one two
  have hmem : minus ∈ Table.arithmetic.entries := by simp [Table.arithmetic, minus]
  have hf := Table.legible_arithmetic.foremost hmem (display.text two)
  have hone : one.isFinite := by decide +kernel
  have htwo : two.isFinite := by decide +kernel
  have hheight : 0 < Limits.usual.maxHeight := by decide
  have hread := ofSource_between hmem hone htwo hheight
  exact ⟨by decide +kernel, hf, hread.1 hf⟩

/-- In a table where `*` binds tighter than `**`, the longer token is never read: `*` is taken in its
place, and no operand follows. -/
theorem ofSource_between_hidden :
    let times := Entry.plain .mul 1 .leftToRight "*"
    let power := Entry.plain .pow 2 .rightToLeft "**"
    let one : Float := Numeral.value ⟨none, ['1'], none, none⟩
    let two : Float := Numeral.value ⟨none, ['2'], none, none⟩
    ∃ t, Table.ofEntries [times, power] = .ok t ∧ power ∈ t.entries ∧ one.isFinite ∧ two.isFinite ∧
      power.between one two = "1.0 ** 2.0".toList ∧
      (ofSource t .usual (power.between one two)).result = .error (.invalidNumber "* 2.0" 5) := by
  intro times power one two
  have hbetween : power.between one two = "1.0 ** 2.0".toList := by decide +kernel
  refine ⟨_, rfl, by simp, by decide +kernel, by decide +kernel, hbetween, ?_⟩
  rw [hbetween]
  dsimp only [times, power]
  rfl

end Reading

end InfixArith
