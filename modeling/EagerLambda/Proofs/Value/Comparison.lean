import EagerLambda.Operator.Apply
import EagerLambda.Proofs.Value.Utf8

/-!
# Comparisons

The six comparisons of the language say one thing about two values. Integers and strings are
ordered: exactly one of "less", "equal" and "greater" holds of two of them, and the other three
comparisons are the opposites of these. Truth values can only be equal or different. The order of
strings is that of their characters, which is that of the bytes that encode them.

## Main definitions

- `Value.Ordered`, `Value.Comparable` — operands of the comparisons
- `BinaryOp.Answers` — an operator answers a truth value
- `BinaryOp.Coherent` — the comparisons of two values fit together

## Main statements

- `BinaryOp.exists_inOrder` — the comparisons of ordered operands answer by how they stand
- `BinaryOp.ordering_succeeds_iff`, `BinaryOp.equality_succeeds_iff` — which operands they compare
- `BinaryOp.comparisons_coherent` — the comparisons form one order
-/

namespace EagerLambda

variable {Code : Type}

namespace Value

/-- Two integers or two strings. -/
inductive Ordered : Value Code → Value Code → Prop
  | integers (a b : Integer) : Ordered (.integer a) (.integer b)
  | strings (a b : String) : Ordered (.string a) (.string b)

/-- Two integers, two strings or two truth values. -/
inductive Comparable : Value Code → Value Code → Prop
  | ordered {v w : Value Code} : v.Ordered w → Comparable v w
  | truths (a b : Bool) : Comparable (.truth a) (.truth b)

theorem Ordered.symm {v w : Value Code} (h : v.Ordered w) : w.Ordered v := by
  cases h with
  | integers a b => exact .integers b a
  | strings a b => exact .strings b a

end Value

namespace BinaryOp

/-- The operator answers this truth value. -/
def Answers (op : BinaryOp) (v w : Value Code) (b : Bool) : Prop := op.apply v w = .ok (.truth b)

/-- The operator has a value for these operands. -/
def Succeeds (op : BinaryOp) (v w : Value Code) : Prop := ∃ r, op.apply v w = .ok r

/-- The operators that order their operands. -/
def orderings : List BinaryOp := [gr, ge, ls, le]

/-- The operators that tell whether their operands are equal. -/
def equalities : List BinaryOp := [eq, ne]

/-- The comparisons of two values fit together. -/
structure Coherent (v w : Value Code) : Prop where
  exclusive : v.Ordered w →
    (ls.Answers v w true ∧ eq.Answers v w false ∧ gr.Answers v w false) ∨
    (ls.Answers v w false ∧ eq.Answers v w true ∧ gr.Answers v w false) ∨
    (ls.Answers v w false ∧ eq.Answers v w false ∧ gr.Answers v w true)
  le_not_gr : ∀ b, le.Answers v w b ↔ gr.Answers v w !b
  ge_not_ls : ∀ b, ge.Answers v w b ↔ ls.Answers v w !b
  ne_not_eq : ∀ b, ne.Answers v w b ↔ eq.Answers v w !b
  ls_swap : ∀ b, ls.Answers w v b ↔ gr.Answers v w b
  le_swap : ∀ b, le.Answers w v b ↔ ge.Answers v w b
  eq_same : v.Comparable w → (eq.Answers v w true ↔ v = w)

/-- What a comparison says of two values that are in this order. -/
def decides (op : BinaryOp) (o : Ordering) : Bool :=
  match op with
  | eq => o = .eq
  | ne => o ≠ .eq
  | gr => o = .gt
  | ge => o ≠ .lt
  | ls => o = .lt
  | le => o ≠ .gt
  | _ => false

variable {u v w : Value Code} {op : BinaryOp}

-- ════════════════════════════════════════════════════════════════════════
-- Operands that are compared
-- ════════════════════════════════════════════════════════════════════════

/-- An operator other than `aug` succeeds on operands of one kind only, if at all. -/
theorem kinds_of_apply {r : Value Code} (haug : op ≠ aug) (h : op.apply v w = .ok r) :
    (∃ a b, v = .integer a ∧ w = .integer b) ∨ (∃ a b, v = .string a ∧ w = .string b) ∨
      ∃ a b, v = .truth a ∧ w = .truth b ∧ (op.onTruths? a b).map .truth = some r := by
  rw [apply, if_neg haug] at h
  unfold onSameKind? at h
  split at h
  · exact .inl ⟨_, _, rfl, rfl⟩
  · next a b =>
    cases ht : op.onTruths? a b with
    | none =>
      rw [ht] at h
      cases h
    | some t =>
      rw [ht] at h
      cases h
      exact .inr (.inr ⟨a, b, rfl, rfl, by rw [ht]; rfl⟩)
  · exact .inr (.inl ⟨_, _, rfl, rfl⟩)
  · cases h

/-- What every comparison answers for two values in this order. -/
def InOrder (v w : Value Code) (o : Ordering) : Prop :=
  ∀ op ∈ orderings ++ equalities, op.apply v w = .ok (.truth (op.decides o))

theorem integers_inOrder (a b : Integer) :
    InOrder (.integer a : Value Code) (.integer b) (compare a.toInt b.toInt) := by
  intro op hop
  simp only [orderings, equalities, List.cons_append, List.nil_append, List.mem_cons,
    List.not_mem_nil, or_false] at hop
  rcases hop with rfl | rfl | rfl | rfl | rfl | rfl <;>
    simp [apply, onSameKind?, onIntegers?, decides, compare_gt_iff_gt, compare_lt_iff_lt,
      Int64.lt_iff_toInt_lt, Int64.le_iff_toInt_le, Int64.toInt_inj]

theorem strings_inOrder (a b : String) :
    InOrder (.string a : Value Code) (.string b) (compare a b) := by
  intro op hop
  simp only [orderings, equalities, List.cons_append, List.nil_append, List.mem_cons,
    List.not_mem_nil, or_false] at hop
  rcases hop with rfl | rfl | rfl | rfl | rfl | rfl <;>
    simp [apply, onSameKind?, onStrings?, decides, compare_gt_iff_gt, compare_lt_iff_lt]

/-- Two values that are ordered are in one of three orders, and the other way round in the opposite
one. -/
theorem exists_inOrder (h : v.Ordered w) :
    ∃ o : Ordering, InOrder v w o ∧ InOrder w v o.swap := by
  cases h with
  | integers a b =>
    have hswap : compare b.toInt a.toInt = (compare a.toInt b.toInt).swap :=
      Std.OrientedOrd.eq_swap
    exact ⟨_, integers_inOrder a b, hswap ▸ integers_inOrder b a⟩
  | strings a b =>
    have hswap : compare b a = (compare a b).swap := Std.OrientedOrd.eq_swap
    exact ⟨_, strings_inOrder a b, hswap ▸ strings_inOrder b a⟩

-- ════════════════════════════════════════════════════════════════════════
-- Operands that a comparison takes
-- ════════════════════════════════════════════════════════════════════════

theorem ordering_ne_aug (hop : op ∈ orderings) : op ≠ aug := by
  rintro rfl
  exact absurd hop (by decide)

theorem equality_ne_aug (hop : op ∈ equalities) : op ≠ aug := by
  rintro rfl
  exact absurd hop (by decide)

/-- The order operators take two integers or two strings. -/
theorem ordering_succeeds_iff (hop : op ∈ orderings) : op.Succeeds v w ↔ v.Ordered w := by
  constructor
  · rintro ⟨r, hr⟩
    rcases kinds_of_apply (ordering_ne_aug hop) hr with
      ⟨a, b, rfl, rfl⟩ | ⟨a, b, rfl, rfl⟩ | ⟨a, b, rfl, rfl, htruths⟩
    · exact .integers a b
    · exact .strings a b
    · simp only [orderings, List.mem_cons, List.not_mem_nil, or_false] at hop
      rcases hop with rfl | rfl | rfl | rfl <;> cases htruths
  · intro h
    obtain ⟨o, ho, -⟩ := exists_inOrder h
    exact ⟨_, ho op (List.mem_append_left _ hop)⟩

/-- On truth values the equality operators tell whether these are the same. -/
theorem equality_truths (hop : op ∈ equalities) (a b : Bool) :
    op.apply (.truth a : Value Code) (.truth b) = .ok (.truth (decide (op = eq) == (a == b))) := by
  simp only [equalities, List.mem_cons, List.not_mem_nil, or_false] at hop
  rcases hop with rfl | rfl <;> cases a <;> cases b <;> rfl

/-- The equality operators take two integers, two strings or two truth values. -/
theorem equality_succeeds_iff (hop : op ∈ equalities) : op.Succeeds v w ↔ v.Comparable w := by
  constructor
  · rintro ⟨r, hr⟩
    rcases kinds_of_apply (equality_ne_aug hop) hr with
      ⟨a, b, rfl, rfl⟩ | ⟨a, b, rfl, rfl⟩ | ⟨a, b, rfl, rfl, -⟩
    · exact .ordered (.integers a b)
    · exact .ordered (.strings a b)
    · exact .truths a b
  · intro h
    cases h with
    | ordered h =>
      obtain ⟨o, ho, -⟩ := exists_inOrder h
      exact ⟨_, ho op (List.mem_append_right _ hop)⟩
    | truths a b => exact ⟨_, equality_truths hop a b⟩

/-- A comparison answers a truth value. -/
theorem comparison_truth (hop : op ∈ orderings ++ equalities) {r : Value Code}
    (h : op.apply v w = .ok r) : ∃ b, r = .truth b := by
  have hordered : v.Ordered w → ∃ b, r = .truth b := by
    intro hvw
    obtain ⟨o, ho, -⟩ := exists_inOrder hvw
    exact ⟨_, Except.ok.inj (h.symm.trans (ho op hop))⟩
  rcases List.mem_append.1 hop with hop | hop
  · exact hordered ((ordering_succeeds_iff hop).1 ⟨r, h⟩)
  · cases (equality_succeeds_iff hop).1 ⟨r, h⟩ with
    | ordered hvw => exact hordered hvw
    | truths a b => exact ⟨_, Except.ok.inj (h.symm.trans (equality_truths hop a b))⟩

-- ════════════════════════════════════════════════════════════════════════
-- One order
-- ════════════════════════════════════════════════════════════════════════

theorem InOrder.answers_iff {o : Ordering} (h : InOrder v w o)
    (hop : op ∈ orderings ++ equalities) {b : Bool} : op.Answers v w b ↔ op.decides o = b := by
  rw [Answers, h op hop, Except.ok.injEq, Value.truth.injEq]

/-- Two order operators of which one says in every order the opposite of the other. -/
theorem opposite {op' : BinaryOp} (hop : op ∈ orderings) (hop' : op' ∈ orderings)
    (hdecides : ∀ o, op.decides o = !op'.decides o) (v w : Value Code) (b : Bool) :
    op.Answers v w b ↔ op'.Answers v w !b := by
  have hordered : v.Ordered w → (op.Answers v w b ↔ op'.Answers v w !b) := by
    intro h
    obtain ⟨o, ho, -⟩ := exists_inOrder h
    rw [ho.answers_iff (List.mem_append_left _ hop), ho.answers_iff (List.mem_append_left _ hop'),
      hdecides]
    cases op'.decides o <;> cases b <;> decide
  constructor
  · exact fun hb => (hordered ((ordering_succeeds_iff hop).1 ⟨_, hb⟩)).1 hb
  · exact fun hb => (hordered ((ordering_succeeds_iff hop').1 ⟨_, hb⟩)).2 hb

/-- Two order operators of which one says in every order what the other says in the opposite one. -/
theorem exchanged {op' : BinaryOp} (hop : op ∈ orderings) (hop' : op' ∈ orderings)
    (hdecides : ∀ o, op.decides o.swap = op'.decides o) (v w : Value Code) (b : Bool) :
    op.Answers w v b ↔ op'.Answers v w b := by
  have hordered : v.Ordered w → (op.Answers w v b ↔ op'.Answers v w b) := by
    intro h
    obtain ⟨o, ho, hswap⟩ := exists_inOrder h
    rw [ho.answers_iff (List.mem_append_left _ hop'),
      hswap.answers_iff (List.mem_append_left _ hop), hdecides]
  constructor
  · exact fun hb => (hordered ((ordering_succeeds_iff hop).1 ⟨_, hb⟩).symm).1 hb
  · exact fun hb => (hordered ((ordering_succeeds_iff hop').1 ⟨_, hb⟩)).2 hb

theorem eq_answers_true_iff (h : v.Comparable w) : eq.Answers v w true ↔ v = w := by
  cases h with
  | ordered h =>
    cases h with
    | integers x y =>
      rw [(integers_inOrder x y).answers_iff (by decide), decides, decide_eq_true_iff,
        compare_eq_iff_eq, Int64.toInt_inj, Value.integer.injEq]
    | strings x y =>
      rw [(strings_inOrder x y).answers_iff (by decide), decides, decide_eq_true_iff,
        compare_eq_iff_eq, Value.string.injEq]
  | truths x y =>
    rw [Answers, equality_truths (by decide), Value.truth.injEq]
    cases x <;> cases y <;> simp

theorem ne_answers_iff (h : v.Comparable w) (b : Bool) : ne.Answers v w b ↔ eq.Answers v w !b := by
  cases h with
  | ordered h =>
    obtain ⟨o, ho, -⟩ := exists_inOrder h
    rw [ho.answers_iff (by decide), ho.answers_iff (by decide)]
    cases o <;> cases b <;> decide
  | truths x y =>
    rw [Answers, Answers, equality_truths (by decide), equality_truths (by decide)]
    cases x <;> cases y <;> cases b <;> simp

theorem coherent (v w : Value Code) : Coherent v w where
  exclusive h := by
    obtain ⟨o, ho, -⟩ := exists_inOrder h
    have hls : ls ∈ orderings ++ equalities := by decide
    have heq : eq ∈ orderings ++ equalities := by decide
    have hgr : gr ∈ orderings ++ equalities := by decide
    simp only [ho.answers_iff hls, ho.answers_iff heq, ho.answers_iff hgr]
    cases o <;> decide
  le_not_gr := opposite (by decide) (by decide) (fun o => by cases o <;> rfl) v w
  ge_not_ls := opposite (by decide) (by decide) (fun o => by cases o <;> rfl) v w
  ne_not_eq b := by
    constructor
    · exact fun h => (ne_answers_iff ((equality_succeeds_iff (by decide)).1 ⟨_, h⟩) b).1 h
    · exact fun h => (ne_answers_iff ((equality_succeeds_iff (by decide)).1 ⟨_, h⟩) b).2 h
  ls_swap := exchanged (by decide) (by decide) (fun o => by cases o <;> rfl) v w
  le_swap := exchanged (by decide) (by decide) (fun o => by cases o <;> rfl) v w
  eq_same := eq_answers_true_iff

theorem ls_integers_iff (a b : Integer) :
    ls.Answers (.integer a : Value Code) (.integer b) true ↔ a.toInt < b.toInt := by
  rw [(integers_inOrder a b).answers_iff (by decide), decides, decide_eq_true_iff,
    compare_lt_iff_lt]

theorem ls_strings_iff (a b : String) :
    ls.Answers (.string a : Value Code) (.string b) true ↔ a < b := by
  rw [(strings_inOrder a b).answers_iff (by decide), decides, decide_eq_true_iff,
    compare_lt_iff_lt]

theorem ls_trans (huv : ls.Answers u v true) (hvw : ls.Answers v w true) : ls.Answers u w true := by
  cases (ordering_succeeds_iff (by decide)).1 ⟨_, huv⟩ with
  | integers a b =>
    cases (ordering_succeeds_iff (by decide)).1 ⟨_, hvw⟩ with
    | integers _ c =>
      rw [ls_integers_iff] at huv hvw ⊢
      exact Int.lt_trans huv hvw
  | strings a b =>
    cases (ordering_succeeds_iff (by decide)).1 ⟨_, hvw⟩ with
    | strings _ c =>
      rw [ls_strings_iff] at huv hvw ⊢
      exact lt_trans huv hvw

/-- **The comparisons form one order.** The order operators take two integers or two strings, the
equality operators also two truth values, and all answer truth values. Of "less", "equal" and
"greater" exactly one holds of two integers or strings, and the other three are their opposites;
"less" is "greater" with the operands exchanged, and is transitive. Integers are ordered by number
and strings by the bytes that encode them, or by their scalar values, which is the same. -/
theorem comparisons_coherent :
    (∀ v w : Value Code,
      (∀ op ∈ orderings, op.Succeeds v w ↔ v.Ordered w) ∧
      (∀ op ∈ equalities, op.Succeeds v w ↔ v.Comparable w) ∧
      (∀ op ∈ orderings ++ equalities, ∀ r, op.apply v w = .ok r → ∃ b, r = .truth b) ∧
      Coherent v w) ∧
    (∀ u v w : Value Code, ls.Answers u v true → ls.Answers v w true → ls.Answers u w true) ∧
    (∀ a b : Integer,
      ls.Answers (.integer a : Value Code) (.integer b) true ↔ a.toInt < b.toInt) ∧
    ∀ a b : String,
      (ls.Answers (.string a : Value Code) (.string b) true ↔ Utf8.bytes a < Utf8.bytes b) ∧
      (Utf8.bytes a < Utf8.bytes b ↔ Utf8.scalars a < Utf8.scalars b) := by
  refine ⟨fun v w => ⟨fun _ => ordering_succeeds_iff, fun _ => equality_succeeds_iff,
    fun _ hop _ => comparison_truth hop, coherent v w⟩, fun _ _ _ => ls_trans, ls_integers_iff,
    fun a b => ⟨?_, ?_⟩⟩
  · rw [ls_strings_iff, Utf8.bytes_lt_iff]
  · rw [Utf8.bytes_lt_iff, Utf8.scalars_lt_iff]

/-- The order is not that of UTF-16, in which the second of these characters starts lower. -/
theorem comparisons_coherent_supplementary :
    ls.Answers (.string "a\uffff" : Value) (.string "a😀b") true ∧
      eq.Answers (.string "a\uffff" : Value) (.string "a😀b") false ∧
      gr.Answers (.string "a😀b" : Value) (.string "a\uffff") true ∧
      ¬ ls.Succeeds (.string "a" : Value) (.integer 1) := by
  obtain ⟨hpairs, -, -, hstrings⟩ := @comparisons_coherent ControlId
  obtain ⟨-, -, -, hcoherent⟩ := hpairs (.string "a\uffff") (.string "a😀b")
  obtain ⟨-, -, -, hcoherent'⟩ := hpairs (.string "a😀b") (.string "a\uffff")
  have hls := (hstrings "a\uffff" "a😀b").1.2 (by decide)
  have heq : eq.Answers (.string "a\uffff" : Value) (.string "a😀b") false := by
    rcases hcoherent.exclusive (.strings _ _) with ⟨-, h, -⟩ | ⟨h, -, -⟩ | ⟨-, h, -⟩
    · exact h
    · cases hls.symm.trans h
    · exact h
  refine ⟨hls, heq, (hcoherent'.ls_swap true).1 hls, fun h => ?_⟩
  cases ((hpairs (.string "a") (.integer 1)).1 ls (by decide)).1 h

end BinaryOp

end EagerLambda
