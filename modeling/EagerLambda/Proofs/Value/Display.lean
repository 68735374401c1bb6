import EagerLambda.Printer
import EagerLambda.Proofs.Value.Relation

/-!
# The text of data

Values without strings and functions are shown without ambiguity: their text determines them. An
integer, a truth value, `dummy` or the empty tuple is shown as a single word, every other tuple
starts with a parenthesis, and no value is followed by a character that a word could go on with. So
text that starts with a value starts with only one, and what comes after it is determined as well.
This also holds of lines, and the output of a run that prints data only determines what it prints.

## Main definitions

- `Value.Data` — values of integers, truth values, `dummy` and tuples
- `Value.chars` — the text of a value as a list of characters
- `Value.Delimited` — text that no word goes on with

## Main statements

- `Value.chars_append_inj` — text starts with one value only
- `Value.data_unambiguous` — the text of data determines the data
-/

namespace EagerLambda

namespace Value

/-- Values of integers, truth values, `dummy` and tuples of such values. -/
inductive Data : Value → Prop
  | integer (n : Integer) : Data (.integer n)
  | truth (b : Bool) : Data (.truth b)
  | dummy : Data .dummy
  | tuple {vs : List Value} : (∀ v ∈ vs, Data v) → Data (.tuple vs)

/-- The text of a value, character by character. -/
def chars (names : NameTable) (v : Value) : List Char := (v.display names).toList

/-- The texts of components after the first, each after a comma. -/
def restChars (names : NameTable) (vs : List Value) : List Char :=
  vs.flatMap fun v => ',' :: ' ' :: v.chars names

variable {names names' : NameTable} {v w : Value} {vs ws : List Value} {r s xs ys : List Char}

-- ════════════════════════════════════════════════════════════════════════
-- Text by constructors
-- ════════════════════════════════════════════════════════════════════════

theorem toList_writeRest
    (ih : ∀ v ∈ vs, ∀ out, (write names out v).toList = out.toList ++ v.chars names)
    (out : String) : (writeRest names out vs).toList = out.toList ++ restChars names vs := by
  induction vs generalizing out with
  | nil => rw [writeRest, restChars, List.flatMap_nil, List.append_nil]
  | cons v vs ihs =>
    rw [List.forall_mem_cons] at ih
    rw [writeRest, ihs ih.2, ih.1, String.toList_append, restChars, restChars, List.flatMap_cons]
    simp

theorem toList_writeTuple {first : Value} {rest : List Value}
    (hfirst : ∀ out, (write names out first).toList = out.toList ++ first.chars names)
    (hrest : ∀ v ∈ rest, ∀ out, (write names out v).toList = out.toList ++ v.chars names)
    (out : String) : (write names out (tuple (first :: rest))).toList =
      out.toList ++ '(' :: (first.chars names ++ (restChars names rest ++ [')'])) := by
  rw [write, String.toList_append, toList_writeRest hrest, hfirst, String.toList_append]
  simp

/-- A value is appended to what was written before. -/
theorem toList_write (names : NameTable) (v : Value) (out : String) :
    (write names out v).toList = out.toList ++ v.chars names := by
  induction v using parts_induction generalizing out with
  | tuple vs ih =>
    cases vs with
    | nil => simp [chars, display, write]
    | cons first rest =>
      rw [List.forall_mem_cons] at ih
      have hwrite := toList_writeTuple ih.1 ih.2
      exact (hwrite out).trans (congrArg (out.toList ++ ·) (hwrite "").symm)
  | truth b => cases b <;> simp [chars, display, write]
  | _ => simp [chars, display, write]

theorem chars_tuple (names : NameTable) (first : Value) (rest : List Value) :
    (tuple (first :: rest)).chars names =
      '(' :: (first.chars names ++ (restChars names rest ++ [')'])) :=
  toList_writeTuple (toList_write names first) (fun v _ => toList_write names v) ""

-- ════════════════════════════════════════════════════════════════════════
-- Words
-- ════════════════════════════════════════════════════════════════════════

/-- The data that is not a number and shown as a single word, with this word. -/
def keywords : List (List Char × Value) :=
  [(['t', 'r', 'u', 'e'], .truth true), (['f', 'a', 'l', 's', 'e'], .truth false),
    (['d', 'u', 'm', 'm', 'y'], .dummy), (['n', 'i', 'l'], .tuple [])]

/-- Data that is shown as a single word, with this word. -/
inductive Word : List Char → Value → Prop
  | integer (n : Integer) : Word n.text.toList (.integer n)
  | keyword {word : List Char} {v : Value} : (word, v) ∈ keywords → Word word v

/-- The characters of words. -/
def isWordChar (c : Char) : Bool := c.isAlphanum || c = '-'

/-- The text is empty or starts with a character that no word has. -/
def Delimited (text : List Char) : Prop := ∀ c ∈ text.head?, isWordChar c = false

/-- Data is shown as a word or is a tuple of a first component and others. -/
theorem Data.induction {P : ∀ v : Value, v.Data → Prop}
    (word : ∀ {word : List Char} {v : Value} (hv : v.Data), Word word v → P v hv)
    (tuple : ∀ {first : Value} {rest : List Value} (hfirst : first.Data)
      (hrest : ∀ v ∈ rest, v.Data) (hv : (Value.tuple (first :: rest)).Data), P first hfirst →
      (∀ v (hv : v ∈ rest), P v (hrest v hv)) → P (.tuple (first :: rest)) hv)
    (hv : v.Data) : P v hv := by
  have hkeyword : ∀ (text : List Char) {v : Value} (hv : v.Data), (text, v) ∈ keywords → P v hv :=
    fun _ _ hv h => word hv (.keyword h)
  induction hv with
  | integer n => exact word _ (.integer n)
  | truth b =>
    cases b with
    | true => exact hkeyword ['t', 'r', 'u', 'e'] _ (by simp [keywords])
    | false => exact hkeyword ['f', 'a', 'l', 's', 'e'] _ (by simp [keywords])
  | dummy => exact hkeyword ['d', 'u', 'm', 'm', 'y'] _ (by simp [keywords])
  | @tuple vs hvs ih =>
    cases vs with
    | nil => exact hkeyword ['n', 'i', 'l'] _ (by simp [keywords])
    | cons first rest =>
      exact tuple (hvs first List.mem_cons_self) (fun v hv => hvs v (List.mem_cons_of_mem _ hv)) _
        (ih first List.mem_cons_self) fun v hv => ih v (List.mem_cons_of_mem _ hv)

theorem toList_repr (k : Nat) : k.repr.toList = Nat.toDigits 10 k := by
  rw [Nat.repr_eq_ofList_toDigits, String.toList_ofList]

theorem isDigit_of_mem {k : Nat} {c : Char} (h : c ∈ Nat.toDigits 10 k) : c.isDigit = true :=
  Nat.isDigit_of_mem_toDigits (by decide) (by decide) h

theorem toDigits_inj {k l : Nat} (h : Nat.toDigits 10 k = Nat.toDigits 10 l) : k = l := by
  rw [← @Nat.ofDigitChars_ten_toDigits k, h, Nat.ofDigitChars_ten_toDigits]

/-- An integer is shown by its digits, after a minus sign if it is negative. -/
theorem text_eq (n : Integer) : ∃ k : Nat,
    (n.toInt = k ∧ n.text.toList = Nat.toDigits 10 k) ∨
      (n.toInt = -k ∧ n.text.toList = '-' :: Nat.toDigits 10 k) := by
  have htext : n.text = n.toInt.repr := rfl
  rw [htext, Int.repr_eq_if]
  split
  · exact ⟨n.toInt.toNat, .inl ⟨by omega, toList_repr _⟩⟩
  · refine ⟨(-n.toInt).toNat, .inr ⟨by omega, ?_⟩⟩
    rw [String.toList_append, toList_repr]
    rfl

theorem text_chars (n : Integer) : ∀ c ∈ n.text.toList, c.isDigit = true ∨ c = '-' := by
  obtain ⟨k, ⟨-, hk⟩ | ⟨-, hk⟩⟩ := text_eq n
  · exact fun c hc => .inl (isDigit_of_mem (hk ▸ hc))
  · intro c hc
    rw [hk] at hc
    rcases List.mem_cons.1 hc with rfl | hc
    · exact .inr rfl
    · exact .inl (isDigit_of_mem hc)

theorem text_ne_nil (n : Integer) : n.text.toList ≠ [] := by
  obtain ⟨k, ⟨-, hk⟩ | ⟨-, hk⟩⟩ := text_eq n
  · exact hk ▸ Nat.toDigits_ne_nil
  · exact hk ▸ List.cons_ne_nil _ _

/-- Digits do not start with a minus sign. -/
theorem toDigits_ne_minus {k : Nat} {rest : List Char} : Nat.toDigits 10 k ≠ '-' :: rest := by
  intro h
  have hminus : '-' ∈ Nat.toDigits 10 k := h ▸ List.mem_cons_self
  exact absurd (isDigit_of_mem hminus) (by decide)

theorem text_inj {m n : Integer} (h : m.text.toList = n.text.toList) : m = n := by
  obtain ⟨k, ⟨hm, hk⟩ | ⟨hm, hk⟩⟩ := text_eq m <;>
    obtain ⟨l, ⟨hn, hl⟩ | ⟨hn, hl⟩⟩ := text_eq n <;> rw [hk, hl] at h
  · exact Int64.toInt_inj.1 (by rw [hm, hn, toDigits_inj h])
  · exact absurd h toDigits_ne_minus
  · exact absurd h.symm toDigits_ne_minus
  · exact Int64.toInt_inj.1 (by rw [hm, hn, toDigits_inj (List.cons.inj h).2])

/-- An integer is not shown by a word with a letter in it. -/
theorem text_ne_keyword (n : Integer) {word : List Char} (h : (word, v) ∈ keywords) :
    n.text.toList ≠ word := by
  have hletter : ∀ entry ∈ keywords, ∃ c ∈ entry.1, c.isDigit = false ∧ c ≠ '-' := by
    simp [keywords]
  obtain ⟨c, hc, hdigit, hminus⟩ := hletter _ h
  rintro rfl
  rcases text_chars n c hc with hc | rfl
  · cases hdigit.symm.trans hc
  · exact hminus rfl

namespace Word

variable {word word' : List Char}

theorem chars_eq (h : Word word v) (names : NameTable) : v.chars names = word := by
  cases h with
  | integer n => simp [chars, display, write]
  | keyword h =>
    simp only [keywords, List.mem_cons, List.not_mem_nil, or_false, Prod.mk.injEq] at h
    rcases h with ⟨rfl, rfl⟩ | ⟨rfl, rfl⟩ | ⟨rfl, rfl⟩ | ⟨rfl, rfl⟩ <;>
      simp [chars, display, write]

theorem isWordChar (h : Word word v) : ∀ c ∈ word, isWordChar c = true := by
  cases h with
  | integer n =>
    intro c hc
    rcases text_chars n c hc with hdigit | rfl
    · simp [Value.isWordChar, Char.isAlphanum, hdigit]
    · rfl
  | keyword h =>
    have hkeywords : ∀ entry ∈ keywords, ∀ c ∈ entry.1, Value.isWordChar c = true := by
      simp [keywords, Value.isWordChar]
    exact hkeywords _ h

theorem ne_nil (h : Word word v) : word ≠ [] := by
  cases h with
  | integer n => exact text_ne_nil n
  | keyword h =>
    have hkeywords : ∀ entry ∈ keywords, entry.1 ≠ [] := by decide
    exact hkeywords _ h

/-- A word stands for one value. -/
theorem unique (hv : Word word v) (hw : Word word' w) (h : word = word') : v = w := by
  cases hv with
  | integer n =>
    cases hw with
    | integer m => rw [text_inj h]
    | keyword hw => exact absurd h (text_ne_keyword n hw)
  | keyword hv =>
    cases hw with
    | integer n => exact absurd h.symm (text_ne_keyword n hv)
    | keyword hw =>
      have hkeywords : ∀ entry ∈ keywords, ∀ entry' ∈ keywords, entry.1 = entry'.1 →
          entry.2 = entry'.2 := by decide
      exact hkeywords _ hv _ hw h

end Word

/-- Where two texts that start with words are the same, the words are, if both are delimited. -/
theorem words_append_inj (hxs : ∀ c ∈ xs, isWordChar c = true)
    (hys : ∀ c ∈ ys, isWordChar c = true) (hr : Delimited r) (hs : Delimited s)
    (h : xs ++ r = ys ++ s) : xs = ys ∧ r = s := by
  have hfirst : ∀ {c : Char} {more rest : List Char}, isWordChar c = true → Delimited rest →
      rest ≠ c :: more := by
    rintro c more rest hc hrest rfl
    cases hc.symm.trans (hrest c rfl)
  induction xs generalizing ys with
  | nil =>
    cases ys with
    | nil => exact ⟨rfl, h⟩
    | cons y ys => exact absurd h (hfirst (hys y List.mem_cons_self) hr)
  | cons x xs ih =>
    cases ys with
    | nil => exact absurd h.symm (hfirst (hxs x List.mem_cons_self) hs)
    | cons y ys =>
      rw [List.forall_mem_cons] at hxs hys
      obtain ⟨rfl, hmore⟩ := List.cons.inj h
      obtain ⟨rfl, hafter⟩ := ih hxs.2 hys.2 hmore
      exact ⟨rfl, hafter⟩

-- ════════════════════════════════════════════════════════════════════════
-- Tuples
-- ════════════════════════════════════════════════════════════════════════

/-- The text of a word does not start like that of a tuple. -/
theorem Word.append_ne {word : List Char} (h : Word word v) (r s : List Char) :
    word ++ r ≠ '(' :: s := by
  intro heq
  cases word with
  | nil => exact h.ne_nil rfl
  | cons c rest =>
    obtain ⟨rfl, -⟩ := List.cons.inj heq
    exact absurd (h.isWordChar _ List.mem_cons_self) (by decide)

theorem delimited_rest (names : NameTable) (vs : List Value) (r : List Char) :
    Delimited (restChars names vs ++ ([')'] ++ r)) := by
  intro c hc
  cases vs with
  | nil =>
    cases hc
    rfl
  | cons v vs =>
    cases hc
    rfl

/-- The components of a tuple are determined by their text if each is by its own. -/
theorem restChars_append_inj
    (ih : ∀ v ∈ vs, ∀ {w : Value} {r s : List Char}, w.Data → Delimited r → Delimited s →
      v.chars names ++ r = w.chars names' ++ s → v = w ∧ r = s)
    (hws : ∀ w ∈ ws, w.Data)
    (h : restChars names vs ++ ([')'] ++ r) = restChars names' ws ++ ([')'] ++ s)) :
    vs = ws ∧ r = s := by
  induction vs generalizing ws with
  | nil =>
    cases ws with
    | nil => exact ⟨rfl, (List.cons.inj h).2⟩
    | cons w ws => exact absurd (List.cons.inj h).1 (by decide)
  | cons v vs ihs =>
    cases ws with
    | nil => exact absurd (List.cons.inj h).1 (by decide)
    | cons w ws =>
      rw [List.forall_mem_cons] at ih hws
      simp only [restChars, List.flatMap_cons, List.cons_append, List.append_assoc,
        List.cons.injEq, true_and] at h
      obtain ⟨rfl, hrest⟩ := ih.1 hws.1 (delimited_rest names vs r) (delimited_rest names' ws s) h
      obtain ⟨rfl, hafter⟩ := ihs ih.2 hws.2 hrest
      exact ⟨rfl, hafter⟩

/-- Text that starts with a word, or with data after it, starts with one value only. -/
theorem Word.append_inj {word : List Char} (hv : Word word v) (hw : w.Data) (hr : Delimited r)
    (hs : Delimited s) (h : v.chars names ++ r = w.chars names' ++ s) : v = w ∧ r = s := by
  induction hw using Data.induction with
  | word _ hw =>
    rw [hv.chars_eq, hw.chars_eq] at h
    obtain ⟨hwords, hafter⟩ := words_append_inj hv.isWordChar hw.isWordChar hr hs h
    exact ⟨hv.unique hw hwords, hafter⟩
  | tuple =>
    rw [hv.chars_eq, chars_tuple] at h
    exact absurd h (hv.append_ne _ _)

/-- Text that starts with data starts with one value only. -/
theorem chars_append_inj (hv : v.Data) (hw : w.Data) (hr : Delimited r) (hs : Delimited s)
    (h : v.chars names ++ r = w.chars names' ++ s) : v = w ∧ r = s := by
  induction hv using Data.induction generalizing w r s with
  | word _ hv => exact hv.append_inj hw hr hs h
  | @tuple first rest _ _ hv ihfirst ihrest =>
    induction hw using Data.induction with
    | word _ hw =>
      obtain ⟨heq, hafter⟩ := hw.append_inj hv hs hr h.symm
      exact ⟨heq.symm, hafter.symm⟩
    | @tuple first' rest' hfirst' hrest' =>
      simp only [chars_tuple, List.cons_append, List.append_assoc, List.cons.injEq, true_and] at h
      -- After the first component comes a comma or the closing parenthesis, not the rest of a word.
      obtain ⟨rfl, hrests⟩ :=
        ihfirst hfirst' (delimited_rest names rest r) (delimited_rest names' rest' s) h
      obtain ⟨rfl, hafter⟩ := restChars_append_inj ihrest hrest' hrests
      exact ⟨rfl, hafter⟩

/-- Data is shown in the same way with any names. -/
theorem Data.chars_eq (hv : v.Data) (names names' : NameTable) :
    v.chars names = v.chars names' := by
  induction hv using Data.induction with
  | word _ hword => rw [hword.chars_eq, hword.chars_eq]
  | tuple _ _ _ ihfirst ihrest =>
    rw [chars_tuple, chars_tuple, ihfirst, restChars, restChars,
      List.flatMap_congr fun v hv => by rw [ihrest v hv]]

-- ════════════════════════════════════════════════════════════════════════
-- Lines
-- ════════════════════════════════════════════════════════════════════════

/-- The texts of values, each on a line of its own. -/
def lineChars (names : NameTable) (vs : List Value) : List Char :=
  vs.flatMap fun v => v.chars names ++ ['\n']

theorem toList_printValues (names : NameTable) (vs : List Value) (kept : String) :
    ((Printer.buffer kept).printValues names vs).output.toList =
      kept.toList ++ lineChars names vs := by
  induction vs generalizing kept with
  | nil => exact (List.append_nil _).symm
  | cons v vs ih =>
    have hline : (Printer.buffer kept).printValues names (v :: vs) =
        (Printer.buffer (kept ++ v.display names ++ "\n")).printValues names vs := rfl
    have htext : (kept ++ v.display names ++ "\n").toList =
        kept.toList ++ (v.chars names ++ ['\n']) := by
      simp only [String.toList_append, List.append_assoc, chars]
      rfl
    rw [hline, ih, htext, List.append_assoc]
    rfl

/-- Lines of data are determined by their text. -/
theorem lineChars_inj (hvs : ∀ v ∈ vs, v.Data) (hws : ∀ w ∈ ws, w.Data)
    (h : lineChars names vs = lineChars names' ws) : vs = ws := by
  have hdelimited : ∀ more, Delimited (['\n'] ++ more) := by
    rintro more c ⟨⟩
    rfl
  induction vs generalizing ws with
  | nil =>
    cases ws with
    | nil => rfl
    | cons w ws => simp [lineChars] at h
  | cons v vs ih =>
    cases ws with
    | nil => simp [lineChars] at h
    | cons w ws =>
      rw [List.forall_mem_cons] at hvs hws
      simp only [lineChars, List.flatMap_cons, List.append_assoc] at h
      obtain ⟨rfl, hlines⟩ := chars_append_inj hvs.1 hws.1 (hdelimited _) (hdelimited _) h
      rw [ih hvs.2 hws.2 (List.append_cancel_left hlines)]

/-- **The text of data determines the data.** Two values of integers, truth values, `dummy` and
tuples, nested to any depth, are shown by the same text only if they are the same value, whatever
names they are shown with. If a buffer is printed to, its output after values of this kind
determines how many there were and which. -/
theorem data_unambiguous (names names' : NameTable) :
    (∀ v w : Value, v.Data → w.Data → (v.display names = w.display names' ↔ v = w)) ∧
    (∀ (kept : String) (vs ws : List Value), (∀ v ∈ vs, v.Data) → (∀ w ∈ ws, w.Data) →
      (((Printer.buffer kept).printValues names vs).output =
        ((Printer.buffer kept).printValues names' ws).output ↔ vs = ws)) := by
  refine ⟨fun v w hv hw => ⟨fun h => ?_, ?_⟩, fun kept vs ws hvs hws => ?_⟩
  · have hchars : v.chars names ++ [] = w.chars names' ++ [] := by rw [chars, chars, h]
    have hnil : Delimited [] := by
      rintro c ⟨⟩
    exact (chars_append_inj hv hw hnil hnil hchars).1
  · rintro rfl
    exact String.toList_inj.1 (hv.chars_eq names names')
  · rw [← String.toList_inj, toList_printValues, toList_printValues, List.append_cancel_left_eq]
    refine ⟨lineChars_inj hvs hws, ?_⟩
    rintro rfl
    exact List.flatMap_congr fun v hv => by rw [(hvs v hv).chars_eq names names']

/-- The pair of -1 and `nil`. -/
def flatPair : Value := .tuple [.integer (-1), .tuple []]

/-- The pair of -1 and the tuple with `nil` as its only component. -/
def nestedPair : Value := .tuple [.integer (-1), .tuple [.tuple []]]

theorem flatPair_data : flatPair.Data := by
  refine .tuple ?_
  simp only [List.forall_mem_cons]
  exact ⟨.integer _, .tuple (by simp), by simp⟩

theorem nestedPair_data : nestedPair.Data := by
  refine .tuple ?_
  simp only [List.forall_mem_cons]
  exact ⟨.integer _, .tuple (by simpa using .tuple (by simp)), by simp⟩

/-- A pair ends in `nil` or in the tuple of `nil`: the texts differ, and so does what is printed
over several lines. -/
theorem data_unambiguous_nested :
    flatPair.display .initial = "(-1, nil)" ∧ nestedPair.display .initial = "(-1, (nil))" ∧
    flatPair.display .initial ≠ nestedPair.display .initial ∧
    ((Printer.buffer "").printValues .initial [flatPair, nestedPair]).output ≠
      ((Printer.buffer "").printValues .initial [nestedPair, flatPair]).output := by
  obtain ⟨hvalues, hlines⟩ := data_unambiguous .initial .initial
  have hne : flatPair ≠ nestedPair := by decide
  have hdata : ∀ v, v = flatPair ∨ v = nestedPair → v.Data := by
    rintro v (rfl | rfl)
    · exact flatPair_data
    · exact nestedPair_data
  refine ⟨by decide +kernel, by decide +kernel, ?_, ?_⟩
  · exact fun h => hne ((hvalues _ _ flatPair_data nestedPair_data).1 h)
  · refine fun h => hne (List.cons.inj ((hlines "" _ _ ?_ ?_).1 h)).1 <;> intro v hv
    · exact hdata v (by simpa using hv)
    · exact hdata v (by simpa [or_comm] using hv)

end Value

end EagerLambda
