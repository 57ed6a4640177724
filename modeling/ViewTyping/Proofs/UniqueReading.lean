import ViewTyping.Proofs.Unfolding

/-!
# Reading rendered expressions back

A diagnostic quotes an expression by its text alone. Where every operator is written with
parentheses (`Expr.Parenthesized`), the text says which expression it is, apart from what is
declared of its columns, which it does not show.

The text is cut into tokens (`Expr.tokens`): columns, quoted strings, constants, and marks whose
text is fixed. Columns and literals are followed by a blank, a comma, a closing parenthesis or
nothing (`Spaced`), so there is one way to cut:

* `word_unique`: a word ends where another character follows.
* `Spaced.kindOf_tail`: this character tells what kind of token begins with the word.
* `quoted_unique`, `constant_unique`, `Mark.text_unique`: a string ends at the quote that is not
  doubled, constants have different texts, and no mark begins with another.
* `Spaced.cut`, `Spaced.unique`: so the first token is determined, and so are all.

The tokens are read back by a machine with a stack of open parentheses (`Reader`). It ends with the
expression that they are from (`read_tokens`), so equal texts are from one expression
(`render_eq_iff`).
-/

set_option autoImplicit false

namespace ViewTyping

/-! ## Words -/

/-- Whether the character may stand in a word: an identifier, a number or the name of a function. -/
def isWordChar (c : Char) : Bool := c.isAlphanum || c == '_' || c == '-'

/-- A letter or an underscore, then letters, digits and underscores. -/
def isIdentifier (s : String) : Bool :=
  match s.toList with
  | [] => false
  | c :: cs => (c.isAlpha || c == '_') && cs.all fun d => d.isAlphanum || d == '_'

def IsWord (s : String) : Prop := ∀ c ∈ s.toList, isWordChar c = true

instance (s : String) : Decidable (IsWord s) :=
  List.decidableBAll (fun c => isWordChar c = true) s.toList

/-- What follows does not go on with a word. -/
def EndsWord (cs : List Char) : Prop := ∀ c, cs.head? = some c → isWordChar c = false

theorem isWord_of_identifier {s : String} (h : isIdentifier s = true) : IsWord s := by
  unfold isIdentifier at h
  intro c hc
  split at h
  · cases h
  · rename_i d ds heq
    rw [heq] at hc
    simp only [Bool.and_eq_true, Bool.or_eq_true, List.all_eq_true, beq_iff_eq] at h
    unfold isWordChar
    rcases List.mem_cons.1 hc with rfl | hc
    · rcases h.1 with hc | rfl
      · simp [Char.isAlphanum, hc]
      · decide
    · rcases h.2 c hc with hc | rfl
      · simp [hc]
      · decide

theorem takeWhile_word {s : String} {cs : List Char} (hs : IsWord s) (hcs : EndsWord cs) :
    (s.toList ++ cs).takeWhile isWordChar = s.toList := by
  rw [List.takeWhile_append_of_pos hs]
  cases cs with
  | nil => exact List.append_nil _
  | cons c cs => rw [List.takeWhile_cons, hcs c rfl, if_neg Bool.false_ne_true, List.append_nil]

/-- **A word ends where another character follows.** -/
theorem word_unique {s s' : String} {cs cs' : List Char} (hs : IsWord s) (hs' : IsWord s')
    (hcs : EndsWord cs) (hcs' : EndsWord cs') (h : s.toList ++ cs = s'.toList ++ cs') :
    s = s' ∧ cs = cs' := by
  have hword := congrArg (List.takeWhile isWordChar) h
  rw [takeWhile_word hs hcs, takeWhile_word hs' hcs', String.toList_inj] at hword
  subst hword
  exact ⟨rfl, List.append_cancel_left h⟩

/-! ## Tokens -/

/-- A part of a text that is the same wherever it stands. -/
inductive Mark where
  /-- The parenthesis before the operands of an operator. -/
  | group
  | call (function : Builtin)
  | existence
  | operator (op : BinaryOp)
  | comma
  | close
  | isNull
  | isNotNull
deriving DecidableEq

namespace Mark

def text : Mark → String
  | group => "("
  | call function => function.symbol ++ "("
  | existence => "EXISTS("
  | operator op => " " ++ op.symbol ++ " "
  | comma => ", "
  | close => ")"
  | isNull => " IS NULL"
  | isNotNull => " IS NOT NULL"

/-- Whether the mark may stand behind an operand. -/
def delimits : Mark → Bool
  | operator _ | comma | close | isNull | isNotNull => true
  | _ => false

def all : List Mark :=
  [group, existence, comma, close, isNull, isNotNull] ++ Builtin.every.map call ++
    BinaryOp.all.map operator

theorem mem_all (m : Mark) : m ∈ all := by
  cases m with
  | call function => cases function <;> decide
  | operator op => cases op <;> decide
  | _ => decide

/-- **No mark begins with another.** -/
theorem text_unique {m m' : Mark} {cs cs' : List Char}
    (h : m.text.toList ++ cs = m'.text.toList ++ cs') : m = m' ∧ cs = cs' := by
  have hfree : ∀ m ∈ all, ∀ m' ∈ all, m.text.toList <+: m'.text.toList → m = m' := by
    decide +kernel
  have hm : m = m' := by
    rcases List.prefix_or_prefix_of_prefix (List.prefix_append _ cs) (h ▸ List.prefix_append _ cs')
      with hp | hp
    · exact hfree m m.mem_all m' m'.mem_all hp
    · exact (hfree m' m'.mem_all m m.mem_all hp).symm
  subst hm
  exact ⟨rfl, List.append_cancel_left h⟩

theorem head_operator (op : BinaryOp) (cs : List Char) :
    ((operator op).text.toList ++ cs).head? = some ' ' := by
  simp [text]

end Mark

/-- What a constant is written as. -/
inductive ConstantForm where
  | int
  | long
  | bool (b : Bool)
  | null
deriving DecidableEq

def Literal.constantForm? : Literal → Option ConstantForm
  | int _ => some .int
  | long _ => some .long
  | bool b => some (.bool b)
  | null => some .null
  | string _ | float _ => none

inductive Token where
  | column (table name : String)
  | quoted (s : String)
  /-- A number, a truth value or `NULL`. -/
  | constant (value : Literal)
  | mark (m : Mark)

namespace Token

/-- The word at the beginning of the token's text. -/
def word : Token → String
  | column table _ => table
  | constant value => value.render
  | mark (.call function) => function.symbol
  | mark .existence => "EXISTS"
  | _ => ""

/-- The text behind that word. -/
def tail : Token → String
  | column _ name => "." ++ name
  | quoted s => quoteText s
  | constant _ => ""
  | mark (.call _) => "("
  | mark .existence => "("
  | mark m => m.text

def text (t : Token) : List Char := t.word.toList ++ t.tail.toList

theorem text_mark (m : Mark) : (mark m).text = m.text.toList := by
  cases m with
  | call function => exact String.toList_append.symm
  | _ => rfl

end Token

def texts (ts : List Token) : List Char := ts.flatMap Token.text

@[simp] theorem texts_nil : texts [] = [] := rfl

theorem texts_cons (t : Token) (ts : List Token) :
    texts (t :: ts) = t.word.toList ++ (t.tail.toList ++ texts ts) := by
  rw [texts, List.flatMap_cons, Token.text, List.append_assoc]
  rfl

@[simp] theorem texts_append (ts ts' : List Token) : texts (ts ++ ts') = texts ts ++ texts ts' :=
  List.flatMap_append

@[simp] theorem texts_mark (m : Mark) (ts : List Token) :
    texts (.mark m :: ts) = m.text.toList ++ texts ts := by
  rw [texts, List.flatMap_cons, Token.text_mark]
  rfl

/-- The tokens end, or go on with a mark that may stand behind an operand. -/
def Delimited : List Token → Prop
  | [] => True
  | .mark m :: _ => m.delimits = true
  | _ => False

/-- Tokens of which each operand is followed by a mark or by nothing. -/
inductive Spaced : List Token → Prop
  | nil : Spaced []
  | column {table name : String} {ts : List Token} : isIdentifier table = true →
      isIdentifier name = true → Delimited ts → Spaced ts → Spaced (.column table name :: ts)
  | quoted {s : String} {ts : List Token} : Delimited ts → Spaced ts → Spaced (.quoted s :: ts)
  | constant {value : Literal} {ts : List Token} : value.constantForm?.isSome = true →
      Delimited ts → Spaced ts → Spaced (.constant value :: ts)
  | mark {m : Mark} {ts : List Token} : Spaced ts → Spaced (.mark m :: ts)

namespace Delimited

variable {ts : List Token}

theorem head_eq (h : Delimited ts) {c : Char} (hc : (texts ts).head? = some c) :
    c = ' ' ∨ c = ',' ∨ c = ')' := by
  match ts, h with
  | [], _ => cases hc
  | .mark m :: ts, h =>
    rw [texts_mark] at hc
    cases m with
    | operator op =>
      rw [Mark.head_operator] at hc
      cases hc
      decide
    | group => cases h
    | call function => cases h
    | existence => cases h
    | comma => cases hc; decide
    | close => cases hc; decide
    | isNull => cases hc; decide
    | isNotNull => cases hc; decide

theorem endsWord (h : Delimited ts) : EndsWord (texts ts) := by
  intro c hc
  rcases h.head_eq hc with rfl | rfl | rfl <;> decide

theorem head_ne_quote (h : Delimited ts) : (texts ts).head? ≠ some '\'' := by
  intro hc
  rcases h.head_eq hc with hc | hc | hc <;> exact absurd hc (by decide)

end Delimited

/-! ### Strings -/

/-- The characters of a string as they are written between quotes. -/
def doubled (cs : List Char) : List Char :=
  cs.flatMap fun c => if c = '\'' then ['\'', '\''] else [c]

theorem doubled_cons (c : Char) (cs : List Char) :
    doubled (c :: cs) = (if c = '\'' then ['\'', '\''] else [c]) ++ doubled cs :=
  List.flatMap_cons

theorem toList_quoteText (s : String) :
    (quoteText s).toList = '\'' :: (doubled s.toList ++ ['\'']) := by
  simp [quoteText, doubled]

theorem doubled_unique : ∀ {l l' cs cs' : List Char}, cs.head? ≠ some '\'' →
    cs'.head? ≠ some '\'' → doubled l ++ '\'' :: cs = doubled l' ++ '\'' :: cs' →
    l = l' ∧ cs = cs'
  | [], [], _, _, _, _, h => ⟨rfl, (List.cons.inj h).2⟩
  | [], d :: l', cs, cs', hcs, _, h => by
    rw [doubled_cons] at h
    by_cases hd : d = '\''
    · rw [if_pos hd] at h
      exact absurd (congrArg List.head? (List.cons.inj h).2) hcs
    · rw [if_neg hd] at h
      exact absurd (List.cons.inj h).1.symm hd
  | c :: l, [], cs, cs', _, hcs', h => by
    rw [doubled_cons] at h
    by_cases hc : c = '\''
    · rw [if_pos hc] at h
      exact absurd (congrArg List.head? (List.cons.inj h).2.symm) hcs'
    · rw [if_neg hc] at h
      exact absurd (List.cons.inj h).1 hc
  | c :: l, d :: l', cs, cs', hcs, hcs', h => by
    have hstep : c = d ∧ doubled l ++ '\'' :: cs = doubled l' ++ '\'' :: cs' := by
      rw [doubled_cons, doubled_cons] at h
      by_cases hc : c = '\'' <;> by_cases hd : d = '\''
      · simpa [hc, hd] using h
      · simp [hc, hd, Ne.symm hd] at h
      · simp [hc, hd] at h
      · simpa [hc, hd] using h
    obtain ⟨hl, hrest⟩ := doubled_unique hcs hcs' hstep.2
    exact ⟨by rw [hstep.1, hl], hrest⟩

/-- **A string ends at the quote that is not doubled.** -/
theorem quoted_unique {s s' : String} {cs cs' : List Char} (hcs : cs.head? ≠ some '\'')
    (hcs' : cs'.head? ≠ some '\'')
    (h : (quoteText s).toList ++ cs = (quoteText s').toList ++ cs') : s = s' ∧ cs = cs' := by
  simp only [toList_quoteText, List.cons_append, List.append_assoc, List.nil_append,
    List.cons.injEq, true_and] at h
  obtain ⟨hs, hrest⟩ := doubled_unique hcs hcs' h
  exact ⟨String.toList_inj.1 hs, hrest⟩

/-! ### Constants -/

/-- A number is written as a sign, if it has one, and digits. -/
theorem toList_toString (n : Int) :
    (toString n).toList = (if n < 0 then ['-'] else []) ++ Nat.toDigits 10 n.natAbs := by
  have hdigits (m : Nat) : (Nat.repr m).toList = Nat.toDigits 10 m := by
    rw [Nat.repr_eq_ofList_toDigits, String.toList_ofList]
  cases n with
  | ofNat m => exact hdigits m
  | negSucc m =>
    show ("-" ++ Nat.repr (m + 1)).toList = _
    rw [String.toList_append, hdigits, if_pos (Int.negSucc_lt_zero m)]
    rfl

theorem mem_toString {n : Int} {c : Char} (h : c ∈ (toString n).toList) :
    c.isDigit = true ∨ c = '-' := by
  rw [toList_toString] at h
  rcases List.mem_append.1 h with h | h
  · split at h
    · exact .inr (List.mem_singleton.1 h)
    · cases h
  · exact .inl (Nat.isDigit_of_mem_toDigits (by decide) (by decide) h)

theorem toString_ne_nil (n : Int) : (toString n).toList ≠ [] := by
  rw [toList_toString]
  exact List.append_ne_nil_of_right_ne_nil _ Nat.toDigits_ne_nil

/-- Only a negative number begins with a sign, and the digits tell the number. -/
theorem toString_inj {m n : Int} (h : toString m = toString n) : m = n := by
  have hsign (k : Nat) (cs : List Char) : '-' :: cs ≠ Nat.toDigits 10 k := by
    intro heq
    have hdash : '-' ∈ Nat.toDigits 10 k := heq ▸ List.mem_cons_self
    exact absurd (Nat.isDigit_of_mem_toDigits (by decide) (by decide) hdash) (by decide)
  have hdigits {j k : Nat} (heq : Nat.toDigits 10 j = Nat.toDigits 10 k) : j = k := by
    rw [← Nat.ofDigitChars_ten_toDigits (n := j), heq, Nat.ofDigitChars_ten_toDigits]
  rw [← String.toList_inj, toList_toString, toList_toString] at h
  by_cases hm : m < 0
  · by_cases hn : n < 0
    · rw [if_pos hm, if_pos hn] at h
      have habs := hdigits (List.append_cancel_left h)
      omega
    · rw [if_pos hm, if_neg hn] at h
      exact absurd h (hsign _ _)
  · by_cases hn : n < 0
    · rw [if_neg hm, if_pos hn] at h
      exact absurd h.symm (hsign _ _)
    · rw [if_neg hm, if_neg hn] at h
      have habs := hdigits h
      omega

theorem isWord_toString (n : Int) : IsWord (toString n) := by
  intro c hc
  rcases mem_toString hc with h | rfl
  · simp [isWordChar, Char.isAlphanum, h]
  · decide

theorem isWord_constant {value : Literal} (h : value.constantForm?.isSome = true) :
    IsWord value.render ∧ value.render.toList ≠ [] := by
  cases value with
  | int n => exact ⟨isWord_toString _, toString_ne_nil _⟩
  | long n =>
    unfold IsWord
    rw [Literal.render, String.toList_append]
    refine ⟨fun c hc => ?_, List.append_ne_nil_of_left_ne_nil (toString_ne_nil _) _⟩
    rcases List.mem_append.1 hc with hc | hc
    · exact isWord_toString _ c hc
    · rw [List.mem_singleton.1 hc]
      decide
  | bool b => cases b <;> decide
  | null => decide
  | string s => cases h
  | float x => cases h

/-- The letters in the text of a constant. -/
def ConstantForm.letters : ConstantForm → String
  | int => ""
  | long => "L"
  | bool true => "true"
  | bool false => "false"
  | null => "NULL"

theorem ConstantForm.letters_inj {k k' : ConstantForm} (h : k.letters = k'.letters) : k = k' := by
  rcases k with _ | _ | (_ | _) | _ <;> rcases k' with _ | _ | (_ | _) | _ <;> revert h <;> decide

theorem filter_constant {value : Literal} {k : ConstantForm} (h : value.constantForm? = some k) :
    (value.render.toList.filter fun c => !(c.isDigit || c == '-')) = k.letters.toList := by
  have hnumber (n : Int) :
      ((toString n).toList.filter fun c => !(c.isDigit || c == '-')) = [] := by
    refine List.filter_eq_nil_iff.2 fun c hc => ?_
    rcases mem_toString hc with hc | rfl
    · simp [hc]
    · decide
  cases value with
  | int n => cases h; exact hnumber _
  | long n =>
    cases h
    rw [Literal.render, String.toList_append, List.filter_append, hnumber]
    rfl
  | bool b => cases h; cases b <;> decide
  | null => cases h; decide
  | string s => cases h
  | float x => cases h

/-- **Constants have different texts.** Their letters tell numbers, long numbers, truth values and
`NULL` apart. -/
theorem constant_unique {v v' : Literal} (h : v.constantForm?.isSome = true)
    (h' : v'.constantForm?.isSome = true) (heq : v.render = v'.render) : v = v' := by
  obtain ⟨k, hk⟩ := Option.isSome_iff_exists.1 h
  obtain ⟨k', hk'⟩ := Option.isSome_iff_exists.1 h'
  have hform : v.constantForm? = v'.constantForm? := by
    rw [hk, hk', Option.some.injEq]
    apply ConstantForm.letters_inj
    rw [← String.toList_inj, ← filter_constant hk, heq, filter_constant hk']
  cases v with
  | int n =>
    cases v' with
    | int m => rw [Int32.toInt_inj.1 (toString_inj heq)]
    | _ => cases hform
  | long n =>
    cases v' with
    | long m =>
      rw [← String.toList_inj, Literal.render, Literal.render, String.toList_append,
        String.toList_append] at heq
      have hdigits := String.toList_inj.1 (List.append_cancel_right heq)
      rw [Int64.toInt_inj.1 (toString_inj hdigits)]
    | _ => cases hform
  | bool b =>
    cases v' with
    | bool b' => cases hform; rfl
    | _ => cases hform
  | null =>
    cases v' with
    | null => rfl
    | _ => cases hform
  | string s => cases h
  | float x => cases h

/-! ### Cutting a text -/

inductive Token.Kind where
  | column
  | quoted
  | constant
  | mark

def Token.kind : Token → Token.Kind
  | column _ _ => .column
  | quoted _ => .quoted
  | constant _ => .constant
  | mark _ => .mark

/-- The kind of the token that begins with a word, from the character behind the word, if any. -/
def kindOf (word : String) : Option Char → Token.Kind
  | some '.' => .column
  | some '\'' => .quoted
  | some '(' => .mark
  | _ => if word.toList.isEmpty then .mark else .constant

namespace Spaced

variable {t t' : Token} {ts ts' : List Token}

theorem rest (h : Spaced (t :: ts)) : Spaced ts := by
  cases h <;> assumption

theorem isWord (h : Spaced (t :: ts)) : IsWord t.word := by
  cases h with
  | column htable _ _ _ => exact isWord_of_identifier htable
  | quoted _ _ => exact List.forall_mem_nil _
  | constant hform _ _ => exact (isWord_constant hform).1
  | @mark m _ _ =>
    cases m with
    | call function => cases function <;> decide
    | existence => decide
    | _ => exact List.forall_mem_nil _

/-- Behind the word comes one of few characters, or nothing. -/
theorem head_tail (h : Spaced (t :: ts)) {c : Char}
    (hc : (t.tail.toList ++ texts ts).head? = some c) :
    c ∈ ['.', '\'', '(', ' ', ',', ')'] := by
  cases h with
  | column _ _ _ _ =>
    rw [Token.tail, String.toList_append] at hc
    cases hc
    decide
  | quoted _ _ =>
    rw [Token.tail, toList_quoteText] at hc
    cases hc
    decide
  | constant _ hts _ => rcases hts.head_eq hc with rfl | rfl | rfl <;> decide
  | @mark m _ _ =>
    cases m with
    | operator op =>
      obtain rfl : ' ' = c := Option.some.inj ((Mark.head_operator op (texts ts)).symm.trans hc)
      decide
    | call function => rw [Token.tail] at hc; cases hc; decide
    | _ => cases hc; decide

theorem endsWord (h : Spaced (t :: ts)) : EndsWord (t.tail.toList ++ texts ts) := by
  intro c hc
  have hends : ['.', '\'', '(', ' ', ',', ')'].all (!isWordChar ·) = true := by decide
  simpa using List.all_eq_true.1 hends c (h.head_tail hc)

/-- **The character behind the word tells the kind of the token.** -/
theorem kindOf_tail (h : Spaced (t :: ts)) :
    kindOf t.word (t.tail.toList ++ texts ts).head? = t.kind := by
  cases h with
  | column _ _ _ _ =>
    rw [Token.tail, String.toList_append]
    rfl
  | quoted _ _ =>
    rw [Token.tail, toList_quoteText]
    rfl
  | @constant value _ hform hts _ =>
    have hne : value.render.toList.isEmpty = false := by
      simpa using (isWord_constant hform).2
    have hkind : ∀ c? : Option Char, (∀ c, c? = some c → c = ' ' ∨ c = ',' ∨ c = ')') →
        kindOf value.render c? = .constant := by
      intro c? hc
      cases c? with
      | none => simp [kindOf, hne]
      | some c => rcases hc c rfl with rfl | rfl | rfl <;> simp [kindOf, hne]
    exact hkind _ fun c => hts.head_eq
  | @mark m _ _ =>
    cases m with
    | operator op => exact congrArg (kindOf "") (Mark.head_operator op (texts ts))
    | call function => rw [Token.tail]; rfl
    | _ => rfl

theorem texts_ne_nil (h : Spaced (t :: ts)) : texts (t :: ts) ≠ [] := by
  have hmark : ∀ m ∈ Mark.all, m.text.toList ≠ [] := by decide +kernel
  cases h with
  | column _ _ _ _ => simp [texts_cons, Token.tail]
  | quoted _ _ => simp [texts_cons, Token.tail, toList_quoteText]
  | constant hform _ _ =>
    rw [texts_cons]
    exact List.append_ne_nil_of_left_ne_nil (isWord_constant hform).2 _
  | @mark m _ _ =>
    rw [texts_mark]
    exact List.append_ne_nil_of_left_ne_nil (hmark m m.mem_all) _

/-- **The first token is determined by the text.** -/
theorem cut (h : Spaced (t :: ts)) (h' : Spaced (t' :: ts'))
    (heq : texts (t :: ts) = texts (t' :: ts')) : t = t' ∧ texts ts = texts ts' := by
  have hsplit := heq
  rw [texts_cons, texts_cons] at hsplit
  obtain ⟨hword, htail⟩ := word_unique h.isWord h'.isWord h.endsWord h'.endsWord hsplit
  have hkind : t.kind = t'.kind := by rw [← h.kindOf_tail, ← h'.kindOf_tail, hword, htail]
  cases h with
  | @column table _ _ _ hname hts _ =>
    cases h' with
    | @column table' _ _ _ hname' hts' _ =>
      obtain rfl : table = table' := hword
      rw [Token.tail, Token.tail, String.toList_append, String.toList_append] at htail
      obtain ⟨rfl, hrest⟩ := word_unique (isWord_of_identifier hname)
        (isWord_of_identifier hname') hts.endsWord hts'.endsWord (List.cons.inj htail).2
      exact ⟨rfl, hrest⟩
    | _ => cases hkind
  | quoted hts _ =>
    cases h' with
    | quoted hts' _ =>
      obtain ⟨rfl, hrest⟩ := quoted_unique hts.head_ne_quote hts'.head_ne_quote htail
      exact ⟨rfl, hrest⟩
    | _ => cases hkind
  | constant hform _ _ =>
    cases h' with
    | constant hform' _ _ => exact ⟨by rw [constant_unique hform hform' hword], htail⟩
    | _ => cases hkind
  | mark _ =>
    cases h' with
    | mark _ =>
      rw [texts_mark, texts_mark] at heq
      obtain ⟨rfl, hrest⟩ := Mark.text_unique heq
      exact ⟨rfl, hrest⟩
    | _ => cases hkind

/-- **A text can be cut in one way only.** -/
theorem unique : ∀ {ts ts' : List Token}, Spaced ts → Spaced ts' → texts ts = texts ts' → ts = ts'
  | [], [], _, _, _ => rfl
  | [], _ :: _, _, h', heq => absurd heq.symm h'.texts_ne_nil
  | _ :: _, [], h, _, heq => absurd heq h.texts_ne_nil
  | _ :: _, _ :: _, h, h', heq => by
    obtain ⟨rfl, hrest⟩ := h.cut h' heq
    rw [unique h.rest h'.rest hrest]

end Spaced

/-! ## The tokens of an expression -/

/-- An expression in which every operator is written with parentheses: columns whose table and name
are identifiers, literals other than floats, and binary operators, calls and tests of such
expressions. -/
inductive Expr.Parenthesized : Expr → Prop
  | column {ref : ColumnRef} : isIdentifier ref.table = true →
      isIdentifier ref.column.name = true → Parenthesized (.column ref)
  | literal {value : Literal} : (∀ x, value ≠ .float x) → Parenthesized (.literal value)
  | binary {op : BinaryOp} {left right : Expr} : Parenthesized left → Parenthesized right →
      Parenthesized (.binary op left right)
  | call {function : Builtin} {args : List Expr} : (∀ a ∈ args, Parenthesized a) →
      Parenthesized (.call function args)
  | test {t : Test} {arg : Expr} : Parenthesized arg → Parenthesized (.test t arg)

def Literal.token : Literal → Token
  | .string s => .quoted s
  | value => .constant value

mutual

/-- The tokens of an expression, none if its outermost operator has no parentheses. -/
def Expr.tokens : Expr → List Token
  | .column ref => [.column ref.table ref.column.name]
  | .literal value => [value.token]
  | .binary op left right =>
    .mark .group :: (left.tokens ++ .mark (.operator op) :: (right.tokens ++ [.mark .close]))
  | .call function args => .mark (.call function) :: (tokensOfArgs args ++ [.mark .close])
  | .test .existence arg => .mark .existence :: (arg.tokens ++ [.mark .close])
  | .test .isNull arg => arg.tokens ++ [.mark .isNull]
  | .test .isNotNull arg => arg.tokens ++ [.mark .isNotNull]
  | _ => []

/-- The tokens of arguments, with commas between them. -/
def tokensOfArgs : List Expr → List Token
  | [] => []
  | [e] => e.tokens
  | e :: es => e.tokens ++ .mark .comma :: tokensOfArgs es

end

theorem tokensOfArgs_cons (e e' : Expr) (es : List Expr) :
    tokensOfArgs (e :: e' :: es) = e.tokens ++ .mark .comma :: tokensOfArgs (e' :: es) := by
  rw [tokensOfArgs]
  exact fun h => by cases h

theorem toList_renderExprs : ∀ {args : List Expr}, (∀ a ∈ args, a.render.toList = texts a.tokens) →
    (", ".intercalate (renderExprs args)).toList = texts (tokensOfArgs args)
  | [], _ => rfl
  | [e], h => by
    rw [tokensOfArgs, ← h e (.head _)]
    simp [renderExprs]
  | e :: e' :: es, h => by
    have ih := toList_renderExprs fun a ha => h a (.tail _ ha)
    rw [tokensOfArgs_cons, texts_append, texts_mark, ← ih, ← h e (.head _)]
    simp [renderExprs, String.toList_intercalate, Mark.text]

/-- **The text of an expression is the text of its tokens.** -/
theorem toList_render {e : Expr} (h : e.Parenthesized) : e.render.toList = texts e.tokens := by
  induction h with
  | column _ _ =>
    simp [Expr.render, ColumnRef.render, Expr.tokens, texts_cons, Token.word, Token.tail]
  | @literal value _ =>
    cases value <;>
      simp [Expr.render, Expr.tokens, Literal.token, Literal.render, texts_cons, Token.word,
        Token.tail]
  | binary _ _ ihl ihr => simp [Expr.render, Expr.tokens, Mark.text, ihl, ihr]
  | call _ ih => simp [Expr.render, Expr.tokens, Mark.text, toList_renderExprs ih]
  | @test t _ _ ih => cases t <;> simp [Expr.render, Expr.tokens, Mark.text, ih]

theorem spaced_args : ∀ {args : List Expr} {ts : List Token},
    (∀ a ∈ args, ∀ ts, Delimited ts → Spaced ts → Spaced (a.tokens ++ ts)) → Delimited ts →
    Spaced ts → Spaced (tokensOfArgs args ++ ts)
  | [], _, _, _, hts => hts
  | [e], _, h, hd, hts => h e (.head _) _ hd hts
  | e :: e' :: es, ts, h, hd, hts => by
    have ih := spaced_args (fun a ha => h a (.tail _ ha)) hd hts
    rw [tokensOfArgs_cons, List.append_assoc]
    exact h e (.head _) _ rfl (.mark ih)

/-- **In an expression each operand is followed by a mark.** The induction needs the tokens that
come behind the expression, as a test stands behind its operand without parentheses. -/
theorem spaced_tokens {e : Expr} (h : e.Parenthesized) :
    ∀ ts, Delimited ts → Spaced ts → Spaced (e.tokens ++ ts) := by
  induction h with
  | column htable hname => exact fun ts hd hts => .column htable hname hd hts
  | @literal value hfloat =>
    intro ts hd hts
    cases value with
    | string s => exact .quoted hd hts
    | float x => exact absurd rfl (hfloat x)
    | _ => exact .constant rfl hd hts
  | binary _ _ ihl ihr =>
    intro ts _ hts
    rw [Expr.tokens, List.cons_append, List.append_assoc, List.cons_append, List.append_assoc]
    exact .mark (ihl _ rfl (.mark (ihr _ rfl (.mark hts))))
  | call _ ih =>
    intro ts _ hts
    rw [Expr.tokens, List.cons_append, List.append_assoc]
    exact .mark (spaced_args ih rfl (.mark hts))
  | @test t _ _ ih =>
    intro ts _ hts
    cases t with
    | existence =>
      rw [Expr.tokens, List.cons_append, List.append_assoc]
      exact .mark (ih _ rfl (.mark hts))
    | isNull =>
      rw [Expr.tokens, List.append_assoc]
      exact ih _ rfl (.mark hts)
    | isNotNull =>
      rw [Expr.tokens, List.append_assoc]
      exact ih _ rfl (.mark hts)

/-! ## Reading tokens back -/

/-- The reference without what is declared of its column: the kind, and whether the solver assigns
its values. -/
def ColumnRef.bare (ref : ColumnRef) : ColumnRef := ⟨ref.table, ⟨ref.column.name, .string, false⟩⟩

/-- The expression without what is declared of its columns. -/
def Expr.bare (e : Expr) : Expr := e.subst fun ref => .column ref.bare

/-- An open parenthesis: the mark that it belongs to, and the operands or arguments that have been
read behind it, each with the mark that follows it. -/
structure Frame where
  head : Mark
  done : List (Expr × Mark)

/-- The state of reading: the open parentheses, the innermost first, and the expression that has
been read last. -/
structure Reader where
  frames : List Frame
  current : Option Expr

/-- The expression from an opening mark to the closing parenthesis behind `last`. -/
def Frame.close : Frame → (last : Option Expr) → Option Expr
  | ⟨.group, [(left, .operator op)]⟩, some right => some (.binary op left right)
  | ⟨.call function, done⟩, last => some (.call function (done.map Prod.fst ++ last.toList))
  | ⟨.existence, []⟩, some arg => some (.test .existence arg)
  | _, _ => none

namespace Reader

/-- Reads one token; passes over one that does not fit. -/
def step (r : Reader) : Token → Reader
  | .column table name => ⟨r.frames, some (.column ⟨table, ⟨name, .string, false⟩⟩)⟩
  | .quoted s => ⟨r.frames, some (.literal (.string s))⟩
  | .constant value => ⟨r.frames, some (.literal value)⟩
  | .mark .isNull => ⟨r.frames, r.current.map (.test .isNull)⟩
  | .mark .isNotNull => ⟨r.frames, r.current.map (.test .isNotNull)⟩
  | .mark .close =>
    match r.frames with
    | frame :: frames => ⟨frames, frame.close r.current⟩
    | [] => r
  | .mark m =>
    if m.delimits then
      match r.frames, r.current with
      | frame :: frames, some e => ⟨⟨frame.head, frame.done ++ [(e, m)]⟩ :: frames, none⟩
      | _, _ => r
    else ⟨⟨m, []⟩ :: r.frames, none⟩

def read (r : Reader) (ts : List Token) : Reader := ts.foldl step r

theorem read_append (r : Reader) (ts ts' : List Token) :
    r.read (ts ++ ts') = (r.read ts).read ts' :=
  List.foldl_append

theorem read_cons (r : Reader) (t : Token) (ts : List Token) :
    r.read (t :: ts) = (r.step t).read ts := rfl

/-- An opening mark opens a parenthesis. -/
theorem step_open {m : Mark} (h : m.delimits = false) (r : Reader) :
    r.step (.mark m) = ⟨⟨m, []⟩ :: r.frames, none⟩ := by
  cases m with
  | group => rfl
  | call function => rfl
  | existence => rfl
  | _ => cases h

end Reader

/-- The arguments of a call are read one by one, behind those that have been read. -/
theorem read_args {function : Builtin} {frames : List Frame} : ∀ (args : List Expr)
    (done : List (Expr × Mark)),
    (∀ a ∈ args, ∀ frames, Reader.read ⟨frames, none⟩ a.tokens = ⟨frames, some a.bare⟩) →
    Reader.read ⟨⟨.call function, done⟩ :: frames, none⟩ (tokensOfArgs args ++ [.mark .close]) =
      ⟨frames, some (.call function (done.map Prod.fst ++ args.map Expr.bare))⟩
  | [], _, _ => rfl
  | [e], done, h => by
    rw [tokensOfArgs, Reader.read_append, h e (.head _)]
    rfl
  | e :: e' :: es, done, h => by
    rw [tokensOfArgs_cons, List.append_assoc, Reader.read_append, h e (.head _)]
    show Reader.read ⟨⟨.call function, done ++ [(e.bare, .comma)]⟩ :: frames, none⟩
      (tokensOfArgs (e' :: es) ++ [.mark .close]) = _
    rw [read_args (e' :: es) _ fun a ha => h a (.tail _ ha), List.map_append, List.append_assoc]
    rfl

/-- **The tokens of an expression are read as the expression**, whatever parentheses are open. -/
theorem read_tokens {e : Expr} (h : e.Parenthesized) :
    ∀ frames, Reader.read ⟨frames, none⟩ e.tokens = ⟨frames, some e.bare⟩ := by
  induction h with
  | column _ _ => exact fun frames => rfl
  | @literal value _ =>
    intro frames
    cases value <;> rfl
  | @binary op left right _ _ ihl ihr =>
    intro frames
    rw [Expr.tokens, Reader.read_cons, Reader.step_open rfl, Reader.read_append, ihl]
    show Reader.read ⟨⟨.group, [(left.bare, .operator op)]⟩ :: frames, none⟩
      (right.tokens ++ [.mark .close]) = _
    rw [Reader.read_append, ihr]
    rfl
  | @call function args _ ih =>
    intro frames
    rw [Expr.tokens, Reader.read_cons, Reader.step_open rfl, read_args args [] ih, Expr.bare,
      Expr.subst, substExprs_eq]
    rfl
  | @test t _ _ ih =>
    intro frames
    cases t with
    | existence =>
      rw [Expr.tokens, Reader.read_cons, Reader.step_open rfl, Reader.read_append, ih]
      rfl
    | isNull =>
      rw [Expr.tokens, Reader.read_append, ih]
      rfl
    | isNotNull =>
      rw [Expr.tokens, Reader.read_append, ih]
      rfl

theorem tokensOfArgs_bare : ∀ {args : List Expr}, (∀ a ∈ args, a.bare.tokens = a.tokens) →
    tokensOfArgs (args.map Expr.bare) = tokensOfArgs args
  | [], _ => rfl
  | [e], h => h e (.head _)
  | e :: e' :: es, h => by
    have ih := tokensOfArgs_bare fun a ha => h a (.tail _ ha)
    rw [List.map_cons] at ih
    rw [List.map_cons, List.map_cons, tokensOfArgs_cons, tokensOfArgs_cons, ih, h e (.head _)]

/-- What is declared of columns does not show. -/
theorem tokens_bare {e : Expr} (h : e.Parenthesized) : e.bare.tokens = e.tokens := by
  induction h with
  | column _ _ => rfl
  | literal _ => rfl
  | @binary op left right _ _ ihl ihr =>
    show (Expr.binary op left.bare right.bare).tokens = _
    rw [Expr.tokens, Expr.tokens, ihl, ihr]
  | @call function args _ ih =>
    rw [Expr.bare, Expr.subst, substExprs_eq, Expr.tokens, Expr.tokens, ← tokensOfArgs_bare ih]
    rfl
  | @test t arg _ ih =>
    show (Expr.test t arg.bare).tokens = _
    cases t <;> rw [Expr.tokens, Expr.tokens, ih]

/-- **The text of an expression says which expression it is**, if every operator in it is written
with parentheses: two such expressions have the same text exactly if they are equal apart from the
declared kinds of their columns and from whether these are controllable. -/
theorem render_eq_iff {e e' : Expr} (h : e.Parenthesized) (h' : e'.Parenthesized) :
    e.render = e'.render ↔ e.bare = e'.bare := by
  have hspaced {e : Expr} (h : e.Parenthesized) : Spaced e.tokens := by
    simpa using spaced_tokens h [] trivial .nil
  rw [← String.toList_inj, toList_render h, toList_render h']
  constructor
  · intro htexts
    have htokens := (hspaced h).unique (hspaced h') htexts
    have hread := read_tokens h []
    rw [htokens, read_tokens h' []] at hread
    exact (Option.some.inj (Reader.mk.inj hread).2).symm
  · intro hbare
    rw [← tokens_bare h, hbare, tokens_bare h']

/-- A test of a column that is declared with the given kind. -/
def nullTest (kind : Kind) : Expr := .test .isNull (.column ⟨"pods", ⟨"L1", kind, false⟩⟩)

/-- The string has the text between two arguments in it. -/
def joinedCall (kind : Kind) : Expr := .call .sum [.literal (.string "a', 'b"), nullTest kind]

def separateCall (kind : Kind) : Expr :=
  .call .sum [.literal (.string "a"), .literal (.string "b"), nullTest kind]

/-- The texts are `SUM('a'', ''b', pods.L1 IS NULL)`, for either kind of the column, and
`SUM('a', 'b', pods.L1 IS NULL)`. -/
theorem render_eq_iff_quotes :
    (joinedCall .long).Parenthesized ∧ (joinedCall .string).Parenthesized ∧
      (separateCall .long).Parenthesized ∧
      (joinedCall .long).render = (joinedCall .string).render ∧
      (joinedCall .long).render ≠ (separateCall .long).render := by
  have hnull (kind : Kind) : (nullTest kind).Parenthesized :=
    .test (.column (show isIdentifier "pods" = true by decide)
      (show isIdentifier "L1" = true by decide))
  have hstring (s : String) : (Expr.literal (.string s)).Parenthesized := .literal nofun
  have hjoined (kind : Kind) : (joinedCall kind).Parenthesized := .call (by simp [hstring, hnull])
  have hseparate : (separateCall .long).Parenthesized := .call (by simp [hstring, hnull])
  refine ⟨hjoined .long, hjoined .string, hseparate, ?_, fun h => ?_⟩
  · exact (render_eq_iff (hjoined .long) (hjoined .string)).2 rfl
  · have hbare := (render_eq_iff (hjoined .long) hseparate).1 h
    exact absurd (congrArg List.length (Expr.call.inj hbare).2) (by decide)

end ViewTyping
