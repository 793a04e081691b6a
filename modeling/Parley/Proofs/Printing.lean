import Parley.Proofs.Provenance

/-!
# Printing expressions

An expression is printed as a list of tokens, with parentheses only around an
operand that binds less tightly than its place demands.  How a number is
written and which quotes enclose a string is left to a `Style`.  Every printed
token is spelled by its text, and no printed token continues its neighbour, so
the tokens may be put next to one another or apart.
-/

set_option autoImplicit false

namespace Parley

/-- The level that an operator belongs to. -/
def BinaryOp.level : BinaryOp → Expr.Level
  | .add | .sub => .sum
  | .mul | .div | .rem => .product
  | .eq | .strictEq | .ne | .strictNe | .lt | .gt | .le | .ge => .comparison

namespace Expr

/-- The place of a level among the ranks of binding, from the conditional at 0 to operands at 7. -/
def Level.rank : Level → Nat
  | .disjunction => 1
  | .conjunction => 2
  | .comparison => 3
  | .sum => 4
  | .product => 5

/-- The rank that the left operand of an operator must have.  Only an operator that repeats may
stand to the left of one of its own level. -/
def Level.leftRank (level : Level) : Nat :=
  if level.repeats then level.rank else level.rank + 1

/-- How tightly the outermost operator binds. -/
def rank : Expr → Nat
  | .cond _ _ _ => 0
  | .or _ _ => Level.disjunction.rank
  | .and _ _ => Level.conjunction.rank
  | .binary op _ _ => op.level.rank
  | .not _ | .neg _ => 6
  | .lit _ | .path _ _ | .call _ _ => 7

/-- The choices that printing leaves open. -/
structure Style where
  /-- The quotes around a string. -/
  quote : String → Char
  /-- They are quotes. -/
  isQuote : ∀ s, Token.isQuote (quote s) = true
  /-- The decimal text of a number. -/
  numeral : Number → List Char

namespace Style

/-- A character between quotes. -/
def escape (quote c : Char) : List Char :=
  if c = quote || c = '\\' then ['\\', c]
  else if c = '\n' then ['\\', 'n']
  else if c = '\t' then ['\\', 't']
  else if c = '\r' then ['\\', 'r']
  else [c]

variable (style : Style)

/-- A string between quotes. -/
def quoted (s : String) : List Char :=
  style.quote s :: (s.toList.flatMap (escape (style.quote s)) ++ [style.quote s])

/-- A step of a path: a dot and a name where the key is a name, else brackets. -/
def segment : Segment → List Char
  | .key name =>
    if Token.isName name.toList then '.' :: name.toList else '[' :: (style.quoted name ++ [']'])
  | .index position => '[' :: (Decimal.digitsOf position ++ [']'])

/-- A path without blanks. -/
def path (root : String) (segments : List Segment) : List Char :=
  root.toList ++ segments.flatMap style.segment

/-- A literal.  The value `null` is written by its own name. -/
def literal : Json → List Char
  | .null => "null".toList
  | .bool true => "true".toList
  | .bool false => "false".toList
  | .num n => style.numeral n
  | .str s => style.quoted s
  | .arr _ | .obj _ => []

/-- The text of a token. -/
def text : Token → List Char
  | .lit value => style.literal value
  | .path source _ _ => source.toList
  | t => t.sign

end Style

/-- The token of the name in a call. -/
def callee (name : String) : Token :=
  match Token.word? name.toList with
  | some (t, _) => t
  | none => .path name name []

/-- The tokens of an operand, in parentheses if it binds less tightly than is needed. -/
def wrap (needed rank : Nat) (tokens : List Token) : List Token :=
  if rank < needed then .opening :: (tokens ++ [.closing]) else tokens

mutual

/-- The tokens of a printed expression. -/
def tokens (style : Style) : Expr → List Token
  | .lit value => [.lit value]
  | .path root segments => [.path (String.ofList (style.path root segments)) root segments]
  | .call name args => callee name :: .opening :: (argTokens style args ++ [.closing])
  | .not operand => .bang :: wrap 6 operand.rank (tokens style operand)
  | .neg operand => .op .sub :: wrap 6 operand.rank (tokens style operand)
  | .binary op left right =>
    wrap op.level.leftRank left.rank (tokens style left) ++
      .op op :: wrap (op.level.rank + 1) right.rank (tokens style right)
  | .and left right =>
    wrap Level.conjunction.leftRank left.rank (tokens style left) ++
      .both :: wrap (Level.conjunction.rank + 1) right.rank (tokens style right)
  | .or left right =>
    wrap Level.disjunction.leftRank left.rank (tokens style left) ++
      .either :: wrap (Level.disjunction.rank + 1) right.rank (tokens style right)
  | .cond test yes no =>
    wrap 1 test.rank (tokens style test) ++
      .question :: (tokens style yes ++ .colon :: tokens style no)

/-- The tokens of printed arguments, with commas between them. -/
def argTokens (style : Style) : List Expr → List Token
  | [] => []
  | [arg] => tokens style arg
  | arg :: arg' :: args => tokens style arg ++ .comma :: argTokens style (arg' :: args)

end

/-- The texts of the tokens of a printed expression. -/
def lexemes (style : Style) (e : Expr) : List (List Char) :=
  (e.tokens style).map style.text

mutual

/-- The numbers that the expression holds. -/
def numbers : Expr → List Number
  | .lit (.num n) => [n]
  | .lit _ | .path _ _ => []
  | .call _ args => numbersOfAll args
  | .not operand | .neg operand => numbers operand
  | .binary _ left right | .and left right | .or left right => numbers left ++ numbers right
  | .cond test yes no => numbers test ++ numbers yes ++ numbers no

/-- The numbers that the arguments hold. -/
def numbersOfAll : List Expr → List Number
  | [] => []
  | arg :: args => numbers arg ++ numbersOfAll args

end

/-! ## Neighbours -/

/-- The tokens may stand where an operand stands: they begin and end as expressions do, and none of
them continues its neighbour. -/
structure Phrase (tokens : List Token) : Prop where
  chain : tokens.IsChain Token.Adjoins
  start : ∃ t ∈ tokens.head?, t.isStart = true
  stop : ∃ t ∈ tokens.getLast?, t.isEnd = true

namespace Phrase

variable {left right : List Token} {t : Token}

theorem single (h : t.isOperand = true) : Phrase [t] := by
  cases t with
  | lit => exact ⟨.singleton _, ⟨_, rfl, rfl⟩, ⟨_, rfl, rfl⟩⟩
  | path => exact ⟨.singleton _, ⟨_, rfl, rfl⟩, ⟨_, rfl, rfl⟩⟩
  | _ => simp [Token.isOperand] at h

theorem ne_nil (h : Phrase left) : left ≠ [] := by
  rintro rfl
  obtain ⟨t, ht, _⟩ := h.start
  simp at ht

theorem prefixed (h : Phrase right) (plain : t.isOperand = false) (start : t.isStart = true) :
    Phrase (t :: right) := by
  obtain ⟨first, hfirst, starts⟩ := h.start
  obtain ⟨last, hlast, ends⟩ := h.stop
  refine ⟨List.isChain_cons.mpr ⟨?_, h.chain⟩, ⟨t, rfl, start⟩, ⟨last, ?_, ends⟩⟩
  · intro t' ht'
    obtain rfl := Option.mem_unique hfirst ht'
    exact Token.adjoins_of_isStart plain starts
  · rw [List.getLast?_cons_of_ne_nil h.ne_nil]
    exact hlast

theorem joined (hl : Phrase left) (plain : t.isOperand = false) (hr : Phrase right) :
    Phrase (left ++ t :: right) := by
  obtain ⟨first, hfirst, starts⟩ := hl.start
  obtain ⟨last, hlast, ends⟩ := hl.stop
  obtain ⟨first', hfirst', starts'⟩ := hr.start
  obtain ⟨last', hlast', ends'⟩ := hr.stop
  have tail : (t :: right).IsChain Token.Adjoins := by
    refine List.isChain_cons.mpr ⟨?_, hr.chain⟩
    intro t' ht'
    obtain rfl := Option.mem_unique hfirst' ht'
    exact Token.adjoins_of_isStart plain starts'
  refine ⟨List.isChain_append.mpr ⟨hl.chain, tail, ?_⟩, ⟨first, ?_, starts⟩, ⟨last', ?_, ends'⟩⟩
  · intro x hx y hy
    obtain rfl := Option.mem_unique hlast hx
    obtain rfl : t = y := by simpa using hy
    exact Token.adjoins_of_isEnd ends plain
  · rw [List.head?_append_of_ne_nil _ hl.ne_nil]
    exact hfirst
  · rw [List.getLast?_append_of_ne_nil _ (List.cons_ne_nil _ _),
      List.getLast?_cons_of_ne_nil hr.ne_nil]
    exact hlast'

theorem chain_enclosed (h : left = [] ∨ Phrase left) :
    (Token.opening :: (left ++ [.closing])).IsChain Token.Adjoins := by
  refine List.isChain_cons.mpr ⟨fun t _ => Token.adjoins_opening t, ?_⟩
  rcases h with rfl | h
  · exact .singleton _
  · refine List.isChain_append.mpr ⟨h.chain, .singleton _, ?_⟩
    intro x hx y hy
    obtain ⟨last, hlast, ends⟩ := h.stop
    obtain rfl := Option.mem_unique hlast hx
    obtain rfl : Token.closing = y := by simpa using hy
    exact Token.adjoins_of_isEnd ends rfl

theorem getLast?_enclosed (left : List Token) :
    (Token.opening :: (left ++ [.closing])).getLast? = some .closing := by
  rw [← List.cons_append, List.getLast?_concat]

theorem enclosed (h : Phrase left) : Phrase (.opening :: (left ++ [.closing])) :=
  ⟨chain_enclosed (.inr h), ⟨_, rfl, rfl⟩, ⟨_, getLast?_enclosed left, rfl⟩⟩

theorem wrapped (h : Phrase left) (needed rank : Nat) : Phrase (wrap needed rank left) := by
  unfold wrap
  split
  · exact h.enclosed
  · exact h

theorem called (h : t.isOperand = true) (args : left = [] ∨ Phrase left) :
    Phrase (t :: .opening :: (left ++ [.closing])) := by
  have single := single h
  obtain ⟨last, hlast, ends⟩ := single.stop
  obtain rfl : t = last := by simpa using hlast
  have stop : (t :: .opening :: (left ++ [.closing])).getLast? = some .closing := by
    rw [List.getLast?_cons_cons, getLast?_enclosed]
  exact ⟨List.isChain_cons_cons.mpr ⟨Token.adjoins_of_isEnd ends rfl, chain_enclosed args⟩,
    single.start, ⟨_, stop, rfl⟩⟩

end Phrase

theorem callee_isOperand (name : String) : (callee name).isOperand = true := by
  unfold callee
  split
  · rename_i t rest read
    unfold Token.word? at read
    split at read
    · simp at read
    · split at read
      · obtain ⟨rfl, rfl⟩ := Prod.mk.inj (Option.some.inj read)
        rfl
      · obtain ⟨steps, _, same⟩ := Option.map_eq_some_iff.mp read
        obtain ⟨rfl, rfl⟩ := Prod.mk.inj same
        rfl
  · rfl

mutual

theorem phrase_tokens (style : Style) : ∀ e : Expr, Phrase (e.tokens style)
  | .lit _ => .single rfl
  | .path _ _ => .single rfl
  | .call name args =>
    .called (callee_isOperand name) ((phrase_argTokens style args).imp_left fun h => by rw [h]; rfl)
  | .not operand => ((phrase_tokens style operand).wrapped _ _).prefixed rfl rfl
  | .neg operand => ((phrase_tokens style operand).wrapped _ _).prefixed rfl rfl
  | .binary _ left right | .and left right | .or left right =>
    ((phrase_tokens style left).wrapped _ _).joined rfl ((phrase_tokens style right).wrapped _ _)
  | .cond test yes no =>
    ((phrase_tokens style test).wrapped _ _).joined rfl
      ((phrase_tokens style yes).joined rfl (phrase_tokens style no))

theorem phrase_argTokens (style : Style) :
    ∀ args : List Expr, args = [] ∨ Phrase (argTokens style args)
  | [] => .inl rfl
  | [arg] => .inr (phrase_tokens style arg)
  | arg :: arg' :: args =>
    have others := (phrase_argTokens style (arg' :: args)).resolve_left (List.cons_ne_nil _ _)
    .inr ((phrase_tokens style arg).joined rfl others)

end

/-! ## Texts -/

namespace Style

variable (style : Style)

theorem quotedAs_escape {quote c : Char} {written meant : List Char}
    (h : Token.isQuote quote = true) (rest : Token.QuotedAs quote written meant) :
    Token.QuotedAs quote (escape quote c ++ written) (c :: meant) := by
  unfold escape
  split
  · rename_i special
    -- Neither quote nor the backslash is a letter that an escape changes.
    have plain : Token.unescape c = c := by
      simp only [Token.isQuote, Bool.or_eq_true, decide_eq_true_eq] at h special
      rcases special with rfl | rfl
      · rcases h with rfl | rfl <;> rfl
      · rfl
    have spelled := Token.QuotedAs.escaped c rest
    rwa [plain] at spelled
  · rename_i ordinary
    simp only [Bool.or_eq_true, decide_eq_true_eq, not_or] at ordinary
    split
    · rename_i newline
      subst newline
      exact .escaped 'n' rest
    split
    · rename_i tab
      subst tab
      exact .escaped 't' rest
    split
    · rename_i carriage
      subst carriage
      exact .escaped 'r' rest
    · exact .plain c ordinary.1 ordinary.2 rest

theorem quotedAs_escaped {quote : Char} (h : Token.isQuote quote = true) (s : List Char) :
    Token.QuotedAs quote (s.flatMap (escape quote)) s := by
  induction s with
  | nil => exact .nil
  | cons c s ih => exact quotedAs_escape h ih

theorem spelled_segment (segment : Segment) : segment.Spelled (style.segment segment) := by
  cases segment with
  | key name =>
    simp only [Style.segment]
    split
    · rename_i isName
      have spelled := Segment.Spelled.dotted isName
      rwa [String.ofList_toList] at spelled
    · have body := quotedAs_escaped (style.isQuote name) name.toList
      have spelled := Segment.Spelled.quoted (style.isQuote name) body
      rw [String.ofList_toList] at spelled
      simpa [Style.quoted] using spelled
  | index position =>
    have spelled := Segment.Spelled.numbered (Decimal.digitsOf_ne_nil position)
      (Decimal.isDigit_digitsOf position)
    rwa [Decimal.valueOf_digitsOf] at spelled

theorem allSpelled_segments (segments : List Segment) :
    Segment.AllSpelled segments (segments.flatMap style.segment) := by
  induction segments with
  | nil => exact .nil
  | cons segment segments ih => exact .cons (style.spelled_segment segment) ih

theorem spelled_quoted (s : String) : Token.Spelled (.lit (.str s)) (style.quoted s) := by
  have spelled := Token.Spelled.quoted (style.isQuote s)
    (quotedAs_escaped (style.isQuote s) s.toList)
  rwa [String.ofList_toList] at spelled

theorem spelled_path {source root : String} {segments : List Segment} {used : List Char}
    (h : Token.Spelled (.path source root segments) used) :
    Token.Spelled (.path (String.ofList (style.path root segments)) root segments)
      (style.path root segments) := by
  cases h with
  | path isName free _ =>
    have spelled := Token.Spelled.path isName free (style.allSpelled_segments segments)
    simpa [Style.path] using spelled
  | sign plain => simp [Token.isOperand] at plain

/-- A literal that the scanner can make is no list and no object. -/
theorem spelled_literal {value : Json} {used : List Char} (h : Token.Spelled (.lit value) used)
    (numeral : ∀ n, value = .num n →
      Token.next? (style.numeral n) = some (.lit (.num n), [])) :
    Token.Spelled (.lit value) (style.literal value) := by
  cases value with
  | null => exact Token.Spelled.reserved rfl rfl
  | bool b => cases b <;> exact Token.Spelled.reserved rfl rfl
  | num n =>
    obtain ⟨used, text_eq, spelled⟩ := Token.spelled_of_next? (numeral n rfl)
    rw [List.append_nil] at text_eq
    rw [← text_eq] at spelled
    exact spelled
  | str s => exact style.spelled_quoted s
  | arr items => simpa using Token.scalar_of_spelled h
  | obj fields => simpa using Token.scalar_of_spelled h

theorem spelled_source {name root : String} {segments : List Segment} {used : List Char}
    (h : Token.Spelled (.path name root segments) used) : used = name.toList := by
  cases h with
  | path => simp
  | sign plain => simp [Token.isOperand] at plain

theorem callee_of_spelled {name root : String} {segments : List Segment} {used : List Char}
    (h : Token.Spelled (.path name root segments) used) : callee name = .path name root segments := by
  cases h with
  | path isName free steps =>
    have read := Token.word?_path isName free steps (Token.stopsAt_nil _)
    simp only [List.append_nil] at read
    simp [callee, read]
  | sign plain => simp [Token.isOperand] at plain

theorem spelled_sign {t : Token} (h : t.isOperand = false) : t.Spelled (style.text t) := by
  cases t with
  | lit => simp [Token.isOperand] at h
  | path => simp [Token.isOperand] at h
  | _ => exact .sign h

def Spells (tokens : List Token) : Prop :=
  ∀ t ∈ tokens, t.Spelled (style.text t)

/-- The number is written as decimal text that is read as the same number. -/
def Writes (n : Number) : Prop :=
  Token.next? (style.numeral n) = some (.lit (.num n), [])

variable {style} {left right : List Token}

theorem Spells.joined {t : Token} (hl : style.Spells left) (plain : t.isOperand = false)
    (hr : style.Spells right) : style.Spells (left ++ t :: right) := by
  intro t' ht'
  rcases List.mem_append.mp ht' with h | h
  · exact hl t' h
  · rcases List.mem_cons.mp h with rfl | h
    · exact style.spelled_sign plain
    · exact hr t' h

theorem Spells.nil : style.Spells [] := by
  simp [Spells]

theorem Spells.wrapped (h : style.Spells left) (needed rank : Nat) :
    style.Spells (wrap needed rank left) := by
  unfold wrap
  split
  · exact Spells.nil.joined rfl (h.joined rfl Spells.nil)
  · exact h

end Style

section

open Style

variable {style : Style} {ok : Token → Prop}

mutual

/-- What is made from readable tokens is printed in tokens that their texts spell. -/
theorem spells_tokens (readable : ∀ t, ok t → ∃ used, t.Spelled used) :
    ∀ e : Expr, e.From ok → (∀ n ∈ e.numbers, style.Writes n) → style.Spells (e.tokens style)
  | .lit value, made, writes => by
    intro t ht
    obtain rfl := List.mem_singleton.mp ht
    obtain ⟨used, spelled⟩ := readable _ made
    refine style.spelled_literal spelled ?_
    rintro n rfl
    exact writes n (List.mem_singleton_self n)
  | .path root segments, made, _ => by
    intro t ht
    obtain rfl := List.mem_singleton.mp ht
    obtain ⟨source, known⟩ := made.1
    obtain ⟨used, spelled⟩ := readable _ known
    have printed := style.spelled_path spelled
    simpa only [Style.text, String.toList_ofList] using printed
  | .call name args, made, writes => by
    -- The tree holds the name as it was written, brackets and all.
    obtain ⟨root, segments, known⟩ := made.1
    obtain ⟨used, spelled⟩ := readable _ known
    have others := spells_argTokens readable args made.2 writes
    have named : (callee name).Spelled (style.text (callee name)) := by
      rw [callee_of_spelled spelled]
      obtain rfl := spelled_source spelled
      exact spelled
    intro t ht
    rcases List.mem_cons.mp ht with rfl | ht
    · exact named
    · exact Spells.nil.joined rfl (others.joined rfl Spells.nil) t ht
  | .not operand, made, writes => by
    have inner := spells_tokens readable operand made writes
    exact Spells.nil.joined rfl (inner.wrapped _ _)
  | .neg operand, made, writes => by
    have inner := spells_tokens readable operand made writes
    exact Spells.nil.joined rfl (inner.wrapped _ _)
  | .binary _ left right, made, writes | .and left right, made, writes
  | .or left right, made, writes => by
    obtain ⟨writesLeft, writesRight⟩ := List.forall_mem_append.mp writes
    have first := spells_tokens readable left made.1 writesLeft
    have second := spells_tokens readable right made.2 writesRight
    exact (first.wrapped _ _).joined rfl (second.wrapped _ _)
  | .cond test yes no, made, writes => by
    obtain ⟨writes, writesNo⟩ := List.forall_mem_append.mp writes
    obtain ⟨writesTest, writesYes⟩ := List.forall_mem_append.mp writes
    have first := spells_tokens readable test made.1 writesTest
    have second := spells_tokens readable yes made.2.1 writesYes
    have third := spells_tokens readable no made.2.2 writesNo
    exact (first.wrapped _ _).joined rfl (second.joined rfl third)

theorem spells_argTokens (readable : ∀ t, ok t → ∃ used, t.Spelled used) :
    ∀ args : List Expr, AllFrom ok args → (∀ n ∈ numbersOfAll args, style.Writes n) →
      style.Spells (argTokens style args)
  | [], _, _ => Spells.nil
  | [arg], made, writes => by
    obtain ⟨writesArg, _⟩ := List.forall_mem_append.mp writes
    exact spells_tokens readable arg made.1 writesArg
  | arg :: arg' :: args, made, writes => by
    obtain ⟨writesArg, writesOthers⟩ := List.forall_mem_append.mp writes
    have first := spells_tokens readable arg made.1 writesArg
    have others := spells_argTokens readable (arg' :: args) made.2 writesOthers
    exact first.joined rfl others

end

/-- A printed expression is scanned as the tokens that it was printed from. -/
theorem ofText?_of_lexemes {e : Expr} {text : List Char} (spells : style.Spells (e.tokens style))
    (spaced : Token.Spaced (e.lexemes style) text) :
    Token.ofText? text = some (e.tokens style) := by
  have spelled : List.Forall₂ Token.Spelled (e.tokens style) (e.lexemes style) := by
    rw [lexemes, List.forall₂_map_right_iff, List.forall₂_same]
    exact spells
  exact Token.scan?_of_spaced spaced _ spelled (phrase_tokens style e).chain _ (Nat.lt_succ_self _)

end

end Expr

end Parley
