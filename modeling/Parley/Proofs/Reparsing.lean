import Parley.Proofs.Printing

/-!
# Reading printed expressions back

A reader of some rank takes the tokens of an expression that binds at least so
tightly, whatever follows them, as long as no operator follows that the reader
would still take.  Enough steps are those of one descent through all levels for
every token, which is what reading a whole text allows.
-/

set_option autoImplicit false

namespace Parley

namespace Token

/-- The rank of the reader that takes the token after an operand. -/
def rank? : Token → Option Nat
  | .question => some 0
  | .either => some Expr.Level.disjunction.rank
  | .both => some Expr.Level.conjunction.rank
  | .op sign => some sign.level.rank
  | .opening => some 7
  | _ => none

end Token

namespace Expr

/-- No reader of rank `r` or tighter takes the token that follows. -/
def Ends (r : Nat) (rest : List Token) : Prop :=
  ∀ t ∈ rest.head?, ∀ k ∈ t.rank?, k < r

theorem Ends.mono {r r' : Nat} {rest : List Token} (h : Ends r rest) (le : r ≤ r') : Ends r' rest :=
  fun t ht k hk => Nat.lt_of_lt_of_le (h t ht k hk) le

theorem ends_cons {r : Nat} {t : Token} {rest : List Token} :
    Ends r (t :: rest) ↔ ∀ k ∈ t.rank?, k < r := by
  simp [Ends]

/-- The reader of the given rank. -/
def readAt : Nat → Nat → List Token → Option (Expr × List Token)
  | 0, n, tokens => readConditional? n tokens
  | 1, n, tokens => readLevel? n .disjunction tokens
  | 2, n, tokens => readLevel? n .conjunction tokens
  | 3, n, tokens => readLevel? n .comparison tokens
  | 4, n, tokens => readLevel? n .sum tokens
  | 5, n, tokens => readLevel? n .product tokens
  | 6, n, tokens => readSigned? n tokens
  | _, n, tokens => readPrimary? n tokens

/-- The steps of a descent from the reader of the given rank to an operand. -/
def descent : Nat → Nat
  | 0 => 13
  | 1 => 12
  | 2 => 10
  | 3 => 8
  | 4 => 6
  | 5 => 4
  | 6 => 2
  | _ => 1

theorem descent_pos (r : Nat) : 0 < descent r := by
  unfold descent
  split <;> decide

/-- The reader of rank `r` takes exactly these tokens, as the expression `e`. -/
def ReadsAt (r : Nat) (e : Expr) (tokens : List Token) : Prop :=
  ∀ n rest, 16 * tokens.length + descent r ≤ n + 16 → Ends r rest →
    readAt r n (tokens ++ rest) = some (e, rest)

variable {e : Expr} {tokens rest : List Token}

/-! ## Levels -/

namespace Level

variable {level : Level} {t : Token} {join : Expr → Expr → Expr}

theorem readAt_rank (level : Level) (n : Nat) (tokens : List Token) :
    readAt level.rank n tokens = readLevel? n level tokens := by
  cases level <;> rfl

theorem readOperand?_succ (level : Level) (n : Nat) (tokens : List Token) :
    readOperand? (n + 1) level tokens = readAt (level.rank + 1) n tokens := by
  cases level <;> rfl

theorem descent_rank (level : Level) : descent level.rank = descent (level.rank + 1) + 2 := by
  cases level <;> rfl

theorem rank?_of_join (h : level.join? t = some join) : t.rank? = some level.rank := by
  unfold join? at h
  split at h
  · rfl
  · rfl
  · rename_i op
    cases op <;> first | rfl | simp [BinaryOp.isComparison] at h
  · rename_i op
    cases op <;> first | rfl | simp [BinaryOp.isAdditive] at h
  · rename_i op
    cases op <;> first | rfl | simp [BinaryOp.isMultiplicative] at h
  · simp at h

theorem join_eq_none (h : Ends level.rank (t :: rest)) : level.join? t = none := by
  cases joined : level.join? t with
  | none => rfl
  | some join =>
    have below := ends_cons.mp h _ (rank?_of_join joined)
    omega

theorem readTail?_of_ends {n : Nat} (h : Ends level.rank rest) :
    readTail? (n + 1) level e rest = some (e, rest) := by
  cases rest with
  | nil => rfl
  | cons t rest => simp only [readTail?, join_eq_none h]

end Level

/-! ## Descent -/

namespace ReadsAt

theorem of_level (level : Level) (h : ReadsAt (level.rank + 1) e tokens)
    (some_tokens : tokens ≠ []) :
    ReadsAt level.rank e tokens := by
  intro n rest enough ends
  have length := List.length_pos_iff.mpr some_tokens
  have steps := level.descent_rank
  obtain ⟨m, rfl⟩ : ∃ m, n = m + 1 + 1 := ⟨n - 2, by omega⟩
  have read := h m rest (by omega) (ends.mono (Nat.le_succ _))
  rw [level.readAt_rank]
  simp only [readLevel?, level.readOperand?_succ, read]
  exact Level.readTail?_of_ends ends

theorem signed (h : ReadsAt 7 e tokens) (some_tokens : tokens ≠ []) : ReadsAt 6 e tokens := by
  intro n rest enough ends
  have length := List.length_pos_iff.mpr some_tokens
  simp only [descent] at enough
  obtain ⟨m, rfl⟩ : ∃ m, n = m + 1 := ⟨n - 1, by omega⟩
  have read := h m rest (by simp only [descent]; omega) (ends.mono (by omega))
  -- An operand begins with no sign, since its reader would have failed.
  simp only [readAt] at read ⊢
  unfold readSigned?
  split
  · rename_i after begins
    rw [begins] at read
    cases m <;> simp [readPrimary?] at read
  · rename_i after begins
    rw [begins] at read
    cases m <;> simp [readPrimary?] at read
  · exact read

theorem conditional (h : ReadsAt 1 e tokens) (some_tokens : tokens ≠ []) : ReadsAt 0 e tokens := by
  intro n rest enough ends
  have length := List.length_pos_iff.mpr some_tokens
  simp only [descent] at enough
  obtain ⟨m, rfl⟩ : ∃ m, n = m + 1 := ⟨n - 1, by omega⟩
  have read := h m rest (by simp only [descent]; omega) (ends.mono (by omega))
  simp only [readAt] at read ⊢
  simp only [readConditional?, read]
  cases rest with
  | nil => rfl
  | cons t rest =>
    have other : t ≠ .question := by
      rintro rfl
      exact absurd (ends_cons.mp ends 0 rfl) (Nat.lt_irrefl 0)
    split
    · simp_all
    · simp_all
    · simp_all

theorem pred {r : Nat} (h : ReadsAt (r + 1) e tokens) (some_tokens : tokens ≠ []) (le : r < 7) :
    ReadsAt r e tokens := by
  match r, le with
  | 0, _ => exact h.conditional some_tokens
  | 1, _ => exact of_level .disjunction h some_tokens
  | 2, _ => exact of_level .conjunction h some_tokens
  | 3, _ => exact of_level .comparison h some_tokens
  | 4, _ => exact of_level .sum h some_tokens
  | 5, _ => exact of_level .product h some_tokens
  | 6, _ => exact h.signed some_tokens

theorem descend {r r' : Nat} (h : ReadsAt r e tokens) (some_tokens : tokens ≠ []) (le : r' ≤ r)
    (bound : r ≤ 7) : ReadsAt r' e tokens := by
  induction le using Nat.decreasingInduction with
  | self => exact h
  | of_succ k lt ih => exact ih.pred some_tokens (by omega)

end ReadsAt

/-! ## Operands in parentheses -/

theorem ReadsAt.enclosed (h : ReadsAt 0 e tokens) :
    ReadsAt 7 e (.opening :: (tokens ++ [.closing])) := by
  intro n rest enough ends
  simp only [List.length_cons, List.length_append, descent] at enough
  obtain ⟨m, rfl⟩ : ∃ m, n = m + 1 := ⟨n - 1, by omega⟩
  have read := h m (.closing :: rest) (by simp only [descent]; omega) (ends_cons.mpr (by simp [Token.rank?]))
  simp only [readAt] at read ⊢
  simp [readPrimary?, read]

theorem wrap_ne_nil (h : tokens ≠ []) (needed rank : Nat) : wrap needed rank tokens ≠ [] := by
  unfold wrap
  split
  · exact List.cons_ne_nil _ _
  · exact h

/-- An operand is read at any rank once it has the parentheses that this rank asks for. -/
theorem ReadsAt.wrapped (h : ReadsAt e.rank e tokens) (some_tokens : tokens ≠ []) (bound : e.rank ≤ 7)
    {r : Nat} (le : r ≤ 7) : ReadsAt r e (wrap r e.rank tokens) := by
  unfold wrap
  split
  · have loosest := h.descend some_tokens (Nat.zero_le _) bound
    exact loosest.enclosed.descend (List.cons_ne_nil _ _) le (Nat.le_refl 7)
  · exact h.descend some_tokens (by omega) bound

theorem rank_le (e : Expr) : e.rank ≤ 7 := by
  cases e <;> simp [rank, Level.rank]
  rename_i op _ _
  cases op.level <;> simp

/-! ## Chains of operators -/

/-- Reading these tokens at the level leaves the reader where `e` may still be continued. -/
def Chains (level : Level) (e : Expr) (tokens : List Token) : Prop :=
  ∀ n rest, 16 * tokens.length + descent level.rank ≤ n + 16 → Ends (level.rank + 1) rest →
    ∃ m, n ≤ m + tokens.length ∧ readLevel? n level (tokens ++ rest) = readTail? m level e rest

section

variable {level : Level} {left right : Expr} {before after : List Token} {t : Token}
  {join : Expr → Expr → Expr}

theorem ReadsAt.chains (h : ReadsAt (level.rank + 1) e tokens) (some_tokens : tokens ≠ []) :
    Chains level e tokens := by
  intro n rest enough ends
  have length := List.length_pos_iff.mpr some_tokens
  have steps := level.descent_rank
  obtain ⟨m, rfl⟩ : ∃ m, n = m + 1 + 1 := ⟨n - 2, by omega⟩
  have read := h m rest (by omega) ends
  refine ⟨m + 1, by omega, ?_⟩
  simp only [readLevel?, level.readOperand?_succ, read]

theorem Chains.reads (h : Chains level e tokens) (some_tokens : tokens ≠ []) :
    ReadsAt level.rank e tokens := by
  intro n rest enough ends
  have length := List.length_pos_iff.mpr some_tokens
  have steps := level.descent_rank
  obtain ⟨m, le, read⟩ := h n rest enough (ends.mono (Nat.le_succ _))
  obtain ⟨k, rfl⟩ : ∃ k, m = k + 1 := ⟨m - 1, by omega⟩
  rw [level.readAt_rank, read]
  exact Level.readTail?_of_ends ends

theorem ends_operator (h : level.join? t = some join) : Ends (level.rank + 1) (t :: rest) := by
  rw [ends_cons, Level.rank?_of_join h]
  simp

/-- An operator that repeats takes everything to its left as its left operand. -/
theorem Chains.extend (hl : Chains level left before) (h : level.join? t = some join)
    (repeats : level.repeats = true) (hr : ReadsAt (level.rank + 1) right after) :
    Chains level (join left right) (before ++ t :: after) := by
  intro n rest enough ends
  have steps := level.descent_rank
  simp only [List.length_append, List.length_cons] at enough ⊢
  obtain ⟨m, le, read⟩ := hl n (t :: (after ++ rest)) (by omega) (ends_operator h)
  obtain ⟨k, rfl⟩ : ∃ k, m = k + 1 + 1 := ⟨m - 2, by omega⟩
  have readRight := hr k rest (by omega) ends
  refine ⟨k + 1, by omega, ?_⟩
  rw [List.append_assoc, List.cons_append, read]
  simp only [readTail?, h, level.readOperand?_succ, readRight, repeats, if_true]

/-- An operator that does not repeat takes one operand on either side. -/
theorem ReadsAt.once (hl : ReadsAt (level.rank + 1) left before) (h : level.join? t = some join)
    (single : level.repeats = false) (hr : ReadsAt (level.rank + 1) right after) :
    ReadsAt level.rank (join left right) (before ++ t :: after) := by
  intro n rest enough ends
  have steps := level.descent_rank
  have positive := descent_pos (level.rank + 1)
  simp only [List.length_append, List.length_cons] at enough
  obtain ⟨m, rfl⟩ : ∃ m, n = m + 1 + 1 + 1 := ⟨n - 3, by omega⟩
  have readLeft := hl (m + 1) (t :: (after ++ rest)) (by omega) (ends_operator h)
  have readRight := hr m rest (by omega) (ends.mono (Nat.le_succ _))
  rw [level.readAt_rank, List.append_assoc, List.cons_append]
  simp only [readLevel?, level.readOperand?_succ, readLeft, readTail?, h, readRight, single]
  simp

end

/-! ## Whole expressions -/

/-- The tokens are read as the expression at its own rank, and may be continued there. -/
structure Printed (e : Expr) (tokens : List Token) : Prop where
  reads : ReadsAt e.rank e tokens
  chains : ∀ level : Level, level.repeats = true → e.rank = level.rank → Chains level e tokens

theorem Level.rank_injective {level level' : Level} (h : level.rank = level'.rank) :
    level = level' := by
  cases level <;> cases level' <;> first | rfl | cases h

theorem Printed.chained (h : Printed e tokens) (some_tokens : tokens ≠ []) {level : Level}
    (repeats : level.repeats = true) : Chains level e (wrap level.leftRank e.rank tokens) := by
  have le : level.rank + 1 ≤ 7 := by cases level <;> decide
  rw [Level.leftRank, if_pos repeats]
  by_cases same : e.rank = level.rank
  · rw [wrap, if_neg (by omega)]
    exact h.chains level repeats same
  · have read := h.reads.wrapped some_tokens (rank_le e) le
    have place : wrap (level.rank + 1) e.rank tokens = wrap level.rank e.rank tokens := by
      unfold wrap
      split
      · rw [if_pos (by omega)]
      · rw [if_neg (by omega)]
    rw [place] at read
    exact read.chains (wrap_ne_nil some_tokens _ _)

theorem Printed.joined {level : Level} {left right : Expr} {before after : List Token} {t : Token}
    {join : Expr → Expr → Expr} (hl : Printed left before) (hr : Printed right after)
    (someBefore : before ≠ []) (someAfter : after ≠ []) (h : level.join? t = some join)
    (own : (join left right).rank = level.rank) :
    Printed (join left right)
      (wrap level.leftRank left.rank before ++ t :: wrap (level.rank + 1) right.rank after) := by
  have le : level.rank + 1 ≤ 7 := by cases level <;> decide
  have readRight := hr.reads.wrapped someAfter (rank_le right) le
  by_cases repeats : level.repeats = true
  · have chain := (hl.chained someBefore repeats).extend h repeats readRight
    constructor
    · rw [own]
      exact chain.reads (by simp)
    · intro level' _ same
      obtain rfl := Level.rank_injective (own.symm.trans same)
      exact chain
  · have readLeft := hl.reads.wrapped someBefore (rank_le left) le
    rw [Bool.not_eq_true] at repeats
    rw [Level.leftRank, repeats]
    constructor
    · rw [own]
      exact readLeft.once h repeats readRight
    · intro level' repeats' same
      obtain rfl := Level.rank_injective (own.symm.trans same)
      rw [repeats] at repeats'
      exact Bool.noConfusion repeats'

/-- The tokens between the parentheses of a call are read as its arguments. -/
def ReadsArgs (args : List Expr) (tokens : List Token) : Prop :=
  ∀ n rest, 16 * tokens.length + 30 ≤ n + 16 →
    readArguments? n (tokens ++ .closing :: rest) = some (args, rest)

theorem Printed.of_rank (read : ReadsAt e.rank e tokens) (h : e.rank = 0 ∨ 6 ≤ e.rank) :
    Printed e tokens := by
  refine ⟨read, fun level _ same => ?_⟩
  have bounds : 0 < level.rank ∧ level.rank < 6 := by cases level <;> decide
  omega

theorem readsAt_lit (value : Json) : ReadsAt 7 (.lit value) [.lit value] := by
  intro n rest enough _
  simp only [List.length_singleton, descent] at enough
  obtain ⟨m, rfl⟩ : ∃ m, n = m + 1 := ⟨n - 1, by omega⟩
  rfl

theorem readsAt_path {source root : String} {segments : List Segment}
    (h : segments.all Segment.isAddressable = true) :
    ReadsAt 7 (.path root segments) [.path source root segments] := by
  intro n rest enough ends
  simp only [List.length_singleton, descent] at enough
  obtain ⟨m, rfl⟩ : ∃ m, n = m + 1 := ⟨n - 1, by omega⟩
  cases rest with
  | nil => simp [readAt, readPrimary?, h]
  | cons t rest =>
    -- What follows the path is not the parenthesis of a call.
    have notCall : t ≠ .opening := by
      rintro rfl
      exact absurd (ends_cons.mp ends 7 rfl) (Nat.lt_irrefl 7)
    simp only [readAt, List.singleton_append]
    cases t <;> first | exact absurd rfl notCall | simp [readPrimary?, h]

theorem readsAt_call_nil (name root : String) (segments : List Segment) :
    ReadsAt 7 (.call name []) [.path name root segments, .opening, .closing] := by
  intro n rest enough _
  simp only [List.length_cons, descent] at enough
  obtain ⟨m, rfl⟩ : ∃ m, n = m + 1 := ⟨n - 1, by omega⟩
  rfl

theorem readPrimary?_call {n : Nat} {name root : String} {segments : List Segment} {first : Token}
    (h : first ≠ .closing) :
    readPrimary? (n + 1) (.path name root segments :: .opening :: first :: rest) =
      (readArguments? n (first :: rest)).map fun (args, rest) => (.call name args, rest) := by
  cases first <;> first | rfl | exact absurd rfl h

theorem readsAt_call {name root : String} {segments : List Segment} {args : List Expr}
    (h : ReadsArgs args tokens) (phrase : Phrase tokens) :
    ReadsAt 7 (.call name args) (.path name root segments :: .opening :: (tokens ++ [.closing])) := by
  intro n rest enough _
  simp only [List.length_cons, List.length_append, descent] at enough
  obtain ⟨m, rfl⟩ : ∃ m, n = m + 1 := ⟨n - 1, by omega⟩
  have read := h m rest (by omega)
  obtain ⟨first, isFirst, starts⟩ := phrase.start
  have notClosing : first ≠ .closing := by
    rintro rfl
    exact Bool.noConfusion starts
  obtain ⟨others, rfl⟩ : ∃ others, tokens = first :: others := by
    cases tokens with
    | nil => simp at isFirst
    | cons t others => exact ⟨others, by simp_all⟩
  simp only [readAt, List.cons_append, List.append_assoc, List.nil_append] at read ⊢
  rw [readPrimary?_call notClosing, read]
  rfl

theorem readsAt_bang (h : ReadsAt 6 e tokens) : ReadsAt 6 (.not e) (.bang :: tokens) := by
  intro n rest enough ends
  simp only [List.length_cons, descent] at enough
  obtain ⟨m, rfl⟩ : ∃ m, n = m + 1 := ⟨n - 1, by omega⟩
  have read := h m rest (by simp only [descent]; omega) ends
  simp only [readAt] at read ⊢
  simp only [List.cons_append, readSigned?, read, Option.map_some]

theorem readsAt_minus (h : ReadsAt 6 e tokens) : ReadsAt 6 (.neg e) (.op .sub :: tokens) := by
  intro n rest enough ends
  simp only [List.length_cons, descent] at enough
  obtain ⟨m, rfl⟩ : ∃ m, n = m + 1 := ⟨n - 1, by omega⟩
  have read := h m rest (by simp only [descent]; omega) ends
  simp only [readAt] at read ⊢
  simp only [List.cons_append, readSigned?, read, Option.map_some]

theorem readsAt_cond {test yes no : Expr} {tokens₁ tokens₂ tokens₃ : List Token}
    (h₁ : ReadsAt 1 test tokens₁) (h₂ : ReadsAt 0 yes tokens₂) (h₃ : ReadsAt 0 no tokens₃) :
    ReadsAt 0 (.cond test yes no) (tokens₁ ++ .question :: (tokens₂ ++ .colon :: tokens₃)) := by
  intro n rest enough ends
  simp only [List.length_append, List.length_cons, descent] at enough
  obtain ⟨m, rfl⟩ : ∃ m, n = m + 1 := ⟨n - 1, by omega⟩
  have read₁ := h₁ m (.question :: (tokens₂ ++ .colon :: (tokens₃ ++ rest)))
    (by simp only [descent]; omega) (ends_cons.mpr (by simp [Token.rank?]))
  have read₂ := h₂ m (.colon :: (tokens₃ ++ rest)) (by simp only [descent]; omega)
    (ends_cons.mpr (by simp [Token.rank?]))
  have read₃ := h₃ m rest (by simp only [descent]; omega) ends
  simp only [readAt] at read₁ read₂ read₃ ⊢
  simp only [List.append_assoc, List.cons_append, readConditional?, read₁, read₂, read₃,
    Option.map_some]

theorem readsArgs_single {arg : Expr} (h : ReadsAt 0 arg tokens) : ReadsArgs [arg] tokens := by
  intro n rest enough
  obtain ⟨m, rfl⟩ : ∃ m, n = m + 1 := ⟨n - 1, by omega⟩
  have read := h m (.closing :: rest) (by simp only [descent]; omega)
    (ends_cons.mpr (by simp [Token.rank?]))
  simp only [readAt] at read
  simp only [readArguments?, read]

theorem readsArgs_cons {arg : Expr} {args : List Expr} {others : List Token}
    (h : ReadsAt 0 arg tokens) (h' : ReadsArgs args others) :
    ReadsArgs (arg :: args) (tokens ++ .comma :: others) := by
  intro n rest enough
  simp only [List.length_append, List.length_cons] at enough
  obtain ⟨m, rfl⟩ : ∃ m, n = m + 1 := ⟨n - 1, by omega⟩
  have read := h m (.comma :: (others ++ .closing :: rest)) (by simp only [descent]; omega)
    (ends_cons.mpr (by simp [Token.rank?]))
  have readOthers := h' m rest (by omega)
  simp only [readAt] at read
  simp only [List.append_assoc, List.cons_append, readArguments?, read, readOthers, Option.map_some]

theorem join?_level (op : BinaryOp) : op.level.join? (.op op) = some (.binary op) := by
  cases op <;> rfl

section

variable {style : Style} {ok : Token → Prop}

theorem Printed.readsAt (h : Printed e (e.tokens style)) {r : Nat} (le : r ≤ 7) :
    ReadsAt r e (wrap r e.rank (e.tokens style)) :=
  h.reads.wrapped (phrase_tokens style e).ne_nil (rank_le e) le

theorem Printed.loosest (h : Printed e (e.tokens style)) : ReadsAt 0 e (e.tokens style) :=
  h.reads.descend (phrase_tokens style e).ne_nil (Nat.zero_le _) (rank_le e)

mutual

/-- An expression made from readable tokens is read back from the tokens that it is printed in. -/
theorem printed_tokens (style : Style) (readable : ∀ t, ok t → ∃ used, t.Spelled used) :
    ∀ e : Expr, e.From ok → Printed e (e.tokens style)
  | .lit value, _ => .of_rank (readsAt_lit value) (.inr (by simp [rank]))
  | .path root segments, made => .of_rank (readsAt_path made.2) (.inr (by simp [rank]))
  | .call name args, made => by
    obtain ⟨root, segments, known⟩ := made.1
    obtain ⟨used, spelled⟩ := readable _ known
    have named : callee name = .path name root segments := Style.callee_of_spelled spelled
    refine .of_rank ?_ (.inr (by simp [rank]))
    simp only [tokens, named]
    rcases readsArgs_argTokens style readable args made.2 with rfl | read
    · exact readsAt_call_nil name root segments
    · rcases phrase_argTokens style args with rfl | phrase
      · exact readsAt_call_nil name root segments
      · exact readsAt_call read phrase
  | .not operand, made => by
    have inner := printed_tokens style readable operand made
    exact .of_rank (readsAt_bang (inner.readsAt (by decide))) (.inr (by simp [rank]))
  | .neg operand, made => by
    have inner := printed_tokens style readable operand made
    exact .of_rank (readsAt_minus (inner.readsAt (by decide))) (.inr (by simp [rank]))
  | .binary op left right, made => by
    have first := printed_tokens style readable left made.1
    have second := printed_tokens style readable right made.2
    exact first.joined second (phrase_tokens style left).ne_nil (phrase_tokens style right).ne_nil
      (join?_level op) rfl
  | .and left right, made => by
    have first := printed_tokens style readable left made.1
    have second := printed_tokens style readable right made.2
    exact first.joined second (phrase_tokens style left).ne_nil (phrase_tokens style right).ne_nil
      rfl rfl
  | .or left right, made => by
    have first := printed_tokens style readable left made.1
    have second := printed_tokens style readable right made.2
    exact first.joined second (phrase_tokens style left).ne_nil (phrase_tokens style right).ne_nil
      rfl rfl
  | .cond test yes no, made => by
    have first := printed_tokens style readable test made.1
    have second := printed_tokens style readable yes made.2.1
    have third := printed_tokens style readable no made.2.2
    exact .of_rank (readsAt_cond (first.readsAt (by decide)) second.loosest third.loosest) (.inl rfl)

theorem readsArgs_argTokens (style : Style) (readable : ∀ t, ok t → ∃ used, t.Spelled used) :
    ∀ args : List Expr, AllFrom ok args → args = [] ∨ ReadsArgs args (argTokens style args)
  | [], _ => .inl rfl
  | [arg], made => by
    have first := printed_tokens style readable arg made.1
    exact .inr (readsArgs_single first.loosest)
  | arg :: arg' :: args, made => by
    have first := printed_tokens style readable arg made.1
    have others := (readsArgs_argTokens style readable (arg' :: args) made.2).resolve_left (by simp)
    exact .inr (readsArgs_cons first.loosest others)

end

end

/-- Parsing undoes printing: however the strings are quoted, the numbers written and the tokens
spaced, an expression that some text writes is what its printed text writes. -/
theorem parse?_lexemes (style : Style) {e : Expr} {source text : List Char}
    (parsed : parse? source = some e) (writes : ∀ n ∈ e.numbers, style.Writes n)
    (spaced : Token.Spaced (e.lexemes style) text) : parse? text = some e := by
  have made := from_of_parse? parsed
  have readable : ∀ t, (∃ rest after, Token.Met source rest ∧ Token.next? rest = some (t, after)) →
      ∃ used, t.Spelled used := by
    rintro t ⟨rest, after, _, read⟩
    obtain ⟨used, _, spelled⟩ := Token.spelled_of_next? read
    exact ⟨used, spelled⟩
  have scanned := ofText?_of_lexemes (spells_tokens readable e made writes) spaced
  have read := (printed_tokens style readable e made).loosest (stepBound (e.tokens style)) []
    (by simp only [descent, stepBound]; omega) (by simp [Ends])
  rw [List.append_nil] at read
  simp only [readAt] at read
  simp only [parse?, scanned, Option.bind_some, ofTokens?, read]

end Expr

namespace Fare

/-- Strings in single quotes unless they hold one; the only number in use is one. -/
def style : Expr.Style where
  quote s := if s.toList.contains '\'' then '"' else '\''
  isQuote s := by
    show Token.isQuote (if s.toList.contains '\'' then '"' else '\'') = true
    split <;> rfl
  numeral _ := ['1']

/-- A choice whose test needs its parentheses and whose branches need none. -/
def fee : Expr :=
  .cond (.not (.binary .eq (.path "a" [.key "x y"]) (.call "f" [])))
    (.neg (.path "b" [])) (.lit (.str "it's"))

/-- One minus a variable. -/
def remainder : Expr :=
  .binary .sub (.lit (Token.decimalValue ['1'] [])) (.path "b" [])

theorem fee_reparsed :
    Expr.parse? " ! ( a['x y']==f ()) ? -b\n:\"it's\"".toList = some fee ∧
      Expr.parse? ((remainder.lexemes style).flatMap fun piece => ' ' :: piece) =
        some remainder := by
  constructor
  · have parsed : Expr.parse? "(!((a[\"x y\"])==f()))?(-b):'it\\'s'".toList = some fee := by cbv
    have writes : ∀ n ∈ fee.numbers, style.Writes n := by
      simp [fee, Expr.numbers, Expr.numbersOfAll]
    refine Expr.parse?_lexemes style parsed writes ?_
    exact .blank ' ' rfl <| .piece ['!'] <| .blank ' ' rfl <| .piece ['('] <| .blank ' ' rfl <|
      .piece "a['x y']".toList <| .piece ['=', '='] <| .piece ['f'] <| .blank ' ' rfl <|
      .piece ['('] <| .piece [')'] <| .piece [')'] <| .blank ' ' rfl <|
      .piece ['?'] <| .blank ' ' rfl <| .piece ['-'] <| .piece ['b'] <| .blank '\n' rfl <|
      .piece [':'] <| .piece "\"it's\"".toList .nil
  · have parsed : Expr.parse? "1-b".toList = some remainder := rfl
    refine Expr.parse?_lexemes style parsed ?_ (Token.Spaced.apart _)
    intro n hn
    -- No float is computed: what the text reads as is the number that the expression holds.
    have one : Token.decimalValue ['1'] [] = .num n := by
      simp only [remainder, Expr.numbers] at hn
      generalize Token.decimalValue ['1'] [] = value at hn ⊢
      cases value <;> simp_all [Expr.numbers]
    rw [Expr.Style.Writes, ← one]
    rfl

end Fare

end Parley
