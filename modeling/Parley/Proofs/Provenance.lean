import Parley.Expr.Parser
import Parley.Proofs.Spelling

/-!
# What an expression is made from

The readers make the literals, paths and calls of an expression out of tokens
that they were given, and they give back tokens that they were given.  So what
holds of every token of a text holds of the leaves of its expression.
-/

set_option autoImplicit false

namespace Parley

namespace Expr

mutual

/-- Every literal, path and call of the expression is made from a token that satisfies `ok`, and
every path can be followed. -/
def From (ok : Token → Prop) : Expr → Prop
  | .lit value => ok (.lit value)
  | .path root segments =>
    (∃ source, ok (.path source root segments)) ∧ segments.all Segment.isAddressable = true
  | .call name args => (∃ root segments, ok (.path name root segments)) ∧ AllFrom ok args
  | .not operand => From ok operand
  | .neg operand => From ok operand
  | .binary _ left right => From ok left ∧ From ok right
  | .and left right => From ok left ∧ From ok right
  | .or left right => From ok left ∧ From ok right
  | .cond test yes no => From ok test ∧ From ok yes ∧ From ok no

/-- Every argument is made from such tokens. -/
def AllFrom (ok : Token → Prop) : List Expr → Prop
  | [] => True
  | arg :: args => From ok arg ∧ AllFrom ok args

end

variable {ok : Token → Prop} {n : Nat} {e : Expr} {tokens rest : List Token}

theorem Level.from_join {level : Level} {t : Token} {join : Expr → Expr → Expr} {left right : Expr}
    (h : level.join? t = some join) (hl : left.From ok) (hr : right.From ok) :
    (join left right).From ok := by
  unfold Level.join? at h
  split at h <;> (try split at h) <;> simp at h <;> subst h <;> exact ⟨hl, hr⟩

/-- What all readers keep with `n` steps. -/
structure ReadsFrom (ok : Token → Prop) (n : Nat) : Prop where
  conditional : ∀ {tokens e rest}, readConditional? n tokens = some (e, rest) →
    (∀ t ∈ tokens, ok t) → e.From ok ∧ ∀ t ∈ rest, ok t
  level : ∀ {level tokens e rest}, readLevel? n level tokens = some (e, rest) →
    (∀ t ∈ tokens, ok t) → e.From ok ∧ ∀ t ∈ rest, ok t
  operand : ∀ {level tokens e rest}, readOperand? n level tokens = some (e, rest) →
    (∀ t ∈ tokens, ok t) → e.From ok ∧ ∀ t ∈ rest, ok t
  tail : ∀ {level left tokens e rest}, readTail? n level left tokens = some (e, rest) →
    left.From ok → (∀ t ∈ tokens, ok t) → e.From ok ∧ ∀ t ∈ rest, ok t
  signed : ∀ {tokens e rest}, readSigned? n tokens = some (e, rest) →
    (∀ t ∈ tokens, ok t) → e.From ok ∧ ∀ t ∈ rest, ok t
  primary : ∀ {tokens e rest}, readPrimary? n tokens = some (e, rest) →
    (∀ t ∈ tokens, ok t) → e.From ok ∧ ∀ t ∈ rest, ok t
  arguments : ∀ {tokens args rest}, readArguments? n tokens = some (args, rest) →
    (∀ t ∈ tokens, ok t) → AllFrom ok args ∧ ∀ t ∈ rest, ok t

namespace ReadsFrom

theorem conditional_succ (ih : ReadsFrom ok n)
    (h : readConditional? (n + 1) tokens = some (e, rest)) (good : ∀ t ∈ tokens, ok t) :
    e.From ok ∧ ∀ t ∈ rest, ok t := by
  simp only [readConditional?] at h
  split at h
  · simp at h
  · rename_i test afterTest readTest
    obtain ⟨fromTest, goodTest⟩ := ih.level readTest good
    split at h
    · rename_i yes afterYes readYes
      obtain ⟨fromYes, goodYes⟩ := ih.conditional readYes (List.forall_mem_cons.mp goodTest).2
      obtain ⟨⟨no, afterNo⟩, readNo, same⟩ := Option.map_eq_some_iff.mp h
      obtain ⟨rfl, rfl⟩ := Prod.mk.inj same
      obtain ⟨fromNo, goodNo⟩ := ih.conditional readNo (List.forall_mem_cons.mp goodYes).2
      exact ⟨⟨fromTest, fromYes, fromNo⟩, goodNo⟩
    · simp at h
  · rename_i test afterTest _ readTest
    obtain ⟨rfl, rfl⟩ := Prod.mk.inj (Option.some.inj h)
    exact ih.level readTest good

theorem level_succ (ih : ReadsFrom ok n) {level : Level}
    (h : readLevel? (n + 1) level tokens = some (e, rest)) (good : ∀ t ∈ tokens, ok t) :
    e.From ok ∧ ∀ t ∈ rest, ok t := by
  simp only [readLevel?] at h
  split at h
  · simp at h
  · rename_i left after read
    obtain ⟨fromLeft, goodLeft⟩ := ih.operand read good
    exact ih.tail h fromLeft goodLeft

theorem operand_succ (ih : ReadsFrom ok n) {level : Level}
    (h : readOperand? (n + 1) level tokens = some (e, rest)) (good : ∀ t ∈ tokens, ok t) :
    e.From ok ∧ ∀ t ∈ rest, ok t := by
  simp only [readOperand?] at h
  split at h
  · exact ih.level h good
  · exact ih.signed h good

theorem tail_succ (ih : ReadsFrom ok n) {level : Level} {left : Expr}
    (h : readTail? (n + 1) level left tokens = some (e, rest)) (fromLeft : left.From ok)
    (good : ∀ t ∈ tokens, ok t) : e.From ok ∧ ∀ t ∈ rest, ok t := by
  cases tokens with
  | nil =>
    obtain ⟨rfl, rfl⟩ := Prod.mk.inj (Option.some.inj h)
    exact ⟨fromLeft, good⟩
  | cons token tokens =>
    simp only [readTail?] at h
    split at h
    · obtain ⟨rfl, rfl⟩ := Prod.mk.inj (Option.some.inj h)
      exact ⟨fromLeft, good⟩
    · rename_i join joined
      split at h
      · simp at h
      · rename_i right after read
        obtain ⟨fromRight, goodRight⟩ := ih.operand read (List.forall_mem_cons.mp good).2
        have fromJoin := Level.from_join joined fromLeft fromRight
        split at h
        · exact ih.tail h fromJoin goodRight
        · obtain ⟨rfl, rfl⟩ := Prod.mk.inj (Option.some.inj h)
          exact ⟨fromJoin, goodRight⟩

theorem signed_succ (ih : ReadsFrom ok n) (h : readSigned? (n + 1) tokens = some (e, rest))
    (good : ∀ t ∈ tokens, ok t) : e.From ok ∧ ∀ t ∈ rest, ok t := by
  simp only [readSigned?] at h
  split at h
  case h_3 => exact ih.primary h good
  all_goals
    obtain ⟨⟨operand, after⟩, read, same⟩ := Option.map_eq_some_iff.mp h
    obtain ⟨rfl, rfl⟩ := Prod.mk.inj same
    have kept := ih.signed read (List.forall_mem_cons.mp good).2
    exact kept

theorem primary_succ (ih : ReadsFrom ok n) (h : readPrimary? (n + 1) tokens = some (e, rest))
    (good : ∀ t ∈ tokens, ok t) : e.From ok ∧ ∀ t ∈ rest, ok t := by
  simp only [readPrimary?] at h
  split at h
  case h_1 =>
    obtain ⟨rfl, rfl⟩ := Prod.mk.inj (Option.some.inj h)
    exact List.forall_mem_cons.mp good
  case h_2 =>
    obtain ⟨rfl, rfl⟩ := Prod.mk.inj (Option.some.inj h)
    obtain ⟨name, others⟩ := List.forall_mem_cons.mp good
    exact ⟨⟨⟨_, _, name⟩, trivial⟩, fun t ht => others t (by simp [ht])⟩
  case h_3 =>
    obtain ⟨⟨args, after⟩, read, same⟩ := Option.map_eq_some_iff.mp h
    obtain ⟨rfl, rfl⟩ := Prod.mk.inj same
    obtain ⟨name, others⟩ := List.forall_mem_cons.mp good
    obtain ⟨fromArgs, goodArgs⟩ := ih.arguments read (List.forall_mem_cons.mp others).2
    exact ⟨⟨⟨_, _, name⟩, fromArgs⟩, goodArgs⟩
  case h_4 =>
    split at h
    · rename_i addressable
      obtain ⟨rfl, rfl⟩ := Prod.mk.inj (Option.some.inj h)
      obtain ⟨path, others⟩ := List.forall_mem_cons.mp good
      exact ⟨⟨⟨_, path⟩, addressable⟩, others⟩
    · simp at h
  case h_5 =>
    split at h
    · rename_i inner after read
      obtain ⟨rfl, rfl⟩ := Prod.mk.inj (Option.some.inj h)
      obtain ⟨fromInner, goodInner⟩ := ih.conditional read (List.forall_mem_cons.mp good).2
      exact ⟨fromInner, (List.forall_mem_cons.mp goodInner).2⟩
    · simp at h
  case h_6 => simp at h

theorem arguments_succ (ih : ReadsFrom ok n) {args : List Expr}
    (h : readArguments? (n + 1) tokens = some (args, rest)) (good : ∀ t ∈ tokens, ok t) :
    AllFrom ok args ∧ ∀ t ∈ rest, ok t := by
  simp only [readArguments?] at h
  split at h
  · rename_i arg after read
    obtain ⟨fromArg, goodArg⟩ := ih.conditional read good
    obtain ⟨⟨others, after'⟩, readOthers, same⟩ := Option.map_eq_some_iff.mp h
    obtain ⟨rfl, rfl⟩ := Prod.mk.inj same
    obtain ⟨fromOthers, goodOthers⟩ := ih.arguments readOthers (List.forall_mem_cons.mp goodArg).2
    exact ⟨⟨fromArg, fromOthers⟩, goodOthers⟩
  · rename_i arg after read
    obtain ⟨fromArg, goodArg⟩ := ih.conditional read good
    obtain ⟨rfl, rfl⟩ := Prod.mk.inj (Option.some.inj h)
    exact ⟨⟨fromArg, trivial⟩, (List.forall_mem_cons.mp goodArg).2⟩
  · simp at h

end ReadsFrom

theorem readsFrom (ok : Token → Prop) (n : Nat) : ReadsFrom ok n := by
  -- Every reader calls the others with one step less, so all of them go together.
  induction n with
  | zero => constructor <;> simp [readConditional?, readLevel?, readOperand?, readTail?, readSigned?,
      readPrimary?, readArguments?]
  | succ n ih =>
    exact {
      conditional := ih.conditional_succ
      level := ih.level_succ
      operand := ih.operand_succ
      tail := ih.tail_succ
      signed := ih.signed_succ
      primary := ih.primary_succ
      arguments := ih.arguments_succ }

/-- The leaves of a parsed expression are tokens that the scanner met in its text. -/
theorem from_of_parse? {source : List Char} (h : parse? source = some e) :
    e.From fun t => ∃ rest after, Token.Met source rest ∧ Token.next? rest = some (t, after) := by
  obtain ⟨tokens, scanned, formed⟩ := Option.bind_eq_some_iff.mp h
  have good := Token.met_of_scan? scanned
  unfold ofTokens? at formed
  split at formed
  · rename_i e' read
    obtain rfl := Option.some.inj formed
    exact ((readsFrom _ _).conditional read good).1
  · simp at formed

end Expr

end Parley
