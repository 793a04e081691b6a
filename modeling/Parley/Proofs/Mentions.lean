import Parley.Proofs.Notices
import Parley.Proofs.Placeholders
import Parley.Proofs.Provenance

/-!
# Texts that mention neither the flow nor the time

Expressions reach the name of the flow in progress and the present time by their
names only.  A name in an expression is made from characters of its source, so a
source that does not mention these two means the same in every flow and at every
time.  A placeholder inside another one can put such a name together out of the
values of variables; a text without such placeholders cannot.
-/

set_option autoImplicit false

namespace Parley

/-- The text mentions neither the name of the flow in progress nor the present time. -/
structure Text.Oblivious (text : List Char) : Prop where
  flowName : ¬"flowName".toList <:+: text
  currentTime : ¬"currentTime".toList <:+: text

instance (text : List Char) : Decidable (Text.Oblivious text) :=
  decidable_of_iff (¬"flowName".toList <:+: text ∧ ¬"currentTime".toList <:+: text)
    ⟨fun h => ⟨h.1, h.2⟩, fun h => ⟨h.flowName, h.currentTime⟩⟩

/-- The other scope may be that of another flow at another time, and is the same else. -/
structure Scope.Near (a b : Scope) : Prop where
  vars : b.vars = a.vars
  userId : b.surroundings.userId = a.surroundings.userId
  sessionId : b.surroundings.sessionId = a.surroundings.sessionId
  language : b.surroundings.language = a.surroundings.language

namespace Text

theorem Oblivious.part {text used : List Char} (h : Oblivious text) (hused : used <:+: text) :
    Oblivious used :=
  ⟨fun hname => h.flowName (hname.trans hused), fun hname => h.currentTime (hname.trans hused)⟩

end Text

/-! ## Expressions -/

/-- The token does not give the name of the flow in progress or of the present time. -/
def Token.Oblivious : Token → Prop
  | .path source root _ => root ≠ "flowName" ∧ root ≠ "currentTime" ∧ source ≠ "currentTime"
  | _ => True

/-- A place that the scanner comes to is an end of the text. -/
theorem Token.Met.suffix {text rest : List Char} (h : Met text rest) : rest <:+ text := by
  induction h with
  | start => exact List.dropWhile_suffix _
  | onward _ read ih =>
      obtain ⟨used, rfl, -⟩ := spelled_of_next? read
      exact (List.dropWhile_suffix _).trans ((List.suffix_append used _).trans ih)

/-- The tokens of a text that mentions neither name do not give them. -/
theorem Token.oblivious_of_met {text rest after : List Char} {t : Token}
    (htext : Text.Oblivious text) (hmet : Met text rest) (read : next? rest = some (t, after)) :
    t.Oblivious := by
  obtain ⟨used, rfl, hspelled⟩ := spelled_of_next? read
  have hused : Text.Oblivious used :=
    htext.part ((List.prefix_append used after).isInfix.trans hmet.suffix.isInfix)
  cases hspelled with
  | whole | fractional | quoted | reserved => trivial
  | sign h =>
      cases t with
      | path source root segments => cases h
      | _ => trivial
  | @path name steps segments isName free spelled =>
      have hname : Text.Oblivious name := hused.part (List.prefix_append name steps).isInfix
      refine ⟨?_, ?_, ?_⟩
      · rintro heq
        exact hname.flowName (by rw [← heq, String.toList_ofList])
      · rintro heq
        exact hname.currentTime (by rw [← heq, String.toList_ofList])
      · rintro heq
        exact hused.currentTime (by rw [← heq, String.toList_ofList])

namespace Expr

mutual

/-- What holds of the tokens of an expression may be weakened. -/
theorem From.imp {p q : Token → Prop} (himp : ∀ t, p t → q t) : ∀ {e : Expr}, e.From p → e.From q
  | .lit _, h => himp _ h
  | .path _ _, ⟨⟨source, h⟩, haddressable⟩ => ⟨⟨source, himp _ h⟩, haddressable⟩
  | .call _ _, ⟨⟨root, segments, h⟩, hargs⟩ => ⟨⟨root, segments, himp _ h⟩, hargs.imp himp⟩
  | .not operand, h => From.imp himp (e := operand) h
  | .neg operand, h => From.imp himp (e := operand) h
  | .binary _ _ _, ⟨h, h'⟩ => ⟨h.imp himp, h'.imp himp⟩
  | .and _ _, ⟨h, h'⟩ => ⟨h.imp himp, h'.imp himp⟩
  | .or _ _, ⟨h, h'⟩ => ⟨h.imp himp, h'.imp himp⟩
  | .cond _ _ _, ⟨h, h', h''⟩ => ⟨h.imp himp, h'.imp himp, h''.imp himp⟩

theorem AllFrom.imp {p q : Token → Prop} (himp : ∀ t, p t → q t) :
    ∀ {args : List Expr}, AllFrom p args → AllFrom q args
  | [], _ => trivial
  | _ :: _, ⟨h, h'⟩ => ⟨h.imp himp, h'.imp himp⟩

end

variable {a b : Scope}

theorem lookup?_near (h : a.Near b) {name : String} (hflow : name ≠ "flowName")
    (htime : name ≠ "currentTime") : b.lookup? name = a.lookup? name := by
  simp only [Scope.lookup?, Scope.provided?, h.vars, h.userId, h.sessionId, h.language, hflow,
    htime, if_false]

theorem apply_near {name : String} (htime : name ≠ "currentTime") {f : Function}
    (hf : Function.ofName? name = some f) (now later : String) (values : List Json) :
    f.apply later values = f.apply now values := by
  cases f with
  | currentTime =>
      simp only [Function.ofName?, htime, if_false] at hf
      split at hf <;> cases hf
  | extractCryptoSymbol => rfl

mutual

/-- An expression that gives neither name has the same value in scopes that are near. -/
theorem eval_near (h : a.Near b) : ∀ {e : Expr}, e.From Token.Oblivious → eval b e = eval a e
  | .lit _, _ => rfl
  | .path root segments, ⟨⟨_, hflow, htime, _⟩, _⟩ => by
      simp only [eval, evalPath, lookup?_near h hflow htime]
  | .call name args, ⟨⟨_, _, _, _, htime⟩, hargs⟩ => by
      simp only [eval, evalArgs_near h hargs]
      cases hf : Function.ofName? name with
      | none => rfl
      | some f =>
          simp only
          cases evalArgs a args with
          | error refusal => rfl
          | ok values => exact congrArg Except.ok (apply_near htime hf _ _ values)
  | .not operand, hoperand => by
      simp only [eval, eval_near h (e := operand) hoperand]
  | .neg operand, hoperand => by
      simp only [eval, eval_near h (e := operand) hoperand]
  | .binary _ left right, ⟨hleft, hright⟩ => by
      simp only [eval, eval_near h hleft, eval_near h hright]
  | .and left right, ⟨hleft, hright⟩ => by
      simp only [eval, eval_near h hleft, eval_near h hright]
  | .or left right, ⟨hleft, hright⟩ => by
      simp only [eval, eval_near h hleft, eval_near h hright]
  | .cond test yes no, ⟨htest, hyes, hno⟩ => by
      simp only [eval, eval_near h htest, eval_near h hyes, eval_near h hno]

theorem evalArgs_near (h : a.Near b) :
    ∀ {args : List Expr}, AllFrom Token.Oblivious args → evalArgs b args = evalArgs a args
  | [], _ => rfl
  | _ :: _, ⟨harg, hargs⟩ => by
      simp only [evalArgs, eval_near h harg, evalArgs_near h hargs]

end

/-- A source that mentions neither name has the same value in scopes that are near. -/
theorem evaluate_near (h : a.Near b) {source : List Char} (hsource : Text.Oblivious source) :
    evaluate b source = evaluate a source := by
  have htrimmed : Text.Oblivious (Text.trim source) := hsource.part (Text.trim_isInfix source)
  unfold evaluate
  simp only
  cases hparsed : parse? (Text.trim source) with
  | none => rfl
  | some e =>
      have hfrom : e.From Token.Oblivious := (from_of_parse? hparsed).imp fun t => by
        rintro ⟨rest, after, hmet, read⟩
        exact Token.oblivious_of_met htrimmed hmet read
      simp only [evalChecked, eval_near h hfrom]

end Expr

/-! ## Templates -/

namespace Template

variable {text source inner rest before : List Char}

theorem closing?_text {n : Nat} (h : closing? n text = some (inner, rest)) :
    text = inner ++ '\x7d' :: '\x7d' :: rest := by
  fun_induction closing? n text generalizing inner rest with
  | case1 n text ih =>
      obtain ⟨⟨i, r⟩, hir, heq⟩ := Option.map_eq_some_iff.1 h
      obtain ⟨rfl, rfl⟩ := Prod.mk.inj heq
      rw [ih hir]
      rfl
  | case2 text =>
      obtain ⟨rfl, rfl⟩ := Prod.mk.inj (Option.some.inj h)
      rfl
  | case3 n text ih =>
      obtain ⟨⟨i, r⟩, hir, heq⟩ := Option.map_eq_some_iff.1 h
      obtain ⟨rfl, rfl⟩ := Prod.mk.inj heq
      rw [ih hir]
      rfl
  | case4 n c text _ _ _ ih =>
      obtain ⟨⟨i, r⟩, hir, heq⟩ := Option.map_eq_some_iff.1 h
      obtain ⟨rfl, rfl⟩ := Prod.mk.inj heq
      rw [ih hir]
      rfl
  | case5 => cases h

/-- What closes a placeholder closes it in a longer text as well. -/
theorem closing?_append {n : Nat} (h : closing? n text = some (inner, rest)) (more : List Char) :
    closing? n (text ++ more) = some (inner, rest ++ more) := by
  fun_induction closing? n text generalizing inner rest with
  | case1 n text ih =>
      obtain ⟨⟨i, r⟩, hir, heq⟩ := Option.map_eq_some_iff.1 h
      obtain ⟨rfl, rfl⟩ := Prod.mk.inj heq
      simp [closing?, ih hir]
  | case2 text =>
      obtain ⟨rfl, rfl⟩ := Prod.mk.inj (Option.some.inj h)
      simp [closing?]
  | case3 n text ih =>
      obtain ⟨⟨i, r⟩, hir, heq⟩ := Option.map_eq_some_iff.1 h
      obtain ⟨rfl, rfl⟩ := Prod.mk.inj heq
      simp [closing?, ih hir]
  | case4 n c text _ _ _ ih =>
      obtain ⟨⟨i, r⟩, hir, heq⟩ := Option.map_eq_some_iff.1 h
      obtain ⟨rfl, rfl⟩ := Prod.mk.inj heq
      cases text with
      | nil => cases n <;> cases hir
      | cons d text =>
          have hmore := ih hir
          rw [List.cons_append] at hmore
          rw [List.cons_append, List.cons_append, closing?.eq_def]
          split <;> simp_all
  | case5 => cases h

theorem firstHole?_text (h : firstHole? text = some (before, inner, rest)) :
    text = before ++ '\x7b' :: '\x7b' :: (inner ++ '\x7d' :: '\x7d' :: rest) := by
  fun_induction firstHole? text generalizing before inner rest with
  | case1 text =>
      obtain ⟨⟨i, r⟩, hir, heq⟩ := Option.map_eq_some_iff.1 h
      obtain ⟨rfl, rfl, rfl⟩ : [] = before ∧ i = inner ∧ r = rest := by simpa using heq
      rw [closing?_text hir]
      rfl
  | case2 c text _ ih =>
      obtain ⟨⟨b, i, r⟩, hir, heq⟩ := Option.map_eq_some_iff.1 h
      obtain ⟨rfl, rfl, rfl⟩ : c :: b = before ∧ i = inner ∧ r = rest := by simpa using heq
      rw [ih hir]
      rfl
  | case3 => cases h

/-- No placeholder of the text stands inside another one. -/
def Shallow (text : List Char) : Prop :=
  ∀ source pieces, Piece.hole source pieces ∈ ofText text → hasOpening source = false

/-- The piece is plain text, or a placeholder without others inside. -/
def isFlat : Piece → Bool
  | .text _ => true
  | .hole source _ => !hasOpening source

theorem shallow_iff : Shallow text ↔ (ofText text).all isFlat = true := by
  rw [List.all_eq_true]
  constructor
  · intro h piece hpiece
    cases piece with
    | text chars => rfl
    | hole source pieces => simp [isFlat, h source pieces hpiece]
  · intro h source pieces hmem
    simpa [isFlat] using h _ hmem

instance (text : List Char) : Decidable (Shallow text) :=
  decidable_of_iff _ shallow_iff.symm

/-- The source of a placeholder is a part of the text. -/
theorem part_of_hole {pieces : List Piece} (h : Piece.hole source pieces ∈ ofText text) :
    source <:+: text := by
  fun_induction ofText text with
  | case1 text hnone => simp at h
  | case2 text before inner rest hfound ih ih' =>
      rw [firstHole?_text hfound]
      simp only [List.mem_cons, reduceCtorEq, Piece.hole.injEq, false_or] at h
      rcases h with ⟨rfl, -⟩ | hrest
      · exact ⟨before ++ ['\x7b', '\x7b'], '\x7d' :: '\x7d' :: rest, by simp⟩
      · exact (ih' hrest).trans
          ⟨before ++ '\x7b' :: '\x7b' :: (inner ++ ['\x7d', '\x7d']), [], by simp⟩

theorem apart_of_blank (h : ∀ c ∈ text, Text.isBlank c = true) : Apart '\x7b' text := by
  have hnone : '\x7b' ∉ text := fun hmem => absurd (h _ hmem) (by decide)
  constructor
  · intro htwice
    exact hnone (htwice.subset List.mem_cons_self)
  · intro hlast
    exact hnone (hlast.subset List.mem_cons_self)

/-- The placeholder that makes up a whole text is the first one in it; around it are blanks. -/
theorem firstHole?_of_single (h : single? text = some inner) :
    ∃ trail, (∀ c ∈ trail, Text.isBlank c = true) ∧
      firstHole? text = some (text.takeWhile Text.isBlank, inner, trail) := by
  have hlead := Text.blanks_around_trim text
  have hapart : Apart '\x7b' (text.takeWhile Text.isBlank) :=
    apart_of_blank fun c hc => List.mem_takeWhile_imp hc
  refine ⟨(Text.trimStart text).rtakeWhile Text.isBlank,
    fun c hc => List.mem_rtakeWhile_imp hc, ?_⟩
  generalize (Text.trimStart text).rtakeWhile Text.isBlank = trail at hlead
  unfold single? at h
  split at h
  · rename_i after hopening
    split at h
    · rename_i whole hclosing
      obtain rfl := Option.some.inj h
      rw [hopening] at hlead
      generalize text.takeWhile Text.isBlank = lead at hlead hapart ⊢
      rw [← hlead, List.cons_append, List.cons_append, firstHole?_plain hapart,
        closing?_append hclosing]
      rfl
    · cases h
  · cases h

theorem hole_of_single (h : single? text = some inner) :
    ∃ pieces, Piece.hole inner pieces ∈ ofText text := by
  obtain ⟨trail, -, hfirst⟩ := firstHole?_of_single h
  exact ⟨ofText inner, by rw [ofText_of_some hfirst]; simp⟩

/-! ### Rendering -/

section Rendering

variable {a b : Scope} {limit depth : Nat} {pieces : List Piece}

/-- The sources of all placeholders mention neither name and have no placeholders inside. -/
def Clear (pieces : List Piece) : Prop :=
  ∀ source nested, Piece.hole source nested ∈ pieces →
    Text.Oblivious source ∧ hasOpening source = false

theorem clear_ofText (htext : Text.Oblivious text) (hshallow : Shallow text) :
    Clear (ofText text) :=
  fun source nested hmem => ⟨htext.part (part_of_hole hmem), hshallow source nested hmem⟩

/-- The value of a placeholder without others inside. -/
theorem expand_near (h : a.Near b) (hsource : Text.Oblivious source)
    (hplain : hasOpening source = false) (depth : Nat) (pieces : List Piece) :
    expand limit b depth source pieces = expand limit a depth source pieces := by
  simp only [expand, settle, hplain, Bool.false_eq_true, if_false]
  exact Expr.evaluate_near h hsource

theorem renderPieces_near (h : a.Near b) (hclear : Clear pieces) (depth : Nat) :
    renderPieces limit b depth pieces = renderPieces limit a depth pieces := by
  induction pieces with
  | nil => simp only [renderPieces]
  | cons piece pieces ih =>
      have hpiece : renderPiece limit b depth piece = renderPiece limit a depth piece := by
        cases piece with
        | text chars => simp only [renderPiece]
        | hole source nested =>
            obtain ⟨hsource, hplain⟩ := hclear source nested List.mem_cons_self
            have hvalue : expand limit b depth source nested = expand limit a depth source nested :=
              expand_near h hsource hplain depth nested
            simp only [expand] at hvalue
            simp only [renderPiece, hvalue]
      simp only [renderPieces, hpiece,
        ih fun source nested hmem => hclear source nested (List.mem_cons_of_mem _ hmem)]

theorem bind?_near (h : a.Near b) (hclear : Clear pieces) (n : Nat) :
    bind? limit b n pieces = bind? limit a n pieces := by
  induction pieces generalizing n with
  | nil => simp only [bind?]
  | cons piece pieces ih =>
      have hrest : Clear pieces := fun source nested hmem =>
        hclear source nested (List.mem_cons_of_mem _ hmem)
      cases piece with
      | text chars => simp only [bind?, ih hrest]
      | hole source nested =>
          obtain ⟨hsource, hplain⟩ := hclear source nested List.mem_cons_self
          simp only [bind?, expand_near h hsource hplain, ih hrest]

/-- A name with no blank in it stands on one side of a blank. -/
theorem part_of_blank {name : List Char} (hname : ' ' ∉ name) {left right : List Char}
    (h : name <:+: left ++ ' ' :: right) : name <:+: left ∨ name <:+: right := by
  obtain ⟨lead, trail, heq⟩ := h
  rcases List.append_eq_append_iff.1 heq with ⟨more, hleft, -⟩ | ⟨more, hlead, htrail⟩
  · exact .inl ⟨lead, more, hleft.symm⟩
  · rcases List.append_eq_append_iff.1 hlead with ⟨rest, hleft, hsame⟩ | ⟨rest, hlead', hmore⟩
    · cases more with
      | nil =>
          rw [List.append_nil] at hsame
          exact .inl ⟨lead, [], by rw [hleft, hsame, List.append_nil]⟩
      | cons c more =>
          obtain rfl : ' ' = c := by simpa using congrArg List.head? htrail
          exact absurd (by rw [hsame]; simp) hname
    · cases rest with
      | nil =>
          cases name with
          | nil => exact .inl (List.nil_infix)
          | cons c name =>
              rw [hmore] at htrail
              obtain rfl : ' ' = c := by simpa using congrArg List.head? htrail
              exact absurd List.mem_cons_self hname
      | cons c rest =>
          rw [hmore] at htrail
          obtain ⟨-, rfl⟩ := List.cons.inj htrail
          exact .inr ⟨rest, trail, by simp⟩

theorem oblivious_blank {left right : List Char} (hleft : Text.Oblivious left)
    (hright : Text.Oblivious right) : Text.Oblivious (left ++ ' ' :: right) := by
  constructor
  · intro h
    exact (part_of_blank (by decide) h).elim hleft.flowName hright.flowName
  · intro h
    exact (part_of_blank (by decide) h).elim hleft.currentTime hright.currentTime

theorem oblivious_bindingName (n : Nat) : Text.Oblivious (bindingName n).toList := by
  have hnone : 'm' ∉ (bindingName n).toList := by
    rw [bindingName, String.toList_ofList, List.mem_cons, not_or]
    refine ⟨by decide, fun hmem => ?_⟩
    exact absurd (Decimal.isDigit_digitsOf n _ hmem) (by decide)
  constructor
  · intro h
    exact hnone (h.subset (by decide))
  · intro h
    exact hnone (h.subset (by decide))

/-- Binding the placeholders of a text that mentions neither name leaves a source that does not. -/
theorem oblivious_bound (htext : Text.Oblivious text) {scope : Scope} {n : Nat}
    {bound : List Char} {bindings : Fields}
    (h : bind? limit scope n (ofText text) = some (bound, bindings)) : Text.Oblivious bound := by
  fun_induction ofText text generalizing n bound bindings with
  | case1 text hnone =>
      obtain ⟨rfl, rfl⟩ : text = bound ∧ [] = bindings := by simpa [bind?] using h
      exact htext
  | case2 text before inner rest hfound ih ih' =>
      rw [firstHole?_text hfound] at htext
      have hbefore : Text.Oblivious before := htext.part (List.prefix_append _ _).isInfix
      have hrest : Text.Oblivious rest := by
        apply htext.part
        exact ⟨before ++ '\x7b' :: '\x7b' :: (inner ++ ['\x7d', '\x7d']), [], by simp⟩
      rw [bind?, bind?] at h
      cases hvalue : expand limit scope 1 inner (ofText inner) with
      | error refusal => simp [hvalue] at h
      | ok value =>
          cases hlater : bind? limit scope (n + 1) (ofText rest) with
          | none => simp [hvalue, hlater] at h
          | some later =>
              obtain ⟨source, others⟩ := later
              simp only [hvalue, hlater, Option.map_some, Option.some.injEq,
                Prod.mk.injEq] at h
              obtain ⟨rfl, -⟩ := h
              have hname := oblivious_bindingName n
              have hmiddle := oblivious_blank hname (ih' hrest hlater)
              exact oblivious_blank hbefore hmiddle

end Rendering

end Template

/-! ## Texts, conditions and values of steps -/

/-- The text mentions neither the name of the flow in progress nor the present time, and no
placeholder of it stands inside another one. -/
structure Template.Plain (text : String) : Prop where
  oblivious : Text.Oblivious text.toList
  shallow : Shallow text.toList

instance (text : String) : Decidable (Template.Plain text) :=
  decidable_of_iff (Text.Oblivious text.toList ∧ Template.Shallow text.toList)
    ⟨fun h => ⟨h.1, h.2⟩, fun h => ⟨h.oblivious, h.shallow⟩⟩

/-- All strings that stand in the value as values, not as keys, are as required. -/
inductive Json.EachText (p : String → Prop) : Json → Prop where
  | null : EachText p .null
  | bool (b : Bool) : EachText p (.bool b)
  | num (n : Number) : EachText p (.num n)
  | str {s : String} (h : p s) : EachText p (.str s)
  | arr {items : List Json} (each : ∀ item ∈ items, EachText p item) : EachText p (.arr items)
  | obj {fields : Fields} (each : ∀ field ∈ fields, EachText p field.2) : EachText p (.obj fields)

namespace Evaluator

variable {a b : Scope} {evaluator : Evaluator} {text : String}

theorem expandWhole_near (h : a.Near b) (htext : Template.Plain text) {inner : List Char}
    (hsingle : Template.single? text.toList = some inner) :
    evaluator.expandWhole b inner = evaluator.expandWhole a inner := by
  obtain ⟨pieces, hmem⟩ := Template.hole_of_single hsingle
  obtain ⟨hsource, hplain⟩ := Template.clear_ofText htext.oblivious htext.shallow inner pieces hmem
  exact Template.expand_near h hsource hplain 1 _

theorem withBindings_near (h : a.Near b) (bindings : Fields) :
    (withBindings a bindings).Near (withBindings b bindings) :=
  ⟨congrArg (Table.overlay bindings) h.vars, h.userId, h.sessionId, h.language⟩

theorem conditionValue_near (h : a.Near b) (htext : Template.Plain text) :
    evaluator.conditionValue b text.toList = evaluator.conditionValue a text.toList := by
  unfold conditionValue
  cases hsingle : Template.single? text.toList with
  | some inner => exact congrArg some (expandWhole_near h htext hsingle)
  | none =>
      simp only
      split
      · have hclear := Template.clear_ofText htext.oblivious htext.shallow
        rw [Template.bind?_near h hclear 0]
        cases hbound : Template.bind? evaluator.limit a 0 (Template.ofText text.toList) with
        | none => rfl
        | some bound =>
            have hsource := Template.oblivious_bound htext.oblivious hbound
            exact congrArg some (Expr.evaluate_near (withBindings_near h bound.2) hsource)
      · exact congrArg some (Expr.evaluate_near h htext.oblivious)

/-- A plain condition holds in both of two scopes that are near or in none of them. -/
theorem holds_near (h : a.Near b) (htext : Template.Plain text) :
    evaluator.holds b text = evaluator.holds a text := by
  rw [holds, holds, conditionValue_near h htext]

/-- A plain text reads the same in scopes that are near. -/
theorem interpolate_near (h : a.Near b) (htext : Template.Plain text) :
    evaluator.interpolate b text = evaluator.interpolate a text := by
  have hclear := Template.clear_ofText htext.oblivious htext.shallow
  rw [interpolate, interpolate, Template.renderPieces_near h hclear 1]

theorem resolveText_near (h : a.Near b) (htext : Template.Plain text) :
    evaluator.resolveText b text = evaluator.resolveText a text := by
  unfold resolveText
  cases hsingle : Template.single? text.toList with
  | some inner => simp only [expandWhole_near h htext hsingle]
  | none => simp only [interpolate_near h htext]

mutual

/-- A value in which all strings are plain is resolved to the same in scopes that are near. -/
theorem resolve_near (h : a.Near b) :
    ∀ {value : Json}, value.EachText Template.Plain →
      evaluator.resolve b value = evaluator.resolve a value
  | .null, _ => by simp only [resolve]
  | .bool _, _ => by simp only [resolve]
  | .num _, _ => by simp only [resolve]
  | .str _, .str htext => by simp only [resolve, resolveText_near h htext]
  | .arr _, .arr each => by simp only [resolve, resolveItems_near h each]
  | .obj _, .obj each => by simp only [resolve, resolveFields_near h each]

theorem resolveItems_near (h : a.Near b) :
    ∀ {items : List Json}, (∀ item ∈ items, item.EachText Template.Plain) →
      evaluator.resolveItems b items = evaluator.resolveItems a items
  | [], _ => by simp only [resolveItems]
  | item :: items, each => by
      have hfirst := each item List.mem_cons_self
      have hrest := fun other hmem => each other (List.mem_cons_of_mem item hmem)
      simp only [resolveItems, resolve_near h hfirst, resolveItems_near h hrest]

theorem resolveFields_near (h : a.Near b) :
    ∀ {fields : List (String × Json)},
      (∀ field ∈ fields, field.2.EachText Template.Plain) →
      evaluator.resolveFields b fields = evaluator.resolveFields a fields
  | [], _ => by simp only [resolveFields]
  | (key, value) :: fields, each => by
      have hfirst := each (key, value) List.mem_cons_self
      have hrest := fun other hmem => each other (List.mem_cons_of_mem (key, value) hmem)
      simp only [resolveFields, resolve_near h hfirst, resolveFields_near h hrest]

end

end Evaluator

end Parley
