import Parley.Proofs.Conditions
import Parley.Proofs.SinglePlaceholders

/-!
# How deep placeholders may stand inside one another

The nesting level of a placeholder is read off its text: one more than the largest
level of the placeholders inside it.  A placeholder beyond the limit is refused for
its nesting, whatever the variables hold, because the refusal of the innermost ones
is passed on by every level above them.  A placeholder within the limit is rendered
without the limit ever being met.  To tell this from a rendering that meets it and
gives the same text, there is a rendering here that has no result once the limit is
met.
-/

set_option autoImplicit false

namespace Parley

mutual

/-- The nesting level of a piece; plain text has none. -/
def Piece.level : Piece → Nat
  | .text _ => 0
  | .hole _ pieces => Template.level pieces + 1

/-- The largest nesting level among the pieces. -/
def Template.level : List Piece → Nat
  | [] => 0
  | piece :: pieces => max piece.level (Template.level pieces)

end

namespace Template

/-! ## Braces inside placeholders -/

section Braces

variable {text before inner rest : List Char}

/-- The braces that close all open placeholders but the last one come before those that close it. -/
theorem isSome_closing?_of_succ {m n : Nat} (h : closing? m text = some (inner, rest))
    (hm : m = n + 1) : (closing? n inner).isSome = true := by
  fun_induction closing? m text generalizing n inner rest with
  | case1 m text ih =>
      obtain ⟨⟨i, r⟩, hir, heq⟩ := Option.map_eq_some_iff.1 h
      obtain ⟨rfl, rfl⟩ := Prod.mk.inj heq
      have hlater := ih hir (congrArg (· + 1) hm)
      simp only [closing?, Option.isSome_map, hlater]
  | case2 text => cases hm
  | case3 m text ih =>
      obtain ⟨⟨i, r⟩, hir, heq⟩ := Option.map_eq_some_iff.1 h
      obtain ⟨rfl, rfl⟩ := Prod.mk.inj heq
      obtain rfl := Nat.succ.inj hm
      cases m with
      | zero => rfl
      | succ n =>
          have hlater := ih hir rfl
          simp only [closing?, Option.isSome_map, hlater]
  | case4 m c text hopening hlast hclosing ih =>
      obtain ⟨⟨i, r⟩, hir, heq⟩ := Option.map_eq_some_iff.1 h
      obtain ⟨rfl, rfl⟩ := Prod.mk.inj heq
      have hlater := ih hir hm
      have htext := closing?_text hir
      cases i with
      | nil => cases n <;> cases hlater
      | cons d i =>
          rw [closing?.eq_def]
          split <;> simp_all
  | case5 => cases h

theorem isSome_firstHole?_of_closing? {n : Nat} (h : closing? n text = some (inner, rest))
    (hn : n = 0) (hopening : hasOpening inner = true) : (firstHole? inner).isSome = true := by
  fun_induction closing? n text generalizing inner rest with
  | case1 n text ih =>
      obtain ⟨⟨i, r⟩, hir, heq⟩ := Option.map_eq_some_iff.1 h
      obtain ⟨rfl, rfl⟩ := Prod.mk.inj heq
      have hlater := isSome_closing?_of_succ hir (congrArg (· + 1) hn)
      simp only [firstHole?, Option.isSome_map, hlater]
  | case2 text =>
      obtain ⟨rfl, rfl⟩ := Prod.mk.inj (Option.some.inj h)
      cases hopening
  | case3 n text ih => cases hn
  | case4 n c text hbraces hlast hclosing ih =>
      obtain ⟨⟨i, r⟩, hir, heq⟩ := Option.map_eq_some_iff.1 h
      obtain ⟨rfl, rfl⟩ := Prod.mk.inj heq
      have htext := closing?_text hir
      have hapart : ¬ (c = '\x7b' ∧ i.head? = some '\x7b') := by
        rintro ⟨rfl, hnext⟩
        cases i with
        | nil => cases hnext
        | cons d i => simp_all
      rw [hasOpening_cons hapart] at hopening
      rw [firstHole?_cons hapart, Option.isSome_map]
      exact ih hir hn hopening
  | case5 => cases h

/-- Braces that open inside a placeholder are closed inside it. -/
theorem isSome_firstHole?_inner (h : firstHole? text = some (before, inner, rest))
    (hopening : hasOpening inner = true) : (firstHole? inner).isSome = true := by
  fun_induction firstHole? text generalizing before inner rest with
  | case1 text =>
      obtain ⟨⟨i, r⟩, hir, heq⟩ := Option.map_eq_some_iff.1 h
      obtain ⟨-, rfl, -⟩ : [] = before ∧ i = inner ∧ r = rest := by simpa using heq
      exact isSome_firstHole?_of_closing? hir rfl hopening
  | case2 c text _ ih =>
      obtain ⟨⟨b, i, r⟩, hir, heq⟩ := Option.map_eq_some_iff.1 h
      obtain ⟨-, rfl, -⟩ : c :: b = before ∧ i = inner ∧ r = rest := by simpa using heq
      exact ih hir hopening
  | case3 => cases h

/-- A pair of braces opens in the text exactly if there is a placeholder in it.  The sources of
placeholders are such texts; a text with braces that are never closed need not be one. -/
def Balanced (text : List Char) : Prop :=
  hasOpening text = true ↔ 0 < level (ofText text)

theorem balanced_inner (h : firstHole? text = some (before, inner, rest)) : Balanced inner := by
  constructor
  · intro hopening
    obtain ⟨⟨b, i, r⟩, hfirst⟩ := Option.isSome_iff_exists.1 (isSome_firstHole?_inner h hopening)
    rw [ofText_of_some hfirst]
    simp only [level, Piece.level]
    omega
  · intro hpos
    by_contra hplain
    rw [ofText_of_none (firstHole?_of_plain (Bool.eq_false_iff.2 hplain))] at hpos
    simp [level, Piece.level] at hpos

theorem eq_ofText_of_hole {source : List Char} {pieces : List Piece}
    (h : Piece.hole source pieces ∈ ofText text) : pieces = ofText source ∧ Balanced source := by
  fun_induction ofText text with
  | case1 text hnone => simp at h
  | case2 text before inner rest hfound ih ih' =>
      simp only [List.mem_cons, reduceCtorEq, Piece.hole.injEq, false_or] at h
      rcases h with ⟨rfl, rfl⟩ | hlater
      · exact ⟨rfl, balanced_inner hfound⟩
      · exact ih' hlater

end Braces

/-! ## Rendering that stops at the limit -/

/-- The value of a placeholder as `settle` has it; none if the limit is met, here or by what the
source renders to. -/
def settleWithin? (limit : Nat) (scope : Scope) (depth : Nat) (source : List Char)
    (nested : Option Rendered) : Option (Except Refusal Json) :=
  if hasOpening source then
    if limit < depth + 1 then none else nested.map (settle limit scope depth source)
  else some (Expr.evaluate scope source)

mutual

/-- The text of a piece; none if the limit is met. -/
def renderPieceWithin? (limit : Nat) (scope : Scope) : Nat → Piece → Option Rendered
  | _, .text chars => some ⟨chars, false⟩
  | depth, .hole source pieces =>
    (settleWithin? limit scope depth source
      (renderPiecesWithin? limit scope (depth + 1) pieces)).map (present source)

/-- The text of several pieces; none if the limit is met. -/
def renderPiecesWithin? (limit : Nat) (scope : Scope) : Nat → List Piece → Option Rendered
  | _, [] => some ⟨[], false⟩
  | depth, piece :: pieces =>
    (renderPieceWithin? limit scope depth piece).bind fun first =>
      (renderPiecesWithin? limit scope depth pieces).map first.append

end

/-- The value of a placeholder as `expand` has it; none if the limit is met. -/
def expandWithin? (limit : Nat) (scope : Scope) (depth : Nat) (source : List Char)
    (pieces : List Piece) : Option (Except Refusal Json) :=
  settleWithin? limit scope depth source (renderPiecesWithin? limit scope (depth + 1) pieces)

theorem present_tooDeep (source : List Char) :
    present source (.error .tooDeep) = ⟨Refusal.tooDeepMarker.toList, true⟩ := rfl

section Limit

variable {limit depth : Nat} {scope : Scope} {text source : List Char}

/-- Whether a placeholder meets the limit is a matter of its level, if that is so for the pieces
inside it. -/
theorem expandWithin?_eq_of_pieces (hbalanced : Balanced source)
    (hinner : depth + 1 ≤ limit →
      renderPiecesWithin? limit scope (depth + 1) (ofText source) =
        if depth + 1 + level (ofText source) ≤ limit + 1 then
          some (renderPieces limit scope (depth + 1) (ofText source))
        else none) (hdepth : depth ≤ limit) :
    expandWithin? limit scope depth source (ofText source) =
      if depth + (level (ofText source) + 1) ≤ limit + 1 then
        some (expand limit scope depth source (ofText source))
      else none := by
  rw [expandWithin?, settleWithin?, expand]
  cases hopening : hasOpening source with
  | false =>
      have hflat : level (ofText source) = 0 := by
        by_contra hlevel
        rw [hbalanced.2 (Nat.pos_of_ne_zero hlevel)] at hopening
        cases hopening
      have hroom : depth + (level (ofText source) + 1) ≤ limit + 1 := by omega
      rw [if_neg Bool.false_ne_true, if_pos hroom, settle, hopening]
      rfl
  | true =>
      have hlevel := hbalanced.1 hopening
      rw [if_pos rfl]
      by_cases hguard : limit < depth + 1
      · have hdeep : ¬ depth + (level (ofText source) + 1) ≤ limit + 1 := by omega
        rw [if_pos hguard, if_neg hdeep]
      · have hsame : depth + 1 + level (ofText source) ≤ limit + 1 ↔
            depth + (level (ofText source) + 1) ≤ limit + 1 := by omega
        rw [if_neg hguard, hinner (Nat.le_of_not_lt hguard)]
        simp only [hsame]
        split <;> rfl

/-- Rendering meets the limit exactly if some placeholder is nested too deep for it, and without
meeting it gives the text of the pieces. -/
theorem renderPiecesWithin?_eq (hdepth : depth ≤ limit) :
    renderPiecesWithin? limit scope depth (ofText text) =
      if depth + level (ofText text) ≤ limit + 1 then
        some (renderPieces limit scope depth (ofText text))
      else none := by
  fun_induction ofText text generalizing depth with
  | case1 text hnone =>
      have hroom : depth + level [.text text] ≤ limit + 1 := by
        simp only [level, Piece.level]
        omega
      rw [if_pos hroom]
      rfl
  | case2 text before inner rest hfound ih ih' =>
      have hhole := expandWithin?_eq_of_pieces (balanced_inner hfound) ih hdepth
      rw [expandWithin?] at hhole
      have hroom : depth + level (.text before :: .hole inner (ofText inner) :: ofText rest) ≤
            limit + 1 ↔
          depth + (level (ofText inner) + 1) ≤ limit + 1 ∧
            depth + level (ofText rest) ≤ limit + 1 := by
        simp only [level, Piece.level]
        omega
      simp only [renderPiecesWithin?, renderPieceWithin?, hhole, ih' hdepth, Option.bind_some]
      by_cases hfirst : depth + (level (ofText inner) + 1) ≤ limit + 1
      · by_cases hlater : depth + level (ofText rest) ≤ limit + 1
        · rw [if_pos hfirst, if_pos hlater, if_pos (hroom.2 ⟨hfirst, hlater⟩)]
          rfl
        · rw [if_pos hfirst, if_neg hlater, if_neg fun h => hlater (hroom.1 h).2]
          rfl
      · rw [if_neg hfirst, if_neg fun h => hfirst (hroom.1 h).1]
        rfl

/-- A placeholder nested too deep is refused for it, if the pieces inside pass such a refusal on. -/
theorem expand_eq_tooDeep_of_pieces (hbalanced : Balanced source)
    (hinner : depth + 1 ≤ limit → limit + 1 < depth + 1 + level (ofText source) →
      (renderPieces limit scope (depth + 1) (ofText source)).refused = true ∧
        Refusal.tooDeepMarker.toList <:+:
          (renderPieces limit scope (depth + 1) (ofText source)).chars)
    (hdepth : depth ≤ limit) (hdeep : limit + 1 < depth + (level (ofText source) + 1)) :
    expand limit scope depth source (ofText source) = .error .tooDeep := by
  have hopening : hasOpening source = true := hbalanced.2 (by omega)
  rw [expand, settle, if_pos hopening]
  by_cases hguard : limit < depth + 1
  · rw [if_pos hguard]
  · obtain ⟨hrefused, hmarker⟩ := hinner (Nat.le_of_not_lt hguard) (by omega)
    rw [if_neg hguard, if_pos hrefused, if_pos (Text.contains_iff.2 hmarker)]

/-- Pieces with a placeholder that is nested too deep are refused, and the marker stands in their
text, whatever else stands there. -/
theorem renderPieces_of_deep (hdepth : depth ≤ limit)
    (hdeep : limit + 1 < depth + level (ofText text)) :
    (renderPieces limit scope depth (ofText text)).refused = true ∧
      Refusal.tooDeepMarker.toList <:+: (renderPieces limit scope depth (ofText text)).chars := by
  fun_induction ofText text generalizing depth with
  | case1 text hnone =>
      simp only [level, Piece.level] at hdeep
      omega
  | case2 text before inner rest hfound ih ih' =>
      simp only [level, Piece.level] at hdeep
      simp only [renderPieces, renderPiece, Rendered.append, Bool.false_or, Bool.or_eq_true]
      by_cases hfirst : limit + 1 < depth + (level (ofText inner) + 1)
      · have hexpand : settle limit scope depth inner
              (renderPieces limit scope (depth + 1) (ofText inner)) = .error .tooDeep :=
          expand_eq_tooDeep_of_pieces (balanced_inner hfound) (fun h hin => ih h hin) hdepth hfirst
        rw [hexpand, present_tooDeep]
        exact ⟨.inl rfl, List.infix_append' _ _ _⟩
      · obtain ⟨hrefused, hmarker⟩ := ih' hdepth (by omega)
        refine ⟨.inr hrefused, hmarker.trans ?_⟩
        exact ((List.suffix_append _ _).trans (List.suffix_append _ _)).isInfix

end Limit

/-! ## Placeholders of a text -/

section Holes

variable {limit depth : Nat} {scope : Scope} {text source : List Char} {pieces : List Piece}

theorem expandWithin?_eq (h : .hole source pieces ∈ ofText text) (hdepth : depth ≤ limit) :
    expandWithin? limit scope depth source pieces =
      if depth + (Piece.hole source pieces).level ≤ limit + 1 then
        some (expand limit scope depth source pieces)
      else none := by
  obtain ⟨rfl, hbalanced⟩ := eq_ofText_of_hole h
  exact expandWithin?_eq_of_pieces hbalanced renderPiecesWithin?_eq hdepth

theorem expand_eq_tooDeep (h : .hole source pieces ∈ ofText text) (hdepth : depth ≤ limit)
    (hdeep : limit + 1 < depth + (Piece.hole source pieces).level) :
    expand limit scope depth source pieces = .error .tooDeep := by
  obtain ⟨rfl, hbalanced⟩ := eq_ofText_of_hole h
  exact expand_eq_tooDeep_of_pieces hbalanced renderPieces_of_deep hdepth hdeep

theorem renderPieces_append (first later : List Piece) :
    renderPieces limit scope depth (first ++ later) =
      (renderPieces limit scope depth first).append (renderPieces limit scope depth later) := by
  induction first with
  | nil => simp [renderPieces, Rendered.append]
  | cons piece first ih =>
      simp only [List.cons_append, renderPieces, ih, Rendered.append, List.append_assoc,
        Bool.or_assoc]

/-- No names are bound if one of the placeholders is refused. -/
theorem bind?_of_refused {refusal : Refusal} {n : Nat} (h : .hole source pieces ∈ ofText text)
    (hrefused : expand limit scope 1 source pieces = .error refusal) :
    bind? limit scope n (ofText text) = none := by
  generalize ofText text = all at h
  induction all generalizing n with
  | nil => cases h
  | cons first all ih =>
      cases first with
      | text chars =>
          have hlater : .hole source pieces ∈ all := by simpa using h
          rw [bind?, ih hlater]
          rfl
      | hole other nested =>
          rw [bind?]
          rcases List.mem_cons.1 h with heq | hlater
          · obtain ⟨rfl, rfl⟩ := Piece.hole.inj heq
            rw [hrefused]
          · rw [ih hlater]
            split <;> rfl

end Holes

end Template

namespace Evaluator

open Template

variable (evaluator : Evaluator) (scope : Scope) {s : String} {source : List Char}
  {pieces : List Piece}

/-- A condition does not hold if a placeholder in it is refused. -/
theorem holds_of_refused {refusal : Refusal} (h : .hole source pieces ∈ ofText s.toList)
    (hrefused : expand evaluator.limit scope 1 source pieces = .error refusal) :
    evaluator.holds scope s = false := by
  rw [Bool.eq_false_iff]
  intro hholds
  obtain ⟨value, hvalue, -⟩ := (evaluator.holds_iff scope).1 hholds
  unfold conditionValue at hvalue
  cases hsingle : single? s.toList with
  | some inner =>
      rw [ofText_of_single hsingle] at h
      obtain ⟨rfl, rfl⟩ : source = inner ∧ pieces = ofText inner := by simpa using h
      simp [hsingle, expandWhole, hrefused] at hvalue
  | none =>
      have hopening : hasOpening s.toList = true := by
        by_contra hplain
        rw [ofText_of_none (firstHole?_of_plain (Bool.eq_false_iff.2 hplain))] at h
        simp at h
      simp [hsingle, hopening, bind?_of_refused h hrefused] at hvalue

/-- With a limit of at least one, a placeholder of the text that is nested deeper than the limit is
shown as the marker and as nothing else, whatever the variables hold; as the only placeholder of a
value it is resolved to the marker, and a condition with it does not hold.  The limit is met by no
placeholder that is nested less deep, and a text with only such placeholders is interpolated without
meeting it. -/
theorem nesting_bounded (limit : Nat) (scope : Scope) (s : String) :
    (∀ source pieces before after, ofText s.toList = before ++ .hole source pieces :: after →
      max limit 1 < (Piece.hole source pieces).level →
      (ofLimit limit).interpolate scope s =
          String.ofList (renderPieces (max limit 1) scope 1 before).chars ++
            Refusal.tooDeepMarker ++
              String.ofList (renderPieces (max limit 1) scope 1 after).chars ∧
        (ofLimit limit).holds scope s = false ∧
        (single? s.toList = some source →
          (ofLimit limit).resolve scope (.str s) = .str Refusal.tooDeepMarker)) ∧
    (∀ source pieces, .hole source pieces ∈ ofText s.toList →
      expandWithin? (max limit 1) scope 1 source pieces =
        if (Piece.hole source pieces).level ≤ max limit 1 then
          some (expand (max limit 1) scope 1 source pieces)
        else none) ∧
    (renderPiecesWithin? (max limit 1) scope 1 (ofText s.toList)).map
        (fun rendered => String.ofList rendered.chars) =
      if level (ofText s.toList) ≤ max limit 1 then some ((ofLimit limit).interpolate scope s)
      else none := by
  have hfirst : 1 ≤ max limit 1 := le_max_right limit 1
  refine ⟨?_, ?_, ?_⟩
  · intro source pieces before after hpieces hdeep
    have hmem : .hole source pieces ∈ ofText s.toList := by
      rw [hpieces]
      simp
    have hexpand : expand (max limit 1) scope 1 source pieces = .error .tooDeep :=
      expand_eq_tooDeep hmem hfirst (by omega)
    refine ⟨?_, holds_of_refused (ofLimit limit) scope hmem hexpand, ?_⟩
    · rw [expand] at hexpand
      rw [interpolate_eq, hpieces]
      simp only [ofLimit, renderPieces_append, renderPieces, renderPiece, Rendered.append, hexpand,
        present_tooDeep, String.ofList_append, String.ofList_toList, String.append_assoc]
    · intro hsingle
      obtain ⟨rfl, -⟩ := eq_ofText_of_hole hmem
      rw [resolve, ((ofLimit limit).resolveText_of_single scope hsingle).2 .tooDeep hexpand]
      rfl
  · intro source pieces hmem
    have hsame : 1 + (Piece.hole source pieces).level ≤ max limit 1 + 1 ↔
        (Piece.hole source pieces).level ≤ max limit 1 := by omega
    rw [expandWithin?_eq hmem hfirst]
    simp only [hsame]
  · have hsame : 1 + level (ofText s.toList) ≤ max limit 1 + 1 ↔
        level (ofText s.toList) ≤ max limit 1 := by omega
    rw [renderPiecesWithin?_eq hfirst, interpolate_eq]
    simp only [hsame]
    split <;> rfl

end Evaluator

namespace Guests

open Template

/-- A placeholder inside another one is too deep for the limit zero, which counts as one. -/
theorem padded_too_deep :
    1 < (Piece.hole " \x7b\x7bpick\x7d\x7d ".toList (ofText " \x7b\x7bpick\x7d\x7d ".toList)).level ∧
      (Evaluator.ofLimit 0).interpolate picking padded =
        "  [blocked: template nesting too deep]\n" ∧
      (Evaluator.ofLimit 0).holds picking padded = false ∧
      (Evaluator.ofLimit 0).resolve picking (.str padded) =
        .str "[blocked: template nesting too deep]" := by
  have hsingle : single? padded.toList = some " \x7b\x7bpick\x7d\x7d ".toList := by decide +kernel
  have hpieces : ofText padded.toList = [.text "  ".toList] ++
      .hole " \x7b\x7bpick\x7d\x7d ".toList (ofText " \x7b\x7bpick\x7d\x7d ".toList) ::
        [.text "\n".toList] := by
    have hlead : padded.toList.takeWhile Text.isBlank = "  ".toList := by decide +kernel
    have htrail : padded.toList.rtakeWhile Text.isBlank = "\n".toList := by decide +kernel
    rw [ofText_of_single hsingle, hlead, htrail]
    rfl
  have hfirst : firstHole? " \x7b\x7bpick\x7d\x7d ".toList =
      some (" ".toList, "pick".toList, " ".toList) := by decide
  have hdeep : 1 <
      (Piece.hole " \x7b\x7bpick\x7d\x7d ".toList (ofText " \x7b\x7bpick\x7d\x7d ".toList)).level := by
    rw [ofText_of_some hfirst]
    simp only [level, Piece.level]
    omega
  obtain ⟨htold, hfails, hresolved⟩ :=
    (Evaluator.nesting_bounded 0 picking padded).1 _ _ _ _ hpieces hdeep
  refine ⟨hdeep, ?_, hfails, hresolved hsingle⟩
  rw [htold]
  decide +kernel

end Guests

end Parley
