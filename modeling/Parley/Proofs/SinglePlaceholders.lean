import Parley.Proofs.Interpolation
import Parley.Proofs.Mentions

/-!
# One placeholder in a message, a value and a condition

A string that is one placeholder with blanks around it has one value, whichever way it
is used.  As the value of a step it has that value, in a message the text of the value
stands between the blanks, and as a condition it holds if the value is true.  A
placeholder that is refused is shown as a note and does not hold.  Strings in lists and
objects are resolved where they stand, whatever is around them.
-/

set_option autoImplicit false

namespace Parley

/-- Up to a character that fails a test, the end of a list is all that passes the test. -/
theorem rtakeWhile_append_cons {α : Type} {p : α → Bool} {stop : α} (front : List α)
    (hstop : p stop = false) {rest : List α} (hrest : ∀ c ∈ rest, p c = true) :
    (front ++ stop :: rest).rtakeWhile p = rest := by
  have hreverse : ∀ c ∈ rest.reverse, p c = true := fun c hc => hrest c (List.mem_reverse.1 hc)
  rw [List.rtakeWhile, List.reverse_append, List.reverse_cons, List.append_assoc,
    List.takeWhile_append_of_pos hreverse]
  simp [hstop]

namespace Template

variable {text inner : List Char}

/-- A text that is one placeholder is cut into that and the blanks around it. -/
theorem ofText_of_single (h : single? text = some inner) :
    ofText text = [.text (text.takeWhile Text.isBlank), .hole inner (ofText inner),
      .text (text.rtakeWhile Text.isBlank)] := by
  obtain ⟨trail, hblank, hfirst⟩ := firstHole?_of_single h
  have htrail : text.rtakeWhile Text.isBlank = trail := by
    have hcut := firstHole?_text hfirst
    generalize text.takeWhile Text.isBlank = lead at hcut
    rw [hcut]
    simpa using rtakeWhile_append_cons
      (lead ++ '\x7b' :: '\x7b' :: (inner ++ ['\x7d'])) (by decide) hblank
  rw [ofText_of_some hfirst, ofText_of_none (firstHole?_eq_none (apart_of_blank hblank)), htrail]

end Template

namespace Evaluator

open Template

variable (evaluator : Evaluator) (scope : Scope) {s : String} {inner : List Char}

theorem resolveText_of_single (h : single? s.toList = some inner) :
    (∀ value, evaluator.expandWhole scope inner = .ok value →
      evaluator.resolveText scope s = value) ∧
    ∀ refusal, evaluator.expandWhole scope inner = .error refusal →
      evaluator.resolveText scope s = .str (noteFor inner refusal) := by
  unfold resolveText
  rw [h]
  exact ⟨fun value hvalue => by simp only [hvalue], fun refusal hrefused => by simp only [hrefused]⟩

/-- What stands for a single placeholder in a message is the text of its value. -/
theorem display_resolveText (h : single? s.toList = some inner) :
    (evaluator.resolveText scope s).display.toList =
      (present inner (evaluator.expandWhole scope inner)).chars := by
  obtain ⟨hgiven, hrefused⟩ := evaluator.resolveText_of_single scope h
  cases hvalue : evaluator.expandWhole scope inner with
  | ok value => rw [hgiven value hvalue, present]
  | error refusal => rw [hrefused refusal hvalue, present, Json.display]

theorem interpolate_of_single (h : single? s.toList = some inner) :
    evaluator.interpolate scope s =
      String.ofList (s.toList.takeWhile Text.isBlank) ++
        (evaluator.resolveText scope s).display ++
          String.ofList (s.toList.rtakeWhile Text.isBlank) := by
  have hshown := evaluator.display_resolveText scope h
  rw [expandWhole, expand] at hshown
  rw [interpolate_eq, ofText_of_single h]
  simp only [renderPieces, renderPiece, Rendered.append, ← hshown, List.append_nil,
    String.ofList_append, String.ofList_toList, String.append_assoc]

/-- As a condition a single placeholder is as true as its value, unless it is refused. -/
theorem holds_of_single (h : single? s.toList = some inner) :
    evaluator.holds scope s = ((evaluator.expandWhole scope inner).isOk &&
      (evaluator.resolveText scope s).isTruthy) := by
  obtain ⟨hgiven, -⟩ := evaluator.resolveText_of_single scope h
  unfold holds conditionValue
  rw [h]
  cases hvalue : evaluator.expandWhole scope inner with
  | ok value => simp [hgiven value hvalue, hvalue, Except.isOk, Except.toBool]
  | error refusal => simp [hvalue, Except.isOk, Except.toBool]

/-! ## Lists and objects -/

theorem resolveItems_eq_map (items : List Json) :
    evaluator.resolveItems scope items = items.map (evaluator.resolve scope) := by
  induction items with
  | nil => rfl
  | cons item items ih => rw [resolveItems, ih, List.map_cons]

theorem resolveFields_eq_map (fields : List (String × Json)) :
    evaluator.resolveFields scope fields =
      fields.map fun (key, value) => (key, evaluator.resolve scope value) := by
  induction fields with
  | nil => rfl
  | cons field fields ih => rw [resolveFields, ih, List.map_cons]

end Evaluator

/-- The part of a value at the end of a path; a path tells position by position which item of a
list, or which entry of an object, comes next. -/
def Json.part? : List Nat → Json → Option Json
  | [], value => some value
  | place :: path, .arr items => items[place]?.bind (part? path)
  | place :: path, .obj fields => fields[place]?.bind fun (_, value) => part? path value
  | _ :: _, _ => none

namespace Evaluator

open Template

variable (evaluator : Evaluator) (scope : Scope)

/-- Every part of a value is resolved as it would be alone. -/
theorem part?_resolve {path : List Nat} {value part : Json} (h : value.part? path = some part) :
    (evaluator.resolve scope value).part? path = some (evaluator.resolve scope part) := by
  induction path generalizing value with
  | nil =>
      obtain rfl := Option.some.inj h
      rfl
  | cons place path ih =>
      cases value with
      | arr items =>
          obtain ⟨item, hitem, hpart⟩ := Option.bind_eq_some_iff.1 h
          rw [resolve, resolveItems_eq_map, Json.part?, List.getElem?_map, hitem]
          exact ih hpart
      | obj fields =>
          obtain ⟨⟨key, entry⟩, hentry, hpart⟩ := Option.bind_eq_some_iff.1 h
          rw [resolve, resolveFields_eq_map, Json.part?, List.getElem?_map, hentry]
          exact ih hpart
      | _ => cases h

/-- A string that is one placeholder with blanks around it is shown as its value between the blanks,
and as a condition it is as true as its value, unless the placeholder is refused: then it does not
hold.  Every other string is resolved to the text of its message.  Lists and objects keep their
lengths, keys and the order of these, and each of their parts is resolved as it would be alone. -/
theorem message_value_condition_agree :
    (∀ s inner, single? s.toList = some inner →
      evaluator.interpolate scope s =
        String.ofList (s.toList.takeWhile Text.isBlank) ++
          (evaluator.resolve scope (.str s)).display ++
            String.ofList (s.toList.rtakeWhile Text.isBlank) ∧
      evaluator.holds scope s = ((evaluator.expandWhole scope inner).isOk &&
        (evaluator.resolve scope (.str s)).isTruthy)) ∧
    (∀ s, single? s.toList = none →
      evaluator.resolve scope (.str s) = .str (evaluator.interpolate scope s)) ∧
    (∀ items, evaluator.resolve scope (.arr items) = .arr (items.map (evaluator.resolve scope))) ∧
    (∀ fields, evaluator.resolve scope (.obj fields) =
      .obj (fields.map fun (key, value) => (key, evaluator.resolve scope value))) ∧
    ∀ path value part, Json.part? path value = some part →
      (evaluator.resolve scope value).part? path = some (evaluator.resolve scope part) := by
  refine ⟨fun s inner hsingle => ?_, fun s hother => ?_, fun items => ?_, fun fields => ?_,
    fun path value part => evaluator.part?_resolve scope⟩
  · rw [resolve]
    exact ⟨evaluator.interpolate_of_single scope hsingle, evaluator.holds_of_single scope hsingle⟩
  · rw [resolve, resolveText, hother]
  · rw [resolve, resolveItems_eq_map]
  · rw [resolve, resolveFields_eq_map]

end Evaluator

namespace Guests

/-- A guest at a closed door who has picked the name of the variable that is asked for. -/
def picking : Scope :=
  ⟨[("pick", .str "open"), ("open", .bool false)], ⟨"", "", "", "", ""⟩⟩

/-- A placeholder inside another one, with blanks around both. -/
def padded : String :=
  "  \x7b\x7b \x7b\x7bpick\x7d\x7d \x7d\x7d\n"

/-- The door is shown as closed between the blanks and does not hold.  A source that is refused is
shown as a note and does not hold either. -/
theorem padded_agrees :
    Evaluator.standard.interpolate picking padded = "  false\n" ∧
      Evaluator.standard.holds picking padded = false ∧
      Evaluator.standard.interpolate picking "\x7b\x7bprocess.env\x7d\x7d" =
        "[blocked: process.env]" ∧
      Evaluator.standard.holds picking "\x7b\x7bprocess.env\x7d\x7d" = false ∧
      Evaluator.standard.resolve picking (.str "Is it \x7b\x7bopen\x7d\x7d?") =
        .str "Is it false?" ∧
      (Evaluator.standard.resolve picking (.obj [("doors", .arr [.null, .str padded])])).part?
        [0, 1] = some (Evaluator.standard.resolve picking (.str padded)) := by
  obtain ⟨hsingle, hother, -, -, hparts⟩ :=
    Evaluator.standard.message_value_condition_agree picking
  have hpadded : Template.single? padded.toList = some " \x7b\x7bpick\x7d\x7d ".toList := by
    decide +kernel
  have hrefused : Template.single? "\x7b\x7bprocess.env\x7d\x7d".toList =
      some "process.env".toList := by
    decide +kernel
  obtain ⟨hshown, hholds⟩ := hsingle _ _ hpadded
  obtain ⟨hnoted, hfails⟩ := hsingle _ _ hrefused
  refine ⟨?_, ?_, ?_, ?_, ?_, hparts [0, 1] _ _ rfl⟩
  · rw [hshown]
    decide +kernel
  · rw [hholds]
    decide +kernel
  · rw [hnoted]
    decide +kernel
  · rw [hfails]
    decide +kernel
  · rw [hother _ (by decide +kernel)]
    refine congrArg Json.str ?_
    decide +kernel

end Guests

end Parley
