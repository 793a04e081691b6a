import Parley.Text.Basic

/-!
# Templates

A template is text with placeholders between double braces; inside a
placeholder further placeholders may stand.  `Template.ofText` cuts a text into
its pieces once and for all.  Values that are put in later are never cut again,
so the pieces depend on the text of the template only.
-/

set_option autoImplicit false

namespace Parley

/-- A piece of a template. -/
inductive Piece where
  /-- Plain text. -/
  | text (chars : List Char)
  /-- A placeholder: its source between the braces, and the pieces of that source. -/
  | hole (source : List Char) (pieces : List Piece)
  deriving Inhabited

namespace Template

/-- Two opening braces stand at some place of the text. -/
def hasOpening : List Char → Bool
  | '\x7b' :: '\x7b' :: _ => true
  | _ :: text => hasOpening text
  | [] => false

/-- `closing? n text` cuts the text at the double brace that closes the last but `n` of the open
placeholders: what stands before that brace, and what stands after it.  Braces are paired from left
to right. -/
def closing? : Nat → List Char → Option (List Char × List Char)
  | n, '\x7b' :: '\x7b' :: text =>
    (closing? (n + 1) text).map fun (inner, rest) => ('\x7b' :: '\x7b' :: inner, rest)
  | 0, '\x7d' :: '\x7d' :: text => some ([], text)
  | n + 1, '\x7d' :: '\x7d' :: text =>
    (closing? n text).map fun (inner, rest) => ('\x7d' :: '\x7d' :: inner, rest)
  | n, c :: text => (closing? n text).map fun (inner, rest) => (c :: inner, rest)
  | _, [] => none

/-- The first placeholder of a text: the text before it, its source, and the text after it.  If the
first opening braces are never closed there is none. -/
def firstHole? : List Char → Option (List Char × List Char × List Char)
  | '\x7b' :: '\x7b' :: text => (closing? 0 text).map fun (inner, rest) => ([], inner, rest)
  | c :: text => (firstHole? text).map fun (before, inner, rest) => (c :: before, inner, rest)
  | [] => none

/-- What closes a placeholder and what follows are together shorter than the text. -/
theorem closing?_length {n : Nat} {text inner rest : List Char}
    (h : closing? n text = some (inner, rest)) :
    inner.length + rest.length + 2 = text.length := by
  fun_induction closing? n text generalizing inner rest with
  | case1 n text ih =>
    obtain ⟨⟨i, r⟩, hir, heq⟩ := Option.map_eq_some_iff.1 h
    simp only [Prod.mk.injEq] at heq
    have := ih hir
    simp only [← heq.1, ← heq.2, List.length_cons]
    omega
  | case2 text =>
    simp only [Option.some.injEq, Prod.mk.injEq] at h
    simp [← h.1, ← h.2]
  | case3 n text ih =>
    obtain ⟨⟨i, r⟩, hir, heq⟩ := Option.map_eq_some_iff.1 h
    simp only [Prod.mk.injEq] at heq
    have := ih hir
    simp only [← heq.1, ← heq.2, List.length_cons]
    omega
  | case4 n c text _ _ _ ih =>
    obtain ⟨⟨i, r⟩, hir, heq⟩ := Option.map_eq_some_iff.1 h
    simp only [Prod.mk.injEq] at heq
    have := ih hir
    simp only [← heq.1, ← heq.2, List.length_cons]
    omega
  | case5 => simp at h

/-- The parts around a placeholder are together shorter than the text by its four braces. -/
theorem firstHole?_length {text before inner rest : List Char}
    (h : firstHole? text = some (before, inner, rest)) :
    before.length + inner.length + rest.length + 4 = text.length := by
  fun_induction firstHole? text generalizing before inner rest with
  | case1 text =>
    obtain ⟨⟨i, r⟩, hir, heq⟩ := Option.map_eq_some_iff.1 h
    simp only [Prod.mk.injEq] at heq
    have := closing?_length hir
    simp only [← heq.1, ← heq.2.1, ← heq.2.2, List.length_cons, List.length_nil]
    omega
  | case2 c text _ ih =>
    obtain ⟨⟨b, i, r⟩, hir, heq⟩ := Option.map_eq_some_iff.1 h
    simp only [Prod.mk.injEq] at heq
    have := ih hir
    simp only [← heq.1, ← heq.2.1, ← heq.2.2, List.length_cons]
    omega
  | case3 => simp at h

/-- The pieces of a text.  Braces that are never closed, and all text after them, are plain text. -/
def ofText (text : List Char) : List Piece :=
  match _found : firstHole? text with
  | none => [.text text]
  | some (before, inner, rest) => .text before :: .hole inner (ofText inner) :: ofText rest
termination_by text.length
decreasing_by
  all_goals
    have := firstHole?_length _found
    omega

/-- The source of the placeholder that makes up the whole text, blanks around it apart. -/
def single? (text : List Char) : Option (List Char) :=
  match Text.trim text with
  | '\x7b' :: '\x7b' :: rest =>
    match closing? 0 rest with
    | some (inner, []) => some inner
    | _ => none
  | _ => none

end Template

end Parley
