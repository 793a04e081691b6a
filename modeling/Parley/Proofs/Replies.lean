import Mathlib.Algebra.BigOperators.Group.List.Basic
import Parley.Proofs.Trimming
import Parley.Turn.Reply

/-!
# Values in replies

The value of a reply is what the reply writes as a whole, or what stands between its first opening
and its last closing brace.  Both braces are found as positions in bytes, and the text is cut there;
a brace is one byte long and begins where a character begins, so every cut falls between two
characters.  The text of an object begins and ends with its own braces, so it is what is cut out of
a reply that has no opening brace before it and no closing brace after it.
-/

set_option autoImplicit false

namespace Parley

namespace Text

variable {c : Char} {text front back : List Char} {n : ℕ}

/-! ## Blanks at the ends -/

theorem trimStart_append_cons (front : List Char) (h : isBlank c = false) (back : List Char) :
    trimStart (front ++ c :: back) = trimStart front ++ c :: back := by
  have hstays : List.dropWhile isBlank (c :: back) = c :: back :=
    List.dropWhile_cons_of_neg (by simp [h])
  unfold trimStart
  rw [List.dropWhile_append, hstays]
  split
  · rename_i hfront
    rw [List.isEmpty_iff.1 hfront, List.nil_append]
  · rfl

/-- Nothing between two visible characters is cut off. -/
theorem trim_append_cons {d : Char} (front inner back : List Char) (hc : isBlank c = false)
    (hd : isBlank d = false) : trim (front ++ c :: (inner ++ d :: back)) =
      trimStart front ++ c :: (inner ++ d :: trimEnd back) := by
  have hsplit : trimStart front ++ c :: (inner ++ d :: back) =
      (trimStart front ++ c :: inner) ++ d :: back := by simp
  rw [trim, trimStart_append_cons front hc, hsplit, trimEnd_append_cons _ hd]
  simp

theorem trimStart_of_blanks (h : ∀ c ∈ text, isBlank c = true) : trimStart text = [] :=
  List.dropWhile_eq_nil_iff.2 h

theorem trimEnd_of_blanks (h : ∀ c ∈ text, isBlank c = true) : trimEnd text = [] := by
  have hreverse : text.reverse.dropWhile isBlank = [] :=
    List.dropWhile_eq_nil_iff.2 fun c hc => h c (List.mem_reverse.1 hc)
  rw [trimEnd, hreverse, List.reverse_nil]

/-! ## Positions in bytes -/

/-- The length of a text in bytes. -/
def bytes (text : List Char) : ℕ :=
  (text.map Char.utf8Size).sum

@[simp] theorem bytes_nil : bytes [] = 0 :=
  rfl

@[simp] theorem bytes_cons (c : Char) (text : List Char) :
    bytes (c :: text) = c.utf8Size + bytes text := by
  simp [bytes]

@[simp] theorem bytes_append (front back : List Char) :
    bytes (front ++ back) = bytes front + bytes back := by
  simp [bytes]

/-- The position of the first such character. -/
def find? (c : Char) : List Char → Option ℕ
  | [] => none
  | d :: text => if d = c then some 0 else (find? c text).map (d.utf8Size + ·)

/-- The position of the last such character. -/
def rfind? (c : Char) : List Char → Option ℕ
  | [] => none
  | d :: text =>
    match rfind? c text with
    | some n => some (d.utf8Size + n)
    | none => if d = c then some 0 else none

/-- The text before a position and the text from it on; none if the position is beyond the end or
inside of a character. -/
def splitAt? : ℕ → List Char → Option (List Char × List Char)
  | 0, text => some ([], text)
  | _ + 1, [] => none
  | n + 1, c :: text =>
    if c.utf8Size ≤ n + 1 then
      (splitAt? (n + 1 - c.utf8Size) text).map fun (front, back) => (c :: front, back)
    else none

/-- A text that is cut where it cannot be cut ends the program. -/
structure BadCut where
  start : ℕ
  stop : ℕ
  deriving DecidableEq, Repr

/-- The text between two positions. -/
def slice (start stop : ℕ) (text : List Char) : Except BadCut (List Char) :=
  match (splitAt? stop text).bind fun (front, _) => splitAt? start front with
  | some (_, part) => .ok part
  | none => .error ⟨start, stop⟩

theorem find?_of_not_mem (h : c ∉ text) : find? c text = none := by
  induction text with
  | nil => rfl
  | cons d text ih =>
      obtain ⟨hd, htext⟩ := not_or.1 (List.mem_cons.not.1 h)
      rw [find?, if_neg (Ne.symm hd), ih htext, Option.map_none]

theorem find?_append (h : c ∉ front) (back : List Char) :
    find? c (front ++ c :: back) = some (bytes front) := by
  induction front with
  | nil => exact if_pos rfl
  | cons d front ih =>
      obtain ⟨hd, hfront⟩ := not_or.1 (List.mem_cons.not.1 h)
      rw [List.cons_append, find?, if_neg (Ne.symm hd), ih hfront, Option.map_some, bytes_cons]

theorem rfind?_of_not_mem (h : c ∉ text) : rfind? c text = none := by
  induction text with
  | nil => rfl
  | cons d text ih =>
      obtain ⟨hd, htext⟩ := not_or.1 (List.mem_cons.not.1 h)
      simp only [rfind?, ih htext, if_neg (Ne.symm hd)]

theorem rfind?_append (front : List Char) (h : c ∉ back) :
    rfind? c (front ++ c :: back) = some (bytes front) := by
  induction front with
  | nil => simp only [List.nil_append, rfind?, rfind?_of_not_mem h, if_pos, bytes_nil]
  | cons d front ih => simp only [List.cons_append, rfind?, ih, bytes_cons]

/-- The last place of a character that a text has. -/
theorem exists_last (h : c ∈ text) : ∃ front back, text = front ++ c :: back ∧ c ∉ back := by
  obtain ⟨back, front, htext, hback⟩ := List.eq_append_cons_of_mem (List.mem_reverse.2 h)
  refine ⟨front.reverse, back.reverse, ?_, by simpa using hback⟩
  rw [← List.reverse_reverse text, htext]
  simp

theorem splitAt?_zero (text : List Char) : splitAt? 0 text = some ([], text) := by
  cases text <;> rfl

theorem splitAt?_bytes (front back : List Char) :
    splitAt? (bytes front) (front ++ back) = some (front, back) := by
  induction front with
  | nil => exact splitAt?_zero back
  | cons c front ih =>
      obtain ⟨n, hn⟩ : ∃ n, bytes (c :: front) = n + 1 :=
        Nat.exists_eq_add_one.2 (Nat.add_pos_left c.utf8Size_pos _)
      have hfront : n + 1 - c.utf8Size = bytes front := by
        rw [← hn, bytes_cons, Nat.add_sub_cancel_left]
      have hc : c.utf8Size ≤ n + 1 := hn ▸ Nat.le_add_right _ _
      rw [hn, List.cons_append, splitAt?, if_pos hc, hfront, ih, Option.map_some]

/-- A text can be cut at a position exactly if some of its first characters end there. -/
theorem splitAt?_eq_some_iff :
    splitAt? n text = some (front, back) ↔ text = front ++ back ∧ bytes front = n := by
  constructor
  · intro h
    induction text generalizing n front with
    | nil =>
        cases n with
        | zero =>
            obtain ⟨rfl, rfl⟩ := Prod.mk.inj (Option.some.inj h)
            exact ⟨rfl, rfl⟩
        | succ n => cases h
    | cons c text ih =>
        cases n with
        | zero =>
            obtain ⟨rfl, rfl⟩ := Prod.mk.inj (Option.some.inj h)
            exact ⟨rfl, rfl⟩
        | succ n =>
            rw [splitAt?] at h
            split at h
            · rename_i hc
              obtain ⟨⟨first, rest⟩, hsplit, heq⟩ := Option.map_eq_some_iff.1 h
              obtain ⟨rfl, rfl⟩ := Prod.mk.inj heq
              obtain ⟨rfl, hbytes⟩ := ih hsplit
              exact ⟨rfl, by rw [bytes_cons, hbytes, Nat.add_sub_cancel' hc]⟩
            · cases h
  · rintro ⟨rfl, rfl⟩
    exact splitAt?_bytes front back

/-- Cutting does not end the program exactly if both positions lie between characters. -/
theorem slice_eq_ok_iff {start stop : ℕ} {part : List Char} : slice start stop text = .ok part ↔
    ∃ front back, text = front ++ part ++ back ∧ bytes front = start ∧
      bytes (front ++ part) = stop := by
  constructor
  · intro h
    unfold slice at h
    split at h
    · rename_i front found hcut
      obtain rfl := Except.ok.inj h
      obtain ⟨⟨whole, back⟩, hstop, hstart⟩ := Option.bind_eq_some_iff.1 hcut
      obtain ⟨rfl, hbytes⟩ := splitAt?_eq_some_iff.1 hstop
      obtain ⟨rfl, hfront⟩ := splitAt?_eq_some_iff.1 hstart
      exact ⟨front, back, rfl, hfront, hbytes⟩
    · cases h
  · rintro ⟨front, back, rfl, rfl, rfl⟩
    simp only [slice, splitAt?_bytes, Option.bind_some]

end Text

namespace Reply

open Text

/-- The text from its first opening to its last closing brace, cut out by the positions of the two
braces; none if one of them is missing or the last closing brace stands before the first opening
one. -/
def cutOut (text : List Char) : Except BadCut (Option (List Char)) :=
  match find? '\x7b' text with
  | none => .ok none
  | some start =>
    match rfind? '\x7d' text with
    | none => .ok none
    | some stop =>
      if stop ≤ start then .ok none else (slice start (stop + 1) text).map some

/-- The value in a reply, with the braces found by position. -/
def valueByPositions (reply : String) : Except BadCut (Option Json) :=
  let text := Text.trim reply.toList
  match Json.parse? text with
  | some value => .ok (some value)
  | none => (cutOut text).map fun body => body.bind Json.parse?

/-! ## Between the braces -/

variable {front inner back : List Char}

theorem dropWhile_ne {c : Char} (h : c ∉ front) (back : List Char) :
    (front ++ c :: back).dropWhile (· ≠ c) = c :: back := by
  rw [List.dropWhile_append_of_pos fun d hd => by simpa using ne_of_mem_of_not_mem hd h,
    List.dropWhile_cons_of_neg (by simp)]

theorem dropWhile_ne_of_not_mem {c : Char} (h : c ∉ front) : front.dropWhile (· ≠ c) = [] := by
  rw [List.dropWhile_eq_nil_iff]
  intro d hd
  simpa using ne_of_mem_of_not_mem hd h

theorem braced?_of_not_opened (h : '\x7b' ∉ front) : braced? front = none := by
  unfold braced?
  rw [dropWhile_ne_of_not_mem h]
  rfl

theorem braced?_of_not_closed (hfront : '\x7b' ∉ front) (hback : '\x7d' ∉ back) :
    braced? (front ++ '\x7b' :: back) = none := by
  have hreverse : '\x7d' ∉ ('\x7b' :: back).reverse := by simpa using hback
  simp only [braced?, dropWhile_ne hfront, dropWhile_ne_of_not_mem hreverse]
  rfl

theorem braced?_append (hfront : '\x7b' ∉ front) (hback : '\x7d' ∉ back) :
    braced? (front ++ '\x7b' :: (inner ++ '\x7d' :: back)) =
      some ('\x7b' :: (inner ++ ['\x7d'])) := by
  have hreverse : ('\x7b' :: (inner ++ '\x7d' :: back)).reverse =
      back.reverse ++ '\x7d' :: (inner.reverse ++ ['\x7b']) := by simp
  have hbackReverse : '\x7d' ∉ back.reverse := by simpa using hback
  simp only [braced?, dropWhile_ne hfront, hreverse, dropWhile_ne hbackReverse]
  simp

/-- A text has no opening brace, or none that closes after it, or some part between the two. -/
theorem cases_of_braces (text : List Char) :
    '\x7b' ∉ text ∨
      (∃ front back, text = front ++ '\x7b' :: back ∧ '\x7b' ∉ front ∧ '\x7d' ∉ back) ∨
      ∃ front inner back, text = front ++ '\x7b' :: (inner ++ '\x7d' :: back) ∧
        '\x7b' ∉ front ∧ '\x7d' ∉ back := by
  by_cases hopened : '\x7b' ∈ text
  · obtain ⟨front, back, rfl, hfront⟩ := List.eq_append_cons_of_mem hopened
    by_cases hclosed : '\x7d' ∈ back
    · obtain ⟨inner, back, rfl, hback⟩ := exists_last hclosed
      exact .inr (.inr ⟨front, inner, back, rfl, hfront, hback⟩)
    · exact .inr (.inl ⟨front, back, rfl, hfront, hclosed⟩)
  · exact .inl hopened

/-- The text is always cut between two characters, and what is cut out stands between the braces. -/
theorem cutOut_eq (text : List Char) : cutOut text = .ok (braced? text) := by
  rcases cases_of_braces text with hnone | ⟨front, back, rfl, hfront, hback⟩ |
    ⟨front, inner, back, rfl, hfront, hback⟩
  · rw [braced?_of_not_opened hnone]
    simp only [cutOut, find?_of_not_mem hnone]
  · rw [braced?_of_not_closed hfront hback]
    have hlater : '\x7d' ∉ '\x7b' :: back := by simpa using hback
    by_cases hearlier : '\x7d' ∈ front
    · obtain ⟨first, middle, rfl, hmiddle⟩ := exists_last hearlier
      have hlast : rfind? '\x7d' (first ++ '\x7d' :: middle ++ '\x7b' :: back) =
          some (bytes first) := by
        rw [List.append_assoc, List.cons_append]
        exact rfind?_append first (List.not_mem_append hmiddle hlater)
      have hbefore : bytes first ≤ bytes (first ++ '\x7d' :: middle) := by simp
      simp only [cutOut, find?_append hfront, hlast, if_pos hbefore]
    · have hmissing : '\x7d' ∉ front ++ '\x7b' :: back :=
        List.not_mem_append hearlier hlater
      simp only [cutOut, find?_append hfront, rfind?_of_not_mem hmissing]
  · rw [braced?_append hfront hback]
    have hlast : rfind? '\x7d' (front ++ '\x7b' :: (inner ++ '\x7d' :: back)) =
        some (bytes (front ++ '\x7b' :: inner)) := by
      simpa using rfind?_append (front ++ '\x7b' :: inner) hback
    have hopens : Char.utf8Size '\x7b' = 1 := by decide
    have hcloses : Char.utf8Size '\x7d' = 1 := by decide
    have hafter : ¬bytes (front ++ '\x7b' :: inner) ≤ bytes front := by
      simp only [bytes_append, bytes_cons, hopens]
      omega
    have hstop : bytes (front ++ '\x7b' :: inner) + 1 =
        bytes (front ++ '\x7b' :: (inner ++ ['\x7d'])) := by
      simp only [bytes_append, bytes_cons, bytes_nil, hcloses]
      omega
    have hpart : slice (bytes front) (bytes (front ++ '\x7b' :: (inner ++ ['\x7d'])))
        (front ++ '\x7b' :: (inner ++ '\x7d' :: back)) = .ok ('\x7b' :: (inner ++ ['\x7d'])) :=
      slice_eq_ok_iff.2 ⟨front, back, by simp, rfl, rfl⟩
    simp only [cutOut, find?_append hfront, hlast, if_neg hafter, hstop, hpart, Except.map]

theorem valueByPositions_eq (reply : String) : valueByPositions reply = .ok (value? reply) := by
  cases hwhole : Json.parse? (Text.trim reply.toList) with
  | some value => simp only [valueByPositions, value?, hwhole, Option.some_or]
  | none => simp only [valueByPositions, value?, cutOut_eq, Except.map, hwhole, Option.none_or]

end Reply

namespace Json

variable {text rest : List Char}

/-! ## What is left behind a value -/

theorem skipSpace_suffix (text : List Char) : skipSpace text <:+ text :=
  List.dropWhile_suffix _

/-- What is made of a value that was read leaves the same behind. -/
theorem exists_of_map {α β : Type} {f : α → β} {read : Option (α × List Char)} {b : β}
    (h : (read.map fun (a, rest) => (f a, rest)) = some (b, rest)) :
    ∃ a, read = some (a, rest) ∧ f a = b := by
  obtain ⟨⟨a, rest'⟩, hread, heq⟩ := Option.map_eq_some_iff.1 h
  obtain ⟨rfl, rfl⟩ := Prod.mk.inj heq
  exact ⟨a, hread, rfl⟩

theorem stringBody?_suffix {body : List Char} (h : stringBody? text = some (body, rest)) :
    rest <:+ text := by
  fun_induction stringBody? text generalizing body with
  | case1 text =>
      obtain ⟨-, rfl⟩ := Prod.mk.inj (Option.some.inj h)
      exact List.suffix_cons _ _
  | case3 a b c d e f g i text high hhigh char hchar ih =>
      obtain ⟨body, hread, -⟩ := exists_of_map h
      exact (ih hread).trans (List.suffix_append ['\\', 'u', a, b, c, d] _)
  | case5 a b c d e f g i text high hhigh hpair char hchar ih =>
      obtain ⟨body, hread, -⟩ := exists_of_map h
      exact (ih hread).trans
        (List.suffix_append ['\\', 'u', a, b, c, d, '\\', 'u', e, f, g, i] _)
  | case7 a b c d text hother char hchar ih =>
      obtain ⟨body, hread, -⟩ := exists_of_map h
      exact (ih hread).trans (List.suffix_append ['\\', 'u', a, b, c, d] _)
  | case9 c text hother hother' char hchar ih =>
      obtain ⟨body, hread, -⟩ := exists_of_map h
      exact (ih hread).trans (List.suffix_append ['\\', c] _)
  | case11 c text hquote hpair hunit hslash hplain ih =>
      obtain ⟨body, hread, -⟩ := exists_of_map h
      exact (ih hread).trans (List.suffix_cons c _)
  | _ => cases h

theorem takeDigits_suffix (text : List Char) : (takeDigits text).2 <:+ text :=
  List.dropWhile_suffix _

theorem exponent?_suffix {exponent : Option Int} (h : exponent? text = some (exponent, rest)) :
    rest <:+ text := by
  unfold exponent? at h
  split at h
  · rename_i c text
    split at h
    · split at h
      rename_i negative unsigned hsign
      have hunsigned : unsigned <:+ c :: text := by
        split at hsign
        · cases hsign
          exact List.suffix_append [c, '-'] _
        · cases hsign
          exact List.suffix_append [c, '+'] _
        · cases hsign
          exact List.suffix_cons c _
      simp only [Option.ite_none_left_eq_some, Option.some.injEq, Prod.mk.injEq] at h
      obtain ⟨-, -, rfl⟩ := h
      exact (takeDigits_suffix unsigned).trans hunsigned
    · obtain ⟨-, rfl⟩ := Prod.mk.inj (Option.some.inj h)
      exact List.suffix_refl _
  · obtain ⟨-, rfl⟩ := Prod.mk.inj (Option.some.inj h)
    exact List.suffix_refl _

theorem readNumber?_suffix {n : Number} (h : readNumber? text = some (n, rest)) :
    rest <:+ text := by
  unfold readNumber? at h
  split at h
  rename_i negative unsigned hsign
  have hunsigned : unsigned <:+ text := by
    split at hsign
    · cases hsign
      exact List.suffix_cons _ _
    · cases hsign
      exact List.suffix_refl _
  have hwhole := takeDigits_suffix unsigned
  split at h
  rename_i whole behind hdigits
  rw [hdigits] at hwhole
  split at h
  · cases h
  split at h
  · cases h
  dsimp only at h
  split at h
  · cases h
  rename_i fraction tail hfraction
  have htail : tail <:+ behind := by
    split at hfraction
    · rename_i digits
      simp only [Option.ite_none_left_eq_some, Option.some.injEq, Prod.mk.injEq] at hfraction
      obtain ⟨-, -, rfl⟩ := hfraction
      exact (takeDigits_suffix digits).trans (List.suffix_cons _ _)
    · cases hfraction
      exact List.suffix_refl _
  split at h
  · cases h
  rename_i exponent final hexponent
  obtain ⟨value, -, heq⟩ := Option.map_eq_some_iff.1 h
  obtain ⟨-, rfl⟩ := Prod.mk.inj heq
  exact (exponent?_suffix hexponent).trans (htail.trans (hwhole.trans hunsigned))

/-- With so many steps, what is left behind a value, behind the items of a list and behind the
entries of an object is the end of the text; and the entries end with a closing brace. -/
structure LeavesEnd (steps : ℕ) : Prop where
  value : ∀ {depth text value rest}, readValue? steps depth text = some (value, rest) →
    rest <:+ text
  items : ∀ {depth text items rest}, readItems? steps depth text = some (items, rest) →
    rest <:+ text
  fields : ∀ {depth text fields rest}, readFields? steps depth text = some (fields, rest) →
    '\x7d' :: rest <:+ text

namespace LeavesEnd

variable {steps depth : ℕ}

theorem readItems? (h : LeavesEnd steps) {items : List Json}
    (hread : readItems? (steps + 1) depth text = some (items, rest)) : rest <:+ text := by
  unfold Json.readItems? at hread
  split at hread
  · cases hread
  · rename_i item behind hitem
    have hbehind := (skipSpace_suffix behind).trans (h.value hitem)
    generalize skipSpace behind = visible at hread hbehind
    split at hread
    · obtain ⟨items, hmore, -⟩ := exists_of_map hread
      exact (h.items hmore).trans ((List.suffix_cons _ _).trans hbehind)
    · obtain ⟨-, rfl⟩ := Prod.mk.inj (Option.some.inj hread)
      exact (List.suffix_cons _ _).trans hbehind
    · cases hread

theorem readFields? (h : LeavesEnd steps) {fields : List (String × Json)}
    (hread : readFields? (steps + 1) depth text = some (fields, rest)) :
    '\x7d' :: rest <:+ text := by
  unfold Json.readFields? at hread
  have htext := skipSpace_suffix text
  generalize skipSpace text = visible at hread htext
  split at hread
  · rename_i quoted
    split at hread
    · cases hread
    · rename_i key behind hkey
      have hbehind := (skipSpace_suffix behind).trans
        ((stringBody?_suffix hkey).trans ((List.suffix_cons _ _).trans htext))
      generalize skipSpace behind = visible at hread hbehind
      split at hread
      · rename_i separated
        split at hread
        · cases hread
        · rename_i value last hvalue
          have hlast := (skipSpace_suffix last).trans
            ((h.value hvalue).trans ((List.suffix_cons _ _).trans hbehind))
          generalize skipSpace last = visible at hread hlast
          split at hread
          · obtain ⟨fields, hmore, -⟩ := exists_of_map hread
            exact (h.fields hmore).trans ((List.suffix_cons _ _).trans hlast)
          · obtain ⟨-, rfl⟩ := Prod.mk.inj (Option.some.inj hread)
            exact hlast
          · cases hread
      · cases hread
  · cases hread

theorem readValue? (h : LeavesEnd steps) {value : Json}
    (hread : readValue? (steps + 1) depth text = some (value, rest)) : rest <:+ text := by
  unfold Json.readValue? at hread
  have htext := skipSpace_suffix text
  generalize skipSpace text = visible at hread htext
  refine List.IsSuffix.trans ?_ htext
  split at hread
  · obtain ⟨body, hbody, -⟩ := exists_of_map (f := fun body => str (String.ofList body)) hread
    exact (stringBody?_suffix hbody).trans (List.suffix_cons _ _)
  · rename_i inside
    split at hread
    · cases hread
    · have hinside := (skipSpace_suffix inside).trans (List.suffix_cons '[' inside)
      generalize skipSpace inside = visible at hread hinside
      refine List.IsSuffix.trans ?_ hinside
      split at hread
      · obtain ⟨-, rfl⟩ := Prod.mk.inj (Option.some.inj hread)
        exact List.suffix_cons _ _
      · obtain ⟨items, hitems, -⟩ := exists_of_map hread
        exact h.items hitems
  · rename_i inside
    split at hread
    · cases hread
    · have hinside := (skipSpace_suffix inside).trans (List.suffix_cons '\x7b' inside)
      generalize skipSpace inside = visible at hread hinside
      refine List.IsSuffix.trans ?_ hinside
      split at hread
      · obtain ⟨-, rfl⟩ := Prod.mk.inj (Option.some.inj hread)
        exact List.suffix_cons _ _
      · obtain ⟨fields, hfields, -⟩ := exists_of_map hread
        exact (List.suffix_cons _ _).trans (h.fields hfields)
  · obtain ⟨-, rfl⟩ := Prod.mk.inj (Option.some.inj hread)
    exact List.suffix_append ['n', 'u', 'l', 'l'] _
  · obtain ⟨-, rfl⟩ := Prod.mk.inj (Option.some.inj hread)
    exact List.suffix_append ['t', 'r', 'u', 'e'] _
  · obtain ⟨-, rfl⟩ := Prod.mk.inj (Option.some.inj hread)
    exact List.suffix_append ['f', 'a', 'l', 's', 'e'] _
  · obtain ⟨n, hnumber, -⟩ := exists_of_map hread
    exact readNumber?_suffix hnumber

end LeavesEnd

theorem leavesEnd (steps : ℕ) : LeavesEnd steps := by
  induction steps with
  | zero => exact ⟨nofun, nofun, nofun⟩
  | succ steps ih => exact ⟨ih.readValue?, ih.readItems?, ih.readFields?⟩

/-- An object is written between its own braces. -/
theorem readValue?_obj {steps depth : ℕ} {fields : List (String × Json)}
    (h : readValue? steps depth text = some (.obj fields, rest)) :
    ∃ inner, skipSpace text = '\x7b' :: (inner ++ '\x7d' :: rest) := by
  cases steps with
  | zero => cases h
  | succ steps =>
      unfold readValue? at h
      split at h
      · obtain ⟨body, -, heq⟩ := exists_of_map (f := fun body => str (String.ofList body)) h
        cases heq
      · split at h
        · cases h
        · split at h
          · cases h
          · obtain ⟨items, -, heq⟩ := exists_of_map h
            cases heq
      · rename_i inside hopens
        rw [hopens]
        split at h
        · cases h
        · have hinside := skipSpace_suffix inside
          generalize skipSpace inside = visible at h hinside
          suffices hclosed : '\x7d' :: rest <:+ inside by
            obtain ⟨inner, rfl⟩ := hclosed
            exact ⟨inner, rfl⟩
          refine List.IsSuffix.trans ?_ hinside
          split at h
          · obtain ⟨-, rfl⟩ := Prod.mk.inj (Option.some.inj h)
            exact List.suffix_refl _
          · obtain ⟨fields, hfields, -⟩ := exists_of_map h
            exact (leavesEnd steps).fields hfields
      · cases h
      · cases h
      · cases h
      · obtain ⟨n, -, heq⟩ := exists_of_map h
        cases heq

/-- What parses has nothing but blanks around the value that is read. -/
theorem exists_read_of_parse? {value : Json} (h : parse? text = some value) :
    ∃ steps written rest, readValue? steps nestingLimit text = some (written, rest) ∧
      skipSpace rest = [] ∧ written.merged = value := by
  obtain ⟨written, hwritten, hmerged⟩ := Option.map_eq_some_iff.1 h
  unfold parseEntries? at hwritten
  split at hwritten
  · rename_i value rest hread
    simp only [Option.ite_none_right_eq_some, List.isEmpty_iff, Option.some.injEq] at hwritten
    obtain ⟨hrest, rfl⟩ := hwritten
    exact ⟨_, value, rest, hread, hrest, hmerged⟩
  · cases hwritten

theorem isBlank_of_isSpace {c : Char} (h : isSpace c = true) : Text.isBlank c = true := by
  simp only [isSpace, Bool.or_eq_true, decide_eq_true_eq] at h
  obtain ((rfl | rfl) | rfl) | rfl := h <;> decide

/-- The text of an object, without blanks around it, begins and ends with a brace. -/
theorem braces_of_parse? {fields : List (String × Json)} (h : parse? text = some (.obj fields))
    (htrimmed : Text.trim text = text) : ∃ inner, text = '\x7b' :: (inner ++ ['\x7d']) := by
  obtain ⟨steps, written, rest, hread, hrest, hmerged⟩ := exists_read_of_parse? h
  obtain ⟨entries, rfl⟩ : ∃ entries, written = .obj entries := by
    cases written with
    | obj entries => exact ⟨entries, rfl⟩
    | _ => cases hmerged
  obtain ⟨inner, hinner⟩ := readValue?_obj hread
  have hlead : ∀ c ∈ text.takeWhile isSpace, Text.isBlank c = true := fun c hc =>
    isBlank_of_isSpace (List.mem_takeWhile_imp hc)
  have htrail : ∀ c ∈ rest, Text.isBlank c = true := fun c hc =>
    isBlank_of_isSpace (List.dropWhile_eq_nil_iff.1 hrest c hc)
  have htext : text = text.takeWhile isSpace ++ '\x7b' :: (inner ++ '\x7d' :: rest) := by
    rw [← hinner]
    exact List.takeWhile_append_dropWhile.symm
  refine ⟨inner, ?_⟩
  rw [← htrimmed, htext, Text.trim_append_cons _ _ _ (by decide) (by decide),
    Text.trimStart_of_blanks hlead, Text.trimEnd_of_blanks htrail, List.nil_append]

end Json

namespace Reply

open Text

/-- **The value of an object is recovered from a reply that wraps its text, and no reply makes the
program stop.**  The texts are cut at byte positions, and always between two characters.  A reply
that is the text of a value as a whole has that value.  Any other reply with the text of an object
in it, with no opening brace before and no closing brace after it, has that object for its value,
whatever braces the text has inside. -/
theorem value?_of_wrapped (reply : String) :
    valueByPositions reply = .ok (value? reply) ∧
      (∀ value, Json.parse? (trim reply.toList) = some value → value? reply = some value) ∧
      ∀ before text after fields, reply.toList = before ++ text ++ after →
        '\x7b' ∉ before → '\x7d' ∉ after → trim text = text →
        Json.parse? text = some (.obj fields) → Json.parse? (trim reply.toList) = none →
          value? reply = some (.obj fields) := by
  refine ⟨valueByPositions_eq reply, fun value hwhole => ?_, ?_⟩
  · simp only [value?, hwhole, Option.some_or]
  · intro before text after fields hreply hbefore hafter htrimmed htext hwhole
    obtain ⟨inner, rfl⟩ := Json.braces_of_parse? htext htrimmed
    have htrim : trim reply.toList =
        trimStart before ++ '\x7b' :: (inner ++ '\x7d' :: trimEnd after) := by
      rw [hreply, ← trim_append_cons before inner after (by decide) (by decide)]
      simp
    have hfront : '\x7b' ∉ trimStart before := fun hmem =>
      hbefore ((List.dropWhile_suffix _).subset hmem)
    have hback : '\x7d' ∉ trimEnd after := fun hmem =>
      hafter (by simpa using (List.dropWhile_suffix _).subset (List.mem_reverse.1 hmem))
    rw [htrim] at hwhole
    simp only [value?, htrim, hwhole, Option.none_or, braced?_append hfront hback, Option.bind_some,
      htext]

end Reply

namespace Kiosk

/-- A reply in Greek, with a closing brace before the object and an opening one after it. -/
def fencedReply : String :=
  "Ορίστε \x7d:\n```json\n\x7b\"flow\": \"\x7dOrder\x7b\"\x7d\n``` \x7b\n"

/-- The object in the reply has braces in a string, and is recovered. -/
theorem order_recovered_from_fence :
    Json.parse? "\x7b\"flow\": \"\x7dOrder\x7b\"\x7d".toList =
        some (.obj [("flow", .str "\x7dOrder\x7b")]) ∧
      Json.parse? (Text.trim fencedReply.toList) = none ∧
      Reply.valueByPositions fencedReply = .ok (some (.obj [("flow", .str "\x7dOrder\x7b")])) := by
  have htext : Json.parse? "\x7b\"flow\": \"\x7dOrder\x7b\"\x7d".toList =
      some (.obj [("flow", .str "\x7dOrder\x7b")]) := by cbv
  have hwhole : Json.parse? (Text.trim fencedReply.toList) = none := by cbv
  obtain ⟨hpositions, -, hwrapped⟩ := Reply.value?_of_wrapped fencedReply
  have hvalue := hwrapped "Ορίστε \x7d:\n```json\n".toList _ "\n``` \x7b\n".toList _
    (by decide +kernel) (by decide) (by decide) (by decide) htext hwhole
  exact ⟨htext, hwhole, hvalue ▸ hpositions⟩

end Kiosk

end Parley
