import Mathlib.Data.List.Flatten
import Mathlib.Order.Bounds.Basic
import Parley.Proofs.Nesting
import Parley.Proofs.Replies

/-!
# Placeholders found by their positions

The braces of a placeholder are looked for in the bytes of the text: one loop goes over the bytes,
two at a time where a pair of braces stands, and counts the pairs that are open.  Its counter never
falls below zero, the position it finds is the first one at which as many pairs are closed as were
opened, and every cut falls between two characters.  A text is rendered and its placeholders are
bound by cutting it at such positions; no cut fails, and what comes out is what the pieces of the
text give.
-/

set_option autoImplicit false

namespace Parley

namespace Text

variable {c d : Char} {text front back : List Char} {n : ℕ}

/-! ## Bytes -/

/-- The bytes of a text. -/
def utf8 (text : List Char) : List UInt8 :=
  text.flatMap String.utf8EncodeChar

@[simp] theorem utf8_nil : utf8 [] = [] :=
  rfl

@[simp] theorem utf8_cons (c : Char) (text : List Char) :
    utf8 (c :: text) = String.utf8EncodeChar c ++ utf8 text :=
  List.flatMap_cons

@[simp] theorem utf8_append (front back : List Char) :
    utf8 (front ++ back) = utf8 front ++ utf8 back :=
  List.flatMap_append

@[simp] theorem length_utf8 (text : List Char) : (utf8 text).length = bytes text := by
  induction text with
  | nil => rfl
  | cons c text ih =>
      rw [utf8_cons, List.length_append, ih, String.length_utf8EncodeChar, bytes_cons]

theorem drop_utf8 (front back : List Char) :
    (utf8 (front ++ back)).drop (bytes front) = utf8 back := by
  rw [utf8_append, List.drop_left' (length_utf8 front)]

/-- What stands in front of a text moves its bytes. -/
theorem getElem?_utf8 (front back : List Char) (n : ℕ) :
    (utf8 (front ++ back))[bytes front + n]? = (utf8 back)[n]? := by
  rw [utf8_append, ← length_utf8, List.getElem?_append_right (Nat.le_add_right _ _),
    Nat.add_sub_cancel_left]

/-- A character of ASCII is one byte. -/
theorem utf8EncodeChar_of_ascii (hd : d.toNat < 128) :
    String.utf8EncodeChar d = [UInt8.ofNat d.toNat] := by
  have hsmall : d.val.toNat ≤ 127 := Nat.le_of_lt_succ hd
  rw [String.utf8EncodeChar]
  exact if_pos hsmall

/-- A byte that begins with a one is not that of a character of ASCII. -/
theorem ofNat_ne_ofNat {k : ℕ} (hd : d.toNat < 128) (hk : 128 ≤ k) (hlarge : k < 256) :
    UInt8.ofNat d.toNat ≠ UInt8.ofNat k := by
  intro heq
  have hnat := congrArg UInt8.toNat heq
  simp only [UInt8.toNat_ofNat'] at hnat
  omega

/-- The byte of a character of ASCII occurs in no other character. -/
theorem eq_of_mem_utf8EncodeChar (hd : d.toNat < 128)
    (h : UInt8.ofNat d.toNat ∈ String.utf8EncodeChar c) : c = d := by
  unfold String.utf8EncodeChar at h
  simp only at h
  split at h
  · rename_i hsmall
    have hnat := congrArg UInt8.toNat (List.mem_singleton.1 h)
    simp only [UInt8.toNat_ofNat'] at hnat
    have hc : c.toNat = c.val.toNat := rfl
    exact Char.toNat_inj.1 (by omega)
  · exfalso
    have hne {k : ℕ} := ofNat_ne_ofNat (k := k) hd
    split at h
    · simp only [List.mem_cons, List.not_mem_nil, or_false] at h
      rcases h with h | h <;> exact hne (by omega) (by omega) h
    · split at h <;> simp only [List.mem_cons, List.not_mem_nil, or_false] at h
      · rcases h with h | h | h <;> exact hne (by omega) (by omega) h
      · rcases h with h | h | h | h <;> exact hne (by omega) (by omega) h

/-- A text begins with the byte of a character of ASCII exactly if it begins with that character. -/
theorem head?_utf8 (hd : d.toNat < 128) :
    (utf8 text).head? = some (UInt8.ofNat d.toNat) ↔ text.head? = some d := by
  cases text with
  | nil => simp
  | cons c text =>
      rw [utf8_cons, List.head?_cons, Option.some.injEq,
        List.head?_append_of_ne_nil _ String.utf8EncodeChar_ne_nil]
      constructor
      · exact fun h => eq_of_mem_utf8EncodeChar hd (List.mem_of_mem_head? h)
      · rintro rfl
        rw [utf8EncodeChar_of_ascii hd]
        rfl

/-- Where the byte of a character of ASCII stands, that character stands. -/
theorem split_of_getElem?_utf8 (hd : d.toNat < 128)
    (h : (utf8 text)[n]? = some (UInt8.ofNat d.toNat)) :
    ∃ front back, text = front ++ d :: back ∧ bytes front = n := by
  induction text generalizing n with
  | nil => cases h
  | cons c text ih =>
      rw [utf8_cons, List.getElem?_append] at h
      split at h
      · rename_i hn
        obtain rfl := eq_of_mem_utf8EncodeChar hd (List.mem_of_getElem? h)
        rw [utf8EncodeChar_of_ascii hd, List.length_singleton] at hn
        exact ⟨[], text, rfl, (Nat.lt_one_iff.1 hn).symm⟩
      · rename_i hn
        rw [String.length_utf8EncodeChar] at h hn
        obtain ⟨front, back, rfl, hfront⟩ := ih h
        exact ⟨c :: front, back, rfl, by rw [bytes_cons]; omega⟩

/-- A place between two characters, or at an end of the text. -/
def IsBoundary (text : List Char) (n : ℕ) : Prop :=
  ∃ front back, text = front ++ back ∧ bytes front = n

end Text

namespace Template

open Text

/-! ## The scan -/

/-- What would end the program. -/
inductive ScanFault where
  /-- A placeholder is closed when none is open. -/
  | underflow
  /-- A text is cut where it cannot be cut. -/
  | badCut (cut : BadCut)

/-- The position of the pair of braces that closes the last open placeholder, looked for from
position `i` on, when `depth` placeholders are open there. -/
def findClosing (bytes : List UInt8) (depth i : ℕ) : Except ScanFault (Option ℕ) :=
  if _inside : i + 1 < bytes.length then
    if bytes[i] = 0x7b ∧ bytes[i + 1] = 0x7b then findClosing bytes (depth + 1) (i + 2)
    else if bytes[i] = 0x7d ∧ bytes[i + 1] = 0x7d then
      match depth with
      | 0 => .error .underflow
      | 1 => .ok (some i)
      | depth + 2 => findClosing bytes (depth + 1) (i + 2)
    else findClosing bytes depth (i + 1)
  else .ok none
termination_by bytes.length - i

/-- A pair of opening braces begins at the position. -/
def OpensAt (bytes : List UInt8) (i : ℕ) : Prop :=
  bytes[i]? = some 0x7b ∧ bytes[i + 1]? = some 0x7b

instance (bytes : List UInt8) (i : ℕ) : Decidable (OpensAt bytes i) :=
  inferInstanceAs (Decidable (_ ∧ _))

/-! ## Pairs of braces -/

/-- A pair of braces. -/
inductive Pair where
  /-- Opening braces. -/
  | opening
  /-- Closing braces. -/
  | closing
  deriving DecidableEq

/-- The pairs of braces, read from left to right, and where they begin; the first byte has the
position `i`. -/
def pairs : ℕ → List UInt8 → List (ℕ × Pair)
  | i, 0x7b :: 0x7b :: rest => (i, .opening) :: pairs (i + 2) rest
  | i, 0x7d :: 0x7d :: rest => (i, .closing) :: pairs (i + 2) rest
  | i, _ :: rest => pairs (i + 1) rest
  | _, [] => []

/-- The number of such pairs up to a position. -/
def upTo (c : ℕ) (pair : Pair) (found : List (ℕ × Pair)) : ℕ :=
  found.countP fun (i, p) => i ≤ c ∧ p = pair

/-- A pair stands at `c`, and up to there, it included, as many pairs close as were open before or
are opened. -/
def Balances (opened : ℕ) (found : List (ℕ × Pair)) (c : ℕ) : Prop :=
  c ∈ found.map Prod.fst ∧ opened + upTo c .opening found = upTo c .closing found

/-- Read from left to right from a position on, as many pairs are closed up to `c` as are opened. -/
def BalancedAt (bytes : List UInt8) (i c : ℕ) : Prop :=
  Balances 0 (pairs i (bytes.drop i)) c

/-- The position of the closing pair that makes up for `depth` open ones. -/
def walk : ℕ → List (ℕ × Pair) → Except ScanFault (Option ℕ)
  | _, [] => .ok none
  | depth, (_, .opening) :: found => walk (depth + 1) found
  | 0, (_, .closing) :: _ => .error .underflow
  | 1, (i, .closing) :: _ => .ok (some i)
  | depth + 2, (_, .closing) :: found => walk (depth + 1) found

variable {i c depth : ℕ} {rest : List UInt8} {found : List (ℕ × Pair)}

/-- A byte that begins no pair of braces is passed over. -/
theorem pairs_cons {b : UInt8} (hopen : ¬(b = 0x7b ∧ rest.head? = some 0x7b))
    (hclose : ¬(b = 0x7d ∧ rest.head? = some 0x7d)) : pairs i (b :: rest) = pairs (i + 1) rest := by
  rw [pairs.eq_def]
  split <;> simp_all

/-- The loop over the bytes goes from pair to pair. -/
theorem findClosing_eq_walk (bytes : List UInt8) (depth i : ℕ) :
    findClosing bytes depth i = walk depth (pairs i (bytes.drop i)) := by
  have hcut {i : ℕ} (h : i + 1 < bytes.length) :
      bytes.drop i = bytes[i] :: bytes[i + 1] :: bytes.drop (i + 2) := by
    rw [List.drop_eq_getElem_cons (Nat.lt_of_succ_lt h), List.drop_eq_getElem_cons h]
  fun_induction findClosing bytes depth i with
  | case1 depth i h hopen ih =>
      rw [ih, hcut h, hopen.1, hopen.2]
      rfl
  | case2 i h _ hclose =>
      rw [hcut h, hclose.1, hclose.2]
      rfl
  | case3 i h _ hclose =>
      rw [hcut h, hclose.1, hclose.2]
      rfl
  | case4 i h _ hclose depth ih =>
      rw [ih, hcut h, hclose.1, hclose.2]
      rfl
  | case5 depth i h hopen hclose ih =>
      rw [ih, List.drop_eq_getElem_cons (Nat.lt_of_succ_lt h), pairs_cons]
      · rwa [List.drop_eq_getElem_cons h, List.head?_cons, Option.some.injEq]
      · rwa [List.drop_eq_getElem_cons h, List.head?_cons, Option.some.injEq]
  | case6 depth i h =>
      -- at most one byte is left
      have hshort : (bytes.drop i).length ≤ 1 := by
        rw [List.length_drop]
        omega
      match bytes.drop i, hshort with
      | [], _ => rfl
      | [b], _ =>
          rw [pairs_cons (by simp) (by simp)]
          rfl

/-- A pair in front of later ones leaves their positions in order. -/
theorem sorted_cons {j : ℕ} (pair : Pair) (hij : i < j)
    (h : found.Pairwise (fun a b => a.1 < b.1) ∧ ∀ p ∈ found, j ≤ p.1) :
    ((i, pair) :: found).Pairwise (fun a b => a.1 < b.1) ∧ ∀ p ∈ (i, pair) :: found, i ≤ p.1 := by
  have hlater : ∀ p ∈ found, i < p.1 := fun p hp => Nat.lt_of_lt_of_le hij (h.2 p hp)
  refine ⟨List.pairwise_cons.2 ⟨hlater, h.1⟩, fun p hp => ?_⟩
  rcases List.mem_cons.1 hp with rfl | hp
  · exact Nat.le_refl _
  · exact Nat.le_of_lt (hlater p hp)

/-- Pairs are read from left to right. -/
theorem pairs_sorted (i : ℕ) (bytes : List UInt8) :
    (pairs i bytes).Pairwise (fun a b => a.1 < b.1) ∧ ∀ p ∈ pairs i bytes, i ≤ p.1 := by
  fun_induction pairs i bytes with
  | case1 i rest ih => exact sorted_cons .opening (by omega) ih
  | case2 i rest ih => exact sorted_cons .closing (by omega) ih
  | case3 i b rest _ _ ih => exact ⟨ih.1, fun p hp => Nat.le_of_succ_le (ih.2 p hp)⟩
  | case4 i => exact ⟨List.Pairwise.nil, by simp⟩

/-- A pair is counted from its position on. -/
theorem upTo_cons (pair p : Pair) :
    upTo c pair ((i, p) :: found) = upTo c pair found + if i ≤ c ∧ p = pair then 1 else 0 := by
  simp [upTo, List.countP_cons]

section Later

variable (h : ∀ p ∈ found, i < p.1)

include h

/-- At the first pair nothing else is counted. -/
theorem upTo_first (pair p : Pair) :
    upTo i pair ((i, p) :: found) = if p = pair then 1 else 0 := by
  have hnone : upTo i pair found = 0 := by
    refine List.countP_eq_zero.2 fun q hq => ?_
    have hlater := h q hq
    simp only [decide_eq_true_eq, not_and]
    omega
  simp [upTo_cons, hnone]

/-- At a later pair the first one is counted with the others. -/
theorem upTo_later (pair p : Pair) (hc : c ∈ found.map Prod.fst) :
    upTo c pair ((i, p) :: found) = upTo c pair found + if p = pair then 1 else 0 := by
  obtain ⟨q, hq, rfl⟩ := List.mem_map.1 hc
  simp [upTo_cons, Nat.le_of_lt (h q hq)]

/-- Behind opening braces one pair more is open. -/
theorem balances_opening :
    Balances depth ((i, .opening) :: found) c ↔ Balances (depth + 1) found c := by
  rw [Balances, Balances, List.map_cons, List.mem_cons]
  constructor
  · rintro ⟨rfl | hc, hsum⟩
    · simp [upTo_first h] at hsum
    · simp only [upTo_later h _ _ hc, reduceCtorEq, if_true, if_false] at hsum
      exact ⟨hc, by omega⟩
  · rintro ⟨hc, hsum⟩
    simp only [upTo_later h _ _ hc, reduceCtorEq, if_true, if_false]
    exact ⟨.inr hc, by omega⟩

/-- Closing braces balance the last open pair; behind them one pair less is open. -/
theorem balances_closing : Balances (depth + 1) ((i, .closing) :: found) c ↔
    c = i ∧ depth = 0 ∨ Balances depth found c := by
  rw [Balances, Balances, List.map_cons, List.mem_cons]
  constructor
  · rintro ⟨rfl | hc, hsum⟩
    · simp [upTo_first h] at hsum
      exact .inl ⟨rfl, hsum⟩
    · simp only [upTo_later h _ _ hc, reduceCtorEq, if_true, if_false] at hsum
      exact .inr ⟨hc, by omega⟩
  · rintro (⟨rfl, rfl⟩ | ⟨hc, hsum⟩)
    · simp [upTo_first h]
    · simp only [upTo_later h _ _ hc, reduceCtorEq, if_true, if_false]
      exact ⟨.inr hc, by omega⟩

end Later

/-- Where the pairs are balanced, a pair stands. -/
theorem Balances.mem (h : Balances depth found c) : ∃ p ∈ found, p.1 = c :=
  List.mem_map.1 h.1

/-- With a placeholder open, the walk ends at the first pair that balances, and never closes a
placeholder when none is open. -/
theorem walk_least (hsorted : found.Pairwise fun a b => a.1 < b.1) (hdepth : 0 < depth) :
    ∃ closing, walk depth found = .ok closing ∧
      (∀ c, closing = some c → IsLeast {c | Balances depth found c} c) ∧
      (closing = none → ∀ c, ¬Balances depth found c) := by
  induction found generalizing depth with
  | nil => exact ⟨none, by simp [walk], by simp, fun _ c h => by simpa using h.mem⟩
  | cons first found ih =>
      obtain ⟨hlater, hrest⟩ := List.pairwise_cons.1 hsorted
      obtain ⟨i, pair⟩ := first
      cases pair with
      | opening =>
          simp only [balances_opening hlater]
          exact ih hrest (Nat.succ_pos depth)
      | closing =>
          obtain ⟨others, rfl⟩ := Nat.exists_eq_add_one.2 hdepth
          simp only [balances_closing hlater]
          cases others with
          | zero =>
              refine ⟨some i, rfl, fun c hc => ?_, by simp⟩
              obtain rfl := Option.some.inj hc
              refine ⟨.inl ⟨rfl, rfl⟩, ?_⟩
              rintro c (⟨rfl, -⟩ | hbalances)
              · exact Nat.le_refl _
              · obtain ⟨p, hp, rfl⟩ := hbalances.mem
                exact Nat.le_of_lt (hlater p hp)
          | succ still =>
              simpa [walk] using ih hrest (Nat.succ_pos still)

/-- From opening braces on, the scan finds the first position at which the pairs are balanced, and
its counter never falls below zero. -/
theorem findClosing_least {bytes : List UInt8} (h : OpensAt bytes i) :
    ∃ closing, findClosing bytes 0 i = .ok closing ∧
      (∀ c, closing = some c → IsLeast {c | BalancedAt bytes i c} c) ∧
      (closing = none → ∀ c, ¬BalancedAt bytes i c) := by
  obtain ⟨hfirst, hfirst'⟩ := List.getElem?_eq_some_iff.1 h.1
  obtain ⟨hsecond, hsecond'⟩ := List.getElem?_eq_some_iff.1 h.2
  have hpairs : pairs i (bytes.drop i) = (i, .opening) :: pairs (i + 2) (bytes.drop (i + 2)) := by
    rw [List.drop_eq_getElem_cons hfirst, List.drop_eq_getElem_cons hsecond, hfirst', hsecond']
    rfl
  obtain ⟨hsorted, hlater⟩ := pairs_sorted (i + 2) (bytes.drop (i + 2))
  simp only [findClosing_eq_walk, BalancedAt, hpairs, walk,
    balances_opening fun p hp => Nat.lt_of_lt_of_le (by omega : i < i + 2) (hlater p hp)]
  exact walk_least hsorted Nat.one_pos

/-! ## Positions and characters -/

variable {text front back : List Char}

/-- Opening braces in the bytes are opening braces of the text. -/
theorem OpensAt.split (h : OpensAt (utf8 text) i) :
    ∃ front back, text = front ++ '\x7b' :: '\x7b' :: back ∧ bytes front = i := by
  obtain ⟨front, later, rfl, rfl⟩ := split_of_getElem?_utf8 (d := '\x7b') (by decide) h.1
  have hsecond : (utf8 later)[0]? = some 0x7b := by
    have hnext := h.2
    rw [getElem?_utf8] at hnext
    exact hnext
  obtain ⟨first, back, rfl, hfirst⟩ := split_of_getElem?_utf8 (d := '\x7b') (by decide) hsecond
  have hempty : first = [] := by
    cases first with
    | nil => rfl
    | cons c first =>
        have hpos := c.utf8Size_pos
        rw [bytes_cons] at hfirst
        omega
  exact ⟨front, back, by rw [hempty, List.nil_append], rfl⟩

/-- What passes over bytes that are no braces passes over characters that are none. -/
theorem utf8_cons_of_plain {α : Type} (f : ℕ → List UInt8 → α)
    (hf : ∀ i b rest, b ≠ 0x7b → b ≠ 0x7d → f i (b :: rest) = f (i + 1) rest) {c : Char}
    (hopen : c ≠ '\x7b') (hclose : c ≠ '\x7d') (text : List Char) :
    f i (utf8 (c :: text)) = f (i + c.utf8Size) (utf8 text) := by
  have hplain : ∀ b ∈ String.utf8EncodeChar c, b ≠ 0x7b ∧ b ≠ 0x7d := by
    refine fun b hb => ⟨?_, ?_⟩
    · rintro rfl
      exact hopen (eq_of_mem_utf8EncodeChar (d := '\x7b') (by decide) hb)
    · rintro rfl
      exact hclose (eq_of_mem_utf8EncodeChar (d := '\x7d') (by decide) hb)
  rw [utf8_cons, ← String.length_utf8EncodeChar]
  generalize String.utf8EncodeChar c = plain at hplain
  induction plain generalizing i with
  | nil => rfl
  | cons b plain ih =>
      obtain ⟨hb, hplain⟩ := List.forall_mem_cons.1 hplain
      rw [List.cons_append, hf i b _ hb.1 hb.2, ih hplain, List.length_cons, Nat.add_assoc,
        Nat.add_comm 1]

/-- A character that begins no pair of braces is passed over. -/
theorem pairs_utf8_cons {c : Char} (hopen : ¬(c = '\x7b' ∧ text.head? = some '\x7b'))
    (hclose : ¬(c = '\x7d' ∧ text.head? = some '\x7d')) :
    pairs i (utf8 (c :: text)) = pairs (i + c.utf8Size) (utf8 text) := by
  have hopens : (utf8 text).head? = some 0x7b ↔ text.head? = some '\x7b' :=
    head?_utf8 (d := '\x7b') (by decide)
  have hcloses : (utf8 text).head? = some 0x7d ↔ text.head? = some '\x7d' :=
    head?_utf8 (d := '\x7d') (by decide)
  by_cases hc : c = '\x7b'
  · subst hc
    exact pairs_cons (fun h => hopen ⟨rfl, hopens.1 h.2⟩) fun h => absurd h.1 (by decide)
  by_cases hc' : c = '\x7d'
  · subst hc'
    exact pairs_cons (fun h => absurd h.1 (by decide)) fun h => hclose ⟨rfl, hcloses.1 h.2⟩
  exact utf8_cons_of_plain pairs
    (fun i b rest hb hb' => pairs_cons (fun h => hb h.1) fun h => hb' h.1) hc hc' text

/-- What stands in front of the source of a placeholder moves its end. -/
theorem map_bytes (ahead : List Char) (cut : Option (List Char × List Char)) :
    ((cut.map fun (inner, rest) => (ahead ++ inner, rest)).map fun (inner, _) => i + bytes inner) =
      cut.map fun (inner, _) => i + bytes ahead + bytes inner := by
  rw [Option.map_map]
  congr 1
  funext (inner, rest)
  simp [Nat.add_assoc]

/-- On the bytes of a text the walk ends where the braces close that are looked for in the text. -/
theorem walk_utf8 (depth : ℕ) (text : List Char) : walk (depth + 1) (pairs i (utf8 text)) =
    .ok ((closing? depth text).map fun (inner, _) => i + bytes inner) := by
  fun_induction closing? depth text generalizing i with
  | case1 depth text ih =>
      have hread : pairs i (utf8 ('\x7b' :: '\x7b' :: text)) =
          (i, .opening) :: pairs (i + 2) (utf8 text) := rfl
      rw [hread, walk, ih]
      exact congrArg Except.ok (map_bytes ['\x7b', '\x7b'] (closing? (depth + 1) text)).symm
  | case2 text => rfl
  | case3 depth text ih =>
      have hread : pairs i (utf8 ('\x7d' :: '\x7d' :: text)) =
          (i, .closing) :: pairs (i + 2) (utf8 text) := rfl
      rw [hread, walk, ih]
      exact congrArg Except.ok (map_bytes ['\x7d', '\x7d'] (closing? depth text)).symm
  | case4 depth c text hopen hlast hclose ih =>
      have hsize : bytes [c] = c.utf8Size := by simp
      rw [pairs_utf8_cons, ih, ← hsize]
      · exact congrArg Except.ok (map_bytes [c] (closing? depth text)).symm
      · rintro ⟨rfl, hhead⟩
        obtain ⟨later, rfl⟩ := List.head?_eq_some_iff.1 hhead
        exact hopen later rfl rfl
      · rintro ⟨rfl, hhead⟩
        obtain ⟨later, rfl⟩ := List.head?_eq_some_iff.1 hhead
        cases depth with
        | zero => exact hlast later rfl rfl rfl
        | succ others => exact hclose others later rfl rfl rfl
  | case5 => rfl

/-- In the bytes of a text the scan finds the braces that close the placeholder, and never closes a
placeholder when none is open. -/
theorem findClosing_utf8 (front back : List Char) :
    findClosing (utf8 (front ++ '\x7b' :: '\x7b' :: back)) 0 (bytes front) =
      .ok ((closing? 0 back).map fun (inner, _) => bytes front + 2 + bytes inner) := by
  rw [findClosing_eq_walk, drop_utf8, ← walk_utf8]
  rfl

/-! ## Cutting at positions -/

/-- The position of the first opening braces; the first byte has the position `i`. -/
def findOpening : ℕ → List UInt8 → Option ℕ
  | i, 0x7b :: 0x7b :: _ => some i
  | i, _ :: rest => findOpening (i + 1) rest
  | _, [] => none

/-- The text between two positions. -/
def cut (start stop : ℕ) (text : List Char) : Except ScanFault (List Char) :=
  (slice start stop text).mapError .badCut

/-- The text before the first placeholder, its source and the text after it, cut out by the
positions of its braces. -/
def cutHole (text : List Char) : Except ScanFault (Option (List Char × List Char × List Char)) :=
  match findOpening 0 (utf8 text) with
  | none => .ok none
  | some opening =>
    match findClosing (utf8 text) 0 opening with
    | .error fault => .error fault
    | .ok none => .ok none
    | .ok (some closing) => do
      let before ← cut 0 opening text
      let inner ← cut (opening + 2) closing text
      let rest ← cut (closing + 2) (bytes text) text
      return some (before, inner, rest)

/-- The source of the placeholder that makes up the whole text, cut out by its positions. -/
def singleAt (text : List Char) : Except ScanFault (Option (List Char)) :=
  match Text.trim text with
  | '\x7b' :: '\x7b' :: _ =>
    match findClosing (utf8 (Text.trim text)) 0 0 with
    | .error fault => .error fault
    | .ok none => .ok none
    | .ok (some closing) =>
      if closing + 2 = bytes (Text.trim text) then (cut 2 closing (Text.trim text)).map some
      else .ok none
  | _ => .ok none

/-- A byte that begins no opening braces is passed over. -/
theorem findOpening_cons {b : UInt8} (hopen : ¬(b = 0x7b ∧ rest.head? = some 0x7b)) :
    findOpening i (b :: rest) = findOpening (i + 1) rest := by
  rw [findOpening.eq_def]
  split <;> simp_all

/-- A character that begins no opening braces is passed over. -/
theorem findOpening_utf8_cons {c : Char} (hopen : ¬(c = '\x7b' ∧ text.head? = some '\x7b')) :
    findOpening i (utf8 (c :: text)) = findOpening (i + c.utf8Size) (utf8 text) := by
  have hopens : (utf8 text).head? = some 0x7b ↔ text.head? = some '\x7b' :=
    head?_utf8 (d := '\x7b') (by decide)
  by_cases hc : c = '\x7b'
  · subst hc
    exact findOpening_cons fun h => hopen ⟨rfl, hopens.1 h.2⟩
  by_cases hc' : c = '\x7d'
  · subst hc'
    exact findOpening_cons fun h => absurd h.1 (by decide)
  exact utf8_cons_of_plain findOpening
    (fun i b rest hb _ => findOpening_cons fun h => hb h.1) hc hc' text

/-- The first opening braces found by position are those of the first placeholder. -/
theorem findOpening_utf8 (text : List Char) :
    findOpening i (utf8 text) = none ∧ firstHole? text = none ∨
      ∃ front back, text = front ++ '\x7b' :: '\x7b' :: back ∧
        findOpening i (utf8 text) = some (i + bytes front) ∧
        firstHole? text = (closing? 0 back).map fun (inner, rest) => (front, inner, rest) := by
  fun_induction firstHole? text generalizing i with
  | case1 text => exact .inr ⟨[], text, rfl, rfl, rfl⟩
  | case2 c text hopen ih =>
      have hhead : ¬(c = '\x7b' ∧ text.head? = some '\x7b') := by
        rintro ⟨rfl, hhead⟩
        obtain ⟨later, rfl⟩ := List.head?_eq_some_iff.1 hhead
        exact hopen later rfl rfl
      rw [findOpening_utf8_cons hhead]
      rcases ih (i := i + c.utf8Size) with ⟨hnone, hfirst⟩ | ⟨front, back, rfl, hsome, hfirst⟩
      · exact .inl ⟨hnone, by rw [hfirst, Option.map_none]⟩
      · refine .inr ⟨c :: front, back, rfl, ?_, ?_⟩
        · rw [hsome, bytes_cons, Nat.add_assoc]
        · rw [hfirst, Option.map_map]
          rfl
  | case3 => exact .inl ⟨rfl, rfl⟩

/-- A part of a text can be cut out. -/
theorem cut_eq_ok {start stop : ℕ} {part : List Char} (front back : List Char)
    (htext : text = front ++ part ++ back) (hstart : bytes front = start)
    (hstop : bytes (front ++ part) = stop) : cut start stop text = .ok part := by
  rw [cut, slice_eq_ok_iff.2 ⟨front, back, htext, hstart, hstop⟩]
  rfl

/-- A brace is one byte long. -/
theorem bytes_braced (front inner rest : List Char) :
    bytes (front ++ '\x7b' :: '\x7b' :: (inner ++ '\x7d' :: '\x7d' :: rest)) =
      bytes front + 2 + bytes inner + 2 + bytes rest := by
  have hopen : Char.utf8Size '\x7b' = 1 := rfl
  have hclose : Char.utf8Size '\x7d' = 1 := rfl
  simp only [bytes_append, bytes_cons, hopen, hclose]
  omega

/-- The source of a placeholder can be cut out of the text around it. -/
theorem cut_inner (front inner rest : List Char) :
    cut (bytes front + 2) (bytes front + 2 + bytes inner)
      (front ++ '\x7b' :: '\x7b' :: (inner ++ '\x7d' :: '\x7d' :: rest)) = .ok inner :=
  cut_eq_ok (front ++ ['\x7b', '\x7b']) ('\x7d' :: '\x7d' :: rest) (by simp) (bytes_append _ _)
    (by rw [bytes_append, bytes_append]; rfl)

/-- Cutting out the first placeholder by its positions does not fail. -/
theorem cutHole_eq_ok (text : List Char) : cutHole text = .ok (firstHole? text) := by
  unfold cutHole
  rcases findOpening_utf8 (i := 0) text with ⟨hnone, hfirst⟩ | ⟨front, back, rfl, hsome, hfirst⟩
  · rw [hnone, hfirst]
  · rw [hsome, hfirst, Nat.zero_add]
    simp only [findClosing_utf8]
    cases hclosing : closing? 0 back with
    | none => rfl
    | some parts =>
        obtain ⟨inner, rest⟩ := parts
        obtain rfl := closing?_text hclosing
        have hinner := cut_inner front inner rest
        have hlength := bytes_braced front inner rest
        have hends := bytes_braced front inner []
        generalize hwhole : front ++ '\x7b' :: '\x7b' :: (inner ++ '\x7d' :: '\x7d' :: rest) = text
          at hinner hlength
        have hbefore : cut 0 (bytes front) text = .ok front :=
          cut_eq_ok [] ('\x7b' :: '\x7b' :: (inner ++ '\x7d' :: '\x7d' :: rest))
            (by rw [← hwhole, List.nil_append]) bytes_nil rfl
        have hrest : cut (bytes front + 2 + bytes inner + 2) (bytes text) text = .ok rest :=
          cut_eq_ok (front ++ '\x7b' :: '\x7b' :: (inner ++ ['\x7d', '\x7d'])) []
            (by simp [← hwhole]) hends
            (by rw [bytes_append, hends, hlength, bytes_nil, Nat.add_zero])
        simp only [Option.map_some, hbefore, hinner, hrest]
        rfl

/-- A text that does not begin with opening braces is no placeholder. -/
theorem single_of_no_braces (h : ∀ back, Text.trim text ≠ '\x7b' :: '\x7b' :: back) :
    singleAt text = .ok none ∧ single? text = none := by
  constructor
  · unfold singleAt
    split
    · exact absurd ‹_› (h _)
    · rfl
  · unfold single?
    split
    · exact absurd ‹_› (h _)
    · rfl

/-- Cutting out the placeholder that makes up a whole text does not fail. -/
theorem singleAt_eq_ok (text : List Char) : singleAt text = .ok (single? text) := by
  by_cases hopens : ∃ back, Text.trim text = '\x7b' :: '\x7b' :: back
  · obtain ⟨back, htrim⟩ := hopens
    have hscan := findClosing_utf8 [] back
    rw [List.nil_append, bytes_nil, Nat.zero_add] at hscan
    simp only [singleAt, single?, htrim, hscan]
    cases hclosing : closing? 0 back with
    | none => rfl
    | some parts =>
        obtain ⟨inner, rest⟩ := parts
        obtain rfl := closing?_text hclosing
        have hinner := cut_inner [] inner rest
        have hlength := bytes_braced [] inner rest
        rw [List.nil_append, bytes_nil, Nat.zero_add] at hinner hlength
        simp only [Option.map_some, hlength, hinner]
        cases rest with
        | nil => rw [bytes_nil, Nat.add_zero, if_pos rfl]; rfl
        | cons c rest =>
            have hpos := c.utf8Size_pos
            rw [bytes_cons, if_neg (by omega)]
  · obtain ⟨hat, hnone⟩ := single_of_no_braces (not_exists.1 hopens)
    rw [hat, hnone]

/-! ## Rendering and binding by positions -/

/-- The value of a placeholder whose source has been rendered. -/
def valueOf (scope : Scope) (nested : Rendered) : Except Refusal Json :=
  if nested.refused then
    if Text.contains Refusal.tooDeepMarker.toList nested.chars then .error .tooDeep
    else .error (.inside (String.ofList nested.chars))
  else Expr.evaluate scope nested.chars

mutual

/-- The text with the values of its placeholders put in, when the placeholders are cut out by their
positions. -/
def renderAt (limit : ℕ) (scope : Scope) (depth : ℕ) (text : List Char) :
    Except ScanFault Rendered :=
  if limit < depth then .ok ⟨Refusal.tooDeepMarker.toList, true⟩
  else
    match _found : cutHole text with
    | .error fault => .error fault
    | .ok none => .ok ⟨text, false⟩
    | .ok (some (before, inner, rest)) => do
      let value ← expandAt limit scope depth inner
      let later ← renderAt limit scope depth rest
      return (Rendered.append ⟨before, false⟩ (present inner value)).append later
termination_by (text.length, 0)
decreasing_by
  all_goals
    rw [cutHole_eq_ok, Except.ok.injEq] at _found
    have := firstHole?_length _found
    exact Prod.Lex.left _ _ (by omega)

/-- The value of a placeholder whose source may have placeholders, which are cut out by their
positions. -/
def expandAt (limit : ℕ) (scope : Scope) (depth : ℕ) (inner : List Char) :
    Except ScanFault (Except Refusal Json) :=
  if hasOpening inner then (renderAt limit scope (depth + 1) inner).map (valueOf scope)
  else .ok (Expr.evaluate scope inner)
termination_by (inner.length, 1)
decreasing_by
  all_goals
    exact Prod.Lex.right _ Nat.one_pos

end

/-- The source of a condition with every placeholder replaced by a generated name, and the values of
these names, when the placeholders are cut out by their positions. -/
def bindAt (limit : ℕ) (scope : Scope) (n : ℕ) (text : List Char) :
    Except ScanFault (Option (List Char × Fields)) :=
  match _found : cutHole text with
  | .error fault => .error fault
  | .ok none => .ok (some (text, []))
  | .ok (some (before, inner, rest)) => do
    match ← expandAt limit scope 1 inner with
    | .error _ => return none
    | .ok value =>
      let later ← bindAt limit scope (n + 1) rest
      return later.map fun (source, bindings) =>
        (before ++ ' ' :: (bindingName n).toList ++ ' ' :: source,
          (bindingName n, value) :: bindings)
termination_by text.length
decreasing_by
  rw [cutHole_eq_ok, Except.ok.injEq] at _found
  have := firstHole?_length _found
  omega

section Rendering

variable {limit : ℕ} {scope : Scope} {before inner rest : List Char}

/-- The text with the values of its placeholders put in; beyond the limit, the note that says so. -/
def renderWithin (limit : ℕ) (scope : Scope) (depth : ℕ) (text : List Char) : Rendered :=
  if limit < depth then ⟨Refusal.tooDeepMarker.toList, true⟩
  else renderPieces limit scope depth (ofText text)

/-- A placeholder has the value that its pieces give, if its source is rendered as they are. -/
theorem expandAt_eq_ok
    (h : renderAt limit scope (depth + 1) inner =
      .ok (renderWithin limit scope (depth + 1) inner)) :
    expandAt limit scope depth inner = .ok (expand limit scope depth inner (ofText inner)) := by
  rw [expandAt, expand, settle]
  by_cases hopening : hasOpening inner = true
  · rw [if_pos hopening, if_pos hopening, h, renderWithin]
    by_cases hdeep : limit < depth + 1
    · have hmarked : valueOf scope ⟨Refusal.tooDeepMarker.toList, true⟩ = .error .tooDeep := by
        rfl
      rw [if_pos hdeep, if_pos hdeep, ← hmarked]
      rfl
    · rw [if_neg hdeep, if_neg hdeep]
      rfl
  · rw [if_neg hopening, if_neg hopening]

theorem renderAt_of_none {text : List Char} (hdepth : ¬limit < depth)
    (h : firstHole? text = none) : renderAt limit scope depth text = .ok ⟨text, false⟩ := by
  rw [renderAt, if_neg hdepth]
  split <;> simp_all [cutHole_eq_ok]

theorem renderAt_of_some {text : List Char} (hdepth : ¬limit < depth)
    (h : firstHole? text = some (before, inner, rest)) : renderAt limit scope depth text = (do
      let value ← expandAt limit scope depth inner
      let later ← renderAt limit scope depth rest
      return (Rendered.append ⟨before, false⟩ (present inner value)).append later) := by
  rw [renderAt, if_neg hdepth]
  split <;> simp_all [cutHole_eq_ok]

theorem bindAt_of_none {text : List Char} {n : ℕ} (h : firstHole? text = none) :
    bindAt limit scope n text = .ok (some (text, [])) := by
  rw [bindAt]
  split <;> simp_all [cutHole_eq_ok]

theorem bindAt_of_some {text : List Char} {n : ℕ}
    (h : firstHole? text = some (before, inner, rest)) : bindAt limit scope n text = (do
      match ← expandAt limit scope 1 inner with
      | .error _ => return none
      | .ok value =>
        let later ← bindAt limit scope (n + 1) rest
        return later.map fun (source, bindings) =>
          (before ++ ' ' :: (bindingName n).toList ++ ' ' :: source,
            (bindingName n, value) :: bindings)) := by
  rw [bindAt]
  split <;> simp_all [cutHole_eq_ok]

/-- Rendering a text by the positions of its placeholders does not fail, and gives what its pieces
give. -/
theorem renderAt_eq_ok (limit : ℕ) (scope : Scope) (depth : ℕ) (text : List Char) :
    renderAt limit scope depth text = .ok (renderWithin limit scope depth text) := by
  fun_induction ofText text generalizing depth with
  | case1 text hnone =>
      by_cases hdepth : limit < depth
      · rw [renderAt, renderWithin, if_pos hdepth, if_pos hdepth]
      · rw [renderAt_of_none hdepth hnone, renderWithin, if_neg hdepth, ofText_of_none hnone]
        simp [renderPieces, renderPiece, Rendered.append]
  | case2 text before inner rest hfound ih ih' =>
      by_cases hdepth : limit < depth
      · rw [renderAt, renderWithin, if_pos hdepth, if_pos hdepth]
      · rw [renderAt_of_some hdepth hfound, expandAt_eq_ok (ih (depth + 1)), ih' depth,
          renderWithin, renderWithin, if_neg hdepth, if_neg hdepth, ofText_of_some hfound,
          renderPieces, renderPieces, renderPiece, renderPiece]
        refine congrArg Except.ok ?_
        simp [Rendered.append, expand]

/-- Binding the placeholders of a condition by their positions does not fail, and gives what its
pieces give. -/
theorem bindAt_eq_ok (limit : ℕ) (scope : Scope) (n : ℕ) (text : List Char) :
    bindAt limit scope n text = .ok (bind? limit scope n (ofText text)) := by
  fun_induction ofText text generalizing n with
  | case1 text hnone =>
      rw [bindAt_of_none hnone]
      simp [bind?]
  | case2 text before inner rest hfound ih ih' =>
      rw [bindAt_of_some hfound, expandAt_eq_ok (renderAt_eq_ok limit scope 2 inner), bind?, bind?]
      cases expand limit scope 1 inner (ofText inner) with
      | error refusal => rfl
      | ok value =>
          simp only [ih' (n + 1), bind, Except.bind, pure, Except.pure]
          refine congrArg Except.ok ?_
          cases bind? limit scope (n + 1) (ofText rest) <;> simp

end Rendering

/-! ## Bounds -/

/-- Opening braces and the braces at `c` delimit a placeholder of the text. -/
structure ClosedAt (text : List Char) (opening c : ℕ) : Prop where
  after : opening + 2 ≤ c
  before : c + 2 ≤ (utf8 text).length
  braces : (utf8 text)[c]? = some 0x7d ∧ (utf8 text)[c + 1]? = some 0x7d
  first : IsLeast {c | BalancedAt (utf8 text) opening c} c
  boundaries : ∀ n ∈ [opening, opening + 2, c, c + 2], IsBoundary text n

/-- The braces that the scan finds delimit a placeholder. -/
theorem closedAt_of_least (front inner rest : List Char)
    (h : IsLeast {c | BalancedAt
        (utf8 (front ++ '\x7b' :: '\x7b' :: (inner ++ '\x7d' :: '\x7d' :: rest))) (bytes front) c}
      (bytes front + 2 + bytes inner)) :
    ClosedAt (front ++ '\x7b' :: '\x7b' :: (inner ++ '\x7d' :: '\x7d' :: rest)) (bytes front)
      (bytes front + 2 + bytes inner) := by
  have hlength := bytes_braced front inner rest
  have hopened : bytes (front ++ ['\x7b', '\x7b']) = bytes front + 2 := bytes_append _ _
  have hsource : bytes (front ++ '\x7b' :: '\x7b' :: inner) = bytes front + 2 + bytes inner := by
    rw [List.append_cons, List.append_cons, bytes_append]
    simpa using hopened
  have hend := bytes_braced front inner []
  generalize hwhole : front ++ '\x7b' :: '\x7b' :: (inner ++ '\x7d' :: '\x7d' :: rest) = text
    at h hlength
  have hcut : text = (front ++ '\x7b' :: '\x7b' :: inner) ++ '\x7d' :: '\x7d' :: rest := by
    simp [← hwhole]
  have hbyte (n : ℕ) : (utf8 text)[bytes front + 2 + bytes inner + n]? =
      (utf8 ('\x7d' :: '\x7d' :: rest))[n]? := by
    rw [hcut, ← hsource, getElem?_utf8]
  refine ⟨Nat.le_add_right _ _, ?_, ⟨hbyte 0, hbyte 1⟩, h, ?_⟩
  · rw [length_utf8, hlength]
    exact Nat.le_add_right _ _
  · simp only [List.forall_mem_cons, List.not_mem_nil, false_implies, implies_true, and_true]
    refine ⟨⟨front, '\x7b' :: '\x7b' :: (inner ++ '\x7d' :: '\x7d' :: rest), hwhole.symm, rfl⟩,
      ⟨front ++ ['\x7b', '\x7b'], inner ++ '\x7d' :: '\x7d' :: rest, by simp [← hwhole], hopened⟩,
      ⟨front ++ '\x7b' :: '\x7b' :: inner, '\x7d' :: '\x7d' :: rest, hcut, hsource⟩,
      ⟨front ++ '\x7b' :: '\x7b' :: (inner ++ ['\x7d', '\x7d']), rest, by simp [← hwhole], hend⟩⟩

/-- From opening braces on, the scan finds the braces that delimit the placeholder; if it finds
none, the braces are not balanced anywhere. -/
theorem findClosing_closedAt {opening : ℕ} (h : OpensAt (utf8 text) opening) :
    ∃ closing, findClosing (utf8 text) 0 opening = .ok closing ∧
      (∀ c, closing = some c → ClosedAt text opening c) ∧
      (closing = none → ∀ c, ¬BalancedAt (utf8 text) opening c) := by
  obtain ⟨closing, hfound, hleast, hnone⟩ := findClosing_least h
  refine ⟨closing, hfound, fun c hc => ?_, hnone⟩
  obtain ⟨front, back, rfl, rfl⟩ := h.split
  rw [findClosing_utf8, hc, Except.ok.injEq] at hfound
  obtain ⟨⟨inner, rest⟩, hclosing, rfl⟩ := Option.map_eq_some_iff.1 hfound
  obtain rfl := closing?_text hclosing
  exact closedAt_of_least front inner rest (hleast _ hc)

/-- The scan for placeholders stays within the text, whatever the text is.  From opening braces on
its counter never falls below zero; the braces it finds lie behind the opening ones, are the first
ones at which as many pairs are closed as were opened, and delimit whole characters, and if it finds
none there are no such braces.  The source of a placeholder and the text behind it are proper parts
of the text that the placeholder is cut out of; and rendering a text, taking its only placeholder or
binding its placeholders that way fails nowhere and gives what its pieces give. -/
theorem placeholders_found_in_bounds (text : List Char) :
    (∀ opening, OpensAt (utf8 text) opening →
      ∃ closing, findClosing (utf8 text) 0 opening = .ok closing ∧
        (∀ c, closing = some c → ClosedAt text opening c) ∧
        (closing = none → ∀ c, ¬BalancedAt (utf8 text) opening c)) ∧
    (∀ before inner rest, cutHole text = .ok (some (before, inner, rest)) →
      text = before ++ '\x7b' :: '\x7b' :: (inner ++ '\x7d' :: '\x7d' :: rest) ∧
        bytes inner < bytes text ∧ bytes rest < bytes text) ∧
    singleAt text = .ok (single? text) ∧
    (∀ limit scope depth,
      renderAt limit scope depth text = .ok (renderWithin limit scope depth text)) ∧
    ∀ limit scope n, bindAt limit scope n text = .ok (bind? limit scope n (ofText text)) := by
  refine ⟨fun opening => findClosing_closedAt, fun before inner rest hcut => ?_,
    singleAt_eq_ok text, fun limit scope depth => renderAt_eq_ok limit scope depth text,
    fun limit scope n => bindAt_eq_ok limit scope n text⟩
  rw [cutHole_eq_ok, Except.ok.injEq] at hcut
  obtain rfl := firstHole?_text hcut
  rw [bytes_braced]
  exact ⟨rfl, by omega, by omega⟩

/-- A placeholder between characters of several bytes, with another one and a single brace in it. -/
def accented : List Char :=
  "é \x7b\x7b €\x7b\x7ba\x7d\x7d\x7d \x7d\x7d ü".toList

theorem accented_closed : OpensAt (utf8 accented) 3 ∧ ClosedAt accented 3 16 := by
  have hopens : OpensAt (utf8 accented) 3 := by
    decide
  obtain ⟨closing, hfound, hclosed, -⟩ := (placeholders_found_in_bounds accented).1 3 hopens
  have hscan : findClosing (utf8 accented) 0 3 = .ok (some 16) :=
    findClosing_utf8 ['é', ' '] " €\x7b\x7ba\x7d\x7d\x7d \x7d\x7d ü".toList
  exact ⟨hopens, hclosed 16 (Except.ok.inj (hfound.symm.trans hscan))⟩

end Template

end Parley
