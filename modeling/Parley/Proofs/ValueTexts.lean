import Parley.Json.Printer
import Parley.Json.Reader
import Parley.Proofs.NumberTexts

/-!
# Texts of values

No text is that of two values.  A value tells by its first character what kind
of value it is, and its text ends where it has to: a string at its quote, a list
and an object at its bracket, and a number where no character of a number
follows.  So whatever follows a value, its text can be cut off in one way only.
-/

set_option autoImplicit false

namespace Parley

namespace Json

/-! ## Strings -/

theorem hexValue?_hexDigit {n : ℕ} (h : n < 16) : hexValue? (hexDigit n) = some n := by
  have hall : ∀ n < 16, hexValue? (hexDigit n) = some n := by decide
  exact hall n h

/-- The escape of a control character is read as its number. -/
theorem hexUnit?_escape {n : ℕ} (h : n < 32) :
    hexUnit? '0' '0' (hexDigit (n / 16)) (hexDigit (n % 16)) = some n := by
  have hzero : hexValue? '0' = some 0 := rfl
  simp only [hexUnit?, hzero, hexValue?_hexDigit (show n / 16 < 16 by omega),
    hexValue?_hexDigit (show n % 16 < 16 by omega), Option.bind_eq_bind, Option.bind_some]
  congr 1
  omega

theorem unitChar?_toNat {c : Char} (h : c.toNat < 32) : unitChar? c.toNat = some c := by
  have hsingle : ¬ (0xD800 ≤ c.toNat ∧ c.toNat ≤ 0xDFFF) := by omega
  simp [unitChar?, hsingle]

/-- An escape by a letter is read as what the letter stands for. -/
theorem stringBody?_short {c meant : Char} (text : List Char) (hc : c ≠ 'u')
    (h : shortEscape? c = some meant) : stringBody? ('\\' :: c :: text) =
      (stringBody? text).map fun read => (meant :: read.1, read.2) := by
  rw [stringBody?.eq_def]
  split
  · rename_i heq
    cases heq
  · rename_i heq
    cases heq
    exact absurd rfl hc
  · rename_i heq
    cases heq
    exact absurd rfl hc
  · rename_i heq
    cases heq
    rw [h]
  · rename_i hother heq
    cases heq
    exact (hother _ _ rfl rfl).elim
  · rename_i heq
    cases heq

theorem stringBody?_unit {a b c d meant : Char} {unit : ℕ} (text : List Char)
    (hunit : hexUnit? a b c d = some unit) (h : unitChar? unit = some meant) :
    stringBody? ('\\' :: 'u' :: a :: b :: c :: d :: text) =
      (stringBody? text).map fun read => (meant :: read.1, read.2) := by
  rw [stringBody?.eq_def]
  split
  · rename_i heq
    cases heq
  · rename_i heq
    cases heq
    rw [hunit]
    simp only [h]
  · rename_i heq
    cases heq
    simp only [hunit, Option.bind_some, h]
  · rename_i hother heq
    cases heq
    exact (hother _ _ _ _ _ rfl rfl).elim
  · rename_i hother heq
    cases heq
    exact (hother _ _ rfl rfl).elim
  · rename_i heq
    cases heq

theorem stringBody?_plain {c : Char} (text : List Char) (hquote : c ≠ '"') (hslash : c ≠ '\\')
    (h : ¬ c.toNat < 32) : stringBody? (c :: text) =
      (stringBody? text).map fun read => (c :: read.1, read.2) := by
  rw [stringBody?.eq_def]
  split
  · rename_i heq
    cases heq
    exact absurd rfl hquote
  · rename_i heq
    cases heq
    exact absurd rfl hslash
  · rename_i heq
    cases heq
    exact absurd rfl hslash
  · rename_i heq
    cases heq
    exact absurd rfl hslash
  · rename_i heq
    cases heq
    simp [h, hslash]
  · rename_i heq
    cases heq

theorem stringBody?_escapeChar (c : Char) (text : List Char) :
    stringBody? (escapeChar c ++ text) =
      (stringBody? text).map fun read => (c :: read.1, read.2) := by
  have hofNat : ∀ {n : ℕ}, c.toNat = n → c = Char.ofNat n := by
    rintro n rfl
    exact (Char.ofNat_toNat c).symm
  unfold escapeChar
  split
  · rename_i hc
    subst hc
    exact stringBody?_short text (by decide) rfl
  split
  · rename_i hc
    subst hc
    exact stringBody?_short text (by decide) rfl
  split
  · rename_i hc
    subst hc
    exact stringBody?_short text (by decide) rfl
  split
  · rename_i hc
    subst hc
    exact stringBody?_short text (by decide) rfl
  split
  · rename_i hc
    subst hc
    exact stringBody?_short text (by decide) rfl
  split
  · rename_i hc
    rw [hofNat hc]
    exact stringBody?_short text (by decide) rfl
  split
  · rename_i hc
    rw [hofNat hc]
    exact stringBody?_short text (by decide) rfl
  split
  · rename_i hc
    exact stringBody?_unit text (hexUnit?_escape hc) (unitChar?_toNat hc)
  · rename_i hquote hslash _ _ _ _ _ hc
    exact stringBody?_plain text hquote hslash hc

/-- The inside of a written string is read back up to its quote. -/
theorem stringBody?_flatMap (s rest : List Char) :
    stringBody? (s.flatMap escapeChar ++ '"' :: rest) = some (s, rest) := by
  induction s with
  | nil =>
      rw [List.flatMap_nil, List.nil_append, stringBody?.eq_def]
      rfl
  | cons c s ih =>
      rw [List.flatMap_cons, List.append_assoc, stringBody?_escapeChar, ih, Option.map_some]

/-- A written string ends at its quote. -/
theorem quote_unique {s s' : String} {rest rest' : List Char}
    (h : quote s ++ rest = quote s' ++ rest') : s = s' ∧ rest = rest' := by
  have hbody : s.toList.flatMap escapeChar ++ '"' :: rest
      = s'.toList.flatMap escapeChar ++ '"' :: rest' := by
    simpa [quote] using h
  have hread := stringBody?_flatMap s.toList rest
  rw [hbody, stringBody?_flatMap] at hread
  obtain ⟨hs, hrest⟩ : s'.toList = s.toList ∧ rest' = rest := by simpa using hread
  exact ⟨String.toList_inj.1 hs.symm, hrest.symm⟩

/-! ## Values -/

/-- All numbers of the value are finite. -/
inductive IsFinite : Json → Prop where
  | null : IsFinite .null
  | bool (b : Bool) : IsFinite (.bool b)
  | num {n : Number} (h : n.IsFinite) : IsFinite (.num n)
  | str (s : String) : IsFinite (.str s)
  | arr {items : List Json} (each : ∀ item ∈ items, IsFinite item) : IsFinite (.arr items)
  | obj {fields : List (String × Json)} (each : ∀ field ∈ fields, IsFinite field.2) :
      IsFinite (.obj fields)

/-- The kinds of values. -/
inductive Kind where
  | null
  | bool
  | num
  | str
  | arr
  | obj

/-- The kind of a value. -/
def kind : Json → Kind
  | .null => .null
  | .bool _ => .bool
  | .num _ => .num
  | .str _ => .str
  | .arr _ => .arr
  | .obj _ => .obj

/-- The kind of value that begins with the character. -/
def kindOf? (c : Char) : Option Kind :=
  if c.isDigit || c = '-' then some .num
  else if c = 'n' then some .null
  else if c = 't' || c = 'f' then some .bool
  else if c = '"' then some .str
  else if c = '[' then some .arr
  else if c = '\x7b' then some .obj
  else none

/-- A value tells by its first character what kind of value it is. -/
theorem head_render {value : Json} (h : value.IsFinite) :
    ∃ c text, value.render = c :: text ∧ kindOf? c = some value.kind := by
  cases h with
  | null => exact ⟨_, _, rfl, rfl⟩
  | bool b => cases b <;> exact ⟨_, _, rfl, rfl⟩
  | @num n hn =>
      obtain ⟨-, c, text, hrender, hc⟩ := Number.render_numeral hn
      exact ⟨c, text, hrender, if_pos (by simpa using hc)⟩
  | str s => exact ⟨_, _, rfl, rfl⟩
  | @arr items _ => cases items <;> exact ⟨_, _, rfl, rfl⟩
  | @obj fields _ =>
      cases fields with
      | nil => exact ⟨_, _, rfl, rfl⟩
      | cons => exact ⟨_, _, rfl, rfl⟩

/-- No character of a number follows. -/
def Closed (rest : List Char) : Prop :=
  Token.StopsAt Decimal.isNumeral rest

/-- Whatever closed texts follow the value and another one, the texts are the same only if the values
are. -/
def Unique (value : Json) : Prop :=
  ∀ (other : Json) (rest rest' : List Char), other.IsFinite → Closed rest → Closed rest' →
    value.render ++ rest = other.render ++ rest' → value = other ∧ rest = rest'

theorem closed_renderItems (items : List Json) (rest : List Char) :
    Closed (renderItems items ++ rest) := by
  cases items <;> simp [renderItems, Closed] <;> rfl

theorem closed_renderFields (fields : List (String × Json)) (rest : List Char) :
    Closed (renderFields fields ++ rest) := by
  cases fields <;> simp [renderFields, Closed] <;> rfl

theorem renderItems_unique {items items' : List Json} {rest rest' : List Char}
    (hunique : ∀ item ∈ items, item.Unique) (hfinite : ∀ item ∈ items', item.IsFinite)
    (h : renderItems items ++ rest = renderItems items' ++ rest') : items = items' ∧ rest = rest' := by
  induction items generalizing items' with
  | nil =>
      cases items' with
      | nil => exact ⟨rfl, by simpa [renderItems] using h⟩
      | cons => simp [renderItems] at h
  | cons item items ih =>
      cases items' with
      | nil => simp [renderItems] at h
      | cons item' items' =>
          obtain ⟨hitem, hitems⟩ := List.forall_mem_cons.1 hunique
          obtain ⟨hitem', hitems'⟩ := List.forall_mem_cons.1 hfinite
          simp only [renderItems, List.cons_append, List.append_assoc, List.cons.injEq,
            true_and] at h
          obtain ⟨rfl, hmore⟩ := hitem item' _ _ hitem' (closed_renderItems _ _)
            (closed_renderItems _ _) h
          obtain ⟨rfl, hrest⟩ := ih hitems hitems' hmore
          exact ⟨rfl, hrest⟩

theorem renderFields_unique {fields fields' : List (String × Json)} {rest rest' : List Char}
    (hunique : ∀ field ∈ fields, field.2.Unique) (hfinite : ∀ field ∈ fields', field.2.IsFinite)
    (h : renderFields fields ++ rest = renderFields fields' ++ rest') :
    fields = fields' ∧ rest = rest' := by
  induction fields generalizing fields' with
  | nil =>
      cases fields' with
      | nil => exact ⟨rfl, by simpa [renderFields] using h⟩
      | cons => simp [renderFields] at h
  | cons field fields ih =>
      obtain ⟨key, value⟩ := field
      cases fields' with
      | nil => simp [renderFields] at h
      | cons field' fields' =>
          obtain ⟨key', value'⟩ := field'
          obtain ⟨hvalue, hfields⟩ := List.forall_mem_cons.1 hunique
          obtain ⟨hvalue', hfields'⟩ := List.forall_mem_cons.1 hfinite
          simp only [renderFields, List.cons_append, List.append_assoc, List.cons.injEq,
            true_and] at h
          obtain ⟨rfl, hvalues⟩ := quote_unique h
          rw [List.cons.injEq] at hvalues
          obtain ⟨rfl, hmore⟩ := hvalue value' _ _ hvalue' (closed_renderFields _ _)
            (closed_renderFields _ _) hvalues.2
          obtain ⟨rfl, hrest⟩ := ih hfields hfields' hmore
          exact ⟨rfl, hrest⟩

theorem num_unique {n : Number} (hn : n.IsFinite) {n' : Number} (hn' : n'.IsFinite)
    {rest rest' : List Char} (hrest : Closed rest) (hrest' : Closed rest')
    (h : n.render ++ rest = n'.render ++ rest') : n = n' ∧ rest = rest' := by
  have htake := congrArg (List.takeWhile Decimal.isNumeral) h
  rw [Token.takeWhile_spelled (Number.render_numeral hn).1 hrest,
    Token.takeWhile_spelled (Number.render_numeral hn').1 hrest'] at htake
  obtain rfl := Number.render_injective hn hn' htake
  exact ⟨rfl, List.append_cancel_left h⟩

theorem kind_eq {a b : Json} (ha : a.IsFinite) (hb : b.IsFinite) {rest rest' : List Char}
    (h : a.render ++ rest = b.render ++ rest') : a.kind = b.kind := by
  obtain ⟨c, text, htext, hc⟩ := head_render ha
  obtain ⟨c', text', htext', hc'⟩ := head_render hb
  rw [htext, htext', List.cons_append, List.cons_append, List.cons.injEq] at h
  rw [h.1, hc'] at hc
  exact (Option.some.inj hc).symm

/-- The text of a value does not begin with the bracket that closes a list. -/
theorem render_ne_bracket {value : Json} (h : value.IsFinite) {rest rest' : List Char} :
    value.render ++ rest ≠ ']' :: rest' := by
  intro heq
  obtain ⟨c, text, htext, hc⟩ := head_render h
  rw [htext, List.cons_append, List.cons.injEq] at heq
  rw [heq.1] at hc
  cases hc

theorem arr_unique {items items' : List Json} {rest rest' : List Char}
    (hunique : ∀ item ∈ items, item.Unique) (hfinite : ∀ item ∈ items, item.IsFinite)
    (hfinite' : ∀ item ∈ items', item.IsFinite)
    (h : (Json.arr items).render ++ rest = (Json.arr items').render ++ rest') :
    items = items' ∧ rest = rest' := by
  cases items with
  | nil =>
      cases items' with
      | nil => exact ⟨rfl, by simpa [render] using h⟩
      | cons item' items' =>
          simp only [render, List.cons_append, List.append_assoc, List.cons.injEq, true_and] at h
          exact absurd h.symm (render_ne_bracket (hfinite' item' (.head _)))
  | cons item items =>
      cases items' with
      | nil =>
          simp only [render, List.cons_append, List.append_assoc, List.cons.injEq, true_and] at h
          exact absurd h (render_ne_bracket (hfinite item (.head _)))
      | cons item' items' =>
          -- behind the opening bracket the items stand as behind a comma
          apply renderItems_unique hunique hfinite'
          simpa [render, renderItems] using h

theorem obj_unique {fields fields' : List (String × Json)} {rest rest' : List Char}
    (hunique : ∀ field ∈ fields, field.2.Unique) (hfinite' : ∀ field ∈ fields', field.2.IsFinite)
    (h : (Json.obj fields).render ++ rest = (Json.obj fields').render ++ rest') :
    fields = fields' ∧ rest = rest' := by
  cases fields with
  | nil =>
      cases fields' with
      | nil => exact ⟨rfl, by simpa [render] using h⟩
      | cons => simp [render, quote] at h
  | cons field fields =>
      cases fields' with
      | nil => simp [render, quote] at h
      | cons field' fields' =>
          apply renderFields_unique hunique hfinite'
          simpa [render, renderFields] using h

/-- A value whose numbers are finite can be cut off a text in one way only. -/
theorem unique_of_isFinite {value : Json} (h : value.IsFinite) : value.Unique := by
  -- The other value is of the same kind, since it begins with the same character.
  induction h with intro other rest rest' hother hrest hrest' heq
  | null =>
      have hkind := kind_eq .null hother heq
      cases hother with
      | null => exact ⟨rfl, by simpa [render] using heq⟩
      | _ => cases hkind
  | bool b =>
      have hkind := kind_eq (.bool b) hother heq
      cases hother with
      | bool b' => cases b <;> cases b' <;> simp_all [render]
      | _ => cases hkind
  | num hn =>
      have hkind := kind_eq (.num hn) hother heq
      cases hother with
      | num hn' =>
          obtain ⟨rfl, hrest⟩ := num_unique hn hn' hrest hrest' (by simpa [render] using heq)
          exact ⟨rfl, hrest⟩
      | _ => cases hkind
  | str s =>
      have hkind := kind_eq (.str s) hother heq
      cases hother with
      | str s' =>
          obtain ⟨rfl, hrest⟩ := quote_unique (by simpa [render] using heq)
          exact ⟨rfl, hrest⟩
      | _ => cases hkind
  | arr each ih =>
      have hkind := kind_eq (.arr each) hother heq
      cases hother with
      | arr each' =>
          obtain ⟨rfl, hrest⟩ := arr_unique ih each each' heq
          exact ⟨rfl, hrest⟩
      | _ => cases hkind
  | obj each ih =>
      have hkind := kind_eq (.obj each) hother heq
      cases hother with
      | obj each' =>
          obtain ⟨rfl, hrest⟩ := obj_unique ih each' heq
          exact ⟨rfl, hrest⟩
      | _ => cases hkind

/-- Values whose numbers are finite are told by their texts. -/
theorem text_injective {a b : Json} (ha : a.IsFinite) (hb : b.IsFinite) (h : a.text = b.text) :
    a = b := by
  have hrender : a.render ++ [] = b.render ++ [] := by
    rw [List.append_nil, List.append_nil]
    exact String.ofList_injective h
  exact (unique_of_isFinite ha b [] [] hb (Token.stopsAt_nil _) (Token.stopsAt_nil _) hrender).1

end Json

end Parley
