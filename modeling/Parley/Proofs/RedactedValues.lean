import Parley.Proofs.BearerTokens

/-!
# What redaction keeps of a value

Redaction keeps the shape of a value: its keys and their order, the lengths of its
lists, and its numbers and truth values.  It masks tokens in strings, and under a
key that names a secret it keeps nothing.  So two values are redacted to the same
exactly if they are alike but for secrets and tokens, and redacting once more
changes nothing.
-/

set_option autoImplicit false

namespace Parley

namespace Redaction

/-! ## Texts -/

theorem blank_notMem_of_mem_splitOn {text word : List Char} (h : word ∈ text.splitOn ' ') :
    ' ' ∉ word := by
  induction text generalizing word with
  | nil =>
      obtain rfl := List.mem_singleton.1 h
      exact List.not_mem_nil
  | cons c text ih =>
      rw [List.splitOn_cons_eq_if_modifyHead] at h
      split at h
      · rcases List.mem_cons.1 h with rfl | hrest
        · exact List.not_mem_nil
        · exact ih hrest
      · rename_i hvisible
        obtain ⟨first, rest, hsplit⟩ := List.exists_cons_of_ne_nil (List.splitOn_ne_nil ' ' text)
        rw [hsplit] at h ih
        rcases List.mem_cons.1 h with rfl | hrest
        · intro hblank
          rcases List.mem_cons.1 hblank with rfl | hlater
          · exact hvisible rfl
          · exact ih List.mem_cons_self hlater
        · exact ih (List.mem_cons_of_mem first hrest)

/-- Words without blanks can be read off the text that they make up. -/
theorem words_unwords {pieces : List (List Char)} (hpieces : pieces ≠ [])
    (hfree : ∀ word ∈ pieces, ' ' ∉ word) : words (unwords pieces) = pieces := by
  rw [words, unwords, String.toList_ofList]
  exact List.splitOn_intercalate ' ' hfree hpieces

theorem mem_maskWords {token : Bool} {words : List (List Char)} {word : List Char}
    (h : word ∈ maskWords token words) : word = mask.toList ∨ word ∈ words := by
  induction words generalizing token with
  | nil => exact .inr h
  | cons first words ih =>
      rw [maskWords_cons] at h
      rcases List.mem_cons.1 h with hfirst | hrest
      · split at hfirst
        · exact .inl hfirst
        · exact .inr (hfirst ▸ List.mem_cons_self)
      · exact (ih hrest).imp_right (List.mem_cons_of_mem first)

/-- The mask is no `bearer`, and `bearer` is masked only where it announces nothing anyway. -/
theorem maskWords_maskWords (token : Bool) (words : List (List Char)) :
    maskWords token (maskWords token words) = maskWords token words := by
  induction words generalizing token with
  | nil => cases token <;> rfl
  | cons word words ih =>
      rw [maskWords_cons, maskWords_cons]
      cases token with
      | false => simpa using ih (isBearer word)
      | true =>
          cases word with
          | nil => simpa [isBearer, Text.asciiLower] using ih false
          | cons c word => simpa [mask] using ih false

theorem textFrom_textFrom (token : Bool) (s : String) :
    textFrom token (textFrom token s) = textFrom token s := by
  have hmasked : maskWords token (words s) ≠ [] := maskWords_ne_nil token (words_ne_nil s)
  have hfree : ∀ word ∈ maskWords token (words s), ' ' ∉ word := by
    intro word hword
    rcases mem_maskWords hword with rfl | hkept
    · decide
    · exact blank_notMem_of_mem_splitOn hkept
  rw [textFrom, textFrom, words_unwords hmasked hfree, maskWords_maskWords]

/-- A text that was redacted is left as it is. -/
@[simp] theorem text_text (s : String) : text (text s) = text s := by
  rw [text_eq_textFrom, text_eq_textFrom, textFrom_textFrom]

/-! ## Values -/

mutual

/-- Two values are alike but for secrets: they are the same, except that strings may differ as
`similar` allows, and that anything may stand under a key that names a secret. -/
inductive Alike (similar : String → String → Prop) : Json → Json → Prop where
  | null : Alike similar .null .null
  | bool (b : Bool) : Alike similar (.bool b) (.bool b)
  | num (n : Number) : Alike similar (.num n) (.num n)
  | str {s t : String} (hsimilar : similar s t) : Alike similar (.str s) (.str t)
  | arr {items items' : List Json} (hitems : AlikeItems similar items items') :
      Alike similar (.arr items) (.arr items')
  | obj {fields fields' : List (String × Json)} (hfields : AlikeFields similar fields fields') :
      Alike similar (.obj fields) (.obj fields')

/-- Two lists are alike if they are so item by item. -/
inductive AlikeItems (similar : String → String → Prop) : List Json → List Json → Prop where
  | nil : AlikeItems similar [] []
  | cons {item item' : Json} {items items' : List Json} (hitem : Alike similar item item')
      (hitems : AlikeItems similar items items') :
      AlikeItems similar (item :: items) (item' :: items')

/-- The entries of two objects are alike if they have the same keys in the same order, and alike
values under all keys that name no secret. -/
inductive AlikeFields (similar : String → String → Prop) :
    List (String × Json) → List (String × Json) → Prop where
  | nil : AlikeFields similar [] []
  | secret {key : String} (value value' : Json) {fields fields' : List (String × Json)}
      (hkey : isSensitive key = true) (hfields : AlikeFields similar fields fields') :
      AlikeFields similar ((key, value) :: fields) ((key, value') :: fields')
  | shown {key : String} {value value' : Json} {fields fields' : List (String × Json)}
      (hkey : isSensitive key = false) (hvalue : Alike similar value value')
      (hfields : AlikeFields similar fields fields') :
      AlikeFields similar ((key, value) :: fields) ((key, value') :: fields')

end

section

variable {similar other : String → String → Prop}

mutual

/-- Strings may be taken to be alike in a weaker sense. -/
theorem Alike.imp (himp : ∀ s t, similar s t → other s t) :
    ∀ {a b : Json}, Alike similar a b → Alike other a b
  | _, _, .null => .null
  | _, _, .bool b => .bool b
  | _, _, .num n => .num n
  | _, _, .str hsimilar => .str (himp _ _ hsimilar)
  | _, _, .arr hitems => .arr (hitems.imp himp)
  | _, _, .obj hfields => .obj (hfields.imp himp)

theorem AlikeItems.imp (himp : ∀ s t, similar s t → other s t) :
    ∀ {a b : List Json}, AlikeItems similar a b → AlikeItems other a b
  | _, _, .nil => .nil
  | _, _, .cons hitem hitems => .cons (hitem.imp himp) (hitems.imp himp)

theorem AlikeFields.imp (himp : ∀ s t, similar s t → other s t) :
    ∀ {a b : List (String × Json)}, AlikeFields similar a b → AlikeFields other a b
  | _, _, .nil => .nil
  | _, _, .secret value value' hkey hfields => .secret value value' hkey (hfields.imp himp)
  | _, _, .shown hkey hvalue hfields => .shown hkey (hvalue.imp himp) (hfields.imp himp)

end

end

mutual

/-- Redaction keeps all of a value but its secrets, and masks its strings. -/
theorem alike_value : ∀ v : Json, Alike (fun s t => t = text s) v (value v)
  | .null => .null
  | .bool b => .bool b
  | .num n => .num n
  | .str _ => .str rfl
  | .arr items => .arr (alike_valueItems items)
  | .obj fields => .obj (alike_valueFields fields)

theorem alike_valueItems :
    ∀ items : List Json, AlikeItems (fun s t => t = text s) items (valueItems items)
  | [] => .nil
  | item :: items => .cons (alike_value item) (alike_valueItems items)

theorem alike_valueFields : ∀ fields : List (String × Json),
    AlikeFields (fun s t => t = text s) fields (valueFields fields)
  | [] => .nil
  | (key, v) :: fields => by
      cases hkey : isSensitive key with
      | true =>
          simp only [valueFields, hkey, if_true]
          exact .secret v _ hkey (alike_valueFields fields)
      | false =>
          simp only [valueFields, hkey, Bool.false_eq_true, if_false]
          exact .shown hkey (alike_value v) (alike_valueFields fields)

end

/-- Strings that are the same once they are redacted. -/
abbrev SameRedacted (s t : String) : Prop :=
  text s = text t

mutual

theorem value_eq_of_alike : ∀ {a b : Json}, Alike SameRedacted a b → value a = value b
  | _, _, .null => rfl
  | _, _, .bool _ => rfl
  | _, _, .num _ => rfl
  | _, _, .str hsame => congrArg Json.str hsame
  | _, _, .arr hitems => congrArg Json.arr (valueItems_eq_of_alike hitems)
  | _, _, .obj hfields => congrArg Json.obj (valueFields_eq_of_alike hfields)

theorem valueItems_eq_of_alike :
    ∀ {a b : List Json}, AlikeItems SameRedacted a b → valueItems a = valueItems b
  | _, _, .nil => rfl
  | _, _, .cons hitem hitems => by
      simp only [valueItems, value_eq_of_alike hitem, valueItems_eq_of_alike hitems]

theorem valueFields_eq_of_alike :
    ∀ {a b : List (String × Json)}, AlikeFields SameRedacted a b → valueFields a = valueFields b
  | _, _, .nil => rfl
  | _, _, .secret _ _ hkey hfields => by
      simp only [valueFields, hkey, if_true, valueFields_eq_of_alike hfields]
  | _, _, .shown _ hvalue hfields => by
      simp only [valueFields, value_eq_of_alike hvalue, valueFields_eq_of_alike hfields]

end

mutual

theorem alike_of_value_eq (a b : Json) (h : value a = value b) : Alike SameRedacted a b := by
  cases a with
  | null => cases b <;> simp only [value, reduceCtorEq] at h; exact .null
  | bool x =>
      cases b <;> simp only [value, reduceCtorEq, Json.bool.injEq] at h
      exact h ▸ .bool x
  | num x =>
      cases b <;> simp only [value, reduceCtorEq, Json.num.injEq] at h
      exact h ▸ .num x
  | str s =>
      cases b <;> simp only [value, reduceCtorEq, Json.str.injEq] at h
      exact .str h
  | arr items =>
      cases b <;> simp only [value, reduceCtorEq, Json.arr.injEq] at h
      exact .arr (alikeItems_of_value_eq items _ h)
  | obj fields =>
      cases b <;> simp only [value, reduceCtorEq, Json.obj.injEq] at h
      exact .obj (alikeFields_of_value_eq fields _ h)

theorem alikeItems_of_value_eq (a b : List Json) (h : valueItems a = valueItems b) :
    AlikeItems SameRedacted a b := by
  cases a with
  | nil => cases b <;> simp only [valueItems, reduceCtorEq] at h; exact .nil
  | cons item items =>
      cases b <;> simp only [valueItems, reduceCtorEq, List.cons.injEq] at h
      exact .cons (alike_of_value_eq item _ h.1) (alikeItems_of_value_eq items _ h.2)

theorem alikeFields_of_value_eq (a b : List (String × Json)) (h : valueFields a = valueFields b) :
    AlikeFields SameRedacted a b := by
  cases a with
  | nil => cases b <;> simp only [valueFields, reduceCtorEq] at h; exact .nil
  | cons field fields =>
      obtain ⟨key, v⟩ := field
      cases b with
      | nil => simp only [valueFields, reduceCtorEq] at h
      | cons field' fields' =>
          obtain ⟨key', v'⟩ := field'
          simp only [valueFields, List.cons.injEq, Prod.mk.injEq] at h
          obtain ⟨⟨rfl, hvalue⟩, hrest⟩ := h
          have hfields := alikeFields_of_value_eq fields fields' hrest
          cases hkey : isSensitive key with
          | true => exact .secret v v' hkey hfields
          | false =>
              simp only [hkey, Bool.false_eq_true, if_false] at hvalue
              exact .shown hkey (alike_of_value_eq v v' hvalue) hfields

end

/-- Two values are redacted to the same exactly if they are alike but for secrets and tokens. -/
theorem value_eq_iff {a b : Json} : value a = value b ↔ Alike SameRedacted a b :=
  ⟨alike_of_value_eq a b, value_eq_of_alike⟩

/-- A value that was redacted is left as it is. -/
@[simp] theorem value_value (v : Json) : value (value v) = value v := by
  have halike : Alike SameRedacted v (value v) :=
    (alike_value v).imp fun s t ht => by rw [SameRedacted, ht, text_text]
  exact (value_eq_iff.2 halike).symm

end Redaction

end Parley
