import Mathlib.Data.List.Nodup
import Parley.Proofs.Notices

/-!
# Arguments that are put in word for word

A text is filled in at once if every place of an argument becomes the value of the argument and all
else stays, so that no value is looked at again.  The engine fills in one argument after another,
and looks at the values of former arguments again.  The result is the same as long as every
argument, when its turn comes, finds the places that the text itself has for it; an argument that
finds more of them is put in where it does not belong.
-/

set_option autoImplicit false

namespace Parley

namespace Catalog

open Text

variable {a b : String} {argument : String × String} {arguments later : List (String × String)}
  {text passed result : List Char} {c : Char}

/-! ## Places -/

/-- How many places a text has for a name. -/
def placesOf (name : String) : List Char → Nat
  | [] => 0
  | c :: text => (if (placeOf name).isPrefixOf (c :: text) then 1 else 0) + placesOf name text

theorem placesOf_cons_of_not (h : ¬placeOf a <+: c :: text) :
    placesOf a (c :: text) = placesOf a text := by
  rw [placesOf, if_neg (by simpa using h), Nat.zero_add]

theorem placesOf_cons_place (h : placeOf a <+: c :: text) :
    placesOf a (c :: text) = placesOf a text + 1 := by
  rw [placesOf, if_pos (by simpa using h), Nat.add_comm]

theorem placesOf_cons_le (a : String) (c : Char) (text : List Char) :
    placesOf a text ≤ placesOf a (c :: text) :=
  Nat.le_add_left _ _

theorem placesOf_append_le (a : String) (added text : List Char) :
    placesOf a text ≤ placesOf a (added ++ text) := by
  induction added with
  | nil => exact Nat.le_refl _
  | cons c added ih => exact Nat.le_trans ih (placesOf_cons_le a c _)

/-- No place begins with another character than the brace that opens it. -/
theorem placesOf_append_of_not_mem (h : '\x7b' ∉ passed) (a : String) (text : List Char) :
    placesOf a (passed ++ text) = placesOf a text := by
  induction passed with
  | nil => rfl
  | cons c passed ih =>
      obtain ⟨hc, hpassed⟩ := not_or.1 (List.mem_cons.not.1 h)
      have hno : ¬placeOf a <+: c :: (passed ++ text) := fun hplace =>
        hc (List.cons_prefix_cons.1 hplace).1
      rw [List.cons_append, placesOf_cons_of_not hno, ih hpassed]

/-- A place is one of its own name, and has none of another name inside. -/
theorem placesOf_place (ha : IsName a) (hb : IsName b) (text : List Char) :
    placesOf a (placeOf b ++ text) = (if a = b then 1 else 0) + placesOf a text := by
  have hinside : '\x7b' ∉ b.toList ++ ['\x7d'] := by simpa using hb.1
  have hrest : placesOf a (b.toList ++ ['\x7d'] ++ text) = placesOf a text :=
    placesOf_append_of_not_mem hinside a text
  split
  · rename_i hsame
    subst hsame
    rw [← hrest, Nat.add_comm]
    exact placesOf_cons_place (List.prefix_append (placeOf a) text)
  · rename_i hne
    rw [← hrest, Nat.zero_add]
    exact placesOf_cons_of_not fun hplace =>
      hne (eq_of_placeOf ha hb hplace (List.prefix_append (placeOf b) text))

/-! ## Texts filled in at once -/

/-- The result is the text with every place of an argument replaced by the value of the argument,
and all else as it is. -/
inductive Filled (arguments : List (String × String)) : List Char → List Char → Prop where
  | nil : Filled arguments [] []
  | place {argument : String × String} {text result : List Char} (hmem : argument ∈ arguments)
      (hrest : Filled arguments text result) :
      Filled arguments (placeOf argument.1 ++ text) (argument.2.toList ++ result)
  | char {c : Char} {text result : List Char}
      (hnone : ∀ argument ∈ arguments, ¬placeOf argument.1 <+: c :: text)
      (hrest : Filled arguments text result) : Filled arguments (c :: text) (c :: result)

/-- The names of the arguments have no braces and are apart. -/
structure Proper (arguments : List (String × String)) : Prop where
  isName : ∀ argument ∈ arguments, IsName argument.1
  nodup : (arguments.map Prod.fst).Nodup

namespace Proper

theorem eq_of_name (h : Proper arguments) {first second : String × String}
    (hfirst : first ∈ arguments) (hsecond : second ∈ arguments) (hname : first.1 = second.1) :
    first = second :=
  List.inj_on_of_nodup_map h.nodup hfirst hsecond hname

/-- Of two places that begin a text only one argument can be the owner. -/
theorem eq_of_place (h : Proper arguments) {first second : String × String}
    (hfirst : first ∈ arguments) (hsecond : second ∈ arguments)
    (hplace : placeOf first.1 <+: text) (hother : placeOf second.1 <+: text) : first = second :=
  h.eq_of_name hfirst hsecond
    (eq_of_placeOf (h.isName first hfirst) (h.isName second hsecond) hplace hother)

theorem tail (h : Proper (argument :: later)) : Proper later :=
  ⟨(List.forall_mem_cons.1 h.isName).2, (List.nodup_cons.1 h.nodup).2⟩

theorem ne_of_mem (h : Proper (argument :: later)) {other : String × String}
    (hother : other ∈ later) : other.1 ≠ argument.1 := by
  intro hname
  exact (List.nodup_cons.1 h.nodup).1 (hname ▸ List.mem_map_of_mem hother)

end Proper

namespace Filled

/-- A text that begins with the place of an argument is filled in by its value. -/
theorem of_place (hproper : Proper arguments) (hmem : argument ∈ arguments)
    (h : Filled arguments (placeOf argument.1 ++ text) result) :
    ∃ rest, result = argument.2.toList ++ rest ∧ Filled arguments text rest := by
  generalize htext : placeOf argument.1 ++ text = whole at h
  cases h with
  | nil => cases htext
  | @place other others rest hother hrest =>
      have hplace : placeOf argument.1 <+: placeOf other.1 ++ others := ⟨text, htext⟩
      obtain rfl := hproper.eq_of_place hmem hother hplace (List.prefix_append _ _)
      obtain rfl := List.append_cancel_left htext
      exact ⟨rest, rfl, hrest⟩
  | char hnone hrest => exact absurd ⟨text, htext⟩ (hnone argument hmem)

/-- A text that begins with no place keeps its first character. -/
theorem of_char (hnone : ∀ argument ∈ arguments, ¬placeOf argument.1 <+: c :: text)
    (h : Filled arguments (c :: text) result) :
    ∃ rest, result = c :: rest ∧ Filled arguments text rest := by
  generalize htext : c :: text = whole at h
  cases h with
  | nil => cases htext
  | @place other others rest hother hrest =>
      exact absurd (htext ▸ List.prefix_append (placeOf other.1) others) (hnone other hother)
  | char hnone' hrest =>
      cases htext
      exact ⟨_, rfl, hrest⟩

/-- Characters among which no place begins are kept. -/
theorem of_not_mem (h : '\x7b' ∉ passed) (hfilled : Filled arguments (passed ++ text) result) :
    ∃ rest, result = passed ++ rest ∧ Filled arguments text rest := by
  induction passed generalizing result with
  | nil => exact ⟨result, rfl, hfilled⟩
  | cons c passed ih =>
      obtain ⟨hc, hpassed⟩ := not_or.1 (List.mem_cons.not.1 h)
      obtain ⟨rest, rfl, hrest⟩ := hfilled.of_char fun argument _ hplace =>
        hc (List.cons_prefix_cons.1 hplace).1
      obtain ⟨final, rfl, hfinal⟩ := ih hpassed hrest
      exact ⟨final, rfl, hfinal⟩

/-- The place of another argument is kept. -/
theorem of_other_place (hproper : ∀ argument ∈ arguments, IsName argument.1 ∧ a ≠ argument.1)
    (ha : IsName a) (h : Filled arguments (placeOf a ++ text) result) :
    ∃ rest, result = placeOf a ++ rest ∧ Filled arguments text rest := by
  have hinside : '\x7b' ∉ a.toList ++ ['\x7d'] := by simpa using ha.1
  obtain ⟨middle, rfl, hmiddle⟩ := of_char (c := '\x7b') (fun argument hmem hplace =>
    (hproper argument hmem).2
      (eq_of_placeOf ha (hproper argument hmem).1 (List.prefix_append _ _) hplace)) h
  obtain ⟨rest, rfl, hrest⟩ := hmiddle.of_not_mem hinside
  exact ⟨rest, rfl, hrest⟩

end Filled

/-- Every text can be filled in. -/
theorem exists_filled (arguments : List (String × String)) (text : List Char) :
    ∃ result, Filled arguments text result := by
  induction hlength : text.length using Nat.strong_induction_on generalizing text with
  | _ n ih =>
      cases text with
      | nil => exact ⟨[], .nil⟩
      | cons c text =>
          by_cases hplace : ∃ argument ∈ arguments, placeOf argument.1 <+: c :: text
          · obtain ⟨argument, hmem, rest, hrest⟩ := hplace
            obtain ⟨result, hresult⟩ := ih rest.length (by
              rw [← hlength, ← hrest, placeOf, List.cons_append, List.length_cons,
                List.length_append]
              omega) rest rfl
            rw [← hrest]
            exact ⟨_, .place hmem hresult⟩
          · push Not at hplace
            obtain ⟨result, hresult⟩ := ih text.length (by rw [← hlength]; exact Nat.lt_succ_self _)
              text rfl
            exact ⟨_, .char hplace hresult⟩

/-- A text can be filled in with proper arguments in one way only. -/
theorem Filled.unique (hproper : Proper arguments) {other : List Char}
    (h : Filled arguments text result) (hother : Filled arguments text other) : result = other := by
  induction h generalizing other with
  | nil =>
      cases hother with
      | nil => rfl
  | place hmem hrest ih =>
      obtain ⟨rest, rfl, hsame⟩ := hother.of_place hproper hmem
      rw [ih hsame]
  | char hnone hrest ih =>
      obtain ⟨rest, rfl, hsame⟩ := hother.of_char hnone
      rw [ih hsame]

/-- The order of the arguments does not matter when they are filled in at once. -/
theorem Filled.perm {others : List (String × String)} (hsame : arguments.Perm others)
    (h : Filled arguments text result) : Filled others text result := by
  induction h with
  | nil => exact .nil
  | place hmem hrest ih => exact .place (hsame.subset hmem) ih
  | char hnone hrest ih =>
      exact .char (fun argument hmem => hnone argument (hsame.symm.subset hmem)) ih

/-! ## One argument after another -/

theorem replaceAfter_append (old new passed text : List Char) :
    replaceAfter old new passed.length (passed ++ text) = replaceAfter old new 0 text := by
  induction passed with
  | nil => rfl
  | cons c passed ih => exact ih

theorem replace_place (a : String) (new text : List Char) :
    replace (placeOf a) new (placeOf a ++ text) = new ++ replace (placeOf a) new text := by
  have hprefix : (placeOf a).isPrefixOf ('\x7b' :: (a.toList ++ ['\x7d'] ++ text)) = true :=
    List.isPrefixOf_iff_prefix.2 (List.prefix_append (placeOf a) text)
  have hlength : (placeOf a).length - 1 = (a.toList ++ ['\x7d']).length := rfl
  unfold replace
  rw [placeOf, List.cons_append, ← placeOf, replaceAfter, if_pos hprefix, hlength,
    replaceAfter_append]

theorem replace_char {old : List Char} (new : List Char) (h : ¬old <+: c :: text) :
    replace old new (c :: text) = c :: replace old new text := by
  unfold replace
  rw [replaceAfter, if_neg (by simpa using h)]

/-- One argument is filled in at once. -/
theorem filled_replace (argument : String × String) (text : List Char) :
    Filled [argument] text (replace (placeOf argument.1) argument.2.toList text) := by
  obtain ⟨result, hresult⟩ := exists_filled [argument] text
  suffices h : result = replace (placeOf argument.1) argument.2.toList text from h ▸ hresult
  induction hresult with
  | nil => rfl
  | @place other text rest hmem hrest ih =>
      obtain rfl := List.mem_singleton.1 hmem
      rw [replace_place, ih]
  | char hnone hrest ih =>
      rw [replace_char _ (hnone argument (List.mem_singleton_self argument)), ih]

/-- Filling in an argument takes away no place of another one. -/
theorem Filled.placesOf_le (ha : IsName a) (hargument : IsName argument.1) (hne : a ≠ argument.1)
    (h : Filled [argument] text result) : placesOf a text ≤ placesOf a result := by
  induction h with
  | nil => exact Nat.le_refl _
  | @place other text rest hmem hrest ih =>
      obtain rfl := List.mem_singleton.1 hmem
      rw [placesOf_place ha hargument, if_neg hne, Nat.zero_add]
      exact Nat.le_trans ih (placesOf_append_le a _ rest)
  | @char c text rest hnone hrest ih =>
      by_cases hplace : placeOf a <+: c :: text
      · -- the place is kept as a whole
        have hkept : placeOf a <+: c :: rest := by
          obtain ⟨others, hothers⟩ := hplace
          have hwhole : Filled [argument] (placeOf a ++ others) (c :: rest) :=
            hothers ▸ .char hnone hrest
          obtain ⟨final, hfinal, -⟩ := hwhole.of_other_place (by simpa using ⟨hargument, hne⟩) ha
          exact ⟨final, hfinal.symm⟩
        rw [placesOf_cons_place hplace, placesOf_cons_place hkept]
        exact Nat.succ_le_succ ih
      · rw [placesOf_cons_of_not hplace]
        exact Nat.le_trans ih (placesOf_cons_le a c rest)

/-- What was put in is kept if no place of the remaining arguments begins in it. -/
theorem Filled.of_unchanged {added : List Char}
    (hsame : ∀ other ∈ later, placesOf other.1 (added ++ text) = placesOf other.1 text)
    (h : Filled later (added ++ text) result) :
    ∃ rest, result = added ++ rest ∧ Filled later text rest := by
  induction added generalizing result with
  | nil => exact ⟨result, rfl, h⟩
  | cons c added ih =>
      have hnone : ∀ other ∈ later, ¬placeOf other.1 <+: c :: (added ++ text) := by
        intro other hother hplace
        have hmore := hsame other hother
        rw [List.cons_append, placesOf_cons_place hplace] at hmore
        have hle := placesOf_append_le other.1 added text
        omega
      obtain ⟨middle, rfl, hmiddle⟩ := h.of_char hnone
      obtain ⟨rest, rfl, hrest⟩ := ih (fun other hother => by
        rw [← placesOf_cons_of_not (hnone other hother)]
        exact hsame other hother) hmiddle
      exact ⟨rest, rfl, hrest⟩

/-- Filling in one argument and then the others is filling them in at once, if the others have the
same number of places afterwards as before. -/
theorem Filled.of_steps {middle : List Char} (hproper : Proper (argument :: later))
    (hfirst : Filled [argument] text middle)
    (hsame : ∀ other ∈ later, placesOf other.1 middle = placesOf other.1 text)
    (hlater : Filled later middle result) : Filled (argument :: later) text result := by
  obtain ⟨hargument, hnames⟩ := List.forall_mem_cons.1 hproper.isName
  induction hlength : text.length using Nat.strong_induction_on generalizing text middle result with
  | _ n ih =>
      cases hfirst with
      | nil =>
          cases hlater with
          | nil => exact .nil
      | @place other text middle hmem hrest =>
          obtain rfl := List.mem_singleton.1 hmem
          have hplaces : ∀ next ∈ later, placesOf next.1 (other.2.toList ++ middle) =
              placesOf next.1 text := by
            intro next hnext
            rw [hsame next hnext, placesOf_place (hnames next hnext) hargument,
              if_neg (hproper.ne_of_mem hnext), Nat.zero_add]
          -- all the places were there before, so none of them begins in the value
          have hmiddle : ∀ next ∈ later, placesOf next.1 middle = placesOf next.1 text := by
            intro next hnext
            have hkept := hrest.placesOf_le (hnames next hnext) hargument (hproper.ne_of_mem hnext)
            have hadded := placesOf_append_le next.1 other.2.toList middle
            rw [hplaces next hnext] at hadded
            exact Nat.le_antisymm hadded hkept
          obtain ⟨rest, rfl, hfinal⟩ := hlater.of_unchanged fun next hnext => by
            rw [hplaces next hnext, hmiddle next hnext]
          refine .place List.mem_cons_self (ih text.length ?_ hrest hmiddle hfinal rfl)
          simp only [← hlength, placeOf, List.cons_append, List.length_cons, List.length_append]
          omega
      | @char c text middle hnone hrest =>
          have hshorter : text.length < n := by
            rw [← hlength]
            exact Nat.lt_succ_self _
          by_cases hplace : ∃ other ∈ later, placeOf other.1 <+: c :: text
          · obtain ⟨other, hother, others, hothers⟩ := hplace
            have hwhole : Filled [argument] (placeOf other.1 ++ others) (c :: middle) :=
              hothers ▸ .char hnone hrest
            obtain ⟨kept, hkept, hrest'⟩ := hwhole.of_other_place
              (by simpa using ⟨hargument, hproper.ne_of_mem hother⟩) (hnames other hother)
            rw [hkept] at hlater hsame
            rw [← hothers] at hsame ⊢
            obtain ⟨rest, rfl, hfinal⟩ := hlater.of_place hproper.tail hother
            refine .place (List.mem_cons_of_mem _ hother) (ih others.length ?_ hrest' ?_ hfinal rfl)
            · rw [← hlength, ← hothers]
              simp only [placeOf, List.cons_append, List.length_cons, List.length_append]
              omega
            · intro next hnext
              have hplaces := hsame next hnext
              rwa [placesOf_place (hnames next hnext) (hnames other hother),
                placesOf_place (hnames next hnext) (hnames other hother),
                Nat.add_left_cancel_iff] at hplaces
          · push Not at hplace
            have hmiddle : ∀ other ∈ later, ¬placeOf other.1 <+: c :: middle := by
              intro other hother hnew
              have hplaces := hsame other hother
              rw [placesOf_cons_place hnew, placesOf_cons_of_not (hplace other hother)] at hplaces
              have hkept :=
                hrest.placesOf_le (hnames other hother) hargument (hproper.ne_of_mem hother)
              omega
            obtain ⟨rest, rfl, hfinal⟩ := hlater.of_char hmiddle
            refine .char (List.forall_mem_cons.2 ⟨hnone argument List.mem_cons_self, hplace⟩)
              (ih text.length hshorter hrest ?_ hfinal rfl)
            intro other hother
            rw [← placesOf_cons_of_not (hmiddle other hother), hsame other hother,
              placesOf_cons_of_not (hplace other hother)]

/-- Without arguments a text stays as it is. -/
theorem filled_of_no_arguments (text : List Char) : Filled [] text text := by
  induction text with
  | nil => exact .nil
  | cons c text ih => exact .char (by simp) ih

/-- Filling in other arguments takes away no place. -/
theorem placesOf_fill_le (ha : IsName a)
    (hothers : ∀ other ∈ arguments, IsName other.1 ∧ a ≠ other.1) (text : List Char) :
    placesOf a text ≤ placesOf a (fill arguments text) := by
  induction arguments generalizing text with
  | nil => exact Nat.le_refl _
  | cons argument later ih =>
      obtain ⟨hargument, hlater⟩ := List.forall_mem_cons.1 hothers
      exact Nat.le_trans ((filled_replace argument text).placesOf_le ha hargument.1 hargument.2)
        (ih hlater _)

/-- Every argument, when its turn comes, finds as many places as the text itself has for it. -/
def Undisturbed (arguments : List (String × String)) (text : List Char) : Prop :=
  ∀ before argument later, arguments = before ++ argument :: later →
    placesOf argument.1 (fill before text) = placesOf argument.1 text

/-- In front of an argument stand arguments with other names. -/
theorem Proper.others_before {before : List (String × String)}
    (h : Proper (before ++ argument :: later)) :
    ∀ other ∈ before, IsName other.1 ∧ argument.1 ≠ other.1 := by
  intro other hother
  refine ⟨h.isName other (List.mem_append_left _ hother), fun hname => ?_⟩
  have hapart := h.nodup
  rw [List.map_append, List.nodup_append] at hapart
  exact hapart.2.2 other.1 (List.mem_map_of_mem hother) argument.1 (by simp) hname.symm

/-- Undisturbed arguments are filled in as if all at once. -/
theorem filled_fill (hproper : Proper arguments) (h : Undisturbed arguments text) :
    Filled arguments text (fill arguments text) := by
  induction arguments generalizing text with
  | nil => exact filled_of_no_arguments text
  | cons argument later ih =>
      have hfirst := filled_replace argument text
      have hnames := (List.forall_mem_cons.1 hproper.isName).2
      -- the places of a later argument lie between those of the text and those it finds
      have hbetween : ∀ before other rest, later = before ++ other :: rest →
          placesOf other.1 (replace (placeOf argument.1) argument.2.toList text) =
            placesOf other.1 text ∧
          placesOf other.1 (fill before (replace (placeOf argument.1) argument.2.toList text)) =
            placesOf other.1 text := by
        intro before other rest hlater
        have hother : other ∈ later := by simp [hlater]
        have hfound : placesOf other.1
            (fill before (replace (placeOf argument.1) argument.2.toList text)) =
              placesOf other.1 text :=
          h (argument :: before) other rest (by rw [hlater, List.cons_append])
        have hkept := hfirst.placesOf_le (hnames other hother)
          (hproper.isName argument List.mem_cons_self) (hproper.ne_of_mem hother)
        have hmore := placesOf_fill_le (hnames other hother)
          (hlater ▸ hproper.tail).others_before
          (replace (placeOf argument.1) argument.2.toList text)
        omega
      refine hfirst.of_steps hproper (fun other hother => ?_) (ih hproper.tail ?_)
      · obtain ⟨before, rest, hlater⟩ := List.append_of_mem hother
        exact (hbetween before other rest hlater).1
      · intro before other rest hlater
        obtain ⟨hsame, hfound⟩ := hbetween before other rest hlater
        rw [hfound, hsame]

/-! ## Values are seen in the length of the result -/

theorem Proper.of_names {others : List (String × String)}
    (hsame : arguments.map Prod.fst = others.map Prod.fst) (h : Proper arguments) :
    Proper others := by
  refine ⟨fun other hother => ?_, hsame ▸ h.nodup⟩
  have hname : other.1 ∈ arguments.map Prod.fst := hsame ▸ List.mem_map_of_mem hother
  obtain ⟨argument, hargument, heq⟩ := List.mem_map.1 hname
  exact heq ▸ h.isName argument hargument

/-- The arguments up to one of them stay proper with any value of that one. -/
theorem Proper.upTo {before : List (String × String)} (h : Proper (before ++ argument :: later))
    (value : String) : Proper (before ++ [(argument.1, value)]) := by
  have hfirst : Proper (before ++ [argument]) :=
    ⟨fun other hother => h.isName other (by
        rcases List.mem_append.1 hother with hbefore | hlast
        · exact List.mem_append_left _ hbefore
        · simp [List.mem_singleton.1 hlast]),
      h.nodup.sublist (List.Sublist.map _ (by simp))⟩
  exact hfirst.of_names (by simp)

/-- The arguments up to one of them stay undisturbed with any value of that one, since no other is
put in after it. -/
theorem Undisturbed.upTo {before : List (String × String)}
    (h : Undisturbed (before ++ argument :: later) text) (value : String) :
    Undisturbed (before ++ [(argument.1, value)]) text := by
  intro first other rest hsplit
  rcases List.eq_nil_or_concat rest with rfl | ⟨middle, last, rfl⟩
  · obtain ⟨rfl, hlast⟩ := List.append_inj' hsplit rfl
    obtain rfl := List.singleton_inj.1 hlast
    exact h before argument later rfl
  · rw [List.concat_eq_append, ← List.cons_append, ← List.append_assoc] at hsplit
    obtain ⟨rfl, -⟩ := List.append_inj' hsplit rfl
    exact h first other (middle ++ argument :: later) (by simp)

/-- A text that is filled in is longer, by the value of the last argument for each of its places,
than it is with no value in these places. -/
theorem Filled.length_eq {before : List (String × String)} {value : String} {bare : List Char}
    (hproper : Proper (before ++ [(b, value)])) (h : Filled (before ++ [(b, value)]) text result)
    (hbare : Filled (before ++ [(b, "")]) text bare) :
    result.length = bare.length + placesOf b text * value.toList.length := by
  have hbareProper : Proper (before ++ [(b, "")]) := hproper.of_names (by simp)
  have hb : IsName b := hproper.isName (b, value) (by simp)
  induction h generalizing bare with
  | nil =>
      cases hbare
      simp [placesOf]
  | @place argument text rest hmem hrest ih =>
      have hname := hproper.isName argument hmem
      rcases List.mem_append.1 hmem with hbefore | hlast
      · obtain ⟨final, rfl, hfinal⟩ :=
          hbare.of_place hbareProper (List.mem_append_left _ hbefore)
        rw [placesOf_place hb hname, if_neg (hproper.others_before argument hbefore).2, Nat.zero_add]
        simp only [List.length_append, ih hfinal, Nat.add_assoc]
      · obtain rfl := List.mem_singleton.1 hlast
        have hmemBare : (b, "") ∈ before ++ [(b, "")] := by simp
        obtain ⟨final, hnothing, hfinal⟩ := hbare.of_place hbareProper hmemBare
        have hsame : bare = final := hnothing
        rw [placesOf_place hb hname, if_pos rfl, List.length_append, hsame, ih hfinal, Nat.add_mul,
          Nat.one_mul]
        exact Nat.add_left_comm _ _ _
  | @char c text rest hnone hrest ih =>
      have hnoneBare : ∀ argument ∈ before ++ [(b, "")], ¬placeOf argument.1 <+: c :: text := by
        intro argument hmem
        rcases List.mem_append.1 hmem with hbefore | hlast
        · exact hnone argument (List.mem_append_left _ hbefore)
        · obtain rfl := List.mem_singleton.1 hlast
          exact hnone (b, value) (by simp)
      obtain ⟨final, rfl, hfinal⟩ := hbare.of_char hnoneBare
      rw [placesOf_cons_of_not (hnone (b, value) (by simp))]
      simp only [List.length_cons, ih hfinal]
      omega

/-- An argument that is put in as if at once, with no value and with one of one character, has
found the places that the text has for it. -/
theorem placesOf_eq_of_filled {before : List (String × String)}
    (hproper : Proper (before ++ [(b, "")]))
    (h : ∀ value : String, Filled (before ++ [(b, value)]) text (fill (before ++ [(b, value)]) text)) :
    placesOf b (fill before text) = placesOf b text := by
  have hlast : ∀ value : String, fill (before ++ [(b, value)]) text =
      replace (placeOf b) value.toList (fill before text) := by
    intro value
    simp only [fill, List.foldl_append, List.foldl_cons, List.foldl_nil]
  have hone : Proper ([] ++ [(b, "-")]) :=
    ⟨by simpa using hproper.isName (b, "") (by simp), by simp⟩
  have hlength : "-".toList.length = 1 := by decide
  have hstep : (fill (before ++ [(b, "-")]) text).length =
      (fill (before ++ [(b, "")]) text).length + placesOf b (fill before text) * 1 := by
    rw [hlast, hlast, ← hlength]
    exact (filled_replace (b, "-") (fill before text)).length_eq hone
      (filled_replace (b, "") (fill before text))
  have hatOnce : (fill (before ++ [(b, "-")]) text).length =
      (fill (before ++ [(b, "")]) text).length + placesOf b text * 1 := by
    rw [← hlength]
    exact (h "-").length_eq (hproper.of_names (by simp)) (h "")
  omega

/-! ## Formatting -/

theorem toList_format (catalog : Catalog) (language key : String)
    (arguments : List (String × String)) :
    (catalog.format language key arguments).toList =
      fill arguments (catalog.get language key).toList :=
  String.toList_ofList

/-- **Arguments are put in word for word exactly as long as none finds a place in the values of
those put in before it.**  There is one text in which the places of all arguments have become their
values at once, and all else has stayed.  Formatting gives that text, in every order of the
arguments in which each of them, when its turn comes, finds no other places than those of the
message.  An order has that property if and only if each of its arguments could be given any value
at all, and be put in word for word after those before it. -/
theorem format_verbatim_iff (catalog : Catalog) (language key : String)
    (arguments : List (String × String)) (hproper : Proper arguments) :
    (∃! result, Filled arguments (catalog.get language key).toList result) ∧
      (∀ order : List (String × String), order.Perm arguments →
        Undisturbed order (catalog.get language key).toList →
          Filled arguments (catalog.get language key).toList
            (catalog.format language key order).toList) ∧
      (Undisturbed arguments (catalog.get language key).toList ↔
        ∀ before argument later, arguments = before ++ argument :: later → ∀ value : String,
          Filled (before ++ [(argument.1, value)]) (catalog.get language key).toList
            (catalog.format language key (before ++ [(argument.1, value)])).toList) := by
  refine ⟨?_, ?_, ?_, ?_⟩
  · obtain ⟨result, hresult⟩ := exists_filled arguments (catalog.get language key).toList
    exact ⟨result, hresult, fun other hother => hother.unique hproper hresult⟩
  · intro order hperm hundisturbed
    have horder : Proper order :=
      ⟨fun other hother => hproper.isName other (hperm.subset hother),
        (hperm.map Prod.fst).nodup_iff.2 hproper.nodup⟩
    rw [toList_format]
    exact (filled_fill horder hundisturbed).perm hperm
  · intro hundisturbed before argument later hsplit value
    subst hsplit
    rw [toList_format]
    exact filled_fill (hproper.upTo value) (hundisturbed.upTo value)
  · intro hverbatim before argument later hsplit
    subst hsplit
    refine placesOf_eq_of_filled (hproper.upTo "") fun value => ?_
    rw [← toList_format]
    exact hverbatim before argument later rfl value

end Catalog

namespace Kiosk

/-- Two arguments that both find the places of the message are undisturbed. -/
theorem undisturbed_pair {first second : String × String} {text : List Char}
    (h : Catalog.placesOf second.1 (Catalog.fill [first] text) = Catalog.placesOf second.1 text) :
    Catalog.Undisturbed [first, second] text := by
  intro before argument later hsplit
  match before, hsplit with
  | [], _ => rfl
  | [other], hsplit =>
      simp only [List.cons_append, List.nil_append, List.cons.injEq] at hsplit
      obtain ⟨rfl, rfl, -⟩ := hsplit
      exact h
  | other :: another :: more, hsplit =>
      simp at hsplit

/-- The question about a switch names both flows. -/
theorem switch_names_both_flows :
    Catalog.Proper [("flow", "Order"), ("target", "Weather")] ∧
      Catalog.Undisturbed [("flow", "Order"), ("target", "Weather")]
        (Catalog.standard.get "en" "switch_confirm").toList ∧
      Catalog.Filled [("flow", "Order"), ("target", "Weather")]
        (Catalog.standard.get "en" "switch_confirm").toList
        (Catalog.standard.format "en" "switch_confirm"
          [("flow", "Order"), ("target", "Weather")]).toList := by
  have hproper : Catalog.Proper [("flow", "Order"), ("target", "Weather")] :=
    ⟨by decide, by decide⟩
  have hundisturbed : Catalog.Undisturbed [("flow", "Order"), ("target", "Weather")]
      (Catalog.standard.get "en" "switch_confirm").toList := undisturbed_pair (by decide +kernel)
  exact ⟨hproper, hundisturbed,
    (Catalog.format_verbatim_iff Catalog.standard "en" "switch_confirm" _ hproper).2.1 _
      (List.Perm.refl _) hundisturbed⟩

/-- A flow that has the name of a place is put in, and then its name is taken for that place: the
question does not name the flow that is left, and the order of the arguments decides. -/
theorem switch_names_one_flow_twice :
    Catalog.standard.format "en" "switch_confirm"
        [("flow", "\x7btarget\x7d"), ("target", "Weather")] =
      "You're in the middle of Weather. Say \"switch\" to start Weather now, or \"continue\" to keep going." ∧
    Catalog.standard.format "en" "switch_confirm"
        [("target", "Weather"), ("flow", "\x7btarget\x7d")] =
      "You're in the middle of \x7btarget\x7d. Say \"switch\" to start Weather now, or \"continue\" to keep going." ∧
    ¬Catalog.Filled [("flow", "\x7btarget\x7d"), ("target", "Weather")]
        (Catalog.standard.get "en" "switch_confirm").toList
        (Catalog.standard.format "en" "switch_confirm"
          [("flow", "\x7btarget\x7d"), ("target", "Weather")]).toList := by
  have hthere : Catalog.standard.format "en" "switch_confirm"
        [("flow", "\x7btarget\x7d"), ("target", "Weather")] =
      "You're in the middle of Weather. Say \"switch\" to start Weather now, or \"continue\" to keep going." := by
    decide +kernel
  have hback : Catalog.standard.format "en" "switch_confirm"
        [("target", "Weather"), ("flow", "\x7btarget\x7d")] =
      "You're in the middle of \x7btarget\x7d. Say \"switch\" to start Weather now, or \"continue\" to keep going." := by
    decide +kernel
  refine ⟨hthere, hback, fun hfilled => ?_⟩
  have hproper : Catalog.Proper [("flow", "\x7btarget\x7d"), ("target", "Weather")] :=
    ⟨by decide, by decide⟩
  have hswapped : Catalog.Undisturbed [("target", "Weather"), ("flow", "\x7btarget\x7d")]
      (Catalog.standard.get "en" "switch_confirm").toList := undisturbed_pair (by decide +kernel)
  have hother := Catalog.filled_fill ⟨by decide, by decide⟩ hswapped
  rw [← Catalog.toList_format, hback] at hother
  have hsame := hfilled.unique hproper (hother.perm (List.Perm.swap _ _ _))
  rw [hthere] at hsame
  exact absurd hsame (by decide)

end Kiosk

end Parley
