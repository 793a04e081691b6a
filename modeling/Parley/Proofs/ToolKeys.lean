import Parley.Proofs.DistinctKeys
import Parley.Tool.Definition

/-!
# Tools and their keys

A registry finds the tool with a name, and if there is none a tool with that id: of several ones it
is the one whose name comes first, and an empty id is an id like any other.  When tools are
registered only their names are told apart.  So the keys of tools are unambiguous exactly if the ids
are apart from each other and from the names of other tools, and the empty key finds no tool or one
whose name is empty.
-/

set_option autoImplicit false

namespace Parley

namespace Table

variable {κ α : Type} [DecidableEq κ]

/-- In a table with distinct keys every entry is found under its key. -/
theorem get?_iff_mem {key : κ} {value : α} {table : Table κ α} (h : (keys table).Nodup) :
    get? key table = some value ↔ (key, value) ∈ table := by
  refine ⟨mem_of_get?, fun hmem => ?_⟩
  induction table with
  | nil => cases hmem
  | cons entry entries ih =>
      obtain ⟨k, v⟩ := entry
      simp only [keys, List.map_cons, List.nodup_cons] at h
      rcases List.mem_cons.1 hmem with hfirst | hlater
      · cases hfirst
        simp [get?]
      · have hother : k ≠ key := by
          rintro rfl
          exact h.1 (mem_keys_of_mem hlater)
        simp [get?, hother, ih h.2 hlater]

end Table

/-- The tool goes by the key: it is its name, or its id unless that is empty. -/
def Tool.GoesBy (tool : Tool) (key : String) : Prop :=
  key = tool.name ∨ key = tool.id ∧ tool.id ≠ ""

namespace Registry

variable {registry extended : Registry} {tools : List Tool} {tool : Tool} {key : String}

/-! ## Registered tools -/

/-- Every tool stands under its own name, and the names are in ascending order. -/
structure Named (registry : Registry) : Prop where
  ascending : Table.Ascending registry.tools
  own : ∀ entry ∈ registry.tools, entry.1 = entry.2.name

theorem named_empty : Named .empty :=
  ⟨List.Pairwise.nil, nofun⟩

namespace Named

theorem pairwise (h : registry.Named) :
    registry.toList.Pairwise fun a b => textBelow a.name b.name = true := by
  have hkeys : Table.keys registry.tools = registry.toList.map Tool.name := by
    rw [Table.keys, toList, List.map_map]
    exact List.map_inj_left.2 h.own
  have hnames := h.ascending
  rwa [Table.Ascending, hkeys, List.pairwise_map] at hnames

/-- Registered tools with one name are one tool. -/
theorem eq_of_name (h : registry.Named) {first second : Tool} (hfirst : first ∈ registry.toList)
    (hsecond : second ∈ registry.toList) (hname : first.name = second.name) : first = second :=
  List.inj_on_of_nodup_map (List.pairwise_map.2 (h.pairwise.imp textBelow_ne)) hfirst hsecond hname

/-- What stands in the table is a registered tool under its name. -/
theorem mem_tools_iff (h : registry.Named) :
    (key, tool) ∈ registry.tools ↔ tool ∈ registry.toList ∧ tool.name = key := by
  constructor
  · intro hentry
    exact ⟨List.mem_map_of_mem hentry, (h.own _ hentry).symm⟩
  · rintro ⟨htool, rfl⟩
    obtain ⟨⟨k, other⟩, hentry, rfl⟩ := List.mem_map.1 htool
    obtain rfl : k = other.name := h.own _ hentry
    exact hentry

theorem get?_tools_iff (h : registry.Named) : Table.get? key registry.tools = some tool ↔
    tool ∈ registry.toList ∧ tool.name = key := by
  rw [Table.get?_iff_mem h.ascending.nodup, h.mem_tools_iff]

theorem get?_tools_eq_none_iff (h : registry.Named) : Table.get? key registry.tools = none ↔
    ∀ other ∈ registry.toList, other.name ≠ key := by
  simp only [Option.eq_none_iff_forall_ne_some, ne_eq, h.get?_tools_iff, not_and]

/-- Of the registered tools with a property the first one is that whose name comes first. -/
theorem find?_toList_iff (h : registry.Named) (p : Tool → Bool) :
    registry.toList.find? p = some tool ↔ tool ∈ registry.toList ∧ p tool = true ∧
      ∀ other ∈ registry.toList, p other = true → textBelow other.name tool.name = false := by
  have hleast : ∀ tool, registry.toList.find? p = some tool →
      ∀ other ∈ registry.toList, p other = true → textBelow other.name tool.name = false := by
    intro tool hfound other hother hp
    obtain ⟨-, before, after, hsplit, hnone⟩ := List.find?_eq_some_iff_append.1 hfound
    have hordered := h.pairwise
    rw [hsplit] at hother hordered
    obtain ⟨-, hlater, -⟩ := List.pairwise_append.1 hordered
    rcases List.mem_append.1 hother with hbefore | hrest
    · have hmissed := hnone other hbefore
      rw [hp] at hmissed
      cases hmissed
    · rcases List.mem_cons.1 hrest with rfl | hafter
      · simp [textBelow]
      · exact textBelow_asymm ((List.pairwise_cons.1 hlater).1 other hafter)
  constructor
  · intro hfound
    exact ⟨List.mem_of_find?_eq_some hfound, List.find?_some hfound, hleast tool hfound⟩
  · rintro ⟨htool, hp, hfirst⟩
    have hsome : (registry.toList.find? p).isSome = true :=
      List.find?_isSome.2 ⟨tool, htool, hp⟩
    obtain ⟨found, hfound⟩ := Option.isSome_iff_exists.1 hsome
    -- neither name comes before the other, so they are the same
    have hmem := List.mem_of_find?_eq_some hfound
    have hname : found.name = tool.name := by
      by_contra hne
      have hbelow := textBelow_of_ne (hleast found hfound tool htool hp) hne
      rw [hfirst found hmem (List.find?_some hfound)] at hbelow
      cases hbelow
    rw [hfound, h.eq_of_name hmem htool hname]

/-- A tool is found by its name, or as the first of those with the id if no tool has that name. -/
theorem get?_iff (h : registry.Named) : registry.get? key = some tool ↔
    tool ∈ registry.toList ∧ (tool.name = key ∨
      (∀ other ∈ registry.toList, other.name ≠ key) ∧ tool.id = key ∧
        ∀ other ∈ registry.toList, other.id = key → textBelow other.name tool.name = false) := by
  rw [get?, Option.or_eq_some_iff, h.get?_tools_iff, h.get?_tools_eq_none_iff, h.find?_toList_iff]
  simp only [decide_eq_true_eq]
  tauto

end Named

/-! ## Registering -/

/-- A tool is refused for its name if that is taken, and stands under its name otherwise. -/
theorem insert_eq_ok_iff : registry.insert tool = .ok extended ↔
    Table.has tool.name registry.tools = false ∧
      extended = ⟨Table.setSorted textBelow tool.name tool registry.tools⟩ := by
  unfold insert
  split
  · rename_i htaken
    simp [htaken]
  · rename_i hfree
    simp [hfree, eq_comm]

theorem Named.insert (h : registry.Named) (hinsert : registry.insert tool = .ok extended) :
    extended.Named := by
  obtain ⟨hfree, rfl⟩ := insert_eq_ok_iff.1 hinsert
  refine ⟨Table.ascending_setSorted tool h.ascending, fun entry hentry => ?_⟩
  rcases Table.mem_setSorted hentry with rfl | hbefore
  · rfl
  · exact h.own entry hbefore

/-- The new tool has a name of its own, and all tools that were registered stay. -/
theorem Named.mem_insert (h : registry.Named) (hinsert : registry.insert tool = .ok extended) :
    (∀ other ∈ registry.toList, other.name ≠ tool.name) ∧
      ∀ other, other ∈ extended.toList ↔ other = tool ∨ other ∈ registry.toList := by
  have hextended := h.insert hinsert
  obtain ⟨hfree, rfl⟩ := insert_eq_ok_iff.1 hinsert
  have hnone : Table.get? tool.name registry.tools = none := by
    simpa [Table.has] using hfree
  have hapart := h.get?_tools_eq_none_iff.1 hnone
  refine ⟨hapart, fun other => ?_⟩
  have hself : other ∈ (Registry.mk (Table.setSorted textBelow tool.name tool registry.tools)).toList ↔
      Table.get? other.name (Table.setSorted textBelow tool.name tool registry.tools) = some other := by
    rw [hextended.get?_tools_iff]
    simp
  have hbefore : other ∈ registry.toList ↔ Table.get? other.name registry.tools = some other := by
    rw [h.get?_tools_iff]
    simp
  rw [hself]
  by_cases hname : other.name = tool.name
  · rw [hname, Table.get?_setSorted_self, Option.some.injEq, eq_comm]
    exact ⟨.inl, fun hor => hor.resolve_right fun hmem => hapart other hmem hname⟩
  · rw [Table.get?_setSorted_of_ne textBelow tool registry.tools hname, ← hbefore]
    refine ⟨.inr, fun hor => hor.resolve_left ?_⟩
    rintro rfl
    exact hname rfl

/-- Tools that are registered one after another come to those that were there, and their names are
apart from each other and from the names of these. -/
theorem Named.insertAll (h : registry.Named) (hall : registry.insertAll tools = .ok extended) :
    extended.Named ∧ (∀ tool, tool ∈ extended.toList ↔ tool ∈ tools ∨ tool ∈ registry.toList) ∧
      (tools.map Tool.name).Nodup ∧
      ∀ first ∈ registry.toList, ∀ second ∈ tools, first.name ≠ second.name := by
  induction tools generalizing registry with
  | nil =>
      cases hall
      exact ⟨h, by simp, List.nodup_nil, by simp⟩
  | cons first later ih =>
      unfold Registry.insertAll at hall
      cases hinsert : registry.insert first with
      | error e => simp [hinsert, Except.bind] at hall
      | ok next =>
          rw [hinsert] at hall
          obtain ⟨hapart, hmem⟩ := h.mem_insert hinsert
          obtain ⟨hextended, hmems, hnodup, hothers⟩ := ih (h.insert hinsert) hall
          refine ⟨hextended, fun tool => ?_, ?_, ?_⟩
          · rw [hmems, hmem, List.mem_cons]
            tauto
          · rw [List.map_cons, List.nodup_cons]
            refine ⟨fun htaken => ?_, hnodup⟩
            obtain ⟨other, hother, hname⟩ := List.mem_map.1 htaken
            exact hothers first ((hmem first).2 (.inl rfl)) other hother hname.symm
          · intro before hbefore second hsecond
            rcases List.mem_cons.1 hsecond with rfl | hlater
            · exact hapart before hbefore
            · exact hothers before ((hmem before).2 (.inr hbefore)) second hlater

/-- Tools can be registered if their names are apart from each other and from those that are taken. -/
theorem Named.exists_insertAll (h : registry.Named) (hnodup : (tools.map Tool.name).Nodup)
    (hapart : ∀ first ∈ registry.toList, ∀ second ∈ tools, first.name ≠ second.name) :
    ∃ extended, registry.insertAll tools = .ok extended := by
  induction tools generalizing registry with
  | nil => exact ⟨registry, rfl⟩
  | cons first later ih =>
      rw [List.map_cons, List.nodup_cons] at hnodup
      have hfree : Table.get? first.name registry.tools = none :=
        h.get?_tools_eq_none_iff.2 fun other hother => hapart other hother first List.mem_cons_self
      have hinsert : registry.insert first =
          .ok ⟨Table.setSorted textBelow first.name first registry.tools⟩ :=
        insert_eq_ok_iff.2 ⟨by simp [Table.has, hfree], rfl⟩
      obtain ⟨-, hmem⟩ := h.mem_insert hinsert
      obtain ⟨extended, hextended⟩ := ih (h.insert hinsert) hnodup.2 (by
        intro before hbefore second hsecond hname
        rcases (hmem before).1 hbefore with rfl | hold
        · exact hnodup.1 (hname ▸ List.mem_map_of_mem hsecond)
        · exact hapart before hold second (List.mem_cons_of_mem _ hsecond) hname)
      exact ⟨extended, by rw [Registry.insertAll, hinsert]; exact hextended⟩

/-! ## Looking tools up -/

/-- What is found by a key goes by it, and nothing else does; every tool is found by its name and by
its id unless that is empty. -/
structure Unambiguous (registry : Registry) : Prop where
  own : ∀ key tool, registry.get? key = some tool → tool.GoesBy key
  sole : ∀ key tool, registry.get? key = some tool →
    ∀ other ∈ registry.toList, other.GoesBy key → other = tool
  found : ∀ tool ∈ registry.toList, ∀ key, tool.GoesBy key → registry.get? key = some tool

/-- If no two tools go by one key, each of them is found by its keys. -/
theorem Named.get?_of_goesBy (h : registry.Named)
    (hapart : ∀ first ∈ registry.toList, ∀ second ∈ registry.toList, ∀ key,
      first.GoesBy key → second.GoesBy key → first = second)
    (htool : tool ∈ registry.toList) (hkey : tool.GoesBy key) : registry.get? key = some tool := by
  refine h.get?_iff.2 ⟨htool, ?_⟩
  rcases hkey with rfl | ⟨rfl, hid⟩
  · exact .inl rfl
  · by_cases hname : tool.name = tool.id
    · exact .inl hname
    · refine .inr ⟨fun other hother hsame => ?_, rfl, fun other hother hsame => ?_⟩
      · have hone := hapart tool htool other hother tool.id (.inr ⟨rfl, hid⟩) (.inl hsame.symm)
        exact hname (hone ▸ hsame)
      · have hone := hapart tool htool other hother tool.id (.inr ⟨rfl, hid⟩)
          (.inr ⟨hsame.symm, hsame ▸ hid⟩)
        rw [hone]
        simp [textBelow]

/-- The keys of registered tools are unambiguous exactly if no two tools go by one key and the empty
key, which is no one's id, finds no tool without id. -/
theorem Named.unambiguous_iff (h : registry.Named) : registry.Unambiguous ↔
    (∀ first ∈ registry.toList, ∀ second ∈ registry.toList, ∀ key,
      first.GoesBy key → second.GoesBy key → first = second) ∧
    ((∀ tool ∈ registry.toList, tool.id ≠ "") ∨ ∃ tool ∈ registry.toList, tool.name = "") := by
  constructor
  · intro hlookup
    refine ⟨fun first hfirst second hsecond key hkey hother => ?_, ?_⟩
    · exact hlookup.sole key second (hlookup.found second hsecond key hother) first hfirst hkey
    · by_contra hneither
      obtain ⟨hsome, hnone⟩ := not_or.1 hneither
      push Not at hsome hnone
      -- the first tool without id is found by the empty key, by which it does not go
      obtain ⟨tool, htool, hempty⟩ := hsome
      have hthere : (registry.toList.find? fun tool => decide (tool.id = "")).isSome = true :=
        List.find?_isSome.2 ⟨tool, htool, by simpa using hempty⟩
      obtain ⟨found, hfound⟩ := Option.isSome_iff_exists.1 hthere
      have hget : registry.get? "" = some found :=
        Option.or_eq_some_iff.2 (.inr ⟨h.get?_tools_eq_none_iff.2 hnone, hfound⟩)
      rcases hlookup.own "" found hget with hname | ⟨hid, hsome⟩
      · exact hnone found (List.mem_of_find?_eq_some hfound) hname.symm
      · exact hsome hid.symm
  · rintro ⟨hapart, hempty⟩
    have hown : ∀ key tool, registry.get? key = some tool → tool.GoesBy key := by
      intro key tool hget
      obtain ⟨htool, hname | ⟨hnone, hid, -⟩⟩ := h.get?_iff.1 hget
      · exact .inl hname.symm
      · refine .inr ⟨hid.symm, fun hnoid => ?_⟩
        rcases hempty with hall | ⟨other, hother, hname⟩
        · exact hall tool htool hnoid
        · exact hnone other hother (by rw [hname, ← hid, hnoid])
    refine ⟨hown, fun key tool hget other hother hkey => ?_, fun tool htool key hkey => ?_⟩
    · exact hapart other hother tool (h.get?_iff.1 hget).1 key hkey (hown key tool hget)
    · exact h.get?_of_goesBy hapart htool hkey

/-- Tools are accepted exactly if their names are apart.  Of accepted tools a key finds the one with
that name, and else the one with that id whose name comes first; so what is found by a key goes by it
and is the only one that does, and every tool is found by its name and id, exactly if no two tools go
by one key and the empty key finds none that has just no id. -/
theorem lookup_unambiguous_iff (tools : List Tool) :
    ((∃ registry, ofList tools = .ok registry) ↔ (tools.map Tool.name).Nodup) ∧
    ∀ registry, ofList tools = .ok registry →
      (∀ key tool, registry.get? key = some tool ↔ tool ∈ tools ∧ (tool.name = key ∨
        (∀ other ∈ tools, other.name ≠ key) ∧ tool.id = key ∧
          ∀ other ∈ tools, other.id = key → textBelow other.name tool.name = false)) ∧
      (registry.Unambiguous ↔
        (∀ first ∈ tools, ∀ second ∈ tools, ∀ key,
          first.GoesBy key → second.GoesBy key → first = second) ∧
        ((∀ tool ∈ tools, tool.id ≠ "") ∨ ∃ tool ∈ tools, tool.name = "")) := by
  refine ⟨⟨?_, fun hnodup => ?_⟩, ?_⟩
  · rintro ⟨registry, hall⟩
    exact (named_empty.insertAll hall).2.2.1
  · exact named_empty.exists_insertAll hnodup (by simp [empty, toList])
  · intro registry hall
    obtain ⟨hnamed, hmems, -, -⟩ := named_empty.insertAll hall
    have hmem : ∀ tool, tool ∈ registry.toList ↔ tool ∈ tools := by
      intro tool
      rw [hmems]
      simp [empty, toList]
    refine ⟨fun key tool => ?_, ?_⟩
    · simp only [hnamed.get?_iff, hmem]
    · simp only [hnamed.unambiguous_iff, hmem]

end Registry

namespace Kiosk

/-- A tool with a name and an id that has no arguments. -/
def bareTool (id name : String) : Tool :=
  ⟨id, name, "", .null, .empty, none⟩

/-- Two tools with ids of their own are found by these, and all their keys are unambiguous. -/
theorem printer_found_by_id : ∃ registry,
    Registry.ofList [bareTool "t-2" "scales", bareTool "t-1" "printer"] = .ok registry ∧
      registry.get? "t-1" = some (bareTool "t-1" "printer") ∧ registry.Unambiguous := by
  obtain ⟨haccepted, hlookup⟩ :=
    Registry.lookup_unambiguous_iff [bareTool "t-2" "scales", bareTool "t-1" "printer"]
  obtain ⟨registry, hregistry⟩ := haccepted.2 (by decide)
  obtain ⟨hget, hiff⟩ := hlookup registry hregistry
  refine ⟨registry, hregistry, ?_, ?_⟩
  · have hmem : bareTool "t-1" "printer" ∈ [bareTool "t-2" "scales", bareTool "t-1" "printer"] :=
      List.mem_cons_of_mem _ List.mem_cons_self
    exact (hget "t-1" _).2 ⟨hmem, .inr ⟨by decide, rfl, by decide +kernel⟩⟩
  · refine hiff.2 ⟨?_, .inl (by decide)⟩
    intro first hfirst second hsecond key hkey hother
    simp only [List.mem_cons, List.not_mem_nil, or_false] at hfirst hsecond
    rcases hfirst with rfl | rfl <;> rcases hsecond with rfl | rfl
    · rfl
    · rcases hkey with rfl | ⟨rfl, -⟩ <;> exact absurd hother (by unfold Tool.GoesBy; decide)
    · rcases hkey with rfl | ⟨rfl, -⟩ <;> exact absurd hother (by unfold Tool.GoesBy; decide)
    · rfl

/-- The empty key finds a tool that has no id, and so does not go by that key. -/
theorem scales_found_without_key : ¬ ∀ (tools : List Tool) (registry : Registry),
    Registry.ofList tools = .ok registry → registry.Unambiguous := by
  intro h
  have hlookup := h [bareTool "" "scales"] ⟨[("scales", bareTool "" "scales")]⟩ rfl
  rcases hlookup.own "" (bareTool "" "scales") rfl with hname | ⟨-, hid⟩
  · exact absurd hname (by decide)
  · exact hid rfl

end Kiosk

end Parley
