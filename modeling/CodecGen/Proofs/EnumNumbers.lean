import CodecGen.Proofs.EnumItems
set_option autoImplicit false
/-!
The numbers of enumerations. An item that says nothing about its value gets the number after that of the
last item before it that is no bit, or zero where there is none. Bits are passed over, and after the
largest number of a word counting goes on with the smallest.
-/
namespace CodecGen.Resolve
open Schema Markup Text.Integer
open Emit (enumParts? item)

/-- The number to count on with after an entry; after a bit it is the same as before. -/
def EnumEntry.after (x : EnumEntry) (next : Option Int) : Option Int :=
  if x.bit.isSome then next else (literal? x.item.value).map fun k => wrap 64 (k + 1)

def numberAfter (bits : List EnumItem) (next : Option Int) (v : EnumItem) : Option Int :=
  if isBit bits v.name then next else (literal? v.value).map fun k => wrap 64 (k + 1)

def countAfter (bits before : List EnumItem) : Option Int := before.foldl (numberAfter bits) (some 0)

theorem after_of_plain {x : EnumEntry} (hbit : x.bit = none) {k : Int}
    (hk : literal? x.item.value = some k) (next : Option Int) : x.after next = some (wrap 64 (k + 1)) := by
  rw [EnumEntry.after, hbit, hk]
  rfl

theorem countAfter_concat (bits before : List EnumItem) (v : EnumItem) :
    countAfter bits (before ++ [v]) = numberAfter bits (countAfter bits before) v :=
  List.foldl_concat ..

section
variable {next : Int} {items : List Element} {entries : List EnumEntry}

theorem names_of_entries (h : EntriesFor next items entries) :
    entries.map (fun x => some x.item.name) = items.map (·.attr? "name") := by
  induction h with
  | nil => rfl
  | counted hname _ _ ih | value hname _ _ _ _ _ ih | bit hname _ _ _ _ _ ih =>
    rw [List.map_cons, List.map_cons, ih, hname]

theorem number_of_entry (h : EntriesFor next items entries) (hnext : InWord next) {x : EnumEntry}
    (hx : x ∈ entries) : ∃ k, literal? x.item.value = some k ∧ (x.bit.isSome = false → InWord k) := by
  induction h with
  | nil => cases hx
  | counted _ _ _ ih =>
    rcases List.mem_cons.mp hx with rfl | hx
    · exact ⟨_, literal?_toString _, fun _ => hnext⟩
    · exact ih (inWord_wrap _) hx
  | value _ _ _ hv hword _ ih =>
    rcases List.mem_cons.mp hx with rfl | hx
    · exact ⟨_, hv, fun _ => hword⟩
    · exact ih (inWord_wrap _) hx
  | bit _ _ _ _ _ _ ih =>
    rcases List.mem_cons.mp hx with rfl | hx
    · exact ⟨_, literal?_toString_nat _, fun hbit => by cases hbit⟩
    · exact ih hnext hx

theorem counted_entry (h : EntriesFor next items entries) {i : Nat} {e : Element} {x : EnumEntry}
    (he : items[i]? = some e) (hchildren : e.children = []) (hx : entries[i]? = some x) :
    literal? x.item.value = (entries.take i).foldl (fun next x => x.after next) (some next) := by
  induction h generalizing i with
  | nil => cases he
  | @counted next _ name _ _ _ _ _ ih =>
    cases i with
    | zero =>
      obtain rfl := Option.some.inj hx
      exact literal?_toString next
    | succ i =>
      have hafter := after_of_plain (x := ⟨⟨name, toString next⟩, none⟩) rfl (literal?_toString next)
      rw [List.take_succ_cons, List.foldl_cons, hafter]
      exact ih he hx
  | @value _ _ child name _ _ _ _ _ hchild _ hv _ _ ih =>
    cases i with
    | zero =>
      obtain rfl := Option.some.inj he
      rw [hchildren] at hchild
      cases hchild
    | succ i =>
      have hafter := after_of_plain (x := ⟨⟨name, child.text⟩, none⟩) rfl hv
      rw [List.take_succ_cons, List.foldl_cons, hafter]
      exact ih he hx
  | bit _ hchild _ _ _ _ ih =>
    cases i with
    | zero =>
      obtain rfl := Option.some.inj he
      rw [hchildren] at hchild
      cases hchild
    | succ i => exact ih he hx

end

/-- How the items of an enumeration without values of their own are numbered. The number of such an item
is one more than that of the item before it exactly if the latter is no bit and has not the largest
number of a word, or is a bit and happens to come before the number that is counted next. -/
structure Counted (items : List Element) (values bits : List EnumItem) : Prop where
  names : values.map (fun v => some v.name) = items.map (·.attr? "name")
  counted : ∀ i e v, items[i]? = some e → e.children = [] → values[i]? = some v →
    ∃ n, literal? v.value = some n ∧ countAfter bits (values.take i) = some n
  first : ∀ e v, items[0]? = some e → e.children = [] → values[0]? = some v → literal? v.value = some 0
  follows_iff : ∀ i e u v, items[i + 1]? = some e → e.children = [] → values[i]? = some u →
    values[i + 1]? = some v → ∃ k, literal? u.value = some k ∧
      (literal? v.value = some (k + 1) ↔
        if isBit bits u.name then countAfter bits (values.take i) = some (k + 1)
        else k ≠ 9223372036854775807)

theorem countAfter_entries {entries : List EnumEntry} (hnodup : (entries.map (·.item.name)).Nodup)
    (i : Nat) : countAfter (bitItems entries) ((entries.map (·.item)).take i) =
      (entries.take i).foldl (fun next x => x.after next) (some 0) := by
  rw [countAfter, ← List.map_take, List.foldl_map]
  refine List.foldl_ext _ _ _ fun next x hx => ?_
  rw [numberAfter, EnumEntry.after, isBit_bitItems hnodup (List.mem_of_mem_take hx)]

theorem counted_of_itemized {items : List Element} {values bits : List EnumItem}
    (h : Itemized items values bits) : Counted items values bits := by
  obtain ⟨entries, hentries, hnodup, rfl, rfl⟩ := h
  have hzero : InWord 0 := ⟨by decide, by decide⟩
  have hcount : ∀ i e v, items[i]? = some e → e.children = [] →
      (entries.map (·.item))[i]? = some v →
      literal? v.value = countAfter (bitItems entries) ((entries.map (·.item)).take i) := by
    intro i e v he hchildren hv
    rw [List.getElem?_map, Option.map_eq_some_iff] at hv
    obtain ⟨x, hx, rfl⟩ := hv
    rw [countAfter_entries hnodup, counted_entry hentries he hchildren hx]
  have hnumber : ∀ v ∈ entries.map (·.item), ∃ k, literal? v.value = some k ∧
      (isBit (bitItems entries) v.name = false → InWord k) := by
    intro v hv
    obtain ⟨x, hx, rfl⟩ := List.mem_map.mp hv
    rw [isBit_bitItems hnodup hx]
    exact number_of_entry hentries hzero hx
  refine ⟨?_, ?_, hcount 0, ?_⟩
  · rw [List.map_map]
    exact names_of_entries hentries
  · intro i e v he hchildren hv
    obtain ⟨n, hn, -⟩ := hnumber v (List.mem_of_getElem? hv)
    exact ⟨n, hn, by rw [← hcount i e v he hchildren hv, hn]⟩
  · intro i e u v he hchildren hu hv
    obtain ⟨k, hk, hword⟩ := hnumber u (List.mem_of_getElem? hu)
    -- the item before this one is the last of those it is counted after
    have htake : (entries.map (·.item)).take (i + 1) = (entries.map (·.item)).take i ++ [u] := by
      rw [List.take_add_one, hu]
      rfl
    refine ⟨k, hk, ?_⟩
    rw [hcount (i + 1) e v he hchildren hv, htake, countAfter_concat, numberAfter]
    split
    · exact Iff.rfl
    · next hbit =>
      rw [hk, Option.map_some, Option.some.injEq]
      exact wrap_succ_eq_iff (hword (Bool.eq_false_iff.mpr hbit))

theorem head?_of_enum {e : Element} (htag : e.tag = "enum") : head? e = some (pure .enum) := by
  unfold head?
  rw [htag]
  rfl

theorem tag_of_head_enum {e : Element} {head : Noted Head} (h : head? e = some head)
    (hvalue : head.value = .enum) : e.tag = "enum" := by
  unfold head? at h
  split at h
  case h_1 htag => exact htag
  case h_9 => cases h
  all_goals
    cases h
    cases hvalue

section
variable {r : Registered}

theorem Draws.enum (h : Draws r) (herrors : (resolveDrafts r).errors = []) {e : Element} {name : String}
    (htag : e.tag = "enum") (hpending : ⟨e, declPath r.head ++ [name], .enum⟩ ∈ r.registry.pending) :
    ∃ d values bits, d ∈ r.module.decls ∧ d.name = declPath r.head ++ [name] ∧
      d.type = .enum (declPath r.head ++ [name]) values bits ∧ Itemized (itemsOf e) values bits := by
  have hplain : ⟨e, declPath r.head ++ [name], .enum⟩ ∈ r.registry.pending.filter (!isCopy ·.element) :=
    List.mem_filter.mpr ⟨hpending, by simp [isCopy, htag]⟩
  obtain ⟨hclean, hmem⟩ := mem_resolveAllContents (Noted.errors_bind_eq_nil.mp herrors).1 hplain
  have hdrawn := h.drawn (subset_resolveCopies r.env _ (r.registry.pending.filter (isCopy ·.element)) hmem)
  rw [resolveContents_enum rfl, Noted.errors_map] at hclean
  obtain ⟨values, bits, hvalue, hitemized⟩ := resolveEnum_itemized hclean
  refine ⟨_, values, bits, hdrawn.decl, name_resolveContents _ _ _, type_spell_enum.mpr ?_, hitemized⟩
  rw [resolveContents_enum rfl]
  exact hvalue

theorem Accepts.enum_described {set : ModuleSet} {root : Element} (h : Accepts set root r) {d : Decl}
    (hd : d ∈ r.module.decls) (hkind : d.type.kind = .enum) :
    (∃ e ∈ root.children, e.tag = "enum" ∧ ∃ s, DeclaredAs r.module e s ∧ s.type = d.type) ∨
    ∃ n ∈ set.modules, ∃ s ∈ n.decls, s.type = d.type := by
  rcases h.described hd with hsimple | ⟨e, he, head, s, hhead, hsame, hs, htype, -⟩ | ⟨n, hn, s, hs, htype, -⟩
  · rw [hsimple] at hkind
    cases hkind
  · have htag := tag_of_head_enum hhead (head_of_kind_enum (hsame.trans hkind))
    exact .inl ⟨e, he, htag, s, hs, htype⟩
  · exact .inr ⟨n, hn, s, hs, htype⟩

end

/-- In a resolved module each enumeration that the description states has the items that count, and those
of them that say nothing about their values are counted; when this gives the number after that of the
item before is said exactly. Every other enumeration of the module is one of these by another name, or
belongs to a module of the set. -/
theorem implicit_values_count_up_iff (set : ModuleSet) (hset : Compiled set) (root : Element) {m : Module}
    (h : (resolve set root).module? = some m) :
    (∀ e ∈ root.children, e.tag = "enum" → ∃ d name values bits, DeclaredAs m e d ∧
      d.type = .enum name values bits ∧ Counted (itemsOf e) values bits) ∧
    ∀ d ∈ m.decls, d.type.kind = .enum →
      (∃ e ∈ root.children, e.tag = "enum" ∧ ∃ s, DeclaredAs m e s ∧ s.type = d.type) ∨
      ∃ n ∈ set.modules, ∃ s ∈ n.decls, s.type = d.type := by
  obtain ⟨r, haccepts⟩ := accepts_of_resolve hset (errors_of_resolve h)
  obtain rfl := Option.some.inj (haccepts.resolved.symm.trans h)
  refine ⟨fun e he htag => ?_, fun d hd hkind => haccepts.enum_described hd hkind⟩
  obtain ⟨env, herrors, hregistry⟩ := haccepts.registry
  obtain ⟨name, hname, hpending⟩ := registerAll_declares herrors he (head?_of_enum htag)
  rw [← hregistry] at hpending
  obtain ⟨d, values, bits, hd, hcalled, htype, hitemized⟩ :=
    haccepts.draws.enum haccepts.contents htag hpending
  exact ⟨d, _, values, bits, ⟨name, hname, find?_of_mem haccepts.draws.origins hd hcalled⟩, htype,
    counted_of_itemized hitemized⟩

def level : Element :=
  described "enum" [("name", "Level")]
    [item "Low" [], item "Mid" [], item "High" [described "value" [] [] "0x7"], item "Top" [],
      item "Mask" [described "bit" [] [] "3"], item "Rest" []]

def levels : Element := described "xcb" [("header", "levels")] [level]

theorem implicit_values_count_up_iff_levels :
    ∃ m d name values bits, (resolve .empty levels).module? = some m ∧ m.find? "Level" = some d ∧
      d.type = .enum name values bits ∧
      values = [⟨"Low", "0"⟩, ⟨"Mid", "1"⟩, ⟨"High", "0x7"⟩, ⟨"Top", "8"⟩, ⟨"Mask", "8"⟩, ⟨"Rest", "9"⟩] ∧
      bits = [⟨"Mask", "3"⟩] ∧ Counted (itemsOf level) values bits := by
  have hparts : (resolve .empty levels).module?.map (fun m =>
      (m.find? "Level").bind (enumParts? ·.type)) =
      some (some (["xcb", "Level"], [⟨"Low", "0"⟩, ⟨"Mid", "1"⟩, ⟨"High", "0x7"⟩, ⟨"Top", "8"⟩,
        ⟨"Mask", "8"⟩, ⟨"Rest", "9"⟩], [⟨"Mask", "3"⟩])) := by decide +kernel
  obtain ⟨m, hm, hparts⟩ := Option.map_eq_some_iff.mp hparts
  obtain ⟨d, name, values, bits, ⟨_, hname, hfind⟩, htype, hcounted⟩ :=
    (implicit_values_count_up_iff .empty (.empty 0) levels hm).1 level List.mem_cons_self rfl
  obtain rfl := Option.some.inj hname
  rw [hfind, Option.bind_some, htype] at hparts
  obtain ⟨-, hitems⟩ := Prod.mk.inj (Option.some.inj hparts)
  obtain ⟨hvalues, hbits⟩ := Prod.mk.inj hitems
  exact ⟨m, d, name, values, bits, hm, hfind, htype, hvalues, hbits, hcounted⟩

/-- An item after a bit, and one after the largest number of a word. -/
def modes : Element :=
  described "xcb" [("header", "modes")]
    [described "enum" [("name", "Mode")] [item "Masked" [described "bit" [] [] "3"], item "Plain" []],
      described "enum" [("name", "Limit")]
        [item "Last" [described "value" [] [] "9223372036854775807"], item "Beyond" []]]

/-- Neither item of `modes` has the number after that of the item before it. -/
theorem count_without_previous_value :
    (resolve .empty modes).module?.map (·.decls.map (enumParts? ·.type)) =
      some [some (["xcb", "Mode"], [⟨"Masked", "8"⟩, ⟨"Plain", "0"⟩], [⟨"Masked", "3"⟩]),
        some (["xcb", "Limit"],
          [⟨"Last", "9223372036854775807"⟩, ⟨"Beyond", "-9223372036854775808"⟩], [])] ∧
      literal? "8" = some 8 ∧ literal? "0" ≠ some 9 ∧
      literal? "9223372036854775807" = some 9223372036854775807 ∧
      literal? "-9223372036854775808" ≠ some 9223372036854775808 := by
  decide +kernel

end CodecGen.Resolve
