import Mathlib.Data.List.Nodup
import CodecGen.Proofs.CopiedFields
import CodecGen.Proofs.Header
import CodecGen.Proofs.IntegerText
set_option autoImplicit false
/-!
Enumerations. Of the items of a description those count that give a value and are the first of their
name. Each becomes one value, and those with a bit position become bits besides, so that a header can
list all of them by dividing the values into those that are bits and those that are not. An item that
says nothing about its value counts on from the last one before it that is no bit.
-/
namespace CodecGen.Resolve
open Schema Markup Text.Integer

def sameName (a b : Element) : Bool := a.attr? "name" == b.attr? "name"

def givesValue (e : Element) : Bool :=
  match e.children with
  | [] => true
  | child :: _ => child.tag == "value" || child.tag == "bit"

/-- The items of an enumeration that count. -/
def itemsOf (e : Element) : List Element :=
  ((e.elements "item").eraseDupsBy sameName).filter givesValue

/-- The entries that items stand for, one after the other, when counting goes on with `next`. -/
inductive EntriesFor : Int → List Element → List EnumEntry → Prop where
  | nil {next : Int} : EntriesFor next [] []
  | counted {next : Int} {e : Element} {name : String} {rest : List Element} {entries : List EnumEntry}
      (hname : e.attr? "name" = some name) (hchildren : e.children = [])
      (hrest : EntriesFor (wrap 64 (next + 1)) rest entries) :
    EntriesFor next (e :: rest) (⟨⟨name, toString next⟩, none⟩ :: entries)
  | value {next : Int} {e child : Element} {name : String} {more rest : List Element}
      {entries : List EnumEntry} {v : Nat} (hname : e.attr? "name" = some name)
      (hchildren : e.children = child :: more) (htag : child.tag = "value")
      (hv : literal? child.text = some (v : Int)) (hword : InWord v)
      (hrest : EntriesFor (wrap 64 (v + 1)) rest entries) :
    EntriesFor next (e :: rest) (⟨⟨name, child.text⟩, none⟩ :: entries)
  | bit {next : Int} {e child : Element} {name : String} {more rest : List Element}
      {entries : List EnumEntry} {p : Nat} (hname : e.attr? "name" = some name)
      (hchildren : e.children = child :: more) (htag : child.tag = "bit")
      (hp : literal? child.text = some (p : Int)) (hle : p ≤ 63) (hrest : EntriesFor next rest entries) :
    EntriesFor next (e :: rest) (⟨⟨name, toString (twoTo p)⟩, some child.text⟩ :: entries)

def unseen (seen : List String) (es : List Element) : List Element :=
  es.filter fun e => !(e.attr? "name").any seen.contains

theorem unseen_nil (es : List Element) : unseen [] es = es := by
  refine List.filter_eq_self.mpr fun e _ => ?_
  cases e.attr? "name" <;> rfl

section
variable {e : Element} {name : String} {seen : List String}

theorem unseen_cons_of_mem (hname : e.attr? "name" = some name) (h : seen.contains name = true)
    (rest : List Element) : unseen seen (e :: rest) = unseen seen rest := by
  refine List.filter_cons_of_neg ?_
  rw [hname, Option.any_some, h]
  exact Bool.false_ne_true

theorem firsts_unseen_cons (hname : e.attr? "name" = some name) (h : seen.contains name = false)
    (rest : List Element) :
    (unseen seen (e :: rest)).eraseDupsBy sameName =
      e :: (unseen (name :: seen) rest).eraseDupsBy sameName := by
  have hfirst : unseen seen (e :: rest) = e :: unseen seen rest := by
    refine List.filter_cons_of_pos ?_
    rw [hname, Option.any_some, h]
    rfl
  rw [hfirst, List.eraseDupsBy_cons, unseen, List.filter_filter]
  congr 3
  funext b
  cases hb : b.attr? "name" with
  | none => simp [sameName, hname, hb]
  | some other => simp [sameName, hname, hb]

end

theorem resolveItem_given (name : String) {child : Element} (h : (resolveItem name child).errors = []) :
    (child.tag = "value" ∧ ∃ v : Nat, literal? child.text = some (v : Int) ∧ InWord v ∧
      (resolveItem name child).value = some (⟨⟨name, child.text⟩, none⟩, some (v + 1 : Int))) ∨
    (child.tag = "bit" ∧ ∃ p : Nat, literal? child.text = some (p : Int) ∧ p ≤ 63 ∧
      (resolveItem name child).value = some (⟨⟨name, toString (twoTo p)⟩, some child.text⟩, none)) ∨
    (child.tag ≠ "value" ∧ child.tag ≠ "bit" ∧ (resolveItem name child).value = none) := by
  unfold resolveItem at h ⊢
  split at h
  · next htag =>
    obtain ⟨v, hv, hword⟩ := natural_succeeds child (Noted.errors_bind_eq_nil.mp h).1
    obtain ⟨hliteral, hrange⟩ := of_word? hword
    exact .inl ⟨htag, v, hliteral, hrange, by rw [Noted.value_bind, hv]; rfl⟩
  · next htag =>
    obtain ⟨p, hp, hword, hle⟩ := bitPosition_succeeds child (Noted.errors_bind_eq_nil.mp h).1
    exact .inr (.inl ⟨htag, p, (of_word? hword).1, hle, by rw [Noted.value_bind, hp]; rfl⟩)
  · next hvalue hbit => exact .inr (.inr ⟨hvalue, hbit, rfl⟩)

def Fresh (seen : List String) (entries : List EnumEntry) : Prop :=
  (∀ x ∈ entries, x.item.name ∉ seen) ∧ (entries.map (·.item.name)).Nodup

theorem Fresh.tail {seen : List String} {name : String} {entries : List EnumEntry}
    (h : Fresh (name :: seen) entries) : Fresh seen entries :=
  ⟨fun x hx hmem => h.1 x hx (List.mem_cons_of_mem _ hmem), h.2⟩

theorem Fresh.cons {seen : List String} {entries : List EnumEntry} {x : EnumEntry}
    (hx : seen.contains x.item.name = false) (h : Fresh (x.item.name :: seen) entries) :
    Fresh seen (x :: entries) := by
  have hnew : x.item.name ∉ seen := by simpa using hx
  refine ⟨List.forall_mem_cons.mpr ⟨hnew, h.tail.1⟩, List.nodup_cons.mpr ⟨fun hmem => ?_, h.2⟩⟩
  obtain ⟨y, hy, hname⟩ := List.mem_map.mp hmem
  exact h.1 y hy (hname ▸ List.mem_cons_self)

/-- Without errors the items that count and are not seen yet become entries. -/
theorem resolveItems_entries {enum : String} {seen : List String} {next : Int} {es : List Element}
    (hnext : InWord next) (h : (resolveItems enum seen next es).errors = []) :
    EntriesFor next (((unseen seen es).eraseDupsBy sameName).filter givesValue)
      (resolveItems enum seen next es).value ∧
    Fresh seen (resolveItems enum seen next es).value := by
  induction es generalizing seen next with
  | nil => exact ⟨.nil, fun _ hx => absurd hx List.not_mem_nil, .nil⟩
  | cons e rest ih =>
    rw [resolveItems, Noted.errors_bind_eq_nil] at h
    obtain ⟨name, hvalue, hname⟩ := requireAttr_succeeds e "name" h.1
    rw [hvalue] at h
    rw [resolveItems, Noted.value_bind, hvalue]
    obtain ⟨-, h⟩ := h
    dsimp only at h ⊢
    split at h
    · -- an item that comes again is passed over, and the count is not affected
      next hseen =>
      rw [if_pos hseen, unseen_cons_of_mem hname hseen]
      exact ih hnext (Noted.errors_bind_eq_nil.mp h).2
    · next hseen =>
      have hnew : seen.contains name = false := Bool.eq_false_iff.mpr hseen
      rw [if_neg hseen, firsts_unseen_cons hname hnew]
      cases hchildren : e.children with
      | nil =>
        rw [hchildren] at h
        obtain ⟨hentries, hfresh⟩ := ih (inWord_wrap (next + 1)) (Noted.errors_bind_eq_nil.mp h).1
        rw [List.filter_cons_of_pos (by simp [givesValue, hchildren])]
        exact ⟨.counted hname hchildren hentries, .cons hnew hfresh⟩
      | cons child more =>
        rw [hchildren] at h
        obtain ⟨hitem, h⟩ := Noted.errors_bind_eq_nil.mp h
        dsimp only
        rw [Noted.value_bind]
        rcases resolveItem_given name hitem with ⟨htag, v, hv, hword, hgiven⟩ | ⟨htag, p, hp, hle, hgiven⟩ |
          ⟨hvalueTag, hbitTag, hgiven⟩
        · rw [hgiven] at h ⊢
          obtain ⟨hentries, hfresh⟩ := ih (inWord_wrap _) (Noted.errors_bind_eq_nil.mp h).1
          rw [List.filter_cons_of_pos (by simp [givesValue, hchildren, htag])]
          exact ⟨.value hname hchildren htag hv hword hentries, .cons hnew hfresh⟩
        · rw [hgiven] at h ⊢
          dsimp only [Option.getD_none] at h ⊢
          -- after a bit the count goes on where it was
          rw [wrap_of_inWord hnext] at h ⊢
          obtain ⟨hentries, hfresh⟩ := ih hnext (Noted.errors_bind_eq_nil.mp h).1
          rw [List.filter_cons_of_pos (by simp [givesValue, hchildren, htag])]
          exact ⟨.bit hname hchildren htag hp hle hentries, .cons hnew hfresh⟩
        · -- the first child is neither a value nor a bit, and the item is left out
          rw [hgiven] at h ⊢
          obtain ⟨hentries, hfresh⟩ := ih hnext h
          rw [List.filter_cons_of_neg (by simp [givesValue, hchildren, hvalueTag, hbitTag])]
          exact ⟨hentries, hfresh.tail⟩

def EnumEntry.bitItem? (x : EnumEntry) : Option EnumItem := x.bit.map fun bit => ⟨x.item.name, bit⟩

def bitItems (entries : List EnumEntry) : List EnumItem := entries.filterMap EnumEntry.bitItem?

def Itemized (items : List Element) (values bits : List EnumItem) : Prop :=
  ∃ entries, EntriesFor 0 items entries ∧ (entries.map (·.item.name)).Nodup ∧
    values = entries.map (·.item) ∧ bits = bitItems entries

theorem itemized_nil : Itemized [] [] [] := ⟨[], .nil, .nil, rfl, rfl⟩

theorem resolveEnum_itemized {name : Name} {e : Element} (h : (resolveEnum name e).errors = []) :
    ∃ values bits, (resolveEnum name e).value = .enum name values bits ∧
      Itemized (itemsOf e) values bits := by
  have hzero : InWord 0 := ⟨by decide, by decide⟩
  obtain ⟨hentries, hfresh⟩ := resolveItems_entries hzero (Noted.errors_bind_eq_nil.mp h).1
  rw [unseen_nil] at hentries
  exact ⟨_, _, rfl, _, hentries, hfresh.2, rfl, rfl⟩

section
variable {entries : List EnumEntry}

theorem names_bitItems (entries : List EnumEntry) :
    (bitItems entries).map (·.name) = (entries.filter (·.bit.isSome)).map (·.item.name) := by
  induction entries with
  | nil => rfl
  | cons x rest ih =>
    obtain ⟨item, bit⟩ := x
    cases bit with
    | none => exact ih
    | some position => exact congrArg (item.name :: ·) ih

theorem isBit_bitItems (hnodup : (entries.map (·.item.name)).Nodup) {x : EnumEntry} (hx : x ∈ entries) :
    isBit (bitItems entries) x.item.name = x.bit.isSome := by
  have hmem : isBit (bitItems entries) x.item.name = true ↔
      x.item.name ∈ (bitItems entries).map (·.name) := by simp [isBit]
  rw [Bool.eq_iff_iff, hmem, names_bitItems]
  constructor
  · intro h
    obtain ⟨y, hy, hname⟩ := List.mem_map.mp h
    obtain ⟨hy, hbit⟩ := List.mem_filter.mp hy
    rwa [List.inj_on_of_nodup_map hnodup hy hx hname] at hbit
  · intro hbit
    exact List.mem_map_of_mem (List.mem_filter.mpr ⟨hx, hbit⟩)

theorem plain_values (hnodup : (entries.map (·.item.name)).Nodup) :
    (entries.map (·.item)).filter (fun v => !isBit (bitItems entries) v.name) =
      (entries.filter (!·.bit.isSome)).map (·.item) := by
  rw [List.filter_map]
  refine congrArg _ (List.filter_congr fun x hx => ?_)
  rw [Function.comp_apply, isBit_bitItems hnodup hx]

theorem power_of_bit {next : Int} {items : List Element} (h : EntriesFor next items entries)
    {x : EnumEntry} (hx : x ∈ entries) {position : String} (hbit : x.bit = some position) :
    ∃ p : Nat, p ≤ 63 ∧ literal? position = some (p : Int) ∧ x.item.value = toString (twoTo p) := by
  induction h with
  | nil => cases hx
  | counted _ _ _ ih | value _ _ _ _ _ _ ih =>
    rcases List.mem_cons.mp hx with rfl | hx
    · cases hbit
    · exact ih hx
  | @bit _ _ child _ _ _ _ p _ _ _ hp hle _ ih =>
    rcases List.mem_cons.mp hx with rfl | hx
    · obtain rfl := Option.some.inj hbit
      exact ⟨p, hle, hp, rfl⟩
    · exact ih hx

end

def ItemizedType (t : Ty) : Prop :=
  ∀ name values bits, t = .enum name values bits → ∃ items, Itemized items values bits

section
variable {env : Env} {isExt : Bool}

theorem head_of_kind_enum {head : Head} (h : head.kind = .enum) : head = .enum := by
  cases head with
  | enum => rfl
  | union => cases h
  | container shape => cases shape <;> cases h

theorem resolveContents_enum {p : Pending} (h : p.head = .enum) :
    resolveContents env isExt p =
      (fun type => { name := p.name, type }) <$> resolveEnum p.name p.element := by
  unfold resolveContents
  rw [h]

theorem resolveContents_itemized {p : Pending} (h : (resolveContents env isExt p).errors = []) :
    ItemizedType (resolveContents env isExt p).value.type := by
  intro name values bits htype
  have hkind := kind_resolveContents env isExt p
  rw [htype] at hkind
  rw [resolveContents_enum (head_of_kind_enum hkind.symm)] at h htype
  rw [Noted.errors_map] at h
  obtain ⟨_, _, hvalue, hitemized⟩ := resolveEnum_itemized h
  cases hvalue.symm.trans htype
  exact ⟨_, hitemized⟩

theorem copyType_itemized (head : Head) (name : Name) (fields : List Field) :
    ItemizedType (copyType head name fields) := by
  intro called values bits htype
  cases head with
  | enum =>
    cases htype
    exact ⟨[], itemized_nil⟩
  | union | container => cases htype

end

theorem type_spell_enum {below : List Decl} {d : Decl} {name : Name} {values bits : List EnumItem} :
    (spell below d).type = .enum name values bits ↔ d.type = .enum name values bits := by
  unfold spell
  cases d.type <;> simp [mapFields]

theorem Accepts.itemized {set : ModuleSet} {root : Element} {r : Registered} (h : Accepts set root r)
    (d : Decl) (hd : Drawn r d) : ItemizedType (spelledDraft r d).type := by
  intro name values bits htype
  have hdraft := type_spell_enum.mp htype
  rcases mem_drafts h.contents hd.draft with ⟨p, -, herrors, rfl⟩ | ⟨p, -, -, fields, hcopy⟩
  · exact resolveContents_itemized herrors name values bits hdraft
  · exact copyType_itemized p.head p.name fields name values bits (hcopy.symm.trans hdraft)

theorem resolve_itemized {set : ModuleSet} (hset : Compiled set) {root : Element} {m : Module}
    (h : (resolve set root).module? = some m) : ∀ d ∈ m.decls, ItemizedType d.type :=
  types_of_resolve (fun _ _ _ _ htype => by cases htype) Accepts.itemized hset h

end CodecGen.Resolve

namespace CodecGen.Emit
open Schema Resolve Text.Integer

def DeclLine.item? : DeclLine → Option (String × String)
  | .enumItem name value => some (name, value)
  | _ => none

def listedItems (lines : List DeclLine) : List (String × String) := lines.filterMap DeclLine.item?

theorem listedItems_flatMap (items : List EnumItem) (value : EnumItem → String) :
    listedItems (items.flatMap fun i => undefLines (safeName i.name) ++
      [DeclLine.enumItem (safeName i.name) (value i)]) =
      items.map fun i => (safeName i.name, value i) := by
  induction items with
  | nil => rfl
  | cons i rest ih => exact congrArg ((safeName i.name, value i) :: ·) ih

theorem listedItems_declareEnum (name : Name) (values bits : List EnumItem) :
    listedItems (declareEnum name values bits) =
      (values.filter fun v => !isBit bits v.name).map (fun v => (safeName v.name, v.value)) ++
        bits.map fun b => (safeName b.name, "1 << " ++ b.value) := by
  have hplain := listedItems_flatMap (values.filter fun v => !isBit bits v.name) EnumItem.value
  have hbits := listedItems_flatMap bits fun b => "1 << " ++ b.value
  unfold listedItems at hplain hbits ⊢
  simp only [declareEnum, List.filterMap_append, hplain, hbits]
  exact List.append_nil _

/-- The values and bits of an enumeration agree with each other, and wherever the enumeration is
declared, each of its items is listed once: first those that are no bits, with their values, then the
bits by their positions. -/
structure ConsistentEnum (m : Module) (d : Decl) (values bits : List EnumItem) : Prop where
  distinct : (values.map (·.name)).Nodup
  among : (bits.map (·.name)).Sublist (values.map (·.name))
  powers : ∀ b ∈ bits, ∃ p : Nat, p ≤ 63 ∧ literal? b.value = some (p : Int) ∧
    ⟨b.name, toString (twoTo p)⟩ ∈ values
  listed : ∃ lines, (∀ site, declareType site d = .ok lines) ∧
    listedItems lines =
      (values.filter fun v => !isBit bits v.name).map (fun v => (safeName v.name, v.value)) ++
        bits.map (fun b => (safeName b.name, "1 << " ++ b.value)) ∧
    ((listedItems lines).map (·.1)).Perm (values.map (safeName ·.name)) ∧
    ∀ headerPath artifacts, generate m headerPath = .ok artifacts →
      ∃ body, artifacts.header = render (headerLines m (defaultHeaderPath m headerPath) body) ∧
        lines <:+: body

section
variable {entries : List EnumEntry}

theorem powers_of_entries {next : Int} {items : List Markup.Element} (h : EntriesFor next items entries) :
    ∀ b ∈ bitItems entries, ∃ p : Nat, p ≤ 63 ∧ literal? b.value = some (p : Int) ∧
      ⟨b.name, toString (twoTo p)⟩ ∈ entries.map (·.item) := by
  intro b hb
  obtain ⟨x, hx, hbit⟩ := List.mem_filterMap.mp hb
  obtain ⟨position, hposition, rfl⟩ := Option.map_eq_some_iff.mp hbit
  obtain ⟨p, hle, hp, hvalue⟩ := power_of_bit h hx hposition
  exact ⟨p, hle, hp, List.mem_map.mpr ⟨x, hx, by rw [← hvalue]⟩⟩

theorem listed_perm (hnodup : (entries.map (·.item.name)).Nodup) (name : Name) :
    ((listedItems (declareEnum name (entries.map (·.item)) (bitItems entries))).map (·.1)).Perm
      ((entries.map (·.item)).map (safeName ·.name)) := by
  have hnames : (listedItems (declareEnum name (entries.map (·.item)) (bitItems entries))).map (·.1) =
      (entries.filter (!·.bit.isSome)).map (safeName ·.item.name) ++
        ((bitItems entries).map (·.name)).map safeName := by
    rw [listedItems_declareEnum, plain_values hnodup, List.map_append, List.map_map, List.map_map,
      List.map_map, List.map_map]
    rfl
  have hdivided := (List.filter_append_perm (·.bit.isSome) entries).map (safeName ·.item.name)
  rw [List.map_append] at hdivided
  rw [hnames, names_bitItems, List.map_map, List.map_map]
  exact List.perm_append_comm.trans hdivided

end

/-- Every enumeration of a resolved module has different names, bits that are among its values with the
powers of two at their positions, and a declaration that lists each of its items exactly once. -/
theorem enum_items_consistent (set : ModuleSet) (hset : Compiled set) (root : Markup.Element) {m : Module}
    (h : (resolve set root).module? = some m) {d : Decl} (hd : d ∈ m.decls) {name : Name}
    {values bits : List EnumItem} (htype : d.type = .enum name values bits) :
    ConsistentEnum m d values bits := by
  obtain ⟨items, entries, hentries, hnodup, rfl, rfl⟩ :=
    resolve_itemized hset h d hd name values bits htype
  have hdeclare : ∀ site, declareType site d =
      .ok (declareEnum name (entries.map (·.item)) (bitItems entries)) := by
    intro site
    rw [declareType, emitType, htype]
    rfl
  refine ⟨?_, ?_, powers_of_entries hentries, _, hdeclare, listedItems_declareEnum _ _ _,
    listed_perm hnodup name, ?_⟩
  · rwa [List.map_map]
  · rw [names_bitItems, List.map_map]
    exact List.Sublist.map _ List.filter_sublist
  · intro headerPath artifacts hgenerate
    obtain ⟨-, hheader, -⟩ := header_of_generate hgenerate
    have hlines := Except.ok.inj ((hdeclare _).symm.trans (declareType_of_generate hgenerate hd))
    exact ⟨_, hheader, hlines ▸ infix_headerBody hd⟩

def enumParts? : Ty → Option (Name × List EnumItem × List EnumItem)
  | .enum name values bits => some (name, values, bits)
  | _ => none

theorem eq_enum_of_parts {t : Ty} {name : Name} {values bits : List EnumItem}
    (h : enumParts? t = some (name, values, bits)) : t = .enum name values bits := by
  cases t <;> cases h
  rfl

def item (name : String) (children : List Markup.Element) : Markup.Element :=
  described "item" [("name", name)] children

def eventMask : Markup.Element :=
  described "enum" [("name", "EventMask")]
    [item "NoEvent" [described "value" [] [] "0x0"], item "KeyPress" [described "bit" [] [] "0"],
      item "Exposure" [described "bit" [] [] "0xf"], item "KeyPress" [],
      item "Unused" [described "brief" [] []], item "class" []]

def eventMasks : Markup.Element := described "xcb" [("header", "masks")] [eventMask]

theorem enum_items_consistent_eventMask :
    ∃ m d, (resolve .empty eventMasks).module? = some m ∧ d ∈ m.decls ∧
      ∃ values bits, d.type = .enum ["xcb", "EventMask"] values bits ∧
        values = [⟨"NoEvent", "0x0"⟩, ⟨"KeyPress", "1"⟩, ⟨"Exposure", "32768"⟩, ⟨"class", "1"⟩] ∧
        bits = [⟨"KeyPress", "0"⟩, ⟨"Exposure", "0xf"⟩] ∧ ConsistentEnum m d values bits := by
  have hparts : (resolve .empty eventMasks).module?.map (·.decls.map (enumParts? ·.type)) =
      some [some (["xcb", "EventMask"],
        [⟨"NoEvent", "0x0"⟩, ⟨"KeyPress", "1"⟩, ⟨"Exposure", "32768"⟩, ⟨"class", "1"⟩],
        [⟨"KeyPress", "0"⟩, ⟨"Exposure", "0xf"⟩])] := by decide +kernel
  obtain ⟨m, hm, hdecls⟩ := Option.map_eq_some_iff.mp hparts
  obtain ⟨d, hd, htype⟩ := List.mem_map.mp (hdecls ▸ List.mem_cons_self)
  have htype := eq_enum_of_parts htype
  exact ⟨m, d, hm, hd, _, _, htype, rfl, rfl,
    enum_items_consistent .empty (.empty 0) eventMasks hm hd htype⟩

end CodecGen.Emit
