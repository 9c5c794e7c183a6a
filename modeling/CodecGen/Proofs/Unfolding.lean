import CodecGen.Proofs.Building
import Mathlib.Data.List.Perm.Subperm
set_option autoImplicit false
/-!
Spelling out reaches the end. The declarations of a module mention one another, and spelling out
replaces the mentions to some depth. A path that goes as deep as there are declarations passes one of
them twice, and the message at the second place is a cut of the one at the first. So where no message
contains itself, nothing is left to mention at that depth.
-/
namespace CodecGen.Resolve
open Schema

def OwnIn (drafts : List Decl) (kind : Kind) (name : Name) : Prop :=
  ∃ d ∈ drafts, d.name = name ∧ d.type.kind = kind

def DeclaresOwn (d : Decl) : Prop :=
  match d.type with
  | .enum name .. | .union name _ | .container _ name _ => name = d.name
  | _ => False

theorem declaresOwn_cases {d : Decl} (h : DeclaresOwn d) :
    (∃ values bits, d.type = .enum d.name values bits) ∨ (∃ fields, d.type = .union d.name fields) ∨
      ∃ shape fields, d.type = .container shape d.name fields := by
  obtain ⟨name, type, reply⟩ := d
  cases type with
  | enum n values bits =>
    obtain rfl : n = name := h
    exact .inl ⟨values, bits, rfl⟩
  | union n fields =>
    obtain rfl : n = name := h
    exact .inr (.inl ⟨fields, rfl⟩)
  | container shape n fields =>
    obtain rfl : n = name := h
    exact .inr (.inr ⟨shape, fields, rfl⟩)
  | _ => exact h.elim

structure Drafted (drafts : List Decl) : Prop where
  nodup : (drafts.map (·.name)).Nodup
  own : ∀ d ∈ drafts, DeclaresOwn d
  built : ∀ d ∈ drafts, BuiltIn (Leaf (OwnIn drafts)) (declFields d)

def belowAt (drafts : List Decl) : Nat → List Decl
  | 0 => []
  | depth + 1 => spellOut drafts depth

def leafAt (drafts : List Decl) (depth : Nat) : Kind → Name → Ty := typeIn (belowAt drafts depth)

/-- The type of a declaration, spelled out to a depth. -/
def nodeAt (drafts : List Decl) (depth : Nat) (d : Decl) : Ty :=
  mapFields (replaceInFields (leafAt drafts depth)) d.type

theorem spell_leafAt_zero (drafts : List Decl) (d : Decl) : spell (belowAt drafts 0) d = d := by
  have hreplace : replaceInFields (typeIn (belowAt drafts 0)) = id :=
    funext replaceInFields_mention
  obtain ⟨name, type, reply⟩ := d
  simp only [spell, hreplace]
  congr
  · cases type <;> rfl
  · cases reply <;> rfl

theorem spellOut_eq (drafts : List Decl) (depth : Nat) :
    spellOut drafts depth = drafts.map (spell (belowAt drafts depth)) := by
  cases depth with
  | zero => exact (List.map_id'' (spell_leafAt_zero drafts) drafts).symm
  | succ depth => rfl

theorem find?_name_of_nodup {decls : List Decl} (h : (decls.map (·.name)).Nodup) {d : Decl}
    (hd : d ∈ decls) : decls.find? (·.name == d.name) = some d := by
  induction decls with
  | nil => cases hd
  | cons e rest ih =>
    rw [List.map_cons, List.nodup_cons] at h
    rcases List.mem_cons.mp hd with rfl | hd
    · simp
    · have hne : e.name ≠ d.name := fun heq => h.1 (heq ▸ List.mem_map_of_mem hd)
      simp [hne, ih h.2 hd]

section
variable {drafts : List Decl}

theorem find?_spellOut (h : Drafted drafts) {d : Decl} (hd : d ∈ drafts) (depth : Nat) :
    (spellOut drafts depth).find? (·.name == d.name) = some (spell (belowAt drafts depth) d) := by
  rw [spellOut_eq, List.find?_map]
  change Option.map _ (drafts.find? (·.name == d.name)) = _
  rw [find?_name_of_nodup h.nodup hd]
  rfl

theorem leafAt_succ (h : Drafted drafts) {d : Decl} (hd : d ∈ drafts) (depth : Nat) (kind : Kind) :
    leafAt drafts (depth + 1) kind d.name = nodeAt drafts depth d := by
  simp only [leafAt, typeIn, belowAt, find?_spellOut h hd]
  rfl

theorem builtIn_ownFields (h : Drafted drafts) {d : Decl} (hd : d ∈ drafts) :
    BuiltIn (Leaf (OwnIn drafts)) (ownFields d.type) :=
  (builtIn_append.mp (h.built d hd)).1

theorem mention_cut_nodeAt {d : Decl} (h : DeclaresOwn d) (depth : Nat) :
    Cut (.mention d.type.kind d.name) (nodeAt drafts depth d) := by
  unfold nodeAt
  rcases declaresOwn_cases h with ⟨values, bits, htype⟩ | ⟨fields, htype⟩ | ⟨shape, fields, htype⟩ <;>
    rw [htype]
  · exact .enumName d.name values bits
  · exact .unionName d.name _
  · exact .message shape d.name _

theorem leafAt_cut (h : Drafted drafts) {j k : Nat} (hjk : j ≤ k) {kind : Kind} {name : Name}
    (hown : OwnIn drafts kind name) :
    Cut (leafAt drafts j kind name) (leafAt drafts k kind name) := by
  induction j generalizing k kind name with
  | zero =>
    obtain ⟨d, hd, rfl, rfl⟩ := hown
    cases k with
    | zero => exact .refl _
    | succ k =>
      rw [leafAt_succ h hd]
      exact mention_cut_nodeAt (h.own d hd) k
  | succ j ih =>
    obtain ⟨d, hd, rfl, rfl⟩ := hown
    obtain ⟨k, rfl⟩ : ∃ k', k = k' + 1 := ⟨k - 1, by omega⟩
    rw [leafAt_succ h hd, leafAt_succ h hd]
    have hleaf : ∀ u, Leaf (OwnIn drafts) u →
        Cut (replaceMentions (leafAt drafts j) u) (replaceMentions (leafAt drafts k) u) := by
      intro u hu
      cases u with
      -- Only mentions change with the depth.
      | mention kind name => exact ih (by omega) hu
      | list | exprField | switch | case => exact hu.elim
      | _ => exact .refl _
    have hfields := cutFields_replace _ (builtIn_ownFields h hd) hleaf
    unfold nodeAt
    cases htype : d.type with
    | union name fields =>
      rw [htype] at hfields
      exact .union hfields
    | container shape name fields =>
      rw [htype] at hfields
      exact .container hfields
    | _ => exact .refl _

theorem isLeaf_nodeAt {d : Decl} (h : DeclaresOwn d) (depth : Nat) :
    isLeaf (nodeAt drafts depth d) = true := by
  unfold nodeAt
  rcases declaresOwn_cases h with ⟨_, _, htype⟩ | ⟨_, htype⟩ | ⟨_, _, htype⟩ <;> rw [htype] <;> rfl

theorem isLeaf_leafAt (h : Drafted drafts) {kind : Kind} {name : Name} (hown : OwnIn drafts kind name)
    (depth : Nat) : isLeaf (leafAt drafts depth kind name) = true := by
  cases depth with
  | zero => rfl
  | succ depth =>
    obtain ⟨d, hd, rfl, -⟩ := hown
    rw [leafAt_succ h hd]
    exact isLeaf_nodeAt (h.own d hd) depth

theorem isLeaf_replace (h : Drafted drafts) (depth : Nat) {u : Ty} (hu : Leaf (OwnIn drafts) u) :
    isLeaf (replaceMentions (leafAt drafts depth) u) = true := by
  cases u with
  | mention kind name => exact isLeaf_leafAt h hu depth
  | list | exprField | switch | case => exact hu.elim
  | _ => rfl

/-- A message among fields spelled out to a depth is one of another module, which is spelled out as
far as it can be, or one that the drafts declare. -/
theorem message_at_depth (h : Drafted drafts) {depth : Nat} {fields : List Field} {u : Ty}
    (hb : BuiltIn (Leaf (OwnIn drafts)) fields)
    (hu : u ∈ messagesIn (replaceInFields (leafAt drafts depth) fields)) :
    Settled u ∨ ∃ kind, ∃ d ∈ drafts, d.type.kind = kind ∧
      .mention kind d.name ∈ messagesIn fields ∧ u = leafAt drafts depth kind d.name := by
  obtain ⟨v, hv, hu⟩ := mem_messagesIn_replace fields hu
  have hleaf := builtIn_message fields hb hv
  cases v with
  | container shape name inner =>
    obtain rfl : u = _ := List.mem_singleton.mp hu
    exact .inl hleaf.1
  | mention kind name =>
    obtain ⟨d, hd, rfl, hkind⟩ := hleaf
    have hisLeaf := isLeaf_leafAt h ⟨d, hd, rfl, hkind⟩ depth
    exact .inr ⟨kind, d, hd, hkind, hv, eq_of_mem_messagesOf hisLeaf hu⟩
  | list | exprField | switch | case => exact hleaf.elim
  | _ => cases hu

/-- A message above `u` that does not contain itself, and of which the declaration of that name is a
cut at every depth up to this one. -/
def Above (drafts : List Decl) (depth : Nat) (u : Ty) (name : Name) : Prop :=
  ∃ t, Relation.TransGen Contains t u ∧ ¬ ContainsItself t ∧
    ∀ j ≤ depth, ∀ kind, OwnIn drafts kind name → Cut (leafAt drafts j kind name) t

theorem Above.contains {depth : Nat} {u v : Ty} {name : Name} (h : Above drafts depth u name)
    (huv : Contains u v) : Above drafts depth v name := by
  obtain ⟨t, ht, hself, hcut⟩ := h
  exact ⟨t, .tail ht huv, hself, hcut⟩

theorem Above.of_succ {depth : Nat} {u : Ty} {name : Name} (h : Above drafts (depth + 1) u name) :
    Above drafts depth u name := by
  obtain ⟨t, ht, hself, hcut⟩ := h
  exact ⟨t, ht, hself, fun j hj => hcut j (by omega)⟩

theorem above_self (h : Drafted drafts) {depth : Nat} {d : Decl} (hd : d ∈ drafts) {u : Ty}
    (hne : ¬ Endless (nodeAt drafts depth d)) (hu : Contains (nodeAt drafts depth d) u) :
    Above drafts depth u d.name := by
  refine ⟨_, .single hu, not_containsItself hne, fun j hj kind hown => ?_⟩
  rw [← leafAt_succ h hd depth kind]
  exact leafAt_cut h (by omega) hown

theorem not_mem_above {depth : Nat} {kind : Kind} {name : Name} (hown : OwnIn drafts kind name)
    {visited : List Name}
    (h : ∀ v ∈ visited, Above drafts depth (leafAt drafts depth kind name) v) : name ∉ visited := by
  intro hmem
  obtain ⟨t, ht, hself, hcut⟩ := h name hmem
  exact hself ⟨_, ht, hcut depth (Nat.le_refl _) kind hown⟩

theorem complete_nodeAt (h : Drafted drafts) {depth : Nat} {d : Decl} (hd : d ∈ drafts)
    (visited : List Name) (hne : ¬ Endless (nodeAt drafts depth d))
    (habove : ∀ v ∈ visited, Above drafts depth (nodeAt drafts depth d) v)
    (hnext : ∀ e ∈ drafts, e.name ∉ d.name :: visited → e.name ∈ mentionedIn (ownFields d.type) →
      Contains (nodeAt drafts depth d) (leafAt drafts depth e.type.kind e.name) →
      (∀ v ∈ d.name :: visited, Above drafts depth (leafAt drafts depth e.type.kind e.name) v) →
      complete (leafAt drafts depth e.type.kind e.name) = true) :
    complete (nodeAt drafts depth d) = true := by
  have hb := builtIn_ownFields h hd
  rcases declaresOwn_cases (h.own d hd) with ⟨_, _, htype⟩ | ⟨_, htype⟩ | ⟨shape, fields, htype⟩
  · rw [nodeAt, htype]
    rfl
  · rw [nodeAt, htype]
    rfl
  · have hnode : nodeAt drafts depth d =
        .container shape d.name (replaceInFields (leafAt drafts depth) fields) := by
      rw [nodeAt, htype]
      rfl
    have hself := fun u => above_self (u := u) h hd hne
    rw [htype] at hb hnext
    rw [hnode, complete]
    refine completeIn_of_messages _ fun u hu => ?_
    have hcontains : Contains (nodeAt drafts depth d) u := hnode ▸ contains_container hu
    -- A message of another module is settled; one of this module is covered by `hnext`.
    rcases message_at_depth h hb hu with hsettled | ⟨kind, e, he, rfl, hmention, rfl⟩
    · exact hsettled (not_endless_of_contains hne hcontains)
    · have habove' : ∀ v ∈ d.name :: visited,
          Above drafts depth (leafAt drafts depth e.type.kind e.name) v :=
        List.forall_mem_cons.mpr
          ⟨hself _ hcontains, fun v hv => (habove v hv).contains hcontains⟩
      exact hnext e he (not_mem_above ⟨e, he, rfl, rfl⟩ habove')
        (mentioned_of_messageIn fields hmention) hcontains habove'

/-- Below as many different declarations as there are, nothing is left to mention. The induction is on
the depth; `visited` are the declarations passed on the way down. -/
theorem complete_of_visited (h : Drafted drafts) (depth : Nat) {d : Decl} (hd : d ∈ drafts)
    (visited : List Name) (hne : ¬ Endless (nodeAt drafts depth d))
    (hnodup : (d.name :: visited).Nodup) (hsub : visited ⊆ drafts.map (·.name))
    (habove : ∀ v ∈ visited, Above drafts depth (nodeAt drafts depth d) v)
    (hlen : drafts.length ≤ visited.length + depth + 1) :
    complete (nodeAt drafts depth d) = true := by
  have hsub' : d.name :: visited ⊆ drafts.map (·.name) :=
    List.cons_subset.mpr ⟨List.mem_map_of_mem hd, hsub⟩
  induction depth generalizing d visited with
  | zero =>
    refine complete_nodeAt h hd visited hne habove fun e he hfresh _ _ _ => ?_
    -- With one more declaration there would be more of them on the way than drafts.
    have hall : e.name :: d.name :: visited ⊆ drafts.map (·.name) :=
      List.cons_subset.mpr ⟨List.mem_map_of_mem he, hsub'⟩
    have hcount := ((List.nodup_cons.mpr ⟨hfresh, hnodup⟩).subperm hall).length_le
    simp only [List.length_cons, List.length_map] at hcount
    omega
  | succ depth ih =>
    refine complete_nodeAt h hd visited hne habove fun e he hfresh _ hcontains habove' => ?_
    rw [leafAt_succ h he] at hcontains habove' ⊢
    refine ih he (d.name :: visited) (not_endless_of_contains hne hcontains)
      (List.nodup_cons.mpr ⟨hfresh, hnodup⟩) hsub' (fun v hv => (habove' v hv).of_succ) ?_
      (List.cons_subset.mpr ⟨List.mem_map_of_mem he, hsub'⟩)
    rw [List.length_cons]
    omega

def openAt (drafts : List Decl) : Nat → List Name
  | 0 => stillOpen drafts (drafts.map (·.name))
  | depth + 1 => stillOpen drafts (openAt drafts depth)

theorem mem_stillOpen {d : Decl} (hd : d ∈ drafts) {names : List Name} {name : Name}
    (hmentioned : name ∈ mentionedIn (declFields d)) (hname : name ∈ names) :
    d.name ∈ stillOpen drafts names := by
  refine List.mem_map_of_mem (List.mem_filter.mpr ⟨hd, ?_⟩)
  exact List.any_eq_true.mpr ⟨name, hmentioned, by simpa using hname⟩

theorem mentionedIn_append (fields more : List Field) :
    mentionedIn (fields ++ more) = mentionedIn fields ++ mentionedIn more := by
  induction fields with
  | nil => rfl
  | cons f rest ih =>
    obtain ⟨name, type, wire, visible⟩ := f
    simp [mentionedIn, ih]

theorem mentioned_of_own {d : Decl} {name : Name} (h : name ∈ mentionedIn (ownFields d.type)) :
    name ∈ mentionedIn (declFields d) := by
  rw [declFields, mentionedIn_append]
  exact List.mem_append_left _ h

theorem complete_of_not_open (h : Drafted drafts) (depth : Nat) {d : Decl} (hd : d ∈ drafts)
    (hclosed : d.name ∉ openAt drafts depth) (hne : ¬ Endless (nodeAt drafts depth d)) :
    complete (nodeAt drafts depth d) = true := by
  induction depth generalizing d with
  | zero =>
    refine complete_nodeAt h hd [] hne (by simp) fun e he _ hmentioned _ _ => ?_
    exact absurd (mem_stillOpen hd (mentioned_of_own hmentioned) (List.mem_map_of_mem he)) hclosed
  | succ depth ih =>
    refine complete_nodeAt h hd [] hne (by simp) fun e he _ hmentioned hcontains _ => ?_
    rw [leafAt_succ h he] at hcontains ⊢
    exact ih he (fun hopen => hclosed (mem_stillOpen hd (mentioned_of_own hmentioned) hopen))
      (not_endless_of_contains hne hcontains)

theorem settled_nodeAt (h : Drafted drafts) {depth : Nat} {d : Decl} (hd : d ∈ drafts)
    (hdepth : d.name ∉ openAt drafts depth ∨ drafts.length ≤ depth + 1) :
    Settled (nodeAt drafts depth d) := by
  intro hne
  rcases hdepth with hclosed | hlen
  · exact complete_of_not_open h depth hd hclosed hne
  · exact complete_of_visited h depth hd [] hne (by simp) (by simp) (by simp) (by simpa using hlen)

theorem depthWithin_open (drafts : List Decl) (bound depth : Nat) :
    openAt drafts (depth + depthWithin drafts bound (openAt drafts depth)) = [] ∨
      depthWithin drafts bound (openAt drafts depth) = bound := by
  induction bound generalizing depth with
  | zero => exact .inr rfl
  | succ bound ih =>
    unfold depthWithin
    split
    · next hempty => exact .inl (List.isEmpty_iff.mp hempty)
    · have hnext := ih (depth + 1)
      rw [openAt] at hnext
      rcases hnext with hopen | hbound
      · left
        rw [← Nat.add_assoc, Nat.add_right_comm]
        exact hopen
      · right
        rw [hbound]

def spelledDepth (unrolling : Nat) (drafts : List Decl) : Nat :=
  depthWithin drafts (drafts.length + unrolling + 2) (openAt drafts 0)

theorem spelled_eq (unrolling : Nat) (drafts : List Decl) :
    spelled unrolling drafts = drafts.map (spell (belowAt drafts (spelledDepth unrolling drafts))) :=
  spellOut_eq drafts _

theorem spelledDepth_open (unrolling : Nat) (drafts : List Decl) :
    openAt drafts (spelledDepth unrolling drafts) = [] ∨
      drafts.length + 2 ≤ spelledDepth unrolling drafts := by
  have h := depthWithin_open drafts (drafts.length + unrolling + 2) 0
  rw [Nat.zero_add] at h
  refine h.imp id fun hbound => ?_
  rw [spelledDepth, hbound]
  omega

/-- A leaf of a finished layout: nothing is mentioned any more. -/
def Whole : Ty → Prop := Leaf fun _ _ => False

theorem wellFormed_of_leaf {Own : Kind → Name → Prop} {u : Ty} (h : Leaf Own u) :
    wellFormed u = true := by
  cases u with
  | container shape name fields => exact h.2
  | union name fields => exact h
  | absent | list | exprField | switch | case => exact h.elim
  | _ => rfl

theorem wellFormedIn_of_whole {fields : List Field} (h : BuiltIn Whole fields) :
    wellFormedIn fields = true :=
  wellFormedIn_of_built fields h fun _ => wellFormed_of_leaf

theorem settled_of_whole {shape : Shape} {name : Name} {fields : List Field}
    (h : BuiltIn Whole fields) : Settled (.container shape name fields) := by
  intro hne
  rw [complete]
  refine completeIn_of_messages fields fun u hu => ?_
  have hleaf : Whole u := builtIn_message fields h hu
  cases u with
  | container => exact hleaf.1 (not_endless_of_contains hne (contains_container hu))
  | mention | list | exprField | switch | case => exact hleaf.elim
  | _ => rfl

theorem wellFormedIn_replace (h : Drafted drafts) (depth : Nat)
    (hleaf : ∀ kind name, OwnIn drafts kind name → wellFormed (leafAt drafts depth kind name) = true)
    {fields : List Field} (hb : BuiltIn (Leaf (OwnIn drafts)) fields) :
    wellFormedIn (replaceInFields (leafAt drafts depth) fields) = true := by
  refine wellFormedIn_of_built (A := (wellFormed · = true)) _ ?_ fun _ hu => hu
  refine builtIn_replace (P := fun _ => True) fields hb (fun _ _ => trivial) ?_
    fun u hu => isLeaf_replace h depth hu
  intro u hu _
  cases u with
  | mention kind name => exact hleaf kind name hu
  | list | exprField | switch | case => exact hu.elim
  | _ => exact wellFormed_of_leaf hu

theorem wellFormed_leafAt (h : Drafted drafts) (depth : Nat) {kind : Kind} {name : Name}
    (hown : OwnIn drafts kind name) : wellFormed (leafAt drafts depth kind name) = true := by
  induction depth generalizing kind name with
  | zero => rfl
  | succ depth ih =>
    obtain ⟨d, hd, rfl, -⟩ := hown
    have hfields := wellFormedIn_replace h depth (fun _ _ => ih) (builtIn_ownFields h hd)
    rw [leafAt_succ h hd, nodeAt]
    rcases declaresOwn_cases (h.own d hd) with ⟨_, _, htype⟩ | ⟨_, htype⟩ | ⟨_, _, htype⟩ <;>
      rw [htype] at hfields ⊢
    · rfl
    · exact hfields
    · exact hfields

theorem whole_leafAt (unrolling : Nat) (h : Drafted drafts) {d e : Decl} (hd : d ∈ drafts)
    (he : e ∈ drafts) (hmentioned : e.name ∈ mentionedIn (declFields d)) :
    Whole (leafAt drafts (spelledDepth unrolling drafts) e.type.kind e.name) := by
  have hdepth := spelledDepth_open unrolling drafts
  cases hk : spelledDepth unrolling drafts with
  | zero =>
    -- Nothing is open at depth zero, but `d` is.
    rw [hk] at hdepth
    have hopen := mem_stillOpen hd hmentioned (List.mem_map_of_mem he)
    rcases hdepth with hnil | hlen
    · rw [openAt] at hnil
      rw [hnil] at hopen
      cases hopen
    · omega
  | succ depth =>
    rw [hk] at hdepth
    have hsettled : Settled (nodeAt drafts depth e) := by
      refine settled_nodeAt h he (hdepth.imp (fun hnil hopen => ?_) (by omega))
      have hmem := mem_stillOpen hd hmentioned hopen
      rw [openAt] at hnil
      rw [hnil] at hmem
      cases hmem
    have hwell := wellFormed_leafAt h (depth + 1) ⟨e, he, rfl, rfl⟩
    rw [leafAt_succ h he] at hwell ⊢
    unfold nodeAt at hsettled hwell ⊢
    rcases declaresOwn_cases (h.own e he) with ⟨_, _, htype⟩ | ⟨_, htype⟩ | ⟨_, fields, htype⟩ <;>
      rw [htype] at hsettled hwell ⊢
    · trivial
    · exact hwell
    · exact ⟨hsettled, hwell⟩

theorem whole_of_spelled (unrolling : Nat) (h : Drafted drafts) {d : Decl} (hd : d ∈ drafts)
    {fields : List Field}
    (hb : BuiltIn (Leaf (OwnIn drafts)) fields)
    (hm : ∀ n ∈ mentionedIn fields, n ∈ mentionedIn (declFields d)) :
    BuiltIn Whole (replaceInFields (leafAt drafts (spelledDepth unrolling drafts)) fields) := by
  refine builtIn_replace fields hb hm ?_ fun u hu => isLeaf_replace h _ hu
  intro u hu hnames
  cases u with
  | mention kind name =>
    obtain ⟨e, he, rfl, rfl⟩ := hu
    exact whole_leafAt unrolling h hd he (hnames e.name (by simp [mentionedBy]))
  | absent | list | exprField | switch | case => exact hu.elim
  | container | union => exact hu
  | _ => trivial

/-- A declaration that code can be generated for: a type of its own or an alias of one, with its
layout finished. -/
def Finished (type : Ty) (reply : Option Reply) : Prop :=
  (match type with
    | .simple _ | .enum .. => True
    | .union _ fields => wellFormedIn fields = true
    | .container _ _ fields => BuiltIn Whole fields
    | _ => False) ∧
  ∀ r, reply = some r → BuiltIn Whole r.fields

theorem finished_of_mem_spelled (h : Drafted drafts) {unrolling : Nat} {d : Decl}
    (hd : d ∈ spelled unrolling drafts) :
    Finished d.type d.reply := by
  rw [spelled_eq, List.mem_map] at hd
  obtain ⟨e, he, rfl⟩ := hd
  have hb := builtIn_append.mp (h.built e he)
  constructor
  · have hown := whole_of_spelled unrolling h he hb.1 fun n hn => mentioned_of_own hn
    simp only [spell]
    rcases declaresOwn_cases (h.own e he) with ⟨_, _, htype⟩ | ⟨_, htype⟩ | ⟨_, fields, htype⟩ <;>
      rw [htype] at hown ⊢
    · trivial
    · exact wellFormedIn_of_whole hown
    · exact hown
  · intro r hr
    simp only [spell, Option.map_eq_some_iff] at hr
    obtain ⟨r, hr, rfl⟩ := hr
    simp only [hr, Option.map_some, Option.getD_some] at hb
    refine whole_of_spelled unrolling h he hb.2 fun n hn => ?_
    rw [declFields, mentionedIn_append, hr]
    exact List.mem_append_right _ hn

end
end CodecGen.Resolve
