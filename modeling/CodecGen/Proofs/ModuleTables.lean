import CodecGen.Proofs.Preloading
import Mathlib.Data.List.Induction
import Mathlib.Logic.Function.Basic
set_option autoImplicit false
/-!
Sets of modules as tables. A set can be kept as a list of headers, a table of modules and a table of
their declarations, each brought up to date by itself whenever a module is added. However modules are
added and sets merged, the three stay in step, and they show what the list of modules shows.
-/
namespace CodecGen
open Schema

def declTable (m : Module) : String → Option Decl :=
  m.decls.foldl (fun table d => Function.update table (Name.last d.name) (some d)) fun _ => none

/-- A set of modules in three tables: the headers in order, the module of each header, and the
declarations of that module by name. -/
structure Tables where
  headers : List String := []
  modules : String → Option Module := fun _ => none
  decls : String → Option (String → Option Decl) := fun _ => none

namespace Tables

def add (t : Tables) (m : Module) : Tables where
  headers := if (t.modules m.header).isSome then t.headers else t.headers ++ [m.header]
  modules := Function.update t.modules m.header (some m)
  decls := Function.update t.decls m.header (some (declTable m))

def merge (t other : Tables) : Tables :=
  other.headers.foldl (fun t header => (other.modules header).elim t t.add) t

end Tables

def ModuleSet.tables (s : ModuleSet) : Tables where
  headers := s.headers
  modules := s.get?
  decls := fun header => (s.get? header).map Module.find?

/-- A change to one of several numbered sets: a module is added to it, or another one of the sets, or
the set itself, is merged into it. -/
inductive Edit where
  | add (i : Nat) (m : Module)
  | merge (i j : Nat)

section
variable {S T : Type}

def Edit.apply (add : S → Module → S) (merge : S → S → S) (sets : Nat → S) : Edit → Nat → S
  | .add i m => Function.update sets i (add (sets i) m)
  | .merge i j => Function.update sets i (merge (sets i) (sets j))

def edited (add : S → Module → S) (merge : S → S → S) (start : S) (edits : List Edit) : Nat → S :=
  edits.foldl (Edit.apply add merge) fun _ => start

end

def editedSets : List Edit → Nat → ModuleSet := edited ModuleSet.add ModuleSet.merge .empty

def editedTables : List Edit → Nat → Tables := edited Tables.add Tables.merge {}

/-- The modules added to each set from first to last. Merging a set adds what was added to it. -/
def additions : List Edit → Nat → List Module := edited (fun ms m => ms ++ [m]) (· ++ ·) []

theorem edited_induction {S T : Type} {addS : S → Module → S} {mergeS : S → S → S} {s : S}
    {addT : T → Module → T} {mergeT : T → T → T} {t : T} (R : S → T → Prop) (hstart : R s t)
    (hadd : ∀ s t m, R s t → R (addS s m) (addT t m))
    (hmerge : ∀ s t s' t', R s t → R s' t' → R (mergeS s s') (mergeT t t'))
    (edits : List Edit) (i : Nat) :
    R (edited addS mergeS s edits i) (edited addT mergeT t edits i) := by
  have hstep : ∀ (sets : Nat → S) (others : Nat → T) (e : Edit), (∀ i, R (sets i) (others i)) →
      ∀ i, R (e.apply addS mergeS sets i) (e.apply addT mergeT others i) := by
    intro sets others e h k
    cases e with
    | add i m =>
      by_cases hk : k = i
      · subst hk
        simpa [Edit.apply] using hadd _ _ m (h k)
      · simpa [Edit.apply, hk] using h k
    | merge i j =>
      by_cases hk : k = i
      · subst hk
        simpa [Edit.apply] using hmerge _ _ _ _ (h k) (h j)
      · simpa [Edit.apply, hk] using h k
  unfold edited
  have hall : ∀ i, R ((fun _ : Nat => s) i) ((fun _ : Nat => t) i) := fun _ => hstart
  generalize (fun _ : Nat => s) = sets at hall ⊢
  generalize (fun _ : Nat => t) = others at hall ⊢
  induction edits generalizing sets others with
  | nil => exact hall i
  | cons e edits ih =>
    rw [List.foldl_cons, List.foldl_cons]
    exact ih _ _ (hstep sets others e hall)

theorem declTable_eq (m : Module) : declTable m = m.find? := by
  have hfold : ∀ (ds : List Decl) (table : String → Option Decl) (name : String),
      ds.foldl (fun table d => Function.update table (Name.last d.name) (some d)) table name =
        (ds.reverse.find? fun d => Name.last d.name == name).or (table name) := by
    intro ds
    induction ds with
    | nil =>
      intro table name
      rfl
    | cons d ds ih =>
      intro table name
      rw [List.foldl_cons, ih, List.reverse_cons, List.find?_append, Option.or_assoc]
      congr 1
      by_cases hname : name = Name.last d.name
      · simp [hname]
      · simp [hname, Ne.symm hname]
  funext name
  rw [declTable, hfold, Option.or_none, Module.find?]

namespace ModuleSet
variable (s o : ModuleSet) (m : Module)

theorem headers_add :
    (s.add m).headers =
      if m.header ∈ s.headers then s.headers else s.headers ++ [m.header] := by
  split
  · rename_i hmem
    obtain ⟨modules⟩ := s
    change (addTo m modules).map (·.header) = modules.map (·.header)
    change m.header ∈ modules.map (·.header) at hmem
    induction modules with
    | nil => cases hmem
    | cons n rest ih =>
      by_cases hsame : n.header = m.header
      · simp [addTo, hsame]
      · have hrest : m.header ∈ rest.map (·.header) := by
          rw [List.map_cons, List.mem_cons] at hmem
          exact hmem.resolve_left (Ne.symm hsame)
        simp [addTo, hsame, ih hrest]
  · rename_i hmem
    rw [headers, modules_add hmem, List.map_append]
    rfl

theorem get?_add (header : String) :
    (s.add m).get? header = if header = m.header then some m else s.get? header := by
  obtain ⟨modules⟩ := s
  change (addTo m modules).find? (·.header == header) =
    if header = m.header then some m else modules.find? (·.header == header)
  induction modules with
  | nil =>
    by_cases hheader : header = m.header
    · simp [addTo, hheader]
    · simp [addTo, hheader, Ne.symm hheader]
  | cons n rest ih =>
    by_cases hsame : n.header = m.header
    · by_cases hheader : header = m.header
      · simp [addTo, hsame, hheader]
      · simp [addTo, hsame, hheader, Ne.symm hheader]
    · have hskip : addTo m (n :: rest) = n :: addTo m rest := by simp [addTo, hsame]
      by_cases hfound : n.header = header
      · have hne : header ≠ m.header := hfound ▸ hsame
        simp [hskip, hfound, hne]
      · simp [hskip, hfound, ih]

theorem nodup_add (h : s.headers.Nodup) : (s.add m).headers.Nodup := by
  rw [headers_add]
  split
  · exact h
  · rename_i hmem
    apply List.nodup_append.2
    refine ⟨h, List.nodup_singleton _, ?_⟩
    intro a ha b hb heq
    rw [heq, List.mem_singleton.1 hb] at ha
    exact hmem ha

theorem add_of_get? {s : ModuleSet} {m : Module} (h : s.get? m.header = some m) : s.add m = s := by
  obtain ⟨modules, unrolling⟩ := s
  change modules.find? (·.header == m.header) = some m at h
  have hsame : addTo m modules = modules := by
    induction modules with
    | nil => cases h
    | cons n rest ih =>
      by_cases hheader : n.header = m.header
      · have hn : n = m := by simpa [hheader] using h
        simp [addTo, hn]
      · have hrest : rest.find? (·.header == m.header) = some m := by simpa [hheader] using h
        simp [addTo, hheader, ih hrest]
  exact congrArg (ModuleSet.mk · unrolling) hsame

theorem tables_add : (s.add m).tables = s.tables.add m := by
  have hmodules : (s.add m).get? = Function.update s.get? m.header (some m) := by
    funext header
    rw [get?_add, Function.update_apply]
  have hdecls : (fun header => ((s.add m).get? header).map Module.find?) =
      Function.update (fun header => (s.get? header).map Module.find?) m.header
        (some (declTable m)) := by
    funext header
    rw [get?_add, Function.update_apply, declTable_eq]
    split <;> rfl
  have hheaders : (s.add m).headers =
      if (s.get? m.header).isSome then s.headers else s.headers ++ [m.header] := by
    rw [headers_add]
    simp only [get?_isSome_iff]
  rw [tables, hheaders, hdecls, hmodules]
  rfl

section
variable {s o} (ho : o.headers.Nodup)
include ho

theorem get?_merge (header : String) :
    (s.merge o).get? header = (o.get? header).or (s.get? header) := by
  have hfold : ∀ (ms : List Module) (s : ModuleSet), (ms.map (·.header)).Nodup →
      (ms.foldl add s).get? header = (ms.find? (·.header == header)).or (s.get? header) := by
    intro ms
    induction ms with
    | nil =>
      intro s _
      rfl
    | cons m ms ih =>
      intro s hnodup
      rw [List.map_cons, List.nodup_cons] at hnodup
      rw [List.foldl_cons, ih _ hnodup.2, get?_add]
      by_cases hheader : header = m.header
      · -- no later module takes the place of this one
        have hnone : ms.find? (·.header == header) = none := by
          rw [List.find?_eq_none]
          intro n hn hfound
          apply hnodup.1
          rw [← hheader, ← eq_of_beq hfound]
          exact List.mem_map_of_mem hn
        rw [hnone, hheader]
        simp
      · have hother : ¬ m.header = header := Ne.symm hheader
        simp [hheader, hother]
  exact hfold o.modules s ho

theorem headers_merge :
    (s.merge o).headers = s.headers ++ o.headers.filter (· ∉ s.headers) := by
  have hfold : ∀ (ms : List Module) (s : ModuleSet), (ms.map (·.header)).Nodup →
      (ms.foldl add s).headers = s.headers ++ (ms.map (·.header)).filter (· ∉ s.headers) := by
    intro ms
    induction ms with
    | nil =>
      intro s _
      simp
    | cons m ms ih =>
      intro s hnodup
      rw [List.map_cons, List.nodup_cons] at hnodup
      rw [List.foldl_cons, ih _ hnodup.2, headers_add, List.map_cons, List.filter_cons]
      by_cases hmem : m.header ∈ s.headers
      · simp [hmem]
      · have hrest : (ms.map (·.header)).filter (· ∉ s.headers ++ [m.header]) =
            (ms.map (·.header)).filter (· ∉ s.headers) := by
          apply List.filter_congr
          intro header hheader
          have hne : header ≠ m.header := fun heq => hnodup.1 (heq ▸ hheader)
          simp [hne]
        rw [if_neg hmem, hrest]
        simp [hmem]
  exact hfold o.modules s ho

theorem tables_merge : (s.merge o).tables = s.tables.merge o.tables := by
  have hfold : ∀ (ms : List Module) (s : ModuleSet), (∀ m ∈ ms, o.get? m.header = some m) →
      (ms.foldl add s).tables =
        (ms.map (·.header)).foldl (fun t header => (o.get? header).elim t t.add) s.tables := by
    intro ms
    induction ms with
    | nil =>
      intro s _
      rfl
    | cons m ms ih =>
      intro s hms
      have hm := hms m List.mem_cons_self
      rw [List.map_cons, List.foldl_cons, List.foldl_cons, hm, Option.elim_some, ← tables_add]
      exact ih (s.add m) fun n hn => hms n (List.mem_cons_of_mem _ hn)
  exact hfold o.modules s fun m hm => get?_of_mem ho hm

theorem merge_merge : (s.merge o).merge o = s.merge o := by
  have hthere : ∀ m ∈ o.modules, (s.merge o).get? m.header = some m := by
    intro m hm
    rw [get?_merge ho, get?_of_mem ho hm, Option.some_or]
  generalize s.merge o = r at hthere
  unfold merge
  revert hthere
  generalize o.modules = ms
  intro hthere
  induction ms with
  | nil => rfl
  | cons m ms ih =>
    rw [List.foldl_cons, add_of_get? (hthere m List.mem_cons_self)]
    exact ih fun n hn => hthere n (List.mem_cons_of_mem _ hn)

end

theorem nodup_merge {s o : ModuleSet} (h : s.headers.Nodup) (ho : o.headers.Nodup) :
    (s.merge o).headers.Nodup := by
  rw [headers_merge ho]
  apply List.nodup_append.2
  refine ⟨h, ho.filter _, ?_⟩
  intro a ha b hb heq
  have hnot : b ∉ s.headers := by simpa using (List.mem_filter.1 hb).2
  exact hnot (heq ▸ ha)

theorem find?_eq_tables (s : ModuleSet) (header name : String) :
    s.find? header name = (s.tables.decls header).bind (· name) := by
  simp only [find?, tables]
  cases s.get? header <;> rfl

end ModuleSet

def LastWith {α : Type} (p : α → Prop) (as : List α) (a : α) : Prop :=
  ∃ before after, as = before ++ a :: after ∧ p a ∧ ∀ x ∈ after, ¬ p x

theorem find?_reverse_eq_some_iff {α : Type} {p : α → Bool} {as : List α} {a : α} :
    as.reverse.find? p = some a ↔ LastWith (p · = true) as a := by
  rw [List.find?_eq_some_iff_append]
  constructor
  · rintro ⟨ha, after, before, hsplit, hafter⟩
    refine ⟨before.reverse, after.reverse, ?_, ha, ?_⟩
    · rw [← List.reverse_reverse as, hsplit]
      simp
    · intro x hx
      simpa using hafter x (List.mem_reverse.1 hx)
  · rintro ⟨before, after, rfl, ha, hafter⟩
    refine ⟨ha, after.reverse, before.reverse, by simp, ?_⟩
    intro x hx
    simpa using hafter x (List.mem_reverse.1 hx)

theorem eraseDups_concat (as : List String) (b : String) :
    (as ++ [b]).eraseDups = if b ∈ as then as.eraseDups else as.eraseDups ++ [b] := by
  rw [List.eraseDups_append]
  by_cases hb : b ∈ as
  · simp [List.removeAll, hb]
  · simp [List.removeAll, hb, List.eraseDups_cons]

theorem eraseDups_filter (p : String → Bool) (as : List String) :
    (as.filter p).eraseDups = as.eraseDups.filter p := by
  induction as using List.reverseRecOn with
  | nil => rfl
  | append_singleton as b ih =>
    rw [List.filter_append, eraseDups_concat]
    by_cases hp : p b = true
    · have hone : [b].filter p = [b] := by simp [hp]
      rw [hone, eraseDups_concat, ih]
      by_cases hb : b ∈ as <;> simp [hb, hp]
    · have hnone : [b].filter p = [] := by simp [hp]
      rw [hnone, List.append_nil, ih]
      by_cases hb : b ∈ as <;> simp [hb, hp]

structure ModuleSet.Records (s : ModuleSet) (added : List Module) : Prop where
  distinct : s.headers.Nodup
  order : s.headers = (added.map (·.header)).eraseDups
  latest : ∀ header, s.get? header = added.reverse.find? (·.header == header)

theorem ModuleSet.Records.add {s : ModuleSet} {added : List Module} (h : s.Records added)
    (m : Module) : (s.add m).Records (added ++ [m]) where
  distinct := s.nodup_add m h.distinct
  order := by
    rw [s.headers_add, List.map_append, List.map_singleton, eraseDups_concat, h.order]
    simp only [List.mem_eraseDups]
  latest := by
    intro header
    rw [s.get?_add, h.latest, List.reverse_append, List.reverse_singleton, List.singleton_append]
    by_cases hheader : header = m.header
    · simp [hheader]
    · have hother : ¬ m.header = header := Ne.symm hheader
      simp [hheader, hother]

theorem ModuleSet.Records.merge {s o : ModuleSet} {added others : List Module}
    (h : s.Records added) (ho : o.Records others) : (s.merge o).Records (added ++ others) where
  distinct := nodup_merge h.distinct ho.distinct
  order := by
    rw [headers_merge ho.distinct, List.map_append, List.eraseDups_append, List.removeAll,
      eraseDups_filter, ← ho.order, ← h.order]
    congr 1
    apply List.filter_congr
    intro header _
    simp only [h.order, List.mem_eraseDups, decide_not, List.elem_eq_mem]
  latest := by
    intro header
    rw [get?_merge ho.distinct, h.latest, ho.latest, List.reverse_append, List.find?_append]

/-- The tables agree on which headers there are, in the order in which modules were added; each header
has the module added last and the declarations of that module, the last one of each name. -/
structure Tables.InStep (t : Tables) (added : List Module) : Prop where
  distinct : t.headers.Nodup
  order : t.headers = (added.map (·.header)).eraseDups
  mem_modules : ∀ header, header ∈ t.headers ↔ (t.modules header).isSome = true
  mem_decls : ∀ header, header ∈ t.headers ↔ (t.decls header).isSome = true
  latest : ∀ header m, t.modules header = some m ↔ LastWith (·.header = header) added m
  named : ∀ header name d, (t.decls header).bind (· name) = some d ↔
    ∃ m, t.modules header = some m ∧ LastWith (fun d => Name.last d.name = name) m.decls d

theorem ModuleSet.Records.inStep {s : ModuleSet} {added : List Module} (h : s.Records added) :
    s.tables.InStep added where
  distinct := h.distinct
  order := h.order
  mem_modules := fun _ => get?_isSome_iff.symm
  mem_decls := by
    intro header
    rw [tables, Option.isSome_map]
    exact get?_isSome_iff.symm
  latest := by
    intro header m
    change s.get? header = some m ↔ _
    rw [h.latest, find?_reverse_eq_some_iff]
    simp only [beq_iff_eq]
  named := by
    intro header name d
    change ((s.get? header).map Module.find?).bind (· name) = some d ↔
      ∃ m, s.get? header = some m ∧ _
    cases s.get? header with
    | none => simp
    | some m =>
      simp only [Option.map_some, Option.bind_some, Module.find?, find?_reverse_eq_some_iff,
        beq_iff_eq, Option.some.injEq, exists_eq_left']

/-- One set merged into another: new headers come after the old ones, the merged modules take the place
of the old ones, and nothing is left to merge. -/
structure ModuleSet.Merged (s o merged : ModuleSet) : Prop where
  headers : merged.headers = s.headers ++ o.headers.filter (· ∉ s.headers)
  get? : ∀ header, merged.get? header = (o.get? header).or (s.get? header)
  again : merged.merge o = merged

theorem records_editedSets (edits : List Edit) (i : Nat) :
    (editedSets edits i).Records (additions edits i) := by
  apply edited_induction ModuleSet.Records
  · exact ⟨List.nodup_nil, rfl, fun _ => rfl⟩
  · intro s added m h
    exact h.add m
  · intro s added o others h ho
    exact h.merge ho

/-- However modules are added to sets and sets are merged, a set shows what three tables show that are
kept up each by itself; these are in step with the additions; and any two of the sets merge as they
should, also if they are the same. -/
theorem module_tables_in_step (edits : List Edit) (i j : Nat) :
    (editedSets edits i).tables = editedTables edits i ∧
      (editedTables edits i).InStep (additions edits i) ∧
      (∀ header name, (editedSets edits i).find? header name =
        ((editedTables edits i).decls header).bind (· name)) ∧
      (editedSets edits i).Merged (editedSets edits j)
        ((editedSets edits i).merge (editedSets edits j)) := by
  have htables : (editedSets edits i).tables = editedTables edits i := by
    suffices h : (editedSets edits i).headers.Nodup ∧ (editedSets edits i).tables =
      editedTables edits i from h.2
    apply edited_induction fun (s : ModuleSet) (t : Tables) => s.headers.Nodup ∧ s.tables = t
    · exact ⟨List.nodup_nil, rfl⟩
    · rintro s _ m ⟨h, rfl⟩
      exact ⟨s.nodup_add m h, s.tables_add m⟩
    · rintro s _ o _ ⟨h, rfl⟩ ⟨ho, rfl⟩
      exact ⟨ModuleSet.nodup_merge h ho, ModuleSet.tables_merge ho⟩
  have hother := (records_editedSets edits j).distinct
  refine ⟨htables, htables ▸ (records_editedSets edits i).inStep, ?_, ?_⟩
  · intro header name
    rw [← htables, ModuleSet.find?_eq_tables]
  · exact ⟨ModuleSet.headers_merge hother, ModuleSet.get?_merge hother,
      ModuleSet.merge_merge hother⟩

end CodecGen
