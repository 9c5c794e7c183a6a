import CodecGen.Proofs.Staging
set_option autoImplicit false
/-!
Replacing files together. Renaming takes the temporary files away one by one and puts their contents in
place, the last output first. What is left after a failure is therefore the tree with the outputs that
were already renamed, provided that no temporary file stood where an output has to go.
-/
namespace CodecGen.Files.Tree
variable {names : Naming} {tree : Tree} {ws : List Wait}

def settleOne (tree base : Tree) (output : Output) : Tree :=
  match tree.target? output.path with
  | some place => base.put place (.file output.content)
  | none => base

def settle (tree base : Tree) (outputs : List Output) : Tree := outputs.foldl (settleOne tree) base

theorem discard_put {place : Location} (staged : List Staged) (h : place ∉ staged.map (·.place))
    (base : Tree) (entry : Entry) :
    (base.put place entry).discard staged = (base.discard staged).put place entry := by
  have hleft := entries_discard (base.put place entry) staged
  have hright := entries_discard base staged
  have hsame : ((base.put place entry).discard staged).entries =
      ((base.discard staged).put place entry).entries := by
    rw [hleft, put, put, hright]
    simp only [List.filter_append, List.filter_filter]
    congr 1
    · congr 1
      funext e
      exact Bool.and_comm _ _
    · simpa using h
  exact congrArg Tree.mk hsame

theorem discard_erase {s : Staged} {staged : List Staged} (h : s ∈ staged) (base : Tree) :
    (base.erase s.place).discard staged = base.discard staged := by
  have hsame : ((base.erase s.place).discard staged).entries = (base.discard staged).entries := by
    rw [entries_discard, entries_discard, erase, List.filter_filter]
    refine List.filter_congr fun e _ => ?_
    by_cases he : e.1 = s.place
    · have hmem : s.place ∈ staged.map (·.place) := List.mem_map_of_mem h
      simp [he, hmem]
    · simp [he]
  exact congrArg Tree.mk hsame

/-- Renaming with `rest` still to come. Without the temporary files the current tree is `base`, and
those of `rest` are still there. -/
structure Underway (tree : Tree) (all rest : List Wait) (base current : Tree) : Prop where
  dirs : SameDirs tree current
  settled : current.discard (all.map (·.staged)) = base
  waits : ∀ w ∈ rest, current.entry? w.staged.place = some (.file w.output.content)
  left : ∀ e ∈ current.entries, e.1 ∈ all.map (·.staged.place) → e.1 ∈ rest.map (·.staged.place)

def Apart (tree : Tree) (all : List Wait) : Prop :=
  ∀ w ∈ all, ∀ place, tree.target? w.output.path = some place → place ∉ all.map (·.staged.place)

theorem rename_eq_error {current : Tree} {s : Staged} (h : current.target? s.target = none) :
    ∃ fault, current.rename s = .error fault := by
  unfold rename
  cases hreach : current.reach s.target with
  | error fault => exact ⟨_, rfl⟩
  | ok place =>
    dsimp only
    split
    · exact ⟨_, rfl⟩
    · next hdir =>
      have hsome : current.target? s.target = some place :=
        target?_eq_some.mpr ⟨hreach, Bool.eq_false_iff.mpr hdir⟩
      rw [hsome] at h
      cases h

theorem rename_eq_ok {current : Tree} {s : Staged} {place : Location} {entry : Entry}
    (h : current.target? s.target = some place) (hentry : current.entry? s.place = some entry) :
    current.rename s = .ok ((current.erase s.place).put place entry) := by
  obtain ⟨hreach, hdir⟩ := target?_eq_some.mp h
  unfold rename
  rw [hreach]
  simp [hdir, hentry]

section
variable {all rest : List Wait} {base current : Tree} {w : Wait}

theorem mem_of_mem_put_erase {place origin : Location} {entry : Entry} {e : Location × Entry}
    (he : e ∈ ((current.erase origin).put place entry).entries) (hne : e.1 ≠ place) :
    e ∈ current.entries ∧ e.1 ≠ origin := by
  rcases List.mem_append.mp he with hold | hnew
  · obtain ⟨hin, hnot⟩ := List.mem_filter.mp (List.mem_filter.mp hold).1
    exact ⟨hin, by simpa using hnot⟩
  · obtain rfl := List.mem_singleton.mp hnew
    exact absurd rfl hne

theorem rename_cases (hall : Waiting names tree all) (hapart : Apart tree all)
    (hsub : ∀ v ∈ w :: rest, v ∈ all) (hnodup : ((w :: rest).map (·.staged.place)).Nodup)
    (h : Underway tree all (w :: rest) base current) :
    (tree.target? w.output.path = none ∧ ∃ fault, current.rename w.staged = .error fault) ∨
    ((tree.target? w.output.path).isSome = true ∧ ∃ next, current.rename w.staged = .ok next ∧
      Underway tree all rest (settleOne tree base w.output) next) := by
  have hw : w ∈ all := hsub w List.mem_cons_self
  have htarget : current.target? w.staged.target = tree.target? w.output.path := by
    rw [hall.target w hw, target?_congr h.dirs]
  unfold settleOne
  cases hplace : tree.target? w.output.path with
  | none => exact .inl ⟨rfl, rename_eq_error (htarget.trans hplace)⟩
  | some place =>
    -- The content moves from a place that only its temporary file had to one that none of them has.
    have hrename := rename_eq_ok (htarget.trans hplace) (h.waits w List.mem_cons_self)
    refine .inr ⟨rfl, _, hrename, ?_⟩
    have hother : place ∉ all.map (·.staged.place) := hapart w hw place hplace
    have hdir : tree.isDirectory place = false := (target?_eq_some.mp hplace).2
    have hgiven := isGiven_of_isDirectory_eq_false hdir
    have hfrom : tree.isDirectory w.staged.place = false := by
      simp [isDirectory, entryAt_of_not_mem ((hall.drawn w hw).isGiven) (hall.fresh w hw)]
    have herased : SameDirs tree (current.erase w.staged.place) :=
      h.dirs.trans (sameDirs_erase ((h.dirs _).symm.trans hfrom))
    rw [List.map_cons, List.nodup_cons] at hnodup
    refine ⟨?_, ?_, ?_, ?_⟩
    · exact herased.trans (sameDirs_put_file ((herased place).symm.trans hdir) _)
    · rw [discard_put _ (by simpa [List.map_map, Function.comp_def] using hother),
        discard_erase (List.mem_map_of_mem hw), h.settled]
    · intro v hv
      have hvw : v.staged.place ≠ w.staged.place := fun heq =>
        hnodup.1 (heq ▸ List.mem_map_of_mem hv)
      have hstays := h.waits v (List.mem_cons_of_mem _ hv)
      have hvall : v.staged.place ∈ all.map (·.staged.place) :=
        List.mem_map_of_mem (hsub v (List.mem_cons_of_mem _ hv))
      have hvp : v.staged.place ≠ place := fun heq => hother (heq ▸ hvall)
      rw [entryAt_put hgiven, if_neg hvp, entryAt_erase ((hall.drawn w hw).isGiven), if_neg hvw]
      exact hstays
    · intro e he hmem
      have hne : e.1 ≠ place := fun heq => hother (heq ▸ hmem)
      obtain ⟨hin, hnot⟩ := mem_of_mem_put_erase he hne
      exact (List.mem_cons.mp (h.left e hin hmem)).resolve_left hnot

def readyIn (tree : Tree) (outputs : List Output) : List Output :=
  outputs.takeWhile fun o => (tree.target? o.path).isSome

theorem readyIn_cons_of_none {output : Output} (h : tree.target? output.path = none)
    (outputs : List Output) : readyIn tree (output :: outputs) = [] :=
  List.takeWhile_cons_of_neg (by simp [h])

theorem readyIn_cons_of_some {output : Output} (h : (tree.target? output.path).isSome = true)
    (outputs : List Output) : readyIn tree (output :: outputs) = output :: readyIn tree outputs :=
  List.takeWhile_cons_of_pos h

theorem renameAll_cases (hall : Waiting names tree all) (hapart : Apart tree all)
    (hsub : ∀ v ∈ rest, v ∈ all) (hnodup : (rest.map (·.staged.place)).Nodup)
    (h : Underway tree all rest base current) :
    ∃ after result, renameAll current (rest.map (·.staged)) = (after, result) ∧
      after.discard (all.map (·.staged)) = settle tree base (readyIn tree (rest.map (·.output))) ∧
      ((result = .ok () ∧ readyIn tree (rest.map (·.output)) = rest.map (·.output) ∧
        after.discard (all.map (·.staged)) = after) ∨
      ((∃ fault, result = .error fault) ∧
        readyIn tree (rest.map (·.output)) ≠ rest.map (·.output))) := by
  induction rest generalizing base current with
  | nil =>
    -- With nothing left to rename there is nothing left to take away.
    refine ⟨current, .ok (), rfl, h.settled, .inl ⟨rfl, rfl, ?_⟩⟩
    have hnone : ∀ e ∈ current.entries, e.1 ∉ all.map (·.staged.place) := fun e he hmem =>
      List.not_mem_nil (h.left e he hmem)
    have hsame : (current.discard (all.map (·.staged))).entries = current.entries := by
      rw [entries_discard, List.map_map]
      exact List.filter_eq_self.mpr fun e he => by simpa using hnone e he
    exact congrArg Tree.mk hsame
  | cons w rest ih =>
    rw [List.map_cons, List.map_cons]
    unfold renameAll
    rcases rename_cases hall hapart hsub hnodup h with
      ⟨hnone, fault, hrename⟩ | ⟨hsome, next, hrename, hnext⟩
    · rw [hrename, readyIn_cons_of_none hnone]
      exact ⟨current, _, rfl, h.settled, .inr ⟨⟨_, rfl⟩, by simp⟩⟩
    · rw [hrename, readyIn_cons_of_some hsome]
      rw [List.map_cons, List.nodup_cons] at hnodup
      obtain ⟨after, result, hrun, hafter, hresult⟩ :=
        ih (fun v hv => hsub v (List.mem_cons_of_mem _ hv)) hnodup.2 hnext
      refine ⟨after, result, hrun, hafter, ?_⟩
      rcases hresult with ⟨hok, hready, hsame⟩ | ⟨herror, hready⟩
      · exact .inl ⟨hok, congrArg _ hready, hsame⟩
      · exact .inr ⟨herror, fun heq => hready (List.cons.inj heq).2⟩

end

theorem apart_of_avoids {outputs : List Output} {all : List Wait} (hall : Waiting names tree all)
    (houtputs : all.map (·.output) = outputs)
    (havoids : names.Avoids (outputs.filterMap fun o => tree.target? o.path)) : Apart tree all := by
  intro w hw place hplace hmem
  obtain ⟨v, hv, rfl⟩ := List.mem_map.mp hmem
  have houtput : w.output ∈ outputs := houtputs ▸ List.mem_map_of_mem hw
  exact havoids _ (hall.drawn v hv) (List.mem_filterMap.mpr ⟨w.output, houtput, hplace⟩)

/-- Replacing fails and changes nothing where an output cannot be staged. Else the outputs are put in
place from the last one on, up to the first that cannot be, and it fails exactly if there is one. -/
theorem replace_cases {outputs : List Output}
    (havoids : names.Avoids (outputs.filterMap fun o => tree.target? o.path)) :
    (∃ fault, stageAll names tree [] outputs = (tree, .error fault) ∧
      tree.replace names outputs = (tree, .error fault)) ∨
    ∃ after staged result, stageAll names tree [] outputs = (after, .ok staged) ∧
      tree.replace names outputs = (settle tree tree (readyIn tree outputs.reverse), result) ∧
      ((result = .ok () ∧ readyIn tree outputs.reverse = outputs.reverse) ∨
        ((∃ fault, result = .error fault) ∧ readyIn tree outputs.reverse ≠ outputs.reverse)) := by
  have hstart : tree.withWaiting [] = tree := by simp [withWaiting, waiting]
  have hnone : Waiting names tree [] := ⟨by simp, by simp, by simp, .nil⟩
  have hcases := stageAll_cases hnone outputs
  rw [hstart, List.map_nil] at hcases
  unfold replace
  rcases hcases with ⟨fault, hstage⟩ | ⟨all, hstage, houtputs, hall⟩
  · rw [hstage]
    exact .inl ⟨fault, rfl, rfl⟩
  · rw [hstage]
    dsimp only
    rw [List.map_nil, List.nil_append] at houtputs
    -- renaming starts with every output waiting and goes from the last one to the first
    have hunderway : Underway tree all all.reverse tree (tree.withWaiting all) := by
      refine ⟨sameDirs_withWaiting tree all, discard_withWaiting hall, ?_, ?_⟩
      · intro w hw
        exact entryAt_withWaiting hall (List.mem_reverse.mp hw)
      · intro e he hmem
        simpa using hmem
    have hrun := renameAll_cases hall (apart_of_avoids hall houtputs havoids)
      (fun v hv => List.mem_reverse.mp hv)
      (by rw [List.map_reverse]; exact (List.reverse_perm _).nodup_iff.mpr hall.distinct) hunderway
    rw [List.map_reverse, List.map_reverse, houtputs] at hrun
    obtain ⟨after, result, hrename, hafter, hresult⟩ := hrun
    refine .inr ⟨_, _, result, rfl, ?_, ?_⟩
    · rw [hrename]
      rcases hresult with ⟨rfl, -, hsame⟩ | ⟨⟨fault, rfl⟩, -⟩
      · rw [← hafter, hsame]
      · rw [← hafter]
    · exact hresult.imp (fun h => ⟨h.1, h.2.1⟩) id

end CodecGen.Files.Tree
