import CodecGen.Proofs.FileTree
set_option autoImplicit false
/-!
Staging outputs. It adds temporary files at new places and nothing else, and when it fails they are all
taken away again.
-/
namespace CodecGen.Files

def Naming.Draws (names : Naming) (place : Location) : Prop :=
  ∃ tree around base n, names.draw tree around base = some n ∧ place = Temporary.place around base n

/-- Temporary files never come to stand at these places. -/
def Naming.Avoids (names : Naming) (places : List Location) : Prop :=
  ∀ place, names.Draws place → place ∉ places

theorem Naming.Draws.isGiven {names : Naming} {place : Location} (h : names.Draws place) :
    place.isGiven = false := by
  obtain ⟨_, around, base, n, -, rfl⟩ := h
  exact isGiven_temporary around base n

structure Wait where
  staged : Staged
  output : Output

def waiting (ws : List Wait) : List (Location × Entry) :=
  ws.map fun w => (w.staged.place, .file w.output.content)

/-- Temporary files for some outputs beside the entries of a tree, at places of their own. -/
structure Waiting (names : Naming) (tree : Tree) (ws : List Wait) : Prop where
  target : ∀ w ∈ ws, w.staged.target = w.output.path
  fresh : ∀ w ∈ ws, w.staged.place ∉ tree.entries.map (·.1)
  drawn : ∀ w ∈ ws, names.Draws w.staged.place
  distinct : (ws.map (·.staged.place)).Nodup

namespace Tree
variable {names : Naming} {tree : Tree} {ws : List Wait}

def withWaiting (tree : Tree) (ws : List Wait) : Tree := ⟨tree.entries ++ waiting ws⟩

theorem map_fst_waiting (ws : List Wait) : (waiting ws).map (·.1) = ws.map (·.staged.place) := by
  simp [waiting, List.map_map, Function.comp_def]

theorem sameDirs_withWaiting (tree : Tree) (ws : List Wait) :
    SameDirs tree (tree.withWaiting ws) := by
  intro place
  unfold isDirectory entry? withWaiting
  by_cases hgiven : place.isGiven = true
  · simp [hgiven]
  · rw [if_neg hgiven, if_neg hgiven, List.lookup_append]
    cases htree : tree.entries.lookup place with
    | some entry => rfl
    | none =>
      cases hwaiting : (waiting ws).lookup place with
      | none => rfl
      | some entry =>
        obtain ⟨before, after, hsplit, -⟩ := List.lookup_eq_some_iff.mp hwaiting
        have hmem : (place, entry) ∈ waiting ws := hsplit ▸ by simp
        obtain ⟨w, -, hw⟩ := List.mem_map.mp hmem
        obtain ⟨-, rfl⟩ := Prod.mk.inj hw
        rfl

theorem lookup_waiting (hnodup : (ws.map (·.staged.place)).Nodup) {w : Wait} (hw : w ∈ ws) :
    (waiting ws).lookup w.staged.place = some (.file w.output.content) := by
  induction ws with
  | nil => cases hw
  | cons v rest ih =>
    rw [List.map_cons, List.nodup_cons] at hnodup
    rcases List.mem_cons.mp hw with rfl | hw
    · simp [waiting]
    · have hne : w.staged.place ≠ v.staged.place := fun heq =>
        hnodup.1 (heq ▸ List.mem_map_of_mem hw)
      have hrest := ih hnodup.2 hw
      unfold waiting at hrest ⊢
      rw [List.map_cons, List.lookup_cons, beq_false_of_ne hne, hrest]

theorem entryAt_withWaiting (h : Waiting names tree ws) {w : Wait} (hw : w ∈ ws) :
    Tree.entry? (tree.withWaiting ws) w.staged.place = some (.file w.output.content) := by
  unfold entry? withWaiting
  rw [(h.drawn w hw).isGiven, List.lookup_append, lookup_eq_none_of_not_mem (h.fresh w hw),
    lookup_waiting h.distinct hw]
  rfl

theorem stage_cases (names : Naming) (tree : Tree) (output : Output) :
    (∃ fault, tree.stage names output = .error fault) ∨
    ∃ s : Staged,
      tree.stage names output = .ok (⟨tree.entries ++ [(s.place, .file output.content)]⟩, s) ∧
      s.target = output.path ∧ s.place ∉ tree.entries.map (·.1) ∧ names.Draws s.place := by
  unfold stage
  dsimp only
  split
  · exact .inl ⟨_, rfl⟩
  · split
    · exact .inl ⟨_, rfl⟩
    · next around _ =>
      cases hdraw : names.draw tree around (Path.base output.path) with
      | none => exact .inl ⟨_, rfl⟩
      | some n =>
        have hdrawn : names.Draws (Temporary.place around (Path.base output.path) n) :=
          ⟨tree, around, _, n, hdraw, rfl⟩
        have hnew := not_mem_of_entryAt hdrawn.isGiven (names.fresh hdraw)
        have hput := put_of_not_mem hnew (.file output.content)
        exact .inr ⟨_, congrArg (fun t => Except.ok (t, _)) hput, rfl, hnew, hdrawn⟩

theorem entries_discard (tree : Tree) (staged : List Staged) :
    (tree.discard staged).entries =
      tree.entries.filter fun e => !(staged.map (·.place)).contains e.1 := by
  induction staged generalizing tree with
  | nil => exact (List.filter_eq_self.mpr (by simp)).symm
  | cons s rest ih =>
    change (discard (tree.erase s.place) rest).entries = _
    rw [ih, erase, List.filter_filter]
    congr 1
    funext e
    rw [List.map_cons, List.contains_cons, Bool.not_or, Bool.and_comm]
    rfl

theorem discard_withWaiting (h : Waiting names tree ws) :
    (tree.withWaiting ws).discard (ws.map (·.staged)) = tree := by
  have hentries := entries_discard (tree.withWaiting ws) (ws.map (·.staged))
  have hplaces : (ws.map (·.staged)).map (·.place) = ws.map (·.staged.place) := by
    simp [List.map_map, Function.comp_def]
  have hkept : tree.entries.filter (fun e => !(ws.map (·.staged.place)).contains e.1) =
      tree.entries := by
    refine List.filter_eq_self.mpr fun e he => ?_
    have hnot : e.1 ∉ ws.map (·.staged.place) := by
      intro hmem
      obtain ⟨w, hw, heq⟩ := List.mem_map.mp hmem
      exact h.fresh w hw (heq ▸ List.mem_map_of_mem he)
    simpa using hnot
  have hgone : (waiting ws).filter (fun e => !(ws.map (·.staged.place)).contains e.1) = [] := by
    refine List.filter_eq_nil_iff.mpr fun e he => ?_
    have hmem : e.1 ∈ ws.map (·.staged.place) := map_fst_waiting ws ▸ List.mem_map_of_mem he
    simpa using hmem
  rw [hplaces] at hentries
  change _ = (tree.entries ++ waiting ws).filter _ at hentries
  rw [List.filter_append, hkept, hgone, List.append_nil] at hentries
  cases hdiscarded : (tree.withWaiting ws).discard (ws.map (·.staged)) with
  | mk entries =>
    rw [hdiscarded] at hentries
    exact congrArg Tree.mk hentries

theorem waiting_add (h : Waiting names tree ws) {s : Staged} {output : Output}
    (htarget : s.target = output.path)
    (hfresh : s.place ∉ (tree.withWaiting ws).entries.map (·.1)) (hdrawn : names.Draws s.place) :
    Waiting names tree (ws ++ [⟨s, output⟩]) := by
  have hnew : s.place ∉ tree.entries.map (·.1) ∧ s.place ∉ ws.map (·.staged.place) := by
    rw [← map_fst_waiting, ← not_or, ← List.mem_append, ← List.map_append]
    exact hfresh
  refine ⟨?_, ?_, ?_, ?_⟩
  · exact List.forall_mem_append.mpr ⟨h.target, by simpa using htarget⟩
  · exact List.forall_mem_append.mpr ⟨h.fresh, by simpa using hnew.1⟩
  · exact List.forall_mem_append.mpr ⟨h.drawn, by simpa using hdrawn⟩
  · rw [List.map_append, List.nodup_append]
    refine ⟨h.distinct, by simp, ?_⟩
    intro a ha b hb heq
    obtain rfl : b = s.place := by simpa using hb
    exact hnew.2 (heq ▸ ha)

/-- Where one output cannot be staged, nothing is left of the others; else every output waits. -/
theorem stageAll_cases (h : Waiting names tree ws) (outputs : List Output) :
    (∃ fault,
      stageAll names (tree.withWaiting ws) (ws.map (·.staged)) outputs = (tree, .error fault)) ∨
    ∃ all : List Wait,
      stageAll names (tree.withWaiting ws) (ws.map (·.staged)) outputs =
        (tree.withWaiting all, .ok (all.map (·.staged))) ∧
      all.map (·.output) = ws.map (·.output) ++ outputs ∧ Waiting names tree all := by
  induction outputs generalizing ws with
  | nil => exact .inr ⟨ws, rfl, by simp, h⟩
  | cons output rest ih =>
    unfold stageAll
    rcases stage_cases names (tree.withWaiting ws) output with
      ⟨fault, hstage⟩ | ⟨s, hstage, htarget, hfresh, hdrawn⟩
    · rw [hstage]
      exact .inl ⟨fault, by rw [discard_withWaiting h]⟩
    · rw [hstage]
      have hnext : (⟨(tree.withWaiting ws).entries ++ [(s.place, .file output.content)]⟩ : Tree) =
          tree.withWaiting (ws ++ [⟨s, output⟩]) := by
        simp [withWaiting, waiting]
      have hstaged : ws.map (·.staged) ++ [s] = (ws ++ [Wait.mk s output]).map (·.staged) := by simp
      dsimp only
      rw [hnext, hstaged]
      rcases ih (waiting_add h htarget hfresh hdrawn) with hrun | ⟨all, hrun, hout, hw⟩
      · exact .inl hrun
      · exact .inr ⟨all, hrun, by simpa using hout, hw⟩

end Tree
end CodecGen.Files
