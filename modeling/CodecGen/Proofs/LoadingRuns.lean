import CodecGen.Load
set_option autoImplicit false
/-!
Runs of loading. A run that was given too little depth has no result; any greater depth gives the result
that a smaller one gives. The equations for the steps of loading are stated here once, so that nothing
else has to open them.
-/
namespace CodecGen.Load
open Files Markup Schema
open Resolve (resolve)

section
variable {α β : Type} {x y z : Loading α} {p q : Progress}

theorem run_bind (f : α → Loading β) :
    (x >>= f).run p = (x.run p).bind fun r => ExceptT.bindCont f r.1 r.2 := rfl

theorem run_bind_ok {a : α} (f : α → Loading β) (h : x.run p = some (.ok a, q)) :
    (x >>= f).run p = (f a).run q := by
  rw [run_bind, h]
  rfl

theorem run_bind_error {e : Failure} (f : α → Loading β) (h : x.run p = some (.error e, q)) :
    (x >>= f).run p = some (.error e, q) := by
  rw [run_bind, h]
  rfl

theorem run_bind_none (f : α → Loading β) (h : x.run p = none) : (x >>= f).run p = none := by
  rw [run_bind, h]
  rfl

theorem run_get (p : Progress) : (get : Loading Progress).run p = some (.ok p, p) := rfl

theorem run_bind_eq_some {f : α → Loading β} {r : Except Failure β × Progress}
    (h : (x >>= f).run p = some r) :
    (∃ e q, x.run p = some (.error e, q) ∧ r = (.error e, q)) ∨
      ∃ a q, x.run p = some (.ok a, q) ∧ (f a).run q = some r := by
  rcases hx : x.run p with _ | ⟨e | a, q⟩
  · rw [run_bind_none f hx] at h
    cases h
  · rw [run_bind_error f hx] at h
    exact .inl ⟨e, q, rfl, (Option.some.inj h).symm⟩
  · rw [run_bind_ok f hx] at h
    exact .inr ⟨a, q, rfl, h⟩

theorem run_bind_eq_ok {f : α → Loading β} {b : β} (h : (x >>= f).run p = some (.ok b, q)) :
    ∃ a now, x.run p = some (.ok a, now) ∧ (f a).run now = some (.ok b, q) := by
  rcases run_bind_eq_some h with ⟨e, now, -, heq⟩ | hok
  · cases (Prod.mk.inj heq).1
  · exact hok

theorem run_bind_eq_error {f : α → Loading β} {e : Failure}
    (h : (x >>= f).run p = some (.error e, q)) :
    x.run p = some (.error e, q) ∨
      ∃ a now, x.run p = some (.ok a, now) ∧ (f a).run now = some (.error e, q) := by
  rcases run_bind_eq_some h with ⟨e', now, hx, heq⟩ | hok
  · cases heq
    exact .inl hx
  · exact .inr hok

theorem run_bind_eq_none_iff (f : α → Loading β) :
    (x >>= f).run p = none ↔
      x.run p = none ∨ ∃ a q, x.run p = some (.ok a, q) ∧ (f a).run q = none := by
  rcases h : x.run p with _ | ⟨e | a, q⟩
  · simp [run_bind_none f h]
  · simp [run_bind_error f h]
  · rw [run_bind_ok f h]
    constructor
    · exact fun hf => .inr ⟨a, q, rfl, hf⟩
    · rintro (hx | ⟨_, _, heq, hf⟩)
      · cases hx
      · cases heq
        exact hf

/-- Every result of the first is the result of the second. -/
def Extends (x y : Loading α) : Prop := ∀ p r, x.run p = some r → y.run p = some r

theorem Extends.refl (x : Loading α) : Extends x x := fun _ _ h => h

theorem Extends.trans (h : Extends x y) (h' : Extends y z) : Extends x z :=
  fun p r hx => h' p r (h p r hx)

theorem Extends.bind {f g : α → Loading β} (h : Extends x y) (hf : ∀ a, Extends (f a) (g a)) :
    Extends (x >>= f) (y >>= g) := by
  intro p r hr
  rcases run_bind_eq_some hr with ⟨e, q, hx, rfl⟩ | ⟨a, q, hx, hfa⟩
  · exact run_bind_error g (h p _ hx)
  · rw [run_bind_ok g (h p _ hx)]
    exact hf a q r hfa

end

section
variable {tree : Tree} {options : Options}

def entering (now : Progress) (file : Opened) (node : Element) (path : String) : Progress :=
  { now with log := now.log ++ [.loadingImport file.header node.text path] }

def finishing (now : Progress) (file : Opened) : Progress :=
  { now with
    warnings := now.warnings ++ (resolve now.set file.root).warnings.map (FileWarning.mk file.path file.src)
    log := now.log ++ (resolve now.set file.root).log file.path }

def finished (now : Progress) (file : Opened) (m : Module) : Progress :=
  { finishing now file with set := now.set.add m }

/-- What seeing to an import comes to: it is refused, passed over or not found, or the file found for
it is entered. -/
theorem run_loadImport (enter : String → Loading Module) (file : Opened) (node : Element)
    (p : Progress) :
    (loadImport tree options enter file node).run p =
      if file.active.contains node.text then
        some (.error (file.failure (.importCycle (file.active ++ [node.text])) node), p)
      else if (p.set.get? node.text).isSome then some (.ok (), p)
      else match findImport? tree options file.path node.text with
        | none => some
          (.error (file.failure (.importNotFound node.text (searchDirs options file.path)) node), p)
        | some path => (enter path >>= fun _ => pure ()).run (entering p file node path) := by
  by_cases hactive : file.active.contains node.text = true
  · simp only [loadImport, hactive, ↓reduceIte]
    rfl
  · simp only [loadImport, hactive, Bool.false_eq_true, ↓reduceIte]
    rw [run_bind_ok _ (run_get p)]
    split
    · rfl
    · cases findImport? tree options file.path node.text <;> rfl

theorem run_finishFile (file : Opened) (p : Progress) :
    (finishFile file).run p = match (resolve p.set file.root).module? with
      | none => some
        (.error (.unresolved file.path file.src (resolve p.set file.root).errors), finishing p file)
      | some m => some (.ok m, finished p file m) := by
  have hmodify : ∀ f, (modify f : Loading Unit).run p = some (.ok (), f p) := fun _ => rfl
  rw [finishFile, run_bind_ok _ (run_get p), run_bind_ok _ (hmodify _)]
  cases (resolve p.set file.root).module? <;> rfl

theorem run_loadWithin_succ (depth : Nat) (active : List String) (path : String) (p : Progress) :
    (loadWithin tree options (depth + 1) active path).run p =
      match openFile tree active path with
      | .error e => some (.error e, p)
      | .ok file =>
        (loadImports tree options (loadWithin tree options depth file.active) file
          (file.root.elements "import") >>= fun _ => finishFile file).run p := by
  rw [loadWithin]
  cases openFile tree active path <;> rfl

theorem loadImports_append (enter : String → Loading Module) (file : Opened)
    (seen rest : List Element) :
    loadImports tree options enter file (seen ++ rest) =
      loadImports tree options enter file seen >>= fun _ =>
        loadImports tree options enter file rest := by
  induction seen with
  | nil => rfl
  | cons node seen ih => simp only [List.cons_append, loadImports, ih, bind_assoc]

theorem loadImport_extends {enter enter' : String → Loading Module}
    (h : ∀ path, Extends (enter path) (enter' path)) (file : Opened) (node : Element) :
    Extends (loadImport tree options enter file node) (loadImport tree options enter' file node) := by
  intro p r hr
  rw [run_loadImport] at hr ⊢
  split
  · next hactive => rwa [if_pos hactive] at hr
  · next hactive =>
    rw [if_neg hactive] at hr
    split
    · next hthere => rwa [if_pos hthere] at hr
    · next hthere =>
      rw [if_neg hthere] at hr
      cases hfound : findImport? tree options file.path node.text with
      | none =>
        simp only [hfound] at hr
        exact hr
      | some path =>
        rw [hfound] at hr
        exact (h path).bind (fun _ => .refl _) _ r hr

theorem loadImports_extends {enter enter' : String → Loading Module}
    (h : ∀ path, Extends (enter path) (enter' path)) (file : Opened) (nodes : List Element) :
    Extends (loadImports tree options enter file nodes)
      (loadImports tree options enter' file nodes) := by
  induction nodes with
  | nil => exact .refl _
  | cons node rest ih => exact (loadImport_extends h file node).bind fun _ => ih

theorem loadWithin_extends_succ (depth : Nat) (active : List String) (path : String) :
    Extends (loadWithin tree options depth active path)
      (loadWithin tree options (depth + 1) active path) := by
  induction depth generalizing active path with
  | zero =>
    intro p r hr
    cases hr
  | succ depth ih =>
    intro p r hr
    rw [run_loadWithin_succ] at hr ⊢
    cases hopen : openFile tree active path with
    | error e =>
      simp only [hopen] at hr
      exact hr
    | ok file =>
      rw [hopen] at hr
      exact (loadImports_extends (ih file.active) file _).bind (fun _ => .refl _) p r hr

theorem loadWithin_extends {depth more : Nat} (h : depth ≤ more) (active : List String)
    (path : String) :
    Extends (loadWithin tree options depth active path) (loadWithin tree options more active path) := by
  induction h with
  | refl => exact .refl _
  | step _ ih => exact ih.trans (loadWithin_extends_succ _ active path)

end

/-- What loading keeps of its progress, if the steps keep it that change the progress. -/
structure Kept (I : Progress → Prop) : Prop where
  log : ∀ {p} log, I p → I { p with log }
  finishing : ∀ {p} file, I p → I (finishing p file)
  finished : ∀ {p} file m, I p → I (finished p file m)

section
variable {tree : Tree} {options : Options} {I : Progress → Prop} {p q : Progress}

theorem Kept.finishFile (h : Kept I) {file : Opened} {r : Except Failure Module}
    (hrun : (finishFile file).run p = some (r, q)) (hp : I p) : I q := by
  rw [run_finishFile] at hrun
  split at hrun
  · cases hrun
    exact h.finishing file hp
  · next m _ =>
    cases hrun
    exact h.finished file m hp

theorem Kept.loadImport (h : Kept I) {enter : String → Loading Module} {file : Opened} {node : Element}
    (henter : ∀ {path p r q}, (enter path).run p = some (r, q) → I p → I q)
    {r : Except Failure Unit} (hrun : (loadImport tree options enter file node).run p = some (r, q))
    (hp : I p) : I q := by
  rw [run_loadImport] at hrun
  split at hrun
  · cases hrun
    exact hp
  · split at hrun
    · cases hrun
      exact hp
    · split at hrun
      · cases hrun
        exact hp
      · rcases run_bind_eq_some hrun with ⟨e, now, hinner, heq⟩ | ⟨m, now, hinner, heq⟩
        · cases heq
          exact henter hinner (h.log _ hp)
        · cases heq
          exact henter hinner (h.log _ hp)

theorem Kept.loadImports (h : Kept I) {enter : String → Loading Module} {file : Opened}
    (henter : ∀ {path p r q}, (enter path).run p = some (r, q) → I p → I q)
    {nodes : List Element} {r : Except Failure Unit}
    (hrun : (loadImports tree options enter file nodes).run p = some (r, q)) (hp : I p) : I q := by
  induction nodes generalizing p with
  | nil =>
    cases hrun
    exact hp
  | cons node rest ih =>
    rcases run_bind_eq_some hrun with ⟨e, now, hfirst, heq⟩ | ⟨_, now, hfirst, hrest⟩
    · cases heq
      exact h.loadImport henter hfirst hp
    · exact ih hrest (h.loadImport henter hfirst hp)

theorem Kept.loadWithin (h : Kept I) {depth : Nat} {active : List String} {path : String}
    {r : Except Failure Module}
    (hrun : (loadWithin tree options depth active path).run p = some (r, q)) (hp : I p) : I q := by
  induction depth generalizing active path p r q with
  | zero => cases hrun
  | succ depth ih =>
    rw [run_loadWithin_succ] at hrun
    split at hrun
    · cases hrun
      exact hp
    · next file _ =>
      rcases run_bind_eq_some hrun with ⟨e, now, himports, heq⟩ | ⟨_, now, himports, hfinish⟩
      · cases heq
        exact h.loadImports ih himports hp
      · exact h.finishFile hfinish (h.loadImports ih himports hp)

theorem kept_unrolling (unrolling : Nat) : Kept fun p => p.set.unrolling = unrolling :=
  ⟨fun _ h => h, fun _ h => h, fun _ _ h => h⟩

end

section
variable {depth : Nat} {tree : Tree} {options : Options} {known : ModuleSet} {path : String}
  {log : List LogEvent}

theorem load_eq_none_iff :
    load depth tree options known path = none ↔
      (loadWithin tree options depth [] path).run { set := initialSet options known } = none :=
  Option.map_eq_none_iff

theorem load_eq_ok_iff {r : Loaded} :
    load depth tree options known path = some (.ok r, log) ↔
      (loadWithin tree options depth [] path).run { set := initialSet options known } =
        some (.ok r.module, { set := r.set, warnings := r.warnings, log }) := by
  unfold load
  rw [Option.map_eq_some_iff]
  constructor
  · rintro ⟨⟨_ | m, q⟩, hrun, heq⟩
    · cases heq
    · cases heq
      exact hrun
  · exact fun hrun => ⟨_, hrun, rfl⟩

theorem load_eq_error_iff {e : Failure} :
    load depth tree options known path = some (.error e, log) ↔
      ∃ q, (loadWithin tree options depth [] path).run { set := initialSet options known } =
        some (.error e, q) ∧ q.log = log := by
  unfold load
  rw [Option.map_eq_some_iff]
  constructor
  · rintro ⟨⟨_ | m, q⟩, hrun, heq⟩
    · cases heq
      exact ⟨q, hrun, rfl⟩
    · cases heq
  · rintro ⟨q, hrun, rfl⟩
    exact ⟨_, hrun, rfl⟩

end

end CodecGen.Load
