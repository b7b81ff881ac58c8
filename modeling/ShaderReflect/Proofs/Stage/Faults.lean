import ShaderReflect.Proofs.Stage.Reachability

/-!
# Why what an entry point reaches cannot be found

An analysis looks up functions that are called, variables that they touch and variables that the
interface lists. A lookup can fail in each of the three, but in the graph of a binary only those of
the interface do (`analyze_eq_error_iff`): calls lead to functions with bodies, and what these touch
are variables, by the checks that make a graph.

A search that cannot take a step although something is on its worklist is stuck on a fault
(`Search.Stuck`). It is stuck exactly if it takes no step (`Search.stuck_iff`), and no search that a
step can lead to from an entry point ever is (`Searched.not_stuck`).

Specification, 4.4. The graph is that of a binary and the entry point one of its own; for other
graphs each of the three look-ups can fail. The interface is looked up last, from the front, and
again if an ID is listed twice.
-/

namespace ShaderReflect

/-- A run that keeps items has tested each of them. -/
theorem exists_of_filterM_eq_ok {ε α : Type} {f : α → Except ε Bool} {xs ys : List α}
    (h : xs.filterM f = .ok ys) : ∀ x ∈ xs, ∃ b, f x = .ok b := by
  have haux : ∀ acc zs, xs.filterAuxM f acc = .ok zs → ∀ x ∈ xs, ∃ b, f x = .ok b := by
    clear h
    induction xs with
    | nil => simp
    | cons x xs ih =>
      intro acc zs h
      obtain ⟨b, hb, h⟩ := bind_eq_ok_iff.mp h
      exact List.forall_mem_cons.mpr ⟨⟨b, hb⟩, ih _ zs h⟩
  obtain ⟨zs, hzs, -⟩ := bind_eq_ok_iff.mp h
  exact haux [] zs hzs

namespace Reach

variable {g : Graph} {e : EntryPointDecl} {f id : Ident} {ids : List Ident} {fault : Fault}

/-! ## Undeclared variables -/

/-- The first ID of a list that is no variable, named by the fault. -/
def FirstUndeclared (g : Graph) (ids : List Ident) (fault : Fault) : Prop :=
  ∃ before id after, ids = before ++ id :: after ∧ (∀ x ∈ before, x ∈ g.globals.keys) ∧
    id ∉ g.globals.keys ∧ fault = .corrupted (.variableUndeclared id)

theorem globalVar_eq_error_iff : g.globalVar id = .error fault ↔
    id ∉ g.globals.keys ∧ fault = .corrupted (.variableUndeclared id) := by
  unfold Graph.globalVar
  rw [Table.mem_keys_iff, Table.contains]
  cases g.globals.get? id with
  | none => simp [eq_comm]
  | some v => simp

/-- A list holds an ID that is no variable exactly if one of them is the first. -/
theorem exists_firstUndeclared_iff :
    (∃ fault, FirstUndeclared g ids fault) ↔ ∃ id ∈ ids, id ∉ g.globals.keys := by
  constructor
  · rintro ⟨-, before, id, after, rfl, -, hid, -⟩
    exact ⟨id, List.mem_append_right _ List.mem_cons_self, hid⟩
  · intro h
    induction ids with
    | nil => simp at h
    | cons x xs ih =>
      by_cases hx : x ∈ g.globals.keys
      · have hxs : ∃ id ∈ xs, id ∉ g.globals.keys := by
          obtain ⟨id, hid, hkey⟩ := h
          rcases List.mem_cons.mp hid with rfl | hid
          · exact absurd hx hkey
          · exact ⟨id, hid, hkey⟩
        obtain ⟨fault, before, id, after, rfl, hbefore, hid, hfault⟩ := ih hxs
        exact ⟨fault, x :: before, id, after, rfl, List.forall_mem_cons.mpr ⟨hx, hbefore⟩, hid,
          hfault⟩
      · exact ⟨_, [], x, xs, rfl, nofun, hx, rfl⟩

/-! ## The interface -/

theorem addInterface_eq_error_iff {found : List Ident} : addInterface g found id = .error fault ↔
    id ∉ g.globals.keys ∧ fault = .corrupted (.variableUndeclared id) := by
  rw [← globalVar_eq_error_iff]
  unfold addInterface
  cases g.globalVar id with
  | ok v => simp
  | error other => simp

/-- **An interface fails on its first ID that is no variable.** -/
theorem interfaceOf_eq_error_iff :
    interfaceOf g ids = .error fault ↔ FirstUndeclared g ids fault := by
  unfold interfaceOf FirstUndeclared
  rw [foldlM_eq_error_iff]
  simp only [addInterface_eq_error_iff]
  constructor
  · rintro ⟨before, id, after, found, rfl, hfound, hid⟩
    exact ⟨before, id, after, rfl, (interfaceOf_eq_ok_iff.mp hfound).1, hid⟩
  · rintro ⟨before, id, after, rfl, hbefore, hid⟩
    exact ⟨before, id, after, _, rfl, interfaceOf_eq_ok_iff.mpr ⟨hbefore, rfl⟩, hid⟩

/-! ## Searches that are stuck -/

namespace Search

/-- The function that the search takes next has no body, or a variable that it touches is none. -/
inductive Stuck (g : Graph) : Search → Fault → Prop
  | undefined {f : Ident} {worklist : List Ident} {reached resources : IdSet} (hf : f ∉ reached)
      (hbody : g.functions.get? f = none) :
      Stuck g ⟨f :: worklist, reached, resources⟩ (.corrupted (.functionUndefined f))
  | undeclared {f v : Ident} {worklist : List Ident} {reached resources : IdSet}
      {body : FunctionBody} {fault : Fault} (hf : f ∉ reached)
      (hbody : g.functions.get? f = some body) (hv : v ∈ body.accessed)
      (hfault : g.globalVar v = .error fault) :
      Stuck g ⟨f :: worklist, reached, resources⟩ fault

variable {s s' : Search}

theorem exists_resourcesAmong_iff :
    (∃ found, resourcesAmong g ids = .ok found) ↔ ∀ id ∈ ids, id ∈ g.globals.keys := by
  constructor
  · rintro ⟨found, h⟩ id hid
    obtain ⟨b, hb⟩ := exists_of_filterM_eq_ok h id hid
    obtain ⟨v, hv, -⟩ := bind_eq_ok_iff.mp hb
    exact Table.mem_keys_of_get? (Graph.globalVar_eq_ok_iff.mp hv)
  · exact fun h => ⟨_, resourcesAmong_eq_ok h⟩

/-- **A search is stuck exactly if it takes no step** although something is on its worklist. -/
theorem stuck_iff : (∃ fault, Stuck g s fault) ↔ s.worklist ≠ [] ∧ ∀ s', ¬Step g s s' := by
  constructor
  · rintro ⟨fault, hstuck⟩
    cases hstuck with
    | undefined hf hbody =>
      refine ⟨List.cons_ne_nil _ _, fun s' hstep => ?_⟩
      cases hstep with
      | skip hreached => exact hf hreached
      | visit _ hbody' =>
        rw [hbody] at hbody'
        cases hbody'
    | @undeclared f v worklist reached resources body fault hf hbody hv hfault =>
      refine ⟨List.cons_ne_nil _ _, fun s' hstep => ?_⟩
      cases hstep with
      | skip hreached => exact hf hreached
      | visit _ hbody' _ haccessed hfound =>
        rw [hbody] at hbody'
        cases hbody'
        have hkeys := exists_resourcesAmong_iff.mp ⟨_, hfound⟩
        exact (globalVar_eq_error_iff.mp hfault).1 (hkeys v (haccessed.mem_iff.mpr hv))
  · obtain ⟨worklist, reached, resources⟩ := s
    rintro ⟨hne, hnone⟩
    cases worklist with
    | nil => exact absurd rfl hne
    | cons f worklist =>
      have hf : f ∉ reached := fun hf => hnone _ (.skip hf)
      cases hbody : g.functions.get? f with
      | none => exact ⟨_, .undefined hf hbody⟩
      | some body =>
        by_cases hkeys : ∀ v ∈ body.accessed.ids, v ∈ g.globals.keys
        · exact absurd (.visit hf hbody .rfl .rfl (resourcesAmong_eq_ok hkeys)) (hnone _)
        · simp only [not_forall] at hkeys
          obtain ⟨v, hv, hkey⟩ := hkeys
          exact ⟨_, .undeclared hf hbody hv (globalVar_eq_error_iff.mpr ⟨hkey, rfl⟩)⟩

/-- **No search of an entry point is stuck.** -/
theorem Searched.not_stuck (hg : g.Closed) {root : Ident} (hroot : root ∈ g.functions.keys)
    (h : Searched g root s) (fault : Fault) : ¬Stuck g s fault := by
  intro hstuck
  obtain ⟨hne, hnone⟩ := stuck_iff.mp ⟨fault, hstuck⟩
  obtain ⟨s', hstep⟩ := h.exists_step hg hroot hne
  exact hnone s' hstep

end Search

/-! ## The analysis -/

/-- In a closed graph, an analysis fails as the interface does. -/
theorem analyze_eq_error_iff_of_closed (hg : g.Closed) (he : e.function ∈ g.functions.keys)
    (all : Bool) : analyze g e all = .error fault ↔ FirstUndeclared g e.interface fault := by
  obtain ⟨functions, resources, -, -, heq⟩ := exists_analyze_eq hg he all
  rw [heq, ← interfaceOf_eq_error_iff]
  cases interfaceOf g e.interface with
  | ok interface => simp
  | error other => simp

/-- **An analysis fails on undeclared interface IDs only.** Whether or not an entry point of the
graph of a binary is taken to reach everything, its analysis fails exactly if its interface lists an
ID that is no variable, and the fault names the first such ID. Functions to which calls lead have
bodies, and the variables that they touch are declared: so none of these lookups fails, and no
search for what is reached is stuck, in whatever order it visits functions and variables. -/
theorem analyze_eq_error_iff {words : List Word} (h : Graph.ofWords words = .ok g)
    (he : e ∈ g.annotations.entryPoints) :
    (∀ all fault, analyze g e all = .error fault ↔ FirstUndeclared g e.interface fault) ∧
    (∀ all, (∃ fault, analyze g e all = .error fault) ↔
      ∃ id ∈ e.interface, id ∉ g.globals.keys) ∧
    (∀ f, Leads g e.function f → ∃ body, g.functions.get? f = some body ∧
      ∀ v ∈ body.accessed, ∃ decl, g.globalVar v = .ok decl) ∧
    (∀ f ∈ functionsFrom g e.function, ∃ found, resourcesOf g f = .ok found) ∧
    ∀ n s, Search.Steps g (.start e.function) n s → ∀ fault, ¬Search.Stuck g s fault := by
  have hg : g.Closed := Graph.closed_of_ofWords h
  have hfunction : e.function ∈ g.functions.keys := hg.entryPoints e he
  have hfails : ∀ all fault, analyze g e all = .error fault ↔ FirstUndeclared g e.interface fault :=
    fun all fault => analyze_eq_error_iff_of_closed hg hfunction all
  refine ⟨hfails, fun all => ?_, fun f hleads => ?_, fun f hf => ?_, fun n s hsteps => ?_⟩
  · simp only [hfails, exists_firstUndeclared_iff]
  · have hkey : f ∈ g.functions.keys := hleads.mem_keys hg hfunction
    obtain ⟨body, hbody⟩ := Option.isSome_iff_exists.mp (Table.mem_keys_iff.mp hkey)
    refine ⟨body, hbody, fun v hv => ?_⟩
    have hvar : v ∈ g.globals.keys := hg.accessed f body hbody v hv
    obtain ⟨decl, hdecl⟩ := Option.isSome_iff_exists.mp (Table.mem_keys_iff.mp hvar)
    exact ⟨decl, Graph.globalVar_eq_ok_iff.mpr hdecl⟩
  · obtain ⟨found, hfound, -⟩ :=
      resourcesOf_eq_ok hg (mem_keys_of_mem_functionsFrom hg hfunction f hf)
    exact ⟨found, hfound⟩
  · exact (Search.searched_start.steps hg hsteps).not_stuck hg hfunction

/-- The instructions of a binary whose entry point loads the variable 5 in a function that it calls
in turn. Its interface lists the input 8, and then 14 and 15, which are no variables. -/
def undeclaredBody : List Instruction := [
  ⟨15, [4, 9, 0x6d, 8, 14, 15]⟩, ⟨19, [1]⟩, ⟨22, [2, 32]⟩, ⟨30, [3, 2]⟩, ⟨32, [4, 2, 3]⟩,
  ⟨59, [4, 5, 2]⟩, ⟨32, [7, 1, 2]⟩, ⟨59, [7, 8, 1]⟩, ⟨33, [12, 1]⟩,
  ⟨54, [1, 9, 0, 12]⟩, ⟨57, [1, 13, 10]⟩, ⟨56, []⟩,
  ⟨54, [1, 10, 0, 12]⟩, ⟨61, [3, 14, 5]⟩, ⟨57, [1, 15, 9]⟩, ⟨56, []⟩]

/-- The binary with undeclared interface IDs. -/
def undeclaredWords : List Word :=
  [magicNumber, 0x10300, 0, 20, 0] ++ undeclaredBody.flatMap Instruction.words

set_option maxRecDepth 100000 in
/-- The analysis fails on the first of the two, whether or not everything is to be reached. -/
theorem sample_analyze_eq_error : ∃ g e, Graph.ofWords undeclaredWords = .ok g ∧
    e ∈ g.annotations.entryPoints ∧ e.interface = [8, 14, 15] ∧
    (∀ all, analyze g e all = .error (.corrupted (.variableUndeclared 14))) ∧ Leads g 9 10 ∧
    ∀ n s, Search.Steps g (.start e.function) n s → ∀ fault, ¬Search.Stuck g s fault := by
  obtain ⟨g, hg, hfacts⟩ := exists_eq_ok_of_any (x := Graph.ofWords undeclaredWords)
    (p := fun g => (g.annotations.entryPoints.any fun e => e.interface = [8, 14, 15]) ∧
      8 ∈ g.globals.keys ∧ 14 ∉ g.globals.keys ∧ 10 ∈ calleesOf g.functions 9)
    (by decide +kernel)
  obtain ⟨he, h8, h14, hcalls⟩ := of_decide_eq_true hfacts
  obtain ⟨e, he, hinterface⟩ := List.any_eq_true.mp he
  have hinterface := of_decide_eq_true hinterface
  obtain ⟨hfails, -, -, -, hstuck⟩ := analyze_eq_error_iff hg he
  refine ⟨g, e, hg, he, hinterface, fun all => (hfails all _).mpr ?_,
    .single (mem_calleesOf_iff.mp hcalls), hstuck⟩
  exact ⟨[8], 14, [15], hinterface, by simpa using h8, h14, rfl⟩

end Reach

end ShaderReflect
