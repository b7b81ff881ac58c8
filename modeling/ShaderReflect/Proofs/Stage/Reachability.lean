import Mathlib.Algebra.BigOperators.Group.Finset.Basic
import Mathlib.Logic.Relation
import ShaderReflect.Proofs.Attribution

/-!
# What an entry point reaches is the closure of the calls

The functions that are reached from a function are those to which a chain of calls leads
(`mem_functionsFrom_iff`), whether or not calls are recursive; the resources that are reached are
those that these functions touch. `analyze_exact` says so of every entry point of every graph.

No order of visits has a part in this. A `Search` is a worklist on which a function may stand more
than once, and one that has been reached already is skipped; the callees of a function are put on
the worklist in any order, and the variables that it touches are looked at in any order. Every
search ends, after a number of steps that is bounded by the number of calls (`Steps.effort_le`), and
with the same functions and resources (`Searched.finished`).

Specification, 4.4 (iterative worklist over call edges). With all resources asked for, nothing is
searched, and all functions count as reached, also those that nothing calls.
-/

namespace ShaderReflect.Reach

variable {g : Graph} {e : EntryPointDecl} {f callee id v : Ident}

/-! ## Calls -/

/-- A function calls another one. -/
def Calls (g : Graph) (f callee : Ident) : Prop :=
  ∃ body, g.functions.get? f = some body ∧ callee ∈ body.callees

/-- A function touches a variable. -/
def Touches (g : Graph) (f v : Ident) : Prop :=
  ∃ body, g.functions.get? f = some body ∧ v ∈ body.accessed

/-- A chain of any number of calls leads from a function to another one. -/
def Leads (g : Graph) : Ident → Ident → Prop := Relation.ReflTransGen (Calls g)

/-- A variable is an input or an output. -/
def isInterface (g : Graph) (id : Ident) : Bool :=
  (g.globals.get? id).any (·.storage.isInterface)

theorem mem_calleesOf_iff : callee ∈ calleesOf g.functions f ↔ Calls g f callee := by
  unfold calleesOf Calls
  cases g.functions.get? f with
  | none => simp
  | some body => simp [IdSet.mem_iff]

theorem Calls.mem_keys (h : Calls g f callee) : f ∈ g.functions.keys := by
  obtain ⟨body, hbody, -⟩ := h
  exact Table.mem_keys_of_get? hbody

/-- In a closed graph, a chain of calls stays among the functions that have bodies. -/
theorem Leads.mem_keys (hg : g.Closed) (hf : f ∈ g.functions.keys) (h : Leads g f callee) :
    callee ∈ g.functions.keys := by
  induction h with
  | refl => exact hf
  | tail _ hcalls _ =>
    obtain ⟨body, hbody, hmem⟩ := hcalls
    exact hg.callees _ body hbody _ hmem

/-- What is added to reached functions is what they lead to, if the callees of those that need no
visit are reached already. -/
theorem mem_closure_iff {unvisited : List Ident} {reached : IdSet}
    (h : ∀ f, f ∉ unvisited → ∀ callee, Calls g f callee → callee ∈ reached) :
    id ∈ closure g.functions unvisited reached ↔ ∃ f ∈ reached, Leads g f id := by
  fun_induction closure g.functions unvisited reached with
  | case1 unvisited reached hfind =>
    have hvisited : ∀ f ∈ reached, f ∉ unvisited := by
      intro f hf hmem
      simpa [hf] using List.find?_eq_none.mp hfind f hmem
    constructor
    · intro hid
      exact ⟨id, hid, .refl⟩
    · rintro ⟨f, hf, hleads⟩
      induction hleads with
      | refl => exact hf
      | tail _ hcalls ih => exact h _ (hvisited _ ih) _ hcalls
  | case2 unvisited reached f hfind ih =>
    have hf : f ∈ reached := by simpa using List.find?_some hfind
    have hmore : ∀ x ∈ reached, x ∈ reached.insertAll (calleesOf g.functions f) := by
      intro x hx
      exact IdSet.mem_insertAll.mpr (Or.inr hx)
    rw [ih]
    · constructor
      · rintro ⟨x, hx, hleads⟩
        rcases IdSet.mem_insertAll.mp hx with hx | hx
        · exact ⟨f, hf, .head (mem_calleesOf_iff.mp hx) hleads⟩
        · exact ⟨x, hx, hleads⟩
      · rintro ⟨x, hx, hleads⟩
        exact ⟨x, hmore x hx, hleads⟩
    · intro x hx callee hcalls
      by_cases hxf : x = f
      · subst hxf
        exact IdSet.mem_insertAll.mpr (Or.inl (mem_calleesOf_iff.mpr hcalls))
      · have hvisited : x ∉ unvisited := fun hmem => hx ((List.mem_erase_of_ne hxf).mpr hmem)
        exact hmore callee (h x hvisited callee hcalls)

/-- **The functions that are reached from a function** are those to which a chain of calls leads. -/
theorem mem_functionsFrom_iff : id ∈ functionsFrom g f ↔ Leads g f id := by
  have hvisited : ∀ x, x ∉ g.functions.keys → ∀ callee, Calls g x callee →
      callee ∈ IdSet.empty.insert f := by
    intro x hx callee hcalls
    exact absurd hcalls.mem_keys hx
  unfold functionsFrom
  rw [mem_closure_iff hvisited]
  simp

/-! ## Resources and interface variables -/

theorem mem_globals_of_isResource (h : isResource g v = true) : v ∈ g.globals.keys := by
  rw [Table.mem_keys_iff, Table.contains]
  unfold isResource at h
  cases hget : g.globals.get? v with
  | none => simp [hget] at h
  | some var => rfl

/-- The resources that a function of a closed graph touches. -/
theorem resourcesOf_eq (hg : g.Closed) {body : FunctionBody} (h : g.functions.get? f = some body) :
    resourcesOf g f = .ok (body.accessed.ids.filter (isResource g)) := by
  unfold resourcesOf
  rw [h]
  exact resourcesAmong_eq_ok (hg.accessed f body h)

/-- The resources that functions of a closed graph touch. -/
theorem mem_resourcesOf_iff (hg : g.Closed) {fs : List Ident} {found : List (List Ident)}
    (h : fs.mapM (resourcesOf g) = .ok found) :
    v ∈ found.flatten ↔ isResource g v = true ∧ ∃ f ∈ fs, Touches g f v := by
  rw [List.mem_flatten]
  constructor
  · rintro ⟨rs, hrs, hv⟩
    obtain ⟨f, hf, hresources⟩ := (mem_iff_of_mapM_eq_ok h).mp hrs
    cases hbody : g.functions.get? f with
    | none => simp [resourcesOf, hbody] at hresources
    | some body =>
      rw [resourcesOf_eq hg hbody, Except.ok.injEq] at hresources
      subst hresources
      obtain ⟨hmem, hresource⟩ := List.mem_filter.mp hv
      exact ⟨hresource, f, hf, body, hbody, hmem⟩
  · rintro ⟨hresource, f, hf, body, hbody, hmem⟩
    exact ⟨_, (mem_iff_of_mapM_eq_ok h).mpr ⟨f, hf, resourcesOf_eq hg hbody⟩,
      List.mem_filter.mpr ⟨hmem, hresource⟩⟩

theorem addInterface_eq_ok_iff {found found' : List Ident} :
    addInterface g found id = .ok found' ↔ id ∈ g.globals.keys ∧
      found' = if isInterface g id = true ∧ id ∉ found then found ++ [id] else found := by
  unfold addInterface isInterface
  rw [Table.mem_keys_iff, Table.contains, bind_eq_ok_iff]
  cases hget : g.globals.get? id with
  | none => simp [Graph.globalVar_eq_ok_iff, hget]
  | some var =>
    have hvar : ∀ v, g.globalVar id = .ok v ↔ v = var := by
      intro v
      rw [Graph.globalVar_eq_ok_iff, hget, Option.some.injEq, eq_comm]
    simp [hvar, eq_comm (a := found')]

/-- The first occurrences in a list with one more item. -/
theorem eraseDups_concat (xs : List Ident) (x : Ident) :
    (xs ++ [x]).eraseDups = if x ∈ xs.eraseDups then xs.eraseDups else xs.eraseDups ++ [x] := by
  simp only [List.eraseDups_append, List.mem_eraseDups]
  by_cases hx : x ∈ xs
  · simp [hx, List.removeAll]
  · simp [hx, List.removeAll, List.eraseDups_cons]

theorem nodup_eraseDups (xs : List Ident) : xs.eraseDups.Nodup := by
  induction xs using List.reverseRecOn with
  | nil => exact .nil
  | append_singleton xs x ih =>
    rw [eraseDups_concat]
    by_cases hx : x ∈ xs.eraseDups
    · rwa [if_pos hx]
    · rw [if_neg hx]
      exact ih.append (List.nodup_singleton x) (List.disjoint_singleton.mpr hx)

/-- **The interface variables** are the inputs and outputs among the declared ones, in their order
and once each; each of the declared ones has to be a variable. -/
theorem interfaceOf_eq_ok_iff {declared found : List Ident} :
    interfaceOf g declared = .ok found ↔ (∀ id ∈ declared, id ∈ g.globals.keys) ∧
      found = (declared.filter (isInterface g)).eraseDups := by
  unfold interfaceOf
  induction declared using List.reverseRecOn generalizing found with
  | nil => simp [eq_comm]
  | append_singleton declared id ih =>
    have hlast : ((declared ++ [id]).filter (isInterface g)).eraseDups =
        if isInterface g id = true ∧ id ∉ (declared.filter (isInterface g)).eraseDups
        then (declared.filter (isInterface g)).eraseDups ++ [id]
        else (declared.filter (isInterface g)).eraseDups := by
      by_cases hid : isInterface g id = true
      · rw [List.filter_append, List.filter_cons_of_pos hid, List.filter_nil, eraseDups_concat]
        simp [hid]
      · rw [List.filter_append, List.filter_cons_of_neg hid, List.filter_nil, List.append_nil,
          if_neg fun h => hid h.1]
    rw [List.foldlM_append, bind_eq_ok_iff, hlast]
    simp only [ih, List.foldlM_cons, List.foldlM_nil, bind_pure, addInterface_eq_ok_iff,
      List.mem_append, List.mem_singleton]
    constructor
    · rintro ⟨_, ⟨hdeclared, rfl⟩, hid, rfl⟩
      refine ⟨?_, rfl⟩
      rintro x (hx | rfl)
      · exact hdeclared x hx
      · exact hid
    · rintro ⟨hdeclared, rfl⟩
      exact ⟨_, ⟨fun x hx => hdeclared x (Or.inl hx), rfl⟩, hdeclared id (Or.inr rfl), rfl⟩

/-! ## Searches -/

/-- A search for what a function reaches. -/
structure Search where
  /-- The functions to be visited, next first. -/
  worklist : List Ident
  reached : IdSet
  resources : IdSet

namespace Search

/-- The search before its first step. -/
def start (f : Ident) : Search := { worklist := [f], reached := .empty, resources := .empty }

/-- The search takes the next function from its worklist. The lists of its callees and of the
variables that it touches are in any order. -/
inductive Step (g : Graph) : Search → Search → Prop
  | skip {f : Ident} {worklist : List Ident} {reached resources : IdSet} (hf : f ∈ reached) :
      Step g ⟨f :: worklist, reached, resources⟩ ⟨worklist, reached, resources⟩
  | visit {f : Ident} {worklist : List Ident} {reached resources : IdSet} {body : FunctionBody}
      {callees accessed found : List Ident} (hf : f ∉ reached)
      (hbody : g.functions.get? f = some body) (hcallees : callees.Perm body.callees.ids)
      (haccessed : accessed.Perm body.accessed.ids)
      (hfound : resourcesAmong g accessed = .ok found) :
      Step g ⟨f :: worklist, reached, resources⟩
        ⟨(callees.filter (· ∉ reached.insert f)).reverse ++ worklist, reached.insert f,
          resources.insertAll found⟩

/-- The search takes a number of functions from its worklist. -/
inductive Steps (g : Graph) (s : Search) : Nat → Search → Prop
  | none : Steps g s 0 s
  | more {n : Nat} {s₁ s₂ : Search} : Steps g s n s₁ → Step g s₁ s₂ → Steps g s (n + 1) s₂

variable {s s' : Search}

/-! ### How long a search takes -/

/-- The number of functions that a function calls. -/
def calls (g : Graph) (f : Ident) : Nat := (calleesOf g.functions f).length

/-- The functions that have not been reached. -/
def unreached (g : Graph) (reached : IdSet) : Finset Ident :=
  g.functions.keys.toFinset.filter (· ∉ reached)

/-- The steps that may be left: those on the worklist, and those that functions which have not been
reached may put there. -/
def effort (g : Graph) (s : Search) : Nat :=
  s.worklist.length + ∑ f ∈ unreached g s.reached, calls g f

/-- Reaching a function takes it from those that have not been reached. -/
theorem unreached_insert (reached : IdSet) :
    unreached g (reached.insert f) = (unreached g reached).erase f := by
  ext x
  simp only [unreached, Finset.mem_filter, Finset.mem_erase, IdSet.mem_insert, not_or]
  constructor
  · rintro ⟨hkey, hne, hreached⟩
    exact ⟨hne, hkey, hreached⟩
  · rintro ⟨hne, hkey, hreached⟩
    exact ⟨hkey, hne, hreached⟩

/-- **A step leaves less to be done.** -/
theorem Step.effort_lt (h : Step g s s') : effort g s' < effort g s := by
  cases h with
  | skip hf => simp [effort]
  | @visit f worklist reached resources body callees accessed found hf hbody hcallees _ _ =>
    have hmem : f ∈ unreached g reached := by
      simpa [unreached, hf] using Table.mem_keys_of_get? hbody
    have hsum := Finset.add_sum_erase (unreached g reached) (calls g) hmem
    have hcalls : callees.length = calls g f := by
      rw [hcallees.length_eq, calls, calleesOf, hbody]
    have hpushed := List.length_filter_le (· ∉ reached.insert f) callees
    simp only [effort, unreached_insert, List.length_append, List.length_reverse, List.length_cons]
    omega

theorem Steps.effort_le {n : Nat} (h : Steps g s n s') : n + effort g s' ≤ effort g s := by
  induction h with
  | none => omega
  | more _ hstep ih =>
    have := hstep.effort_lt
    omega

/-- At the start, there is one step for each call, and one more. -/
theorem effort_start : effort g (start f) = 1 + ∑ x ∈ g.functions.keys.toFinset, calls g x := by
  simp [effort, start, unreached]

/-! ### What a search keeps -/

/-- What a search from a function keeps: the functions that it has reached or is to visit are such
that calls lead to them; the callees of a function that it has reached have been reached, or are to
be visited; and the resources found are those that reached functions touch. -/
structure Searched (g : Graph) (root : Ident) (s : Search) : Prop where
  begun : root ∈ s.reached ∨ root ∈ s.worklist
  leads : ∀ f, f ∈ s.reached ∨ f ∈ s.worklist → Leads g root f
  callees : ∀ f ∈ s.reached, ∀ callee, Calls g f callee → callee ∈ s.reached ∨ callee ∈ s.worklist
  resources : ∀ v, v ∈ s.resources ↔ isResource g v = true ∧ ∃ f ∈ s.reached, Touches g f v

theorem searched_start : Searched g f (start f) where
  begun := Or.inr List.mem_cons_self
  leads := by
    intro x hx
    obtain rfl : x = f := by simpa [start] using hx
    exact .refl
  callees := by simp [start]
  resources := by simp [start]

/-- Skipping a function keeps the search as it should be. -/
theorem Searched.skip {root : Ident} {worklist : List Ident} {reached resources : IdSet}
    (h : Searched g root ⟨f :: worklist, reached, resources⟩) (hf : f ∈ reached) :
    Searched g root ⟨worklist, reached, resources⟩ := by
  have hrest : ∀ x, x ∈ reached ∨ x ∈ f :: worklist → x ∈ reached ∨ x ∈ worklist := by
    rintro x (hx | hx)
    · exact Or.inl hx
    · rcases List.mem_cons.mp hx with rfl | hx
      · exact Or.inl hf
      · exact Or.inr hx
  refine ⟨hrest root h.begun, fun x hx => h.leads x (hx.imp_right (List.mem_cons_of_mem f)), ?_,
    h.resources⟩
  intro x hx callee hcalls
  exact hrest callee (h.callees x hx callee hcalls)

/-- The resources of a visited function are found with those that were found before. -/
theorem mem_resources_visit (hg : g.Closed) {reached resources : IdSet} {body : FunctionBody}
    {accessed found : List Ident} (hbody : g.functions.get? f = some body)
    (haccessed : accessed.Perm body.accessed.ids) (hfound : resourcesAmong g accessed = .ok found)
    (h : ∀ v, v ∈ resources ↔ isResource g v = true ∧ ∃ x ∈ reached, Touches g x v) (v : Ident) :
    v ∈ resources.insertAll found ↔
      isResource g v = true ∧ ∃ x ∈ reached.insert f, Touches g x v := by
  have hkeys : ∀ x ∈ accessed, x ∈ g.globals.keys := by
    intro x hx
    exact hg.accessed f body hbody x (haccessed.mem_iff.mp hx)
  rw [resourcesAmong_eq_ok hkeys, Except.ok.injEq] at hfound
  subst hfound
  have htouches : v ∈ accessed ↔ Touches g f v := by
    rw [haccessed.mem_iff, Touches, hbody]
    simp [IdSet.mem_iff]
  have hsplit : (∃ x ∈ reached.insert f, Touches g x v) ↔
      Touches g f v ∨ ∃ x ∈ reached, Touches g x v := by
    simp [or_and_right, exists_or]
  rw [IdSet.mem_insertAll, List.mem_filter, htouches, hsplit, h v]
  rw [and_comm (a := Touches g f v), ← and_or_left]

/-- Visiting a function keeps the search as it should be. -/
theorem Searched.visit (hg : g.Closed) {root : Ident} {worklist : List Ident}
    {reached resources : IdSet} {body : FunctionBody} {callees accessed found : List Ident}
    (h : Searched g root ⟨f :: worklist, reached, resources⟩)
    (hbody : g.functions.get? f = some body) (hcallees : callees.Perm body.callees.ids)
    (haccessed : accessed.Perm body.accessed.ids)
    (hfound : resourcesAmong g accessed = .ok found) :
    Searched g root ⟨(callees.filter (· ∉ reached.insert f)).reverse ++ worklist,
      reached.insert f, resources.insertAll found⟩ := by
  have hcalls : ∀ x, x ∈ callees ↔ Calls g f x := by
    intro x
    rw [hcallees.mem_iff, ← mem_calleesOf_iff, calleesOf, hbody]
  have hpushed : ∀ x, x ∈ (callees.filter (· ∉ reached.insert f)).reverse ++ worklist ↔
      (Calls g f x ∧ x ∉ reached.insert f) ∨ x ∈ worklist := by
    intro x
    rw [List.mem_append, List.mem_reverse, List.mem_filter, hcalls, decide_eq_true_eq]
  have hrest : ∀ x, x ∈ reached ∨ x ∈ f :: worklist → x ∈ reached.insert f ∨
      x ∈ (callees.filter (· ∉ reached.insert f)).reverse ++ worklist := by
    rintro x (hx | hx)
    · exact Or.inl (IdSet.mem_insert.mpr (Or.inr hx))
    · rcases List.mem_cons.mp hx with rfl | hx
      · exact Or.inl (IdSet.mem_insert.mpr (Or.inl rfl))
      · exact Or.inr ((hpushed x).mpr (Or.inr hx))
  have hf : Leads g root f := h.leads f (Or.inr List.mem_cons_self)
  have hreached : ∀ x ∈ reached.insert f, Leads g root x := by
    intro x hx
    rcases IdSet.mem_insert.mp hx with rfl | hx
    · exact hf
    · exact h.leads x (Or.inl hx)
  refine ⟨hrest root h.begun, ?_, ?_,
    mem_resources_visit hg hbody haccessed hfound h.resources⟩
  · rintro x (hx | hx)
    · exact hreached x hx
    · rcases (hpushed x).mp hx with ⟨hx, -⟩ | hx
      · exact hf.tail hx
      · exact h.leads x (Or.inr (List.mem_cons_of_mem f hx))
  · intro x hx callee hcall
    rcases IdSet.mem_insert.mp hx with rfl | hx
    · by_cases hmem : callee ∈ reached.insert x
      · exact Or.inl hmem
      · exact Or.inr ((hpushed callee).mpr (Or.inl ⟨hcall, hmem⟩))
    · exact hrest callee (h.callees x hx callee hcall)

/-- **One step** keeps the search as it should be. -/
theorem Searched.step (hg : g.Closed) {root : Ident} (h : Searched g root s) (hstep : Step g s s') :
    Searched g root s' := by
  cases hstep with
  | skip hf => exact h.skip hf
  | visit _ hbody hcallees haccessed hfound => exact h.visit hg hbody hcallees haccessed hfound

/-- **Any number of steps** keeps the search as it should be. -/
theorem Searched.steps (hg : g.Closed) {root : Ident} (h : Searched g root s) {n : Nat}
    (hsteps : Steps g s n s') : Searched g root s' := by
  induction hsteps with
  | none => exact h
  | more _ hstep ih => exact ih.step hg hstep

/-- A search with something on its worklist can take a step. -/
theorem Searched.exists_step (hg : g.Closed) {root : Ident} (hroot : root ∈ g.functions.keys)
    (h : Searched g root s) (hs : s.worklist ≠ []) : ∃ s', Step g s s' := by
  obtain ⟨worklist, reached, resources⟩ := s
  cases worklist with
  | nil => exact absurd rfl hs
  | cons f worklist =>
    by_cases hf : f ∈ reached
    · exact ⟨_, .skip hf⟩
    · have hkey : f ∈ g.functions.keys :=
        (h.leads f (Or.inr List.mem_cons_self)).mem_keys hg hroot
      obtain ⟨body, hbody⟩ := Option.isSome_iff_exists.mp (Table.mem_keys_iff.mp hkey)
      exact ⟨_, .visit hf hbody .rfl .rfl (resourcesAmong_eq_ok (hg.accessed f body hbody))⟩

/-- **A search that has come to its end** has reached the functions to which calls lead, and the
resources that they touch. -/
theorem Searched.finished {root : Ident} (h : Searched g root s) (hs : s.worklist = []) :
    (∀ f, f ∈ s.reached ↔ Leads g root f) ∧
      ∀ v, v ∈ s.resources ↔ isResource g v = true ∧ ∃ f, Leads g root f ∧ Touches g f v := by
  have hnil : ∀ x, x ∈ s.reached ∨ x ∈ s.worklist → x ∈ s.reached := by
    rintro x (hx | hx)
    · exact hx
    · rw [hs] at hx
      cases hx
  have hreached : ∀ f, f ∈ s.reached ↔ Leads g root f := by
    intro f
    refine ⟨fun hf => h.leads f (Or.inl hf), fun hleads => ?_⟩
    induction hleads with
    | refl => exact hnil root h.begun
    | tail _ hcalls ih => exact hnil _ (h.callees _ ih _ hcalls)
  refine ⟨hreached, fun v => ?_⟩
  rw [h.resources v]
  simp only [hreached]

end Search

/-! ## The analysis -/

/-- In a closed graph, what an entry point reaches depends on its interface alone for being
found. -/
theorem exists_analyze_eq (hg : g.Closed) (he : e.function ∈ g.functions.keys) (all : Bool) :
    ∃ functions resources : IdSet,
      (∀ f, f ∈ functions ↔ if all then f ∈ g.functions.keys else Leads g e.function f) ∧
      (∀ v, v ∈ resources ↔ isResource g v = true ∧
        (all = true ∨ ∃ f ∈ functions, Touches g f v)) ∧
      analyze g e all = (fun interface => { functions, resources, interface }) <$>
        interfaceOf g e.interface := by
  cases all with
  | true =>
    refine ⟨IdSet.ofList g.functions.keys,
      IdSet.ofList (g.globals.keys.filter (isResource g)), ?_, ?_, ?_⟩
    · simp
    · intro v
      have hkey : isResource g v = true → v ∈ g.globals.keys := mem_globals_of_isResource
      simp only [IdSet.mem_ofList, List.mem_filter, true_or, and_true]
      exact ⟨And.right, fun hv => ⟨hkey hv, hv⟩⟩
    · unfold analyze
      rw [if_pos rfl, resourcesAmong_eq_ok fun _ hid => hid, ok_bind]
      rfl
  | false =>
    have hfunctions : ∀ f ∈ functionsFrom g e.function, f ∈ g.functions.keys :=
      mem_keys_of_mem_functionsFrom hg he
    obtain ⟨found, hfound⟩ := exists_mapM_eq_ok_iff.mpr fun f hf =>
      (resourcesOf_eq_ok hg (hfunctions f hf)).imp fun _ => And.left
    refine ⟨functionsFrom g e.function, IdSet.ofList found.flatten, ?_, ?_, ?_⟩
    · intro f
      simpa using mem_functionsFrom_iff
    · intro v
      rw [IdSet.mem_ofList, mem_resourcesOf_iff hg hfound]
      simp [IdSet.mem_iff]
    · unfold analyze
      rw [if_neg Bool.false_ne_true]
      simp only [Bool.false_eq_true, if_false]
      rw [hfound, map_ok, ok_bind]
      rfl

/-- What an entry point reaches consists of the reached functions, the resources that they touch and
the interface variables. -/
theorem parts_of_analyze (hg : g.Closed) (hfunction : e.function ∈ g.functions.keys) {all : Bool}
    {reach : Reach} (h : analyze g e all = .ok reach) :
    (∀ f, f ∈ reach.functions ↔ if all then f ∈ g.functions.keys else Leads g e.function f) ∧
    (∀ v, v ∈ reach.resources ↔ isResource g v = true ∧
      (all = true ∨ ∃ f ∈ reach.functions, Touches g f v)) ∧
    interfaceOf g e.interface = .ok reach.interface := by
  obtain ⟨functions, resources, hf, hv, heq⟩ := exists_analyze_eq hg hfunction all
  obtain ⟨interface, hinterface, rfl⟩ := map_eq_ok_iff.mp (heq.symm.trans h)
  exact ⟨hf, hv, hinterface⟩

/-- **What an entry point reaches is exactly the closure of the calls.** An entry point of the graph
of a binary can be analyzed exactly if all that its interface lists are variables, and the interface
variables are then the inputs and outputs among them, in order and once each. It reaches the
functions to which calls lead from its own, and the resources that they touch; on demand, it reaches
all functions and all resources. A search with a worklist finds the same in whatever order it visits
functions and variables: it takes at most one step for each call and one more, it goes on as long as
there is a function to be visited, and what it then has found is what the entry point reaches. -/
theorem analyze_exact {words : List Word} (h : Graph.ofWords words = .ok g)
    (he : e ∈ g.annotations.entryPoints) :
    (∀ all, (∃ reach, analyze g e all = .ok reach) ↔ ∀ id ∈ e.interface, id ∈ g.globals.keys) ∧
    (∀ all reach, analyze g e all = .ok reach →
      reach.interface = (e.interface.filter (isInterface g)).eraseDups) ∧
    (∀ reach, analyze g e true = .ok reach →
      (∀ f, f ∈ reach.functions ↔ f ∈ g.functions.keys) ∧
        ∀ v, v ∈ reach.resources ↔ isResource g v = true) ∧
    (∀ reach, analyze g e false = .ok reach →
      (∀ f, f ∈ reach.functions ↔ Leads g e.function f) ∧
        ∀ v, v ∈ reach.resources ↔ isResource g v = true ∧
          ∃ f ∈ reach.functions, Touches g f v) ∧
    ∀ n s, Search.Steps g (.start e.function) n s →
      n ≤ 1 + ∑ f ∈ g.functions.keys.toFinset, Search.calls g f ∧
      (s.worklist ≠ [] → ∃ s', Search.Step g s s') ∧
      (s.worklist = [] → ∀ reach, analyze g e false = .ok reach →
        s.reached = reach.functions ∧ s.resources = reach.resources) := by
  have hg : g.Closed := Graph.closed_of_ofWords h
  have hfunction : e.function ∈ g.functions.keys := hg.entryPoints e he
  have hsome : ∀ reach, analyze g e false = .ok reach →
      (∀ f, f ∈ reach.functions ↔ Leads g e.function f) ∧
        ∀ v, v ∈ reach.resources ↔ isResource g v = true ∧
          ∃ f ∈ reach.functions, Touches g f v := by
    intro reach hreach
    obtain ⟨hf, hv, -⟩ := parts_of_analyze hg hfunction hreach
    exact ⟨by simpa using hf, by simpa using hv⟩
  refine ⟨fun all => ?_, fun all reach hreach => ?_, fun reach hreach => ?_, hsome,
    fun n s hsteps => ⟨?_, ?_, fun hs reach hreach => ?_⟩⟩
  · obtain ⟨functions, resources, -, -, heq⟩ := exists_analyze_eq hg hfunction all
    simp only [heq, map_eq_ok_iff, interfaceOf_eq_ok_iff]
    constructor
    · rintro ⟨_, _, ⟨hkeys, -⟩, -⟩
      exact hkeys
    · intro hkeys
      exact ⟨_, _, ⟨hkeys, rfl⟩, rfl⟩
  · exact (interfaceOf_eq_ok_iff.mp (parts_of_analyze hg hfunction hreach).2.2).2
  · obtain ⟨hf, hv, -⟩ := parts_of_analyze hg hfunction hreach
    exact ⟨by simpa using hf, by simpa using hv⟩
  · have hle := hsteps.effort_le
    rw [Search.effort_start] at hle
    omega
  · have hsearched := Search.searched_start.steps hg hsteps
    exact hsearched.exists_step hg hfunction
  · obtain ⟨hreached, hresources⟩ := (Search.searched_start.steps hg hsteps).finished hs
    obtain ⟨hf, hv⟩ := hsome reach hreach
    refine ⟨IdSet.ext_mem fun f => (hreached f).trans (hf f).symm, IdSet.ext_mem fun v => ?_⟩
    rw [hresources v, hv v]
    simp only [hf]

/-- The instructions of a binary with functions that call each other: the entry point is function 9,
which calls 10; function 10 loads the variable 5, and calls 9 and itself; function 11, which is not
called, loads the variable 6. The interface lists the input 8 twice, and the resource 5. -/
def recursiveBody : List Instruction := [
  ⟨15, [4, 9, 0x6d, 8, 5, 8]⟩, ⟨19, [1]⟩, ⟨22, [2, 32]⟩, ⟨30, [3, 2]⟩, ⟨32, [4, 2, 3]⟩,
  ⟨59, [4, 5, 2]⟩, ⟨59, [4, 6, 2]⟩, ⟨32, [7, 1, 2]⟩, ⟨59, [7, 8, 1]⟩, ⟨33, [12, 1]⟩,
  ⟨54, [1, 9, 0, 12]⟩, ⟨57, [1, 13, 10]⟩, ⟨56, []⟩,
  ⟨54, [1, 10, 0, 12]⟩, ⟨61, [3, 14, 5]⟩, ⟨57, [1, 15, 9]⟩, ⟨57, [1, 16, 10]⟩, ⟨56, []⟩,
  ⟨54, [1, 11, 0, 12]⟩, ⟨61, [3, 17, 6]⟩, ⟨56, []⟩]

/-- The binary with functions that call each other. -/
def recursiveWords : List Word :=
  [magicNumber, 0x10300, 0, 20, 0] ++ recursiveBody.flatMap Instruction.words

set_option maxRecDepth 100000 in
/-- The entry point reaches the two functions that call each other. -/
theorem sample_analyze_exact : ∃ g e reach, Graph.ofWords recursiveWords = .ok g ∧
    e ∈ g.annotations.entryPoints ∧ analyze g e false = .ok reach ∧
    reach.functions.ids = [9, 10] ∧ reach.resources.ids = [5] ∧ reach.interface = [8] ∧
    Leads g 9 10 ∧ ¬Leads g 9 11 := by
  obtain ⟨g, hg, hfacts⟩ := exists_eq_ok_of_any (x := Graph.ofWords recursiveWords)
    (p := fun g => g.annotations.entryPoints.any fun e => e.function = 9 ∧
      (analyze g e false).toOption.any fun reach => reach.functions.ids = [9, 10] ∧
        reach.resources.ids = [5] ∧ reach.interface = [8])
    (by decide +kernel)
  obtain ⟨e, he, hfacts⟩ := List.any_eq_true.mp hfacts
  obtain ⟨hfunction, hfacts⟩ := of_decide_eq_true hfacts
  obtain ⟨reach, hreach, hfacts⟩ := exists_eq_ok_of_any hfacts
  obtain ⟨hfunctions, hresources, hinterface⟩ := of_decide_eq_true hfacts
  have hleads : ∀ f, f ∈ reach.functions ↔ Leads g 9 f := by
    rw [← hfunction]
    exact ((analyze_exact hg he).2.2.2.1 reach hreach).1
  refine ⟨g, e, reach, hg, he, hreach, hfunctions, hresources, hinterface, ?_, ?_⟩
  · rw [← hleads, IdSet.mem_iff, hfunctions]
    decide
  · rw [← hleads, IdSet.mem_iff, hfunctions]
    decide

end ShaderReflect.Reach
