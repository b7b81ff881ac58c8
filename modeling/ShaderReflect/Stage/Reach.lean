import ShaderReflect.Graph

/-!
# What an entry point reaches

An entry point reaches its function and every function that a reached function calls (specification,
4.4). The resources that these functions touch are attributed to it, whatever they do with them: a
variable that is only handed to a function is touched. On demand (`ref_all_rscs`), every function
and every resource of the binary is, and no call is followed. The interface is what the entry point
lists, without what is neither an input nor an output, in the order of the list and once each.

The search for functions ends because each function is visited once: a visited function is taken out
of those that are still to be visited. So recursion does no harm, although it is not allowed.

The specification has a worklist. `closure` has no list of what to visit next but looks for a
reached function that has not been visited. That every worklist, in whatever order, ends with the
same sets is proved in `Proofs/Stage/Reachability`. Resources are looked for once all functions are
known; as look-ups of what functions touch do not fail in the graph of a binary, the fault of an
interface that lists something else is the only one (`Proofs/Stage/Faults`).
-/

namespace ShaderReflect

/-- What an entry point reaches. -/
structure Reach where
  functions : IdSet
  /-- The resource variables that the functions touch. -/
  resources : IdSet
  /-- The input and output variables of the entry point, in order and once each. -/
  interface : List Ident

namespace Reach

/-- The functions that a function calls. -/
def calleesOf (functions : Table Ident FunctionBody) (id : Ident) : List Ident :=
  match functions.get? id with
  | some body => body.callees.ids
  | none => []

/-- Add the callees of reached functions, until every reached function has been visited.
`unvisited` holds the functions whose callees have not been added. -/
def closure (functions : Table Ident FunctionBody) (unvisited : List Ident) (reached : IdSet) :
    IdSet :=
  match _h : unvisited.find? (· ∈ reached) with
  | none => reached
  | some id => closure functions (unvisited.erase id) (reached.insertAll (calleesOf functions id))
termination_by unvisited.length
decreasing_by
  have hmem := List.mem_of_find?_eq_some _h
  rw [List.length_erase_of_mem hmem]
  exact Nat.sub_lt (List.length_pos_of_mem hmem) Nat.one_pos

/-- The functions that are reached from a function. -/
def functionsFrom (g : Graph) (id : Ident) : IdSet :=
  closure g.functions g.functions.keys (IdSet.empty.insert id)

/-- The resources among variables. -/
def resourcesAmong (g : Graph) (ids : List Ident) : Except Fault (List Ident) :=
  ids.filterM fun id => do return (← g.globalVar id).storage.isResource

/-- The resources that a function touches. -/
def resourcesOf (g : Graph) (id : Ident) : Except Fault (List Ident) :=
  match g.functions.get? id with
  | some body => resourcesAmong g body.accessed.ids
  | none => .error (.corrupted (.functionUndefined id))

/-- The interface variables found so far, with one more if it is one and is not among them. -/
def addInterface (g : Graph) (found : List Ident) (id : Ident) : Except Fault (List Ident) := do
  let v ← g.globalVar id
  return if v.storage.isInterface ∧ id ∉ found then found ++ [id] else found

/-- The interface variables among declared ones, once each. -/
def interfaceOf (g : Graph) (declared : List Ident) : Except Fault (List Ident) :=
  declared.foldlM (addInterface g) []

/-- What an entry point reaches. If `all` is set, it is taken to reach everything. -/
def analyze (g : Graph) (e : EntryPointDecl) (all : Bool) : Except Fault Reach := do
  let functions := if all then IdSet.ofList g.functions.keys else functionsFrom g e.function
  let resources ←
    if all then resourcesAmong g g.globals.keys
    else List.flatten <$> functions.ids.mapM (resourcesOf g)
  let interface ← interfaceOf g e.interface
  return { functions, resources := IdSet.ofList resources, interface }

/-- What an entry point reaches, with a note of how much that is. -/
def trace (g : Graph) (e : EntryPointDecl) (all : Bool) : Traced Reach := do
  let r ← analyze g e all
  Traced.note (.entryPointReaches e.name r.functions.size r.resources.size)
  return r

end Reach

end ShaderReflect
