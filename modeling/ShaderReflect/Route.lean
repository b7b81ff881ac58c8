import ShaderReflect.Reflection

/-!
# Routes to members

A route leads from a type to one of its parts: a member of a struct, an element of an array, or a
part of these (specification, 4, member walks). Its path names the members and elements on the way.

* `Reflection.route?` finds the route with a given path (`resolve_member`).
* `Walk.next?` visits all parts of a type in turn, each before its own parts (`walk_members`).
  Elements of arrays whose length is not known are not visited, but a path may lead to them.

Offsets are counted from the start of the type at which a route begins. One is absent as soon as a
member on the way has no offset or an array no stride, and stays so.

A text in a path is looked for among the names of members first, and read as an index only if there
is no such name, so a member may hide another one. An index may have a leading plus sign and leading
zeros. The empty path is one empty text, not the way to the type itself.

Offsets have 64 bits. A product or sum that has no room in them stops the search, even if the path
turns out to lead nowhere later on; the index of an element of an array without a length is as large
as the client likes. A walk is a stack of the wholes that are being visited, and what has been
visited stays visited: `Walk.next?` gives back the rest of the visit.
-/

namespace ShaderReflect

/-- A way from a type to one of its parts. -/
structure Route where
  /-- The names of the parts on the way, with dots between them. A member without a name, and an
  element, is named by its index. -/
  path : String
  /-- Absent if a member on the way has no offset, or an array no stride. -/
  offset : Option Nat
  type : TypeIdx
deriving DecidableEq, Repr

/-- A part of a type: how it is named, where it starts and what it is. -/
structure Part where
  segment : String
  offset : Option Nat
  type : TypeIdx
deriving DecidableEq, Repr

namespace Route

/-- The route from a type to itself. -/
def start (type : TypeIdx) : Route := { path := "", offset := some 0, type }

/-- The path of a part of what a path leads to. -/
def join (path segment : String) : String :=
  if path.isEmpty then segment else path ++ "." ++ segment

/-- The start of a part, given where the whole starts. -/
def joinOffset (offset relative : Option Nat) : Except Overflow (Option Nat) :=
  Bounded.add? Bounded.sizeCeiling offset relative

/-- The start of an element of an array with a stride. -/
def elementOffset (stride : Option Nat) (n : Nat) : Except Overflow (Option Nat) :=
  Bounded.mul? Bounded.sizeCeiling stride n

/-- The route to a part of what a route leads to. -/
def extend (r : Route) (p : Part) : Except Overflow Route := do
  return { path := join r.path p.segment, offset := ← joinOffset r.offset p.offset, type := p.type }

/-- The texts between the dots of a path. -/
def segments : List Char → List (List Char)
  | [] => [[]]
  | c :: cs =>
    if c = '.' then [] :: segments cs
    else match segments cs with
      | s :: ss => (c :: s) :: ss
      | [] => [[c]]

/-- The index that a text stands for. -/
def index? (segment : List Char) : Option Nat := Text.readBelow? Bounded.sizeCeiling segment

end Route

namespace Reflection

/-! ## Following a path -/

/-- The part of a type that a text names: a member by its name or else by its index, an element by
its index. -/
def partNamed? (r : Reflection) (i : TypeIdx) (segment : List Char) :
    Except Overflow (Option Part) :=
  let text := String.ofList segment
  match r.type? i with
  | some (.struct _ members) =>
    let byName := members.find? (·.name = some text)
    match byName.or ((Route.index? segment).bind (members[·]?)) with
    | some m => .ok (some { segment := text, offset := m.offset, type := m.type })
    | none => .ok none
  | some (.array element length stride) =>
    match (Route.index? segment).filter (· < length.toNat) with
    | some n => do
      return some { segment := text, offset := ← Route.elementOffset stride n, type := element }
    | none => .ok none
  | some (.runtimeArray element stride) =>
    match Route.index? segment with
    | some n => do
      return some { segment := text, offset := ← Route.elementOffset stride n, type := element }
    | none => .ok none
  | _ => .ok none

/-- Where texts lead, one after the other, from an offset and a type. -/
def follow? (r : Reflection) (offset : Option Nat) (i : TypeIdx) :
    List (List Char) → Except Overflow (Option (Option Nat × TypeIdx))
  | [] => .ok (some (offset, i))
  | segment :: rest => do
    match ← r.partNamed? i segment with
    | none => return none
    | some p => r.follow? (← Route.joinOffset offset p.offset) p.type rest

/-- The route from a type with a given path. -/
def route? (r : Reflection) (i : TypeIdx) (path : String) : Except Overflow (Option Route) := do
  match ← r.follow? (some 0) i (Route.segments path.toList) with
  | some (offset, type) => return some { path, offset, type }
  | none => return none

/-! ## Visiting all parts -/

/-- Part number `n` of a type, among those that are visited. -/
def part? (r : Reflection) (i : TypeIdx) (n : Nat) : Except Overflow (Option Part) :=
  match r.type? i with
  | some (.struct _ members) =>
    .ok (members[n]?.map fun m =>
      { segment := m.name.getD (toString n), offset := m.offset, type := m.type })
  | some (.array element length stride) =>
    if n < length.toNat then do
      return some {
        segment := toString n, offset := ← Route.elementOffset stride n, type := element }
    else .ok none
  | _ => .ok none

/-- Whether a type has parts that are visited. -/
def hasParts (r : Reflection) (i : TypeIdx) : Bool :=
  match r.type? i with
  | some (.struct _ members) => !members.isEmpty
  | some (.array _ length _) => 0 < length.toNat
  | _ => false

end Reflection

/-- A whole that is being visited: the route to it, and the number of its next part. -/
structure Frame where
  route : Route
  next : Nat
deriving DecidableEq, Repr

/-- A visit under way: the wholes that are being visited, the innermost first. -/
abbrev Walk := List Frame

namespace Walk

/-- The visit of all parts of a type. -/
def start (i : TypeIdx) : Walk := [⟨Route.start i, 0⟩]

/-- The route to the next part, with the rest of the visit; absent at its end. -/
def next? (r : Reflection) : Walk → Except Overflow (Option (Route × Walk))
  | [] => .ok none
  | frame :: outer => do
    match ← r.part? frame.route.type frame.next with
    | none => next? r outer
    | some p =>
      let route ← frame.route.extend p
      let rest := { frame with next := frame.next + 1 } :: outer
      return some (route, if r.hasParts route.type then ⟨route, 0⟩ :: rest else rest)

/-- The routes to the next parts, as many as are asked for and are left. -/
def take (r : Reflection) : Nat → Walk → Except Overflow (List Route)
  | 0, _ => .ok []
  | n + 1, w => do
    match ← next? r w with
    | none => return []
    | some (route, w) => return route :: (← take r n w)

end Walk

end ShaderReflect
