import Mathlib.Logic.Function.Basic
import ShaderReflect.Handle

/-!
# A handle is an optional reflection

A client keeps configurations under names, and calls one handle. `Handle.run` is what the calls are
answered. The answers can be told without the three states of a handle, from a cell that is none or
a reflection: `CellStep` has one rule for each case of one call, and `CellRun` is a run of calls.

* `Handle.cellStep_answer`: one call on a handle is answered as on the cell of what the handle
  holds.
* `Handle.cellRun_run`: so are calls in a row, on any handle.
* `CellRun.unique`: the calls and the cell leave one way to answer.
* `Handle.run_fresh`: a fresh handle answers as the cell that is none at first does, and as nothing
  else.

Specification, 4 (handle shell). Calls are to create, to destroy, to count, to fill slots and to
view all entry points, in any order, and the slots that are handed in may hold anything. That a call
that fails changes nothing is a rule of the cell like the others. A call that fills the handle comes
with the orders in which its run goes through what is declared, so that its answer is settled.
-/

namespace ShaderReflect

/-- Places for views. -/
abbrev Slots := List (Option EntryPointView)

/-! ## Calls -/

/-- A call of a client that keeps configurations under names. -/
inductive Call
  /-- Change a configuration. -/
  | configure (name : String) (change : Config → Config)
  /-- Fill the handle with the reflection that a configuration asks for. Each call goes through what
  is declared in orders of its own. -/
  | create (name : String) (visits : Visits := {})
  | destroy
  | isCreated
  | reflection
  /-- Enumerate the entry points without slots. -/
  | count
  /-- Enumerate the entry points into slots. -/
  | fill (slots : Slots)
  | views

/-- What a call is answered. -/
inductive Answer
  | done
  | stopped (cause : Stop)
  | created (isCreated : Bool)
  | held (reflection : Option Reflection)
  | counted (result : Except Fault Nat)
  /-- The slots are those that the client finds afterwards. -/
  | filled (result : Except Fault Nat) (slots : Slots)
  | viewed (result : Except Fault (List EntryPointView))

/-- The configurations after a call. -/
def Call.after (configs : String → Config) : Call → String → Config
  | .configure name change => Function.update configs name (change (configs name))
  | _ => configs

namespace Handle

/-- What a handle answers, and the handle afterwards. -/
def answer (configs : String → Config) (h : Handle) : Call → Answer × Handle
  | .configure _ _ => (.done, h)
  | .create name visits =>
    match (h.create (configs name) visits).result with
    | .ok h' => (.done, h')
    | .error e => (.stopped e, h)
  | .destroy =>
    match h.destroy.result with
    | .ok h' => (.done, h')
    | .error e => (.stopped e, h)
  | .isCreated => (.created h.isCreated, h)
  | .reflection => (.held h.held, h)
  | .count => (.counted h.count, h)
  | .fill slots => (.filled (h.fill slots).1 (h.fill slots).2, h)
  | .views => (.viewed h.views, h)

/-- What calls in a row are answered, and the handle afterwards. -/
def run (configs : String → Config) (h : Handle) : List Call → List Answer × Handle
  | [] => ([], h)
  | call :: calls =>
    let (answer, h) := h.answer configs call
    let (answers, h) := h.run (call.after configs) calls
    (answer :: answers, h)

end Handle

/-! ## Cells -/

/-- Slots before and after views of all entry points have been put into the first of them. -/
structure FirstViews (r : Reflection) (slots slots' : Slots) : Prop where
  length : slots'.length = slots.length
  viewed : ∀ i < r.entryPoints.length, slots'[i]? = some (some { reflection := r, index := i })
  kept : ∀ i, r.entryPoints.length ≤ i → slots'[i]? = slots[i]?

/-- A list of all views of the entry points, in order. -/
structure AllViews (r : Reflection) (vs : List EntryPointView) : Prop where
  length : vs.length = r.entryPoints.length
  viewed : ∀ i < r.entryPoints.length, vs[i]? = some { reflection := r, index := i }

/-- A call on a cell, with its answer and what the cell holds afterwards. -/
inductive CellStep (configs : String → Config) :
    Option Reflection → Call → Answer → Option Reflection → Prop
  | configure {cell name change} : CellStep configs cell (.configure name change) .done cell
  /-- A full cell is not filled again. -/
  | refused {r name visits} : CellStep configs (some r) (.create name visits)
      (.stopped (.fault (.invalidArgument .handleInUse))) (some r)
  | stored {r name visits} (h : ((configs name).reflect visits).result = .ok r) :
      CellStep configs none (.create name visits) .done (some r)
  | unreflected {e name visits} (h : ((configs name).reflect visits).result = .error e) :
      CellStep configs none (.create name visits) (.stopped e) none
  | destroy {cell} : CellStep configs cell .destroy .done none
  | isCreated {cell} : CellStep configs cell .isCreated (.created cell.isSome) cell
  | reflection {cell} : CellStep configs cell .reflection (.held cell) cell
  | uncounted : CellStep configs none .count (.counted (.error (.absent .reflection))) none
  | counted {r} : CellStep configs (some r) .count (.counted (.ok r.entryPoints.length)) (some r)
  | unfilled {slots} : CellStep configs none (.fill slots)
      (.filled (.error (.absent .reflection)) slots) none
  /-- There are too few slots. -/
  | short {r slots} (h : slots.length < r.entryPoints.length) : CellStep configs (some r)
      (.fill slots)
      (.filled (.error (.outOfRange (.slots r.entryPoints.length slots.length))) slots) (some r)
  | filled {r slots slots'} (h : r.entryPoints.length ≤ slots.length)
      (hviews : FirstViews r slots slots') : CellStep configs (some r) (.fill slots)
      (.filled (.ok r.entryPoints.length) slots') (some r)
  | unviewed : CellStep configs none .views (.viewed (.error (.absent .reflection))) none
  | viewed {r vs} (hviews : AllViews r vs) : CellStep configs (some r) .views (.viewed (.ok vs))
      (some r)

/-- Calls in a row on a cell, with their answers and what the cell holds afterwards. -/
inductive CellRun :
    (String → Config) → Option Reflection → List Call → List Answer → Option Reflection → Prop
  | nil {configs cell} : CellRun configs cell [] [] cell
  | cons {configs cell call answer cell' calls answers cell''}
      (step : CellStep configs cell call answer cell')
      (rest : CellRun (call.after configs) cell' calls answers cell'') :
      CellRun configs cell (call :: calls) (answer :: answers) cell''

section

variable {configs : String → Config} {r : Reflection} {slots s s' : Slots}

/-- The slots afterwards are known from those before. -/
theorem FirstViews.unique (h : FirstViews r slots s) (h' : FirstViews r slots s') : s = s' := by
  refine List.ext_getElem? fun i => ?_
  by_cases hi : i < r.entryPoints.length
  · rw [h.viewed i hi, h'.viewed i hi]
  · rw [h.kept i (by omega), h'.kept i (by omega)]

/-- There is one list of all views. -/
theorem AllViews.unique {vs vs' : List EntryPointView} (h : AllViews r vs) (h' : AllViews r vs') :
    vs = vs' := by
  refine List.ext_getElem? fun i => ?_
  by_cases hi : i < r.entryPoints.length
  · rw [h.viewed i hi, h'.viewed i hi]
  · have hlength := h.length
    have hlength' := h'.length
    rw [List.getElem?_eq_none (by omega), List.getElem?_eq_none (by omega)]

/-- A call on a cell has one answer, and leaves the cell in one way. -/
theorem CellStep.unique {cell cell₁ cell₂ : Option Reflection} {call : Call}
    {answer₁ answer₂ : Answer} (h₁ : CellStep configs cell call answer₁ cell₁)
    (h₂ : CellStep configs cell call answer₂ cell₂) : answer₁ = answer₂ ∧ cell₁ = cell₂ := by
  cases h₁ with
  | stored h =>
    cases h₂ with
    | stored h' =>
      rw [h] at h'
      exact ⟨rfl, congrArg some (Except.ok.inj h')⟩
    | unreflected h' => rw [h] at h'; cases h'
  | unreflected h =>
    cases h₂ with
    | stored h' => rw [h] at h'; cases h'
    | unreflected h' =>
      rw [h] at h'
      exact ⟨congrArg Answer.stopped (Except.error.inj h'), rfl⟩
  | short h =>
    cases h₂ with
    | short => exact ⟨rfl, rfl⟩
    | filled h' => omega
  | filled h hviews =>
    cases h₂ with
    | short h' => omega
    | filled _ hviews' => exact ⟨by rw [hviews.unique hviews'], rfl⟩
  | viewed hviews =>
    cases h₂ with
    | viewed hviews' => exact ⟨by rw [hviews.unique hviews'], rfl⟩
  | _ => cases h₂; exact ⟨rfl, rfl⟩

/-- **The calls and the cell leave one way to answer.** -/
theorem CellRun.unique {cell cell₁ cell₂ : Option Reflection} {calls : List Call}
    {answers₁ answers₂ : List Answer} (h₁ : CellRun configs cell calls answers₁ cell₁)
    (h₂ : CellRun configs cell calls answers₂ cell₂) : answers₁ = answers₂ ∧ cell₁ = cell₂ := by
  induction h₁ generalizing answers₂ cell₂ with
  | nil =>
    cases h₂
    exact ⟨rfl, rfl⟩
  | cons step _ ih =>
    cases h₂ with
    | cons step' rest' =>
      obtain ⟨rfl, rfl⟩ := step.unique step'
      obtain ⟨rfl, rfl⟩ := ih rest'
      exact ⟨rfl, rfl⟩

/-! ## Putting views into slots -/

/-- Views are put into the first slots only. -/
theorem Handle.getElem?_putViews {place n : Nat} (hn : n ≤ slots.length) (i : Nat) :
    (putViews r place n slots)[i]? =
      if i < n then some (some { reflection := r, index := place + i }) else slots[i]? := by
  induction n generalizing place slots i with
  | zero => simp [putViews]
  | succ n ih =>
    match slots, i with
    | [], _ => simp at hn
    | _ :: slots, 0 => simp [putViews]
    | _ :: slots, i + 1 =>
      have hrest : n ≤ slots.length := by simpa using hn
      rw [putViews, List.getElem?_cons_succ, ih hrest i, List.getElem?_cons_succ]
      simp only [Nat.add_lt_add_iff_right, Nat.add_right_comm place 1 i, Nat.add_assoc]

theorem Handle.length_putViews (place n : Nat) :
    (putViews r place n slots).length = slots.length := by
  induction n generalizing place slots with
  | zero => rfl
  | succ n ih =>
    cases slots with
    | nil => rfl
    | cons _ slots => rw [putViews, List.length_cons, List.length_cons, ih]

theorem Handle.firstViews_putViews (h : r.entryPoints.length ≤ slots.length) :
    FirstViews r slots (putViews r 0 r.entryPoints.length slots) where
  length := length_putViews 0 _
  viewed i hi := by rw [getElem?_putViews h, if_pos hi, Nat.zero_add]
  kept i hi := by rw [getElem?_putViews h, if_neg (by omega)]

/-- Where there are as many slots as entry points, nothing but the views is left. -/
theorem FirstViews.allViews (h : FirstViews r slots s)
    (hlength : slots.length = r.entryPoints.length) : AllViews r (s.filterMap id) := by
  have hs : s =
      (List.range r.entryPoints.length).map fun i => some { reflection := r, index := i } := by
    refine List.ext_getElem? fun i => ?_
    by_cases hi : i < r.entryPoints.length
    · rw [h.viewed i hi, List.getElem?_map, List.getElem?_range hi]
      rfl
    · have := h.length
      rw [List.getElem?_eq_none (by omega), List.getElem?_eq_none (by simpa using hi)]
  have hviews : s.filterMap id =
      (List.range r.entryPoints.length).map fun i => { reflection := r, index := i } := by
    rw [hs, List.filterMap_map, ← List.filterMap_eq_map]
    rfl
  refine ⟨by rw [hviews, List.length_map, List.length_range], fun i hi => ?_⟩
  rw [hviews, List.getElem?_map, List.getElem?_range hi]
  rfl

/-! ## Handles as cells -/

namespace Handle

variable {h : Handle}

theorem isCreated_eq (h : Handle) : h.isCreated = h.held.isSome := by
  unfold isCreated held
  cases h.state <;> rfl

/-- A handle that holds nothing is filled, or its configuration cannot be reflected. -/
theorem result_create_of_none (hh : h.held = none) (c : Config) (visits : Visits) :
    (h.create c visits).result =
      (fun r => { state := .created r }) <$> (c.reflect visits).result := by
  have hempty : h.isCreated = false := by rw [isCreated_eq, hh]; rfl
  unfold create
  rw [hempty, if_neg Bool.false_ne_true, Traced.result_bind]
  rfl

theorem result_create_of_some (hh : h.held = some r) (c : Config) (visits : Visits) :
    (h.create c visits).result = .error (.fault (.invalidArgument .handleInUse)) := by
  have hfull : h.isCreated = true := by rw [isCreated_eq, hh]; rfl
  unfold create
  rw [if_pos hfull]
  rfl

/-- Whatever has been done to a handle, it can be emptied. -/
theorem result_destroy (h : Handle) : h.destroy.result = .ok { state := .destroyed } := by
  unfold destroy
  cases h.isCreated <;> rfl

theorem cellStep_create (configs : String → Config) (h : Handle) (name : String)
    (visits : Visits) :
    CellStep configs h.held (.create name visits) (h.answer configs (.create name visits)).1
      (h.answer configs (.create name visits)).2.held := by
  simp only [answer]
  cases hh : h.held with
  | none =>
    rw [result_create_of_none hh]
    cases hr : ((configs name).reflect visits).result with
    | error e =>
      show CellStep configs none (.create name visits) (.stopped e) h.held
      rw [hh]
      exact .unreflected hr
    | ok r => exact .stored hr
  | some r =>
    rw [result_create_of_some hh]
    show CellStep configs (some r) (.create name visits) _ h.held
    rw [hh]
    exact .refused

theorem cellStep_fill (configs : String → Config) (h : Handle) (slots : Slots) :
    CellStep configs h.held (.fill slots) (.filled (h.fill slots).1 (h.fill slots).2) h.held := by
  simp only [fill, Handle.reflection]
  cases h.held with
  | none => exact .unfilled
  | some r =>
    by_cases hlength : slots.length < r.entryPoints.length
    · simpa [hlength] using CellStep.short hlength
    · have hfits : r.entryPoints.length ≤ slots.length := by omega
      simpa [hlength] using CellStep.filled hfits (firstViews_putViews hfits)

/-- The views are what is left in as many slots as there are entry points. -/
theorem cellStep_views (configs : String → Config) (h : Handle) :
    CellStep configs h.held .views (.viewed h.views) h.held := by
  simp only [views, count, fill, Handle.reflection]
  cases h.held with
  | none => exact .unviewed
  | some r =>
    have hfits : r.entryPoints.length ≤ (List.replicate r.entryPoints.length
        (none : Option EntryPointView)).length :=
      Nat.le_of_eq List.length_replicate.symm
    have hviews := (firstViews_putViews (r := r) hfits).allViews List.length_replicate
    simpa [Bind.bind, Except.bind, Pure.pure, Except.pure] using CellStep.viewed hviews

/-- **One call is answered as on a cell.** -/
theorem cellStep_answer (configs : String → Config) (h : Handle) (call : Call) :
    CellStep configs h.held call (h.answer configs call).1 (h.answer configs call).2.held := by
  cases call with
  | configure name change => exact .configure
  | create name visits => exact cellStep_create configs h name visits
  | destroy =>
    simp only [answer]
    rw [result_destroy]
    exact .destroy
  | isCreated =>
    have hstep : CellStep configs h.held .isCreated (.created h.held.isSome) h.held := .isCreated
    rwa [← isCreated_eq] at hstep
  | reflection => exact .reflection
  | count =>
    simp only [answer, count, Handle.reflection]
    cases h.held with
    | none => exact .uncounted
    | some r => exact .counted
  | fill slots => exact cellStep_fill configs h slots
  | views => exact cellStep_views configs h

/-- **Calls in a row are answered as on a cell**, by one call after the other. -/
theorem cellRun_run (configs : String → Config) (h : Handle) (calls : List Call) :
    CellRun configs h.held calls (h.run configs calls).1 (h.run configs calls).2.held := by
  induction calls generalizing configs h with
  | nil => exact .nil
  | cons call calls ih => exact .cons (cellStep_answer configs h call) (ih _ _)

/-- **A fresh handle behaves as a cell that is none at first**, and as nothing else: its answers to
calls in a row and what it holds afterwards are those of the cell. What is left can be emptied, and
emptying it again changes nothing. -/
theorem run_fresh (configs : String → Config) (calls : List Call) :
    let (answers, h) := run configs {} calls
    CellRun configs none calls answers h.held ∧
      (∀ answers' cell, CellRun configs none calls answers' cell →
        answers' = answers ∧ cell = h.held) ∧
      ∃ h', h.destroy.result = .ok h' ∧ h'.held = none ∧ h'.destroy.result = .ok h' := by
  have hrun := cellRun_run configs {} calls
  exact ⟨hrun, fun _ _ h' => h'.unique hrun, _, result_destroy _, rfl, result_destroy _⟩

end Handle

end

end ShaderReflect
