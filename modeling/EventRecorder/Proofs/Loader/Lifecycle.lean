import EventRecorder.Proofs.Loader.Depot
import EventRecorder.Proofs.Sessions.Restart

/-! # Lifecycles of tracers

Through a loader tracers are loaded and given back one after another, while those who hold a tracer may go on using it.
Whatever happens, the loader has a tracer just when it was loaded last and not given back, calls reach this tracer and
no other, and a tracer that was given back goes through nothing but what its holders do to it. -/

namespace EventRecorder

variable {P : Type}

/-- Whether a call with this answer has loaded a tracer or has given one back. -/
def LoaderCall.turn? : LoaderCall P → Answer → Option Bool
  | load .., .done (.ok _) => some true
  | unload, .done (.ok _) => some false
  | _, _ => none

theorem LoaderCall.turn?_of_action {c : LoaderCall P} {a : Action} (hc : c.action? = some a) (answer : Answer) :
    c.turn? answer = none := by
  cases c with
  | load platform config => cases hc
  | unload => cases hc
  | _ => rfl

/-- What happens to a depot. -/
inductive DepotEvent (P : Type) where
  | call (c : LoaderCall P)
  /-- A holder of the tracer at a place carries out an action on it, with what becomes of its platform before. -/
  | aside (place : Nat) (f : P → P) (a : Action)

namespace DepotEvent

/-- What the event has a holder do to the tracer at place `i`. -/
def asideOn? (i : Nat) : DepotEvent P → Option ((P → P) × Action)
  | .call _ => none
  | .aside j f a => if j = i then some (f, a) else none

end DepotEvent

namespace Depot

variable {d : Depot P} {i : Nat}

/-- A call changes no tracer but the one loaded, and does not load one that was given back. -/
theorem tracers_keep (given : Option (Tracer P)) (l : Loader P) (hi : i < d.tracers.length) (hslot : d.slot ≠ some i) :
    (d.keep given l).tracers[i]? = d.tracers[i]? ∧ i < (d.keep given l).tracers.length ∧
      (d.keep given l).slot ≠ some i := by
  have hput : ∀ j t, d.slot = some j → (d.put j t).tracers[i]? = d.tracers[i]? := fun j t hj =>
    List.getElem?_set_ne fun heq => hslot (hj.trans (congrArg some heq))
  have hlen : ∀ j t, i < (d.put j t).tracers.length := fun j t => lt_of_lt_of_eq hi (List.length_set ..).symm
  obtain ⟨active, journal⟩ := l
  cases hplace : d.slot with
  | none =>
    cases active with
    | none =>
      rw [keep_of_empty hplace]
      exact ⟨rfl, hi, hslot⟩
    | some t =>
      rw [keep_added hplace]
      refine ⟨List.getElem?_append_left hi, ?_, fun heq => ?_⟩
      · exact Nat.lt_of_lt_of_le hi (List.length_append ▸ Nat.le_add_right ..)
      · exact absurd (Option.some.inj heq) (Nat.ne_of_gt hi)
  | some j =>
    cases active with
    | none =>
      rw [keep_cleared hplace]
      refine ⟨?_, ?_, nofun⟩
      · cases given with
        | none => rfl
        | some t => exact hput j t hplace
      · cases given with
        | none => exact hi
        | some t => exact hlen j t
    | some t =>
      rw [keep_of_loaded hplace]
      exact ⟨hput j t hplace, hlen j t, hslot⟩

variable [Platform P]

/-- The depot after an event. -/
def step (d : Depot P) : DepotEvent P → Depot P
  | .call c => (d.perform c).2
  | .aside i f a =>
    { d with
      tracers := d.tracers.modify i fun t => ((t.at (f t.platform)).perform a).2
      slot_lt := by simpa using d.slot_lt }

/-- The depot after some events. -/
def run (d : Depot P) (es : List (DepotEvent P)) : Depot P := es.foldl step d

/-- Whether the event loads a tracer or gives one back. -/
def turn? (d : Depot P) : DepotEvent P → Option Bool
  | .call c => c.turn? (d.perform c).1
  | .aside .. => none

/-- The turns of a run, the last one last. -/
def turns (d : Depot P) : (es : List (DepotEvent P)) → List Bool
  | [] => []
  | e :: es => (d.turn? e).toList ++ (d.step e).turns es

/-! ### The loaded tracer -/

theorem slot_of_action {c : LoaderCall P} {a : Action} (d : Depot P) (hc : c.action? = some a) :
    (d.perform c).2.slot = d.slot := by
  rcases Option.eq_none_or_eq_some d.slot with hslot | ⟨i, hslot⟩
  · cases c with
    | load platform config => cases hc
    | unload => cases hc
    | control code arg => rw [control_of_empty hslot]
    | _ => rw [hook_of_empty hslot hc fun _ _ => nofun]
  · obtain ⟨t, ht⟩ := exists_tracer hslot
    rw [perform_of_loaded hslot ht hc]
    rfl

theorem isSome_slot_perform (d : Depot P) (c : LoaderCall P) :
    (d.perform c).2.slot.isSome = (c.turn? (d.perform c).1).getD d.slot.isSome := by
  have hpassed : ∀ a, c.action? = some a → (d.perform c).2.slot.isSome = (c.turn? (d.perform c).1).getD d.slot.isSome := by
    intro a hc
    rw [LoaderCall.turn?_of_action hc, d.slot_of_action hc]
    rfl
  cases c with
  | load platform config =>
    rcases Option.eq_none_or_eq_some d.slot with hslot | ⟨i, hslot⟩
    · cases hnew : Tracer.ofConfig platform config with
      | error e =>
        rw [load_of_invalid hslot hnew]
        rfl
      | ok t =>
        rw [load_of_valid hslot hnew]
        rfl
    · rw [load_of_loaded hslot]
      rfl
  | unload =>
    rcases Option.eq_none_or_eq_some d.slot with hslot | ⟨i, hslot⟩
    · rw [unload_of_empty hslot]
      rfl
    · obtain ⟨t, ht⟩ := exists_tracer hslot
      rw [unload_of_loaded hslot ht]
      rfl
  | _ => exact hpassed _ rfl

theorem isSome_slot_step (d : Depot P) (e : DepotEvent P) :
    (d.step e).slot.isSome = (d.turn? e).getD d.slot.isSome := by
  cases e with
  | call c => exact d.isSome_slot_perform c
  | aside i f a => rfl

theorem isSome_slot_run (d : Depot P) (es : List (DepotEvent P)) :
    (d.run es).slot.isSome = (d.turns es).getLast?.getD d.slot.isSome := by
  induction es generalizing d with
  | nil => rfl
  | cons e es ih =>
    refine (ih (d.step e)).trans ?_
    rw [isSome_slot_step, turns, List.getLast?_append]
    cases ((d.step e).turns es).getLast? <;> cases d.turn? e <;> rfl

/-! ### Tracers given back -/

theorem tracers_step (e : DepotEvent P) (hi : i < d.tracers.length) (hslot : d.slot ≠ some i) :
    (d.step e).tracers[i]? = d.tracers[i]?.map (·.after (e.asideOn? i).toList) ∧ i < (d.step e).tracers.length ∧
      (d.step e).slot ≠ some i := by
  cases e with
  | call c =>
    obtain ⟨htracer, hrest⟩ := tracers_keep (d.loader.perform c).2.1 (d.loader.perform c).2.2 hi hslot
    exact ⟨htracer.trans Option.map_id'.symm, hrest⟩
  | aside j f a =>
    refine ⟨?_, lt_of_lt_of_eq hi (List.length_modify ..).symm, hslot⟩
    refine (List.getElem?_modify ..).trans ?_
    unfold DepotEvent.asideOn?
    by_cases heq : j = i <;> simp [heq, Tracer.after]

theorem tracers_run (es : List (DepotEvent P)) (hi : i < d.tracers.length) (hslot : d.slot ≠ some i) :
    (d.run es).tracers[i]? = d.tracers[i]?.map (·.after (es.filterMap (·.asideOn? i))) := by
  induction es generalizing d with
  | nil => exact Option.map_id'.symm
  | cons e es ih =>
    obtain ⟨htracer, hi', hslot'⟩ := tracers_step e hi hslot
    refine (ih hi' hslot').trans ?_
    rw [htracer, Option.map_map]
    cases ha : e.asideOn? i with
    | none => rw [List.filterMap_cons_none ha]; rfl
    | some x => rw [List.filterMap_cons_some ha]; rfl

end Depot

/-! ### The whole lifecycle -/

/-- What calls through the loader do to a depot in which tracers were loaded and given back in `turns`. -/
structure Lifecycle [Platform P] (turns : List Bool) (d : Depot P) : Prop where
  loaded_iff : d.loader.isLoaded = true ↔ turns.getLast? = some true
  slot_iff : d.loader.isLoaded = true ↔ d.slot ≠ none
  /-- Callers see the answers and the state of the plain loader. -/
  seen : ∀ c, (d.perform c).1 = (d.loader.perform c).1 ∧ (d.perform c).2.loader = (d.loader.perform c).2.2
  load_valid : ∀ platform config, d.slot = none → config.validate = .ok () → ∃ t,
    Tracer.ofConfig platform config = .ok t ∧
      d.perform (.load platform config) = (.done (.ok ()), { d.add t with journal := .loaded :: d.journal })
  load_invalid : ∀ platform config e, d.slot = none → config.validate = .error e →
    d.perform (.load platform config) = (.done (.error e), d)
  load_refused : ∀ platform config i, d.slot = some i →
    d.perform (.load platform config) = (.done (.error .alreadyLoaded), d)
  unload : ∀ i, d.slot = some i → ∃ t, d.tracers[i]? = some t ∧
    d.perform .unload =
        (.done (.ok ()), { (d.put i t.off).clear with journal := .unloaded t.off.blocksUsed :: d.journal }) ∧
      t.off = { t with tracing := false, journal := t.off.journal }
  unload_refused : d.slot = none → d.perform .unload = (.done (.error .notLoaded), d)
  /-- A tracer that was given back goes through nothing but what its holders do to it. -/
  released : ∀ i < d.tracers.length, d.slot ≠ some i → ∀ es,
    (d.run es).tracers[i]? = d.tracers[i]?.map (·.after (es.filterMap (·.asideOn? i)))
  control_ignored : ∀ code arg, d.slot = none →
    d.perform (.control code arg) = (.number Command.failure, { d with journal := .commandIgnored code :: d.journal })
  hook_ignored : ∀ c a, d.slot = none → c.action? = some a → (∀ code arg, c ≠ .control code arg) →
    d.perform c = (.recorded .dropped, d)
  /-- A call that is no lifecycle call is the action on the loaded tracer. -/
  passed_on : ∀ i c a, d.slot = some i → c.action? = some a → ∃ t, d.tracers[i]? = some t ∧
    d.perform c = ((t.perform a).1, d.put i (t.perform a).2)

open Depot

theorem Tracer.off_eq (t : Tracer P) : t.off = { t with tracing := false, journal := t.off.journal } := by
  unfold off
  split
  · rfl
  · rename_i hoff
    obtain ⟨_, _, _, _, _, _, tracing, _, _, _⟩ := t
    obtain rfl : tracing = false := Bool.eq_false_iff.mpr hoff
    rfl

/-- Whatever becomes of a loader without a tracer and of all tracers loaded through it, their lifecycle is in order. -/
theorem depot_lifecycle [Platform P] (es : List (DepotEvent P)) :
    Lifecycle (Depot.empty.turns es) (Depot.empty.run es) := by
  have hturns := (Depot.empty : Depot P).isSome_slot_run es
  generalize (Depot.empty : Depot P).turns es = turns at hturns ⊢
  generalize (Depot.empty : Depot P).run es = d at hturns ⊢
  refine
    { loaded_iff := ?_
      slot_iff := ?_
      seen := d.loader_perform
      load_valid := fun platform config hslot hvalid => ?_
      load_invalid := fun platform config e hslot hbad => load_of_invalid hslot (Tracer.ofConfig_of_invalid hbad platform)
      load_refused := fun platform config i hslot => load_of_loaded hslot platform config
      unload := fun i hslot => ?_
      unload_refused := unload_of_empty
      released := fun i hi hslot es => tracers_run es hi hslot
      control_ignored := fun code arg hslot => control_of_empty hslot code arg
      hook_ignored := fun c a hslot hc hcontrol => hook_of_empty hslot hc hcontrol
      passed_on := fun i c a hslot hc => ?_ }
  · rw [isLoaded_eq, hturns]
    cases turns.getLast? with
    | none => exact iff_of_false Bool.false_ne_true (Option.some_ne_none true).symm
    | some loaded => exact Option.some_inj.symm
  · rw [isLoaded_eq, Option.isSome_iff_ne_none]
  · have hnew := Tracer.ofConfig_of_valid hvalid platform
    exact ⟨_, hnew, load_of_valid hslot hnew⟩
  · obtain ⟨t, ht⟩ := exists_tracer hslot
    exact ⟨t, ht, unload_of_loaded hslot ht, t.off_eq⟩
  · obtain ⟨t, ht⟩ := exists_tracer hslot
    exact ⟨t, ht, perform_of_loaded hslot ht hc⟩

end EventRecorder
