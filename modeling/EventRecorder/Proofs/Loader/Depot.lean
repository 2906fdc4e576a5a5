import EventRecorder.Action
import EventRecorder.Loader

/-! # Tracers that outlive their loader

A tracer given to a loader is shared: its holders may use it while it is loaded and after it was given back. A depot
keeps all tracers that were ever loaded, and the loader refers to one of them by its place. A call through the loader is
carried out on the loader that a depot amounts to, and what becomes of its tracer is kept at the tracer's place. -/

namespace EventRecorder

variable {P : Type}

/-- A call through a loader. -/
inductive LoaderCall (P : Type) where
  | load (platform : P) (config : Config)
  | unload
  | control (code arg : UInt64)
  | traceEvent (event arg : UInt64)
  | traceSample (event pc : UInt64)
  | traceWords (event : UInt64) (words : List UInt64)
  | traceName (pid : UInt32) (name : TaskName)

namespace LoaderCall

/-- The action on the loaded tracer that the call stands for. -/
def action? : LoaderCall P → Option Action
  | load .. | unload => none
  | control code arg => some (.control code arg)
  | traceEvent event arg => some (.traceEvent event arg)
  | traceSample event pc => some (.traceSample event pc)
  | traceWords event words => some (.traceWords event words)
  | traceName pid name => some (.traceName pid name)

end LoaderCall

/-- Carries out a call. Tells its answer and the tracer given back, if one is. -/
def Loader.perform [Platform P] (l : Loader P) : LoaderCall P → Answer × Option (Tracer P) × Loader P
  | .load platform config => let (r, l) := l.load platform config; (.done r, none, l)
  | .unload =>
    match l.unload with
    | (.ok t, l) => (.done (.ok ()), some t, l)
    | (.error e, l) => (.done (.error e), none, l)
  | .control code arg => let (n, l) := l.control code arg; (.number n, none, l)
  | .traceEvent event arg => let (o, l) := l.traceEvent event arg; (.recorded o, none, l)
  | .traceSample event pc => let (o, l) := l.traceSample event pc; (.recorded o, none, l)
  | .traceWords event words => let (o, l) := l.traceWords event words; (.recorded o, none, l)
  | .traceName pid name => let (o, l) := l.traceName pid name; (.recorded o, none, l)

/-- All tracers ever loaded, with a loader that refers to one of them or to none. -/
structure Depot (P : Type) where
  /-- The tracers, the one loaded first at place 0. -/
  tracers : List (Tracer P)
  /-- The place of the loaded tracer. -/
  slot : Option Nat
  /-- The notices of the loader. -/
  journal : List Notice
  slot_lt : ∀ i, slot = some i → i < tracers.length

namespace Depot

/-- The depot of a loader through which no tracer was loaded yet. -/
def empty : Depot P := ⟨[], none, [], by simp⟩

/-- The loader as its callers see it. -/
def loader (d : Depot P) : Loader P := ⟨d.slot.bind (d.tracers[·]?), d.journal⟩

/-- The depot with another state of the tracer at a place. -/
def put (d : Depot P) (i : Nat) (t : Tracer P) : Depot P :=
  { d with tracers := d.tracers.set i t, slot_lt := by simpa using d.slot_lt }

/-- The depot once a tracer is loaded. -/
def add (d : Depot P) (t : Tracer P) : Depot P :=
  { d with tracers := d.tracers ++ [t], slot := some d.tracers.length, slot_lt := by simp }

/-- The depot once no tracer is loaded. -/
def clear (d : Depot P) : Depot P := { d with slot := none, slot_lt := by simp }

/-- The depot once a call has left `l` behind and has given back `given`. -/
def keep (d : Depot P) (given : Option (Tracer P)) (l : Loader P) : Depot P :=
  let d := match d.slot, l.active with
    | some i, some t => d.put i t
    | some i, none => (given.elim d (d.put i)).clear
    | none, some t => d.add t
    | none, none => d
  { d with journal := l.journal }

variable {d : Depot P} {i : Nat} {t : Tracer P} {given : Option (Tracer P)} {journal : List Notice}

theorem exists_tracer (h : d.slot = some i) : ∃ t, d.tracers[i]? = some t :=
  ⟨_, List.getElem?_eq_getElem (d.slot_lt i h)⟩

theorem loader_of_empty (h : d.slot = none) : d.loader = ⟨none, d.journal⟩ := by
  unfold loader
  rw [h]
  rfl

theorem loader_of_loaded (h : d.slot = some i) (ht : d.tracers[i]? = some t) : d.loader = ⟨some t, d.journal⟩ := by
  unfold loader
  rw [h, Option.bind_some, ht]

theorem isLoaded_eq (d : Depot P) : d.loader.isLoaded = d.slot.isSome := by
  cases hslot : d.slot with
  | none =>
    rw [loader_of_empty hslot]
    rfl
  | some i =>
    obtain ⟨t, ht⟩ := exists_tracer hslot
    rw [loader_of_loaded hslot ht]
    rfl

theorem keep_of_empty (h : d.slot = none) : d.keep given ⟨none, journal⟩ = { d with journal } := by
  obtain ⟨tracers, slot, _, _⟩ := d
  obtain rfl : slot = none := h
  rfl

theorem keep_added (h : d.slot = none) : d.keep given ⟨some t, journal⟩ = { d.add t with journal } := by
  obtain ⟨tracers, slot, _, _⟩ := d
  obtain rfl : slot = none := h
  rfl

theorem keep_of_loaded (h : d.slot = some i) : d.keep given ⟨some t, journal⟩ = { d.put i t with journal } := by
  obtain ⟨tracers, slot, _, _⟩ := d
  obtain rfl : slot = some i := h
  rfl

theorem keep_cleared (h : d.slot = some i) :
    d.keep given ⟨none, journal⟩ = { (given.elim d (d.put i)).clear with journal } := by
  obtain ⟨tracers, slot, _, _⟩ := d
  obtain rfl : slot = some i := h
  rfl

theorem put_self (ht : d.tracers[i]? = some t) : d.put i t = d := by
  obtain ⟨hi, rfl⟩ := List.getElem?_eq_some_iff.mp ht
  obtain ⟨tracers, slot, _, _⟩ := d
  unfold put
  simp only [List.set_getElem_self]

/-- What a call has left behind is what the callers see from then on. -/
theorem loader_keep (d : Depot P) (given : Option (Tracer P)) (l : Loader P) : (d.keep given l).loader = l := by
  obtain ⟨active, journal⟩ := l
  cases hslot : d.slot with
  | none =>
    cases active with
    | none =>
      rw [keep_of_empty hslot]
      exact loader_of_empty hslot
    | some t =>
      rw [keep_added hslot]
      exact loader_of_loaded rfl List.getElem?_concat_length
  | some i =>
    cases active with
    | none =>
      rw [keep_cleared hslot]
      exact loader_of_empty rfl
    | some t =>
      rw [keep_of_loaded hslot]
      exact loader_of_loaded hslot (List.getElem?_set_self (d.slot_lt i hslot))

/-! ### Calls -/

variable [Platform P] {c : LoaderCall P} {a : Action} {platform : P} {config : Config}

/-- Carries out a call through the loader. -/
def perform (d : Depot P) (c : LoaderCall P) : Answer × Depot P :=
  let (answer, given, l) := d.loader.perform c
  (answer, d.keep given l)

/-- Callers cannot tell a depot from its loader. -/
theorem loader_perform (d : Depot P) (c : LoaderCall P) :
    (d.perform c).1 = (d.loader.perform c).1 ∧ (d.perform c).2.loader = (d.loader.perform c).2.2 :=
  ⟨rfl, d.loader_keep _ _⟩

theorem load_of_loaded (h : d.slot = some i) (platform : P) (config : Config) :
    d.perform (.load platform config) = (.done (.error .alreadyLoaded), d) := by
  obtain ⟨t, ht⟩ := exists_tracer h
  unfold perform
  rw [loader_of_loaded h ht]
  refine congrArg (Prod.mk _) ((keep_of_loaded h).trans ?_)
  rw [put_self ht]

theorem load_of_invalid {e : Error} (h : d.slot = none) (hbad : Tracer.ofConfig platform config = .error e) :
    d.perform (.load platform config) = (.done (.error e), d) := by
  unfold perform Loader.perform Loader.load
  rw [loader_of_empty h]
  dsimp only
  rw [hbad]
  exact congrArg (Prod.mk _) (keep_of_empty h)

theorem load_of_valid (h : d.slot = none) (hnew : Tracer.ofConfig platform config = .ok t) :
    d.perform (.load platform config) = (.done (.ok ()), { d.add t with journal := .loaded :: d.journal }) := by
  unfold perform Loader.perform Loader.load
  rw [loader_of_empty h]
  dsimp only
  rw [hnew]
  exact congrArg (Prod.mk _) (keep_added h)

theorem unload_of_empty (h : d.slot = none) : d.perform .unload = (.done (.error .notLoaded), d) := by
  unfold perform
  rw [loader_of_empty h]
  exact congrArg (Prod.mk _) (keep_of_empty h)

/-- The tracer given back is the one loaded, turned off. -/
theorem unload_of_loaded (h : d.slot = some i) (ht : d.tracers[i]? = some t) :
    d.perform .unload =
      (.done (.ok ()), { (d.put i t.off).clear with journal := .unloaded t.off.blocksUsed :: d.journal }) := by
  unfold perform
  rw [loader_of_loaded h ht]
  exact congrArg (Prod.mk _) (keep_cleared h)

/-- A call passed on acts on the loaded tracer as its action does, and on nothing else. -/
theorem perform_of_loaded (h : d.slot = some i) (ht : d.tracers[i]? = some t) (hc : c.action? = some a) :
    d.perform c = ((t.perform a).1, d.put i (t.perform a).2) := by
  unfold perform
  rw [loader_of_loaded h ht]
  cases c with
  | load platform config => cases hc
  | unload => cases hc
  | _ =>
    obtain rfl := Option.some.inj hc
    exact congrArg (Prod.mk _) (keep_of_loaded h)

/-- Without a tracer a command fails, and nothing but a notice comes of it. -/
theorem control_of_empty (h : d.slot = none) (code arg : UInt64) :
    d.perform (.control code arg) = (.number Command.failure, { d with journal := .commandIgnored code :: d.journal }) := by
  unfold perform
  rw [loader_of_empty h]
  exact congrArg (Prod.mk _) (keep_of_empty h)

/-- Without a tracer a hook does nothing. -/
theorem hook_of_empty (h : d.slot = none) (hc : c.action? = some a) (hcontrol : ∀ code arg, c ≠ .control code arg) :
    d.perform c = (.recorded .dropped, d) := by
  unfold perform
  rw [loader_of_empty h]
  cases c with
  | load platform config => cases hc
  | unload => cases hc
  | control code arg => exact absurd rfl (hcontrol code arg)
  | _ => exact congrArg (Prod.mk _) (keep_of_empty h)

end Depot

end EventRecorder
