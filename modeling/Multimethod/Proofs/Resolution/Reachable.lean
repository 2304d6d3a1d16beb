import Multimethod.Proofs.Hierarchy.Growth
import Multimethod.Proofs.Order.Methods

/-!
# Reachable registries

What calls are resolved by changes when texts are interned, when classes are declared, when types are
described or collected for instance variables, and when definitions are registered (`Registry.Step`).
Whatever is reached in this way has classes that are one tree, a well-formed table in which the
restrictions of all methods are described, and overload sets in the order of registration
(`Registry.Reachable.sound`).
-/

namespace Multimethod

open Relation TypeTable

namespace Registry

variable {g : Registry} {t u : TypeTable}

/-- The registry of the predefined classes, without methods. -/
def initial (names : NameTable) (t : TypeTable) : Registry × TypeTable :=
  let r := CoreNames.intern names
  let s := Hierarchy.initial r.1 t
  ({ names := r.2, core := r.1, hierarchy := s.1, methods := .empty }, s.2)

/-- Declare classes. -/
def declare (ds : List ClassDecl) (p : Registry × TypeTable) : Registry × TypeTable :=
  let r := p.1.hierarchy.declare p.1.names ds p.2
  ({ p.1 with hierarchy := r.1.2 }, r.2)

/-- Register a definition, whether or not that fails. -/
def add (p : Registry × TypeTable) (d : Definition) : Registry × TypeTable :=
  let r := (MethodTable.add p.1.hierarchy p.1.names d).run p.1.methods p.2
  ({ p.1 with methods := r.1.2 }, r.2)

/-- A change to what calls are resolved by. -/
inductive Step : Registry × TypeTable → Registry × TypeTable → Prop where
  | intern (g : Registry) (t : TypeTable) (s : String) :
    Step (g, t) ({ g with names := (NameTable.intern s g.names).2 }, t)
  | hierarchy {g : Registry} {h : Hierarchy} {t u : TypeTable}
    (hs : Hierarchy.Step (g.hierarchy, t) (h, u)) : Step (g, t) ({ g with hierarchy := h }, u)
  | add (p : Registry × TypeTable) (d : Definition) : Step p (Registry.add p d)

/-- What is reached from the predefined classes. -/
def Reachable (g : Registry) (t : TypeTable) : Prop :=
  ∃ names t₀, t₀.Reachable ∧ ReflTransGen Step (initial names t₀) (g, t)

/-! ## What every step keeps -/

/-- One tree of classes, and methods whose restrictions are described and which are listed in the
order of registration. -/
structure Sound (g : Registry) (t : TypeTable) : Prop where
  classes : Hierarchy.Described g.hierarchy t
  restrictions : g.Described t
  listed : g.methods.Listed

namespace Sound

theorem rooted (S : g.Sound t) : g.hierarchy.Rooted := S.classes.rooted

theorem types (S : g.Sound t) : t.WF := S.classes.types

theorem of_classes {names : NameTable} {core : CoreNames} {h : Hierarchy}
    (D : Hierarchy.Described h t) : Sound { names, core, hierarchy := h, methods := .empty } t :=
  ⟨D, fun m md i a hm => by simp [MethodTable.get?, MethodTable.empty] at hm, .empty⟩

theorem mono (S : g.Sound t) (hu : u.WF) (hle : t ≤ u) : g.Sound u :=
  ⟨S.classes.mono hu hle, S.restrictions.mono hle, S.listed⟩

theorem push (S : g.Sound t) {m : Method}
    (hm : List.Forall₂ (MethodTable.Restricts g.hierarchy t) m.definition.params m.restrictions) :
    Sound { g with methods := g.methods.push m } t := by
  refine ⟨S.classes, fun i md j a hi ha => ?_, S.listed.push m⟩
  rw [MethodTable.get?_push] at hi
  split at hi
  · cases hi
    obtain ⟨r, hr, hra⟩ : ∃ r, m.restrictions[j]? = some r ∧ r = some a := by
      simpa [Method.declared, Option.join_eq_some_iff] using ha
    obtain ⟨p, -, hp⟩ := hm.exists_of_mem_right (List.mem_of_getElem? hr)
    exact (hra ▸ hp).has
  · exact S.restrictions i md j a hi ha

theorem add {p : Registry × TypeTable} (S : p.1.Sound p.2) (d : Definition) :
    (Registry.add p d).1.Sound (Registry.add p d).2 := by
  obtain ⟨g, t⟩ := p
  obtain ⟨r, ms, u, hrun, hu, hle, hadded⟩ :=
    MethodTable.add_spec g.hierarchy g.names S.types g.methods d
  have hadd : Registry.add (g, t) d = ({ g with methods := ms }, u) := by
    simp only [Registry.add, hrun]
  rw [hadd]
  cases r with
  | error e =>
    obtain ⟨-, rfl⟩ := hadded
    exact S.mono hu hle
  | ok m =>
    obtain ⟨owner, rs, -, -, hrs, rfl⟩ := hadded
    exact (S.mono hu hle).push hrs

end Sound

theorem Step.sound {p q : Registry × TypeTable} (hs : Step p q) (S : p.1.Sound p.2) :
    q.1.Sound q.2 := by
  cases hs with
  | intern g t s => exact ⟨S.classes, S.restrictions, S.listed⟩
  | hierarchy hs =>
    exact ⟨hs.described S.classes, S.restrictions.mono (hs.types_le S.classes), S.listed⟩
  | add p d => exact S.add d

theorem initial_sound {t₀ : TypeTable} (H : t₀.WF) (names : NameTable) :
    (initial names t₀).1.Sound (initial names t₀).2 := by
  have D := Hierarchy.initial_described H (CoreNames.intern_fits names).2
  simp only [initial]
  exact .of_classes D

/-- What holds at first and is kept by every step holds of whatever is reached. -/
theorem Reachable.induction {P : Registry × TypeTable → Prop} (hg : g.Reachable t)
    (hinitial : ∀ names (t₀ : TypeTable), t₀.WF → P (initial names t₀))
    (hstep : ∀ p q, Step p q → p.1.Sound p.2 → P p → P q) : P (g, t) := by
  obtain ⟨names, t₀, ht₀, hsteps⟩ := hg
  suffices h : ∀ p, ReflTransGen Step (initial names t₀) p → p.1.Sound p.2 ∧ P p from
    (h _ hsteps).2
  intro p hp
  induction hp with
  | refl => exact ⟨initial_sound ht₀.wf names, hinitial names t₀ ht₀.wf⟩
  | tail _ hs ih => exact ⟨hs.sound ih.1, hstep _ _ hs ih.1 ih.2⟩

theorem Reachable.sound (hg : g.Reachable t) : g.Sound t :=
  hg.induction (P := fun p => p.1.Sound p.2) (fun names _ H => initial_sound H names)
    fun _ _ hs S _ => hs.sound S

theorem Reachable.trans {p q : Registry × TypeTable} (hp : p.1.Reachable p.2)
    (hs : ReflTransGen Step p q) : q.1.Reachable q.2 := by
  obtain ⟨names, t₀, ht₀, hsteps⟩ := hp
  exact ⟨names, t₀, ht₀, hsteps.trans hs⟩

/-- More types may be described. -/
theorem Reachable.describe (hg : g.Reachable t) {o : TypeTable.Op} (ho : o.Fits t) :
    g.Reachable (o.run t).2 :=
  Reachable.trans (p := (g, t)) (q := (g, (o.run t).2)) hg (.single (.hierarchy (.describe ho)))

/-! ## Registries with some classes and definitions -/

/-- The registry of some classes and definitions. -/
def load (names : NameTable) (cs : List ClassDecl) (ds : List Definition) : Registry × TypeTable :=
  ds.foldl add (declare cs (initial names .initial))

theorem Step.declare (cs : List ClassDecl) (p : Registry × TypeTable) :
    Step p (Registry.declare cs p) :=
  .hierarchy (.declare p.1.hierarchy p.2 p.1.names cs)

theorem steps_add (ds : List Definition) (p : Registry × TypeTable) :
    ReflTransGen Step p (ds.foldl Registry.add p) := by
  induction ds generalizing p with
  | nil => exact .refl
  | cons d ds ih => exact .head (.add p d) (ih (Registry.add p d))

theorem load_reachable (names : NameTable) (cs : List ClassDecl) (ds : List Definition) :
    (load names cs ds).1.Reachable (load names cs ds).2 :=
  ⟨names, .initial, .refl, .head (.declare cs _) (steps_add ds _)⟩

/-- A definition with a restriction for each parameter. -/
def restricted (n : Name) (owner : Option Owner) (rs : List Restriction) : Definition where
  name := n
  owner := owner
  params := rs.map fun r => ⟨.empty, some r, none, .dummy⟩
  body := ⟨0⟩
  span := .dummy

/-- Some definitions with the name `⟨11⟩`, where `⟨9⟩` is a class and `⟨10⟩` one below it. -/
def family (ds : List (Option Owner × List Restriction)) : Registry × TypeTable :=
  load {} [⟨⟨9⟩, none, .dummy⟩, ⟨⟨10⟩, some ⟨9⟩, .dummy⟩] (ds.map fun d => restricted ⟨11⟩ d.1 d.2)

theorem family_reachable (ds : List (Option Owner × List Restriction)) :
    (family ds).1.Reachable (family ds).2 := load_reachable _ _ _

end Registry

end Multimethod
