import Multimethod.Proofs.Hierarchy.Restriction
import Multimethod.Proofs.Hierarchy.Typed
import Multimethod.Proofs.Resolution.Overloads

/-!
# Names of classes

What is registered names classes of the hierarchy: the owners of methods and the members of their
restrictions (`Registry.Known`). So a call on types over these classes is never compared with any other.
-/

namespace Multimethod

open Relation TypeTable

variable {t u : TypeTable}

/-- The class of an owner. -/
def MethodOwner.class? : MethodOwner → Option ClassId
  | free => none
  | instances c | classObject c => some c

namespace MethodTable

variable {h : Hierarchy} {names : NameTable}

theorem resolveOwner_lt {d : Definition} {o : MethodOwner} (ho : resolveOwner h names d = .ok o)
    {c : ClassId} (hc : o.class? = some c) : c.index < h.size := by
  have known {n : Name} {f : ClassId → MethodOwner} (hf : ∀ e, (f e).class? = some e)
      (ho : f <$> h.requireClass names n d.span = .ok o) : c.index < h.size := by
    rcases h.requireClass_spec names d.span n with ⟨e, he, hr⟩ | ⟨e, -, hr⟩
    · rw [hr] at ho
      cases ho
      cases (hf e).symm.trans hc
      exact Hierarchy.find?_lt he
    · rw [hr] at ho
      cases ho
  unfold resolveOwner at ho
  split at ho
  · cases ho
    cases hc
  · exact known (fun _ => rfl) ho
  · exact known (fun _ => rfl) ho

variable (names) in
/-- The types that the restrictions of some parameters stand for are over the classes. -/
theorem resolveParams_over (hsize : 2 ≤ h.size) (ps : List Param) : ∀ {t : TypeTable}, t.WF →
    Settles t (resolveParams h names ps).run
      (Ends (fun rs u => ∀ r ∈ rs, ∀ a ∈ r, u.Has a ∧ h.Over u a) fun _ _ => True) := by
  induction ps with
  | nil => exact fun H => .pure H (by simp [Ends])
  | cons p ps ih =>
    intro t H
    simp only [resolveParams]
    have rest {r : Option TypeId} {u : TypeTable} (hu : u.WF) (hr : ∀ a ∈ r, u.Has a ∧ h.Over u a) :
        Settles u (do return r :: (← resolveParams h names ps) :
          ExceptT TypeError (StateM TypeTable) (List (Option TypeId))).run
          (Ends (fun rs u => ∀ r ∈ rs, ∀ a ∈ r, u.Has a ∧ h.Over u a) fun _ _ => True) := by
      refine (ih hu).bindExcept (fun rs v hv hle hrs => ?_) fun _ _ _ _ h => h
      refine .pure hv fun q hq a ha => ?_
      rcases List.mem_cons.1 hq with rfl | hq
      · obtain ⟨hhas, hover⟩ := hr a ha
        exact ⟨hhas.mono hle, hover.mono hu hhas hle (Nat.le_refl _)⟩
      · exact hrs q hq a ha
    cases p.restriction with
    | none =>
      simp only [pure_bind]
      exact rest H (by simp)
    | some w =>
      simp only [bind_map_left]
      refine (h.resolveRestriction_stands names p.span w H).bindExcept (fun a u hu _ ha => ?_)
        fun _ _ _ _ _ => trivial
      exact rest hu fun b hb => by cases hb; exact ⟨ha.1.1, ha.1.toOver hsize⟩

end MethodTable

namespace Registry

variable {g : Registry} {p q : Registry × TypeTable}

/-- The predefined classes are there, the exact types of all classes are described, and methods have
owners and restrictions over the classes. -/
structure Known (g : Registry) (t : TypeTable) : Prop where
  predefined : 5 ≤ g.hierarchy.size
  exact : g.hierarchy.Typed t
  owners : ∀ m md c, g.methods.get? m = some md → md.owner.class? = some c →
    c.index < g.hierarchy.size
  restrictions : ∀ m md i a, g.methods.get? m = some md → md.declared i = some a →
    g.hierarchy.Over t a

namespace Known

variable {h : Hierarchy}

theorem mono (K : g.Known t) (S : g.Sound t) (hle : t ≤ u) : g.Known u :=
  ⟨K.predefined, K.exact.mono hle, K.owners, fun m md i a hm ha =>
    (K.restrictions m md i a hm ha).mono S.types (S.restrictions m md i a hm ha) hle (Nat.le_refl _)⟩

/-- More classes may be declared. -/
theorem grow (K : g.Known t) (S : g.Sound t) (hle : t ≤ u) (hsize : g.hierarchy.size ≤ h.size)
    (T : h.Typed u) : Known { g with hierarchy := h } u :=
  ⟨K.predefined.trans hsize, T, fun m md c hm hc => Nat.lt_of_lt_of_le (K.owners m md c hm hc) hsize,
    fun m md i a hm ha =>
      (K.restrictions m md i a hm ha).mono S.types (S.restrictions m md i a hm ha) hle hsize⟩

theorem push (K : g.Known t) {m : Method}
    (ho : ∀ c, m.owner.class? = some c → c.index < g.hierarchy.size)
    (hr : ∀ r ∈ m.restrictions, ∀ a ∈ r, g.hierarchy.Over t a) :
    Known { g with methods := g.methods.push m } t := by
  refine ⟨K.predefined, K.exact, fun i md c hi hc => ?_, fun i md j a hi ha => ?_⟩
  · rw [MethodTable.get?_push] at hi
    split at hi
    · cases hi
      exact ho c hc
    · exact K.owners i md c hi hc
  · rw [MethodTable.get?_push] at hi
    split at hi
    · cases hi
      rw [Method.declared, Option.join_eq_some_iff] at ha
      exact hr _ (List.mem_of_getElem? ha) a rfl
    · exact K.restrictions i md j a hi ha

theorem add (K : p.1.Known p.2) (S : p.1.Sound p.2) (d : Definition) :
    (Registry.add p d).1.Known (Registry.add p d).2 := by
  obtain ⟨g, t⟩ := p
  obtain ⟨r, ms, u, hrun⟩ : ∃ r ms u,
    (MethodTable.add g.hierarchy g.names d).run g.methods t = ((r, ms), u) := ⟨_, _, _, rfl⟩
  have K' : g.Known u := K.mono S (MethodTable.le_of_add S.types hrun)
  rw [add_run hrun]
  cases r with
  | error e =>
    obtain rfl := MethodTable.add_error hrun
    exact K'
  | ok m =>
    obtain ⟨-, o, rs, ho, -, hparams, -, rfl⟩ := MethodTable.add_ok hrun
    have hover := (MethodTable.resolveParams_over g.names ((by decide : 2 ≤ 5).trans K.predefined)
      d.params S.types).post
    rw [hparams] at hover
    exact K'.push (fun c hc => MethodTable.resolveOwner_lt ho hc) fun r hr a ha => (hover r hr a ha).2

end Known

theorem Step.known (hs : Step p q) (S : p.1.Sound p.2) (K : p.1.Known p.2) : q.1.Known q.2 := by
  cases hs with
  | intern g t s => exact ⟨K.predefined, K.exact, K.owners, K.restrictions⟩
  | hierarchy hs =>
    exact K.grow S (hs.types_le S.classes) (hs.keeps S.classes).size (hs.typed S.classes K.exact)
  | add p d => exact K.add S d

theorem initial_known {t₀ : TypeTable} (H : t₀.WF) (names : NameTable) :
    (initial names t₀).1.Known (initial names t₀).2 := by
  have hfits := (CoreNames.intern_fits names).2
  have hsize := (Hierarchy.initial_declared H hfits).2.five_le
  have hempty (m : MethodId) : MethodTable.empty.get? m = none := by
    simp [MethodTable.get?, MethodTable.empty]
  unfold initial
  dsimp only
  generalize CoreNames.intern names = r at hsize
  have T : (Hierarchy.initial r.1 t₀).1.Typed (Hierarchy.initial r.1 t₀).2 :=
    Hierarchy.initial_typed H
  exact ⟨hsize, T, fun m md c hm => by simp [hempty] at hm, fun m md i a hm => by simp [hempty] at hm⟩

theorem Reachable.known (hg : g.Reachable t) : g.Known t :=
  hg.induction (P := fun p => p.1.Known p.2) (fun names _ H => initial_known H names)
    fun _ _ hs S K => hs.known S K

/-! ## What resolution meets -/

variable {receiver : Option TypeId} {m : MethodId} {i : Nat} {a : TypeId} {l : List TypeId}

/-- What a type over the classes is split into is over the classes. -/
theorem Parts.overClasses (P : g.Parts t a l u) (F : g.hierarchy.Forest) (H : t.WF) (ha : t.Has a)
    (hover : g.hierarchy.Over t a) : ∀ b ∈ l, g.hierarchy.Over u b := by
  intro b hb n hn c hc
  rw [members_of_isMember (P.isMember H ha hb), List.mem_singleton] at hn
  subst hn
  obtain ⟨k, hk, hp⟩ := (P.shapes _).1 ⟨n, hb, rfl⟩
  generalize hs : t.shape k = s at hp
  generalize u.shape n = s' at hp hc
  cases hp with
  | same => exact hover k hk c (by rwa [hs])
  | @below d e he =>
    obtain ⟨⟨⟩⟩ | ⟨⟨⟩⟩ := hc
    exact F.lt_size_of_mem_descendants (hover k hk d (.inl (by rw [hs]; rfl))) he

theorem Known.over_object (K : g.Known t) (H : t.WF) : g.hierarchy.Over t .object := by
  intro m hm c hc
  have hs := H.shape_object
  rw [members_of_isMember (by rw [hs]; trivial), List.mem_singleton] at hm
  subst hm
  rw [hs] at hc
  obtain ⟨⟨⟩⟩ | ⟨⟨⟩⟩ := hc
  exact (by decide : 0 < 5).trans_le K.predefined

/-- The members of a restriction are over the classes, if the receiver is. -/
theorem Known.over_bound (K : g.Known t) (H : t.WF) (hr : ∀ a ∈ receiver, g.hierarchy.Over t a)
    {ns : List TypeId} (hns : g.bound t receiver m i = some ns) : ∀ n ∈ ns, ∀ c,
      (t.shape n).instanceClass? = some c ∨ t.shape n = .classObject c →
        c.index < g.hierarchy.size := by
  obtain ⟨a, ha, rfl⟩ := Option.map_eq_some_iff.1 hns
  obtain ⟨md, hmd, hda⟩ := Option.bind_eq_some_iff.1 ha
  intro n hn
  rw [Handle.mem_sorted, List.mem_flatMap] at hn
  obtain ⟨k, hk, hn⟩ := hn
  split at hn
  · cases receiver with
    | none => exact K.over_object H n hn
    | some b => exact hr b rfl n hn
  · obtain rfl := List.mem_singleton.1 hn
    exact K.restrictions m md i a hmd hda n hk

end Registry

end Multimethod
