import Multimethod.Proofs.Hierarchy.Grounded
import Multimethod.Proofs.Order.Visit

/-!
# Registering reordered sources

Once the classes of a source are declared, the table describes what it must and no more
(`Hierarchy.Grounded`). This is the table that two sources whose definitions are reordered have in
common: registered, they have found the same (`register_reordered`).
-/

namespace Multimethod

open Inference TypeTable

/-- What the tables that grow from such a one have in common. -/
def Hierarchy.Grounded.ground {h : Hierarchy} {t : TypeTable} (G : h.Grounded t)
    (hfive : 5 ≤ h.size) : Ground where
  table := t
  classes := h.size
  wf := G.wf
  value := by
    have := G.value
    rwa [Nat.max_eq_right hfive] at this
  described := G.described

/-- Reordered definitions are registered alike, and the same ones are rejected. -/
theorem register_reordered (names : NameTable) (source : Source) (limits : Limits)
    {ds : List Definition} (hds : Reordered source.definitions ds) :
    ∃ M : Mirror, (register names source limits).2.1 = M.ctx ∧
      (register names { source with definitions := ds } limits).2.1 = M.other ∧
      M.Pair (register names source limits).2.2
        (register names { source with definitions := ds } limits).2.2 ∧
      (register names source limits).1.Perm
        (register names { source with definitions := ds } limits).1 := by
  have hk := register_prepared names source limits
  have hfive := hk.predefined.five_le
  have hivars := hk.ivars
  obtain ⟨core, names', hc⟩ : ∃ core names', CoreNames.intern names = (core, names') :=
    ⟨_, _, rfl⟩
  have G := (Hierarchy.Grounded.predefined core).declare names' source.classes
  obtain ⟨h₀, t₀, hi⟩ : ∃ h₀ t₀, Hierarchy.initial core .initial = (h₀, t₀) := ⟨_, _, rfl⟩
  rw [hi] at G
  obtain ⟨ces, h, t, hdecl⟩ : ∃ ces h t, h₀.declare names' source.classes t₀ = ((ces, h), t) :=
    ⟨_, _, _, rfl⟩
  rw [hdecl] at G
  dsimp only at G
  have run (ds : List Definition) : register names { source with definitions := ds } limits =
      (ces ++ ((MethodTable.addAll h names' ds).run .empty t).1.1,
        { names := names', core, methods := ((MethodTable.addAll h names' ds).run .empty t).1.2
          terms := source.arena.terms
          main := source.main.map (Arena.termAt source.arena.terms), limits },
        { types := ((MethodTable.addAll h names' ds).run .empty t).2, hierarchy := h }) := by
    unfold register
    simp only [hc, hi, hdecl]
    rfl
  rw [show register names source limits = _ from run source.definitions] at hfive hivars ⊢
  rw [run ds]
  set p := (MethodTable.addAll h names' source.definitions).run .empty t
  have H : (G.ground hfive).Twins t t := ⟨G.wf, G.wf, le_refl t, le_refl t⟩
  have halike := Ground.addAll_alike (Nat.le_refl h.size) names' hds H
  obtain ⟨herrors, hl, hl', hnamed⟩ := halike.post
  have hivar (c : ClassId) (n : Name) : h.ivarType c n = none := by
    simp only [Hierarchy.ivarType, Hierarchy.ivars]
    cases hc : h.get? c with
    | none => simp
    | some i => simp [hivars c i hc]
  refine ⟨{
    ground := G.ground hfive
    ctx := { names := names', core, methods := p.1.2, terms := source.arena.terms
             main := source.main.map (Arena.termAt source.arena.terms), limits }
    methods := ((MethodTable.addAll h names' ds).run .empty t).1.2
    tree := h.tree
    size_tree := h.size_tree }, rfl, rfl, ?_, herrors.append_left ces⟩
  exact {
    twins := halike.twins
    paired := ⟨hl, hl', hnamed⟩
    left_tree := rfl
    right_tree := rfl
    ivars := fun c n => by
      rw [hivar]
      exact .none
    specs := fun s => .none
    pass := rfl
    changed := rfl }

end Multimethod
