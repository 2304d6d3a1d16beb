import Multimethod.Proofs.Resolution.Reachable
import Multimethod.Proofs.Resolution.Resolve

/-!
# Resolution distributes over the parts of a call

A call is resolved by resolving every combination of what its types are split into, in lexicographic
order, and it fails with the first combination that fails (`Registry.resolve_distributes`).
-/

namespace Multimethod

open TypeTable

instance Handle.asymm {k : Kind} : Std.Asymm (· < · : Handle k → Handle k → Prop) :=
  ⟨fun _ _ => Nat.lt_asymm⟩

instance Handle.irrefl {k : Kind} : Std.Irrefl (· < · : Handle k → Handle k → Prop) :=
  ⟨fun _ => Nat.lt_irrefl _⟩

namespace Combination

variable {α : Type}

/-- The combinations of increasing lists come in lexicographic order. -/
theorem pairwise_all [LT α] {ls : List (List α)} (h : ∀ l ∈ ls, l.Pairwise (· < ·)) :
    (all ls).Pairwise (· < ·) := by
  induction ls with
  | nil => exact List.pairwise_singleton _ _
  | cons l ls ih =>
    obtain ⟨hl, hls⟩ := List.forall_mem_cons.1 h
    refine List.pairwise_flatMap.2 ⟨fun a _ => ?_, hl.imp fun {a b} hab c hc d hd => ?_⟩
    · exact List.Pairwise.map _ (fun _ _ hcd => .cons hcd) (ih hls)
    · obtain ⟨c, -, rfl⟩ := List.mem_map.1 hc
      obtain ⟨d, -, rfl⟩ := List.mem_map.1 hd
      exact .rel hab

end Combination

namespace Registry

variable {g : Registry} {t u v : TypeTable} {receiver : Option TypeId} {args : List TypeId}
  {c : Option TypeId × List TypeId} {k : Name} {span : Span}

/-! ## The order of combinations -/

/-- What combinations are ordered by: the receiver, then the arguments from left to right. -/
def key (c : Option TypeId × List TypeId) : List TypeId := c.1.toList ++ c.2

namespace CallParts

variable (P : g.CallParts t receiver args v)
include P

/-- The combinations of a call come in lexicographic order. -/
theorem pairwise_key : ((g.callParts v receiver args).map key).Pairwise (· < ·) := by
  have hargs : (Combination.all (args.map (g.parts v))).Pairwise (· < ·) := by
    refine Combination.pairwise_all fun l hl => ?_
    obtain ⟨a, ha, rfl⟩ := List.mem_map.1 hl
    exact (P.ofArgs a ha).increasing
  cases receiver with
  | none =>
    simpa only [callParts, receiverParts, List.flatMap_singleton, List.map_map,
      Function.comp_def, key, Option.toList_none, List.nil_append, List.map_id'] using hargs
  | some a =>
    have hreceiver := (P.ofReceiver a rfl).increasing
    have hkeys : (g.callParts v (some a) args).map key =
        Combination.all (g.parts v a :: args.map (g.parts v)) := by
      simp only [callParts, receiverParts, Combination.all, List.flatMap_map, List.map_flatMap,
        List.map_map, Function.comp_def, key, Option.toList_some, List.cons_append,
        List.nil_append]
    rw [hkeys]
    refine Combination.pairwise_all fun l hl => ?_
    rcases List.mem_cons.1 hl with rfl | hl
    · exact hreceiver
    · obtain ⟨b, hb, rfl⟩ := List.mem_map.1 hl
      exact (P.ofArgs b hb).increasing

/-- There is nothing to resolve just if the receiver or an argument has no value. -/
theorem callParts_eq_nil (hsize : 0 < g.hierarchy.size) (H : t.WF) (hr : ∀ a ∈ receiver, t.Has a)
    (ha : ∀ a ∈ args, t.Has a) :
    g.callParts v receiver args = [] ↔ receiver = some .never ∨ .never ∈ args := by
  have hargs : Combination.all (args.map (g.parts v)) = [] ↔ .never ∈ args := by
    rw [Combination.all_eq_nil_iff, List.mem_map]
    constructor
    · rintro ⟨a, hm, hnil⟩
      exact ((P.ofArgs a hm).eq_nil_iff hsize H (ha a hm)).1 hnil ▸ hm
    · intro hm
      exact ⟨.never, hm, ((P.ofArgs .never hm).eq_nil_iff hsize H (ha .never hm)).2 rfl⟩
  rw [callParts, List.flatMap_map_eq_nil, hargs]
  cases receiver with
  | none => simp [receiverParts]
  | some a =>
    rw [receiverParts, List.map_eq_nil_iff, (P.ofReceiver a rfl).eq_nil_iff hsize H (hr a rfl),
      Option.some_inj]

end CallParts

/-! ## What resolving a call comes to -/

/-- The combination has a target. -/
def HasTarget (g : Registry) (t : TypeTable) (k : Name) (c : Option TypeId × List TypeId) : Prop :=
  ∃ target, (g.pick k c.1 c.2 t).1 = .ok target

theorem Picks.hasTarget (H : t.WF) {target : Target} (h : g.Picks t k c.1 c.2 target) :
    g.HasTarget t k c :=
  ⟨target, congrArg Prod.fst (h t H (le_refl t))⟩

theorem Misses.not_hasTarget (H : t.WF) (h : g.Misses t k c.1 c.2) : ¬ g.HasTarget t k c := by
  rintro ⟨target, ht⟩
  obtain ⟨fitting, hf⟩ := h t H (le_refl t)
  rw [hf] at ht
  cases ht

/-- What resolving a call on types of `t` comes to, `v` being a later table. -/
structure Distributes (g : Registry) (t : TypeTable) (k : Name) (receiver : Option TypeId)
    (args : List TypeId) (span : Span) (r : Except TypeError Resolution) (v : TypeTable) :
    Prop where
  /-- The types of the call are split into their members, one that takes in the classes below it
  into the exact types of these. -/
  parts : g.CallParts t receiver args v
  succeeds : (∃ es, r = .ok es) ↔ ∀ c, g.IsCombination v receiver args c → g.HasTarget v k c
  entries : ∀ es, r = .ok es →
    ∀ c, g.IsCombination v receiver args c ↔ ∃ e ∈ es, (e.receiver, e.args) = c
  /-- The receiver varies slowest and the last argument fastest. -/
  increasing : ∀ es, r = .ok es → (es.map fun e => key (e.receiver, e.args)).Pairwise (· < ·)
  /-- An entry has the target of its combination, which resolved alone has just this entry. -/
  targets : ∀ es, r = .ok es → ∀ e ∈ es, (g.pick k e.receiver e.args v).1 = .ok e.target ∧
    ∀ s, ((g.resolve k e.receiver e.args s).run v).1 = .ok [e]
  unreached : r = .ok [] ↔ receiver = some .never ∨ .never ∈ args
  /-- The error is that of the first combination without a target. -/
  fails : ∀ e, r = .error e → ∃ c, g.IsCombination v receiver args c ∧ ¬ g.HasTarget v k c ∧
    (∀ b, g.IsCombination v receiver args b → key b < key c → g.HasTarget v k b) ∧
    ((g.resolveOne k args span c.1 c.2).run v).1 = .error e

theorem Goes.distributes (H : t.WF) (hsize : 0 < g.hierarchy.size) (hr : ∀ a ∈ receiver, t.Has a)
    (ha : ∀ a ∈ args, t.Has a) (hv : v.WF) (D : g.Described v) (P : g.CallParts t receiver args v)
    {r : Except TypeError Resolution}
    (h : g.Goes k args span (g.callParts v receiver args) r v) :
    g.Distributes t k receiver args span r v := by
  have hincreasing := P.pairwise_key
  have hnil := P.callParts_eq_nil hsize H hr ha
  have hmem (c) : g.IsCombination v receiver args c ↔ c ∈ g.callParts v receiver args :=
    mem_callParts.symm
  cases r with
  | ok es =>
    have hes : List.Forall₂ (fun c e => g.Enters k c.1 c.2 e v) (g.callParts v receiver args) es := h
    have hcs : es.map (fun e => (e.receiver, e.args)) = g.callParts v receiver args := by
      rw [← List.forall₂_eq_eq_eq, List.forall₂_map_left_iff]
      exact hes.flip.imp fun e c h => Prod.ext h.1 h.2.1
    refine ⟨P, iff_of_true ⟨es, rfl⟩ fun c hc => ?_, ?_, ?_, ?_, ?_, nofun⟩
    · obtain ⟨e, -, -, -, hp, -⟩ := hes.exists_of_mem_left ((hmem c).1 hc)
      exact hp.hasTarget hv
    · rintro _ ⟨⟩ c
      rw [hmem, ← hcs, List.mem_map]
    · rintro _ ⟨⟩
      rw [← hcs, List.map_map] at hincreasing
      exact hincreasing
    · rintro _ ⟨⟩ e he
      obtain ⟨⟨r, c⟩, hc, hreceiver, hargs, hp, -⟩ := hes.exists_of_mem_right he
      subst hreceiver hargs
      have hsplits := P.splits H hr ha ((hmem _).2 hc)
      exact ⟨congrArg Prod.fst (hp v hv (le_refl v)),
        resolve_of_picks hv D hsplits.1 hsplits.2 hp⟩
    · rw [← hnil, ← hcs, List.map_eq_nil_iff, Except.ok.injEq]
  | error e =>
    obtain ⟨l₁, c, l₂, hcs, hbefore, hmiss, -, hfail⟩ := h
    have hc : g.IsCombination v receiver args c := (hmem c).2 (by simp [hcs])
    refine ⟨P, iff_of_false nofun fun hall => hmiss.not_hasTarget hv (hall c hc), nofun, nofun,
      nofun, iff_of_false nofun fun hnever => ?_, ?_⟩
    · rw [hnil.2 hnever] at hcs
      simp at hcs
    · rintro _ ⟨⟩
      refine ⟨c, hc, hmiss.not_hasTarget hv, fun b hb hlt => ?_,
        congrArg Prod.fst (hfail v hv (le_refl v))⟩
      -- What comes after `c` has a greater key.
      rw [hcs, List.map_append, List.map_cons, List.pairwise_append, List.pairwise_cons]
        at hincreasing
      rw [hmem, hcs, List.mem_append, List.mem_cons] at hb
      rcases hb with hb | rfl | hb
      · obtain ⟨e, -, -, hp, -⟩ := hbefore b hb
        exact hp.hasTarget hv
      · exact absurd hlt (List.lt_irrefl _)
      · have hgt := hincreasing.2.1.1 (key b) (List.mem_map.2 ⟨b, hb, rfl⟩)
        exact absurd hlt (List.lt_asymm hgt)

/-- A call is resolved combination by combination, with the same result however the table grows
later. -/
theorem resolve_distributes (hg : g.Reachable t) (k : Name) (hr : ∀ a ∈ receiver, t.Has a)
    (ha : ∀ a ∈ args, t.Has a) (span : Span)
    (hv : Later ((g.resolve k receiver args span).run t).2 v) :
    g.Distributes t k receiver args span ((g.resolve k receiver args span).run t).1 v := by
  have S := hg.sound
  have hs := resolve_goes S.types S.restrictions hr ha k span
  obtain ⟨hwf, hle⟩ := hv.grows hs.wf
  obtain ⟨P, hgoes⟩ := hs.post v hwf hle
  exact hgoes.distributes S.types S.rooted.nonempty hr ha hwf
    (S.restrictions.mono (le_trans hs.le hle)) P

/-- A function on a number or on an object, and one on numbers. -/
def unionOrInt : Registry × TypeTable :=
  family [(none, [.union [.named ⟨7⟩, .named ⟨9⟩]]), (none, [.named ⟨7⟩])]

/-- An argument of either kind goes to both: the combination of the number comes first. -/
theorem resolve_distributes_union :
    let run := (unionOrInt.1.resolve ⟨11⟩ none [⟨16⟩] .dummy).run unionOrInt.2
    unionOrInt.1.Reachable unionOrInt.2 ∧ unionOrInt.2.shape ⟨16⟩ = .union [.int, ⟨12⟩] ∧
      run.1 = .ok [⟨none, [.int], .method ⟨1⟩⟩, ⟨none, [⟨12⟩], .method ⟨0⟩⟩] ∧
      unionOrInt.1.Distributes unionOrInt.2 ⟨11⟩ none [⟨16⟩] .dummy run.1 run.2 :=
  ⟨family_reachable _, by decide +kernel, by decide +kernel,
    resolve_distributes (family_reachable _) ⟨11⟩ (by simp) (by decide +kernel) .dummy .refl⟩

end Registry

end Multimethod
